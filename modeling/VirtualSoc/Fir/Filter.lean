import VirtualSoc.Fir.Adder
import VirtualSoc.Lib.Convolution

/-!
# The filter (fir/include/fir/fir.h, fir/include/fir/fir.hpp)

`compute_fir` is a method of a SystemC module: it reads its signals as they were before the activation, and
what it writes is read at the next. So a sample goes through the shift register, the products, the levels of the
adder and the output register, one of them an activation.

* `compute_fir_law`: what is at `io.y` after each activation;
* `init_coefficient_iff`: in which modes and for which sizes `init_coefficient` loads the vector.
-/

namespace VirtualSoc.Fir

open Convolution

/-! ## `compute_fir` -/

/-- The signals of `fir<size>`. -/
structure State where
  x : Word
  shift_register : Signals
  prod : Signals
  adder : List Signals
  y : Word

/-- All signals are 0. -/
def zero (size : Nat) : State where
  x := 0
  shift_register := List.replicate size 0
  prod := List.replicate size 0
  adder := levels size
  y := 0

/-- Shifting (fir.hpp:18). -/
def shift (size : Nat) (x : Word) (shift_register : Signals) : Option Signals := do
  let r ← (List.range (size - 1)).foldlM (fun (r : Signals) i => do r.write (1 + i) (← shift_register[i]?)) shift_register
  r.write 0 x

/-- `shift_register[i].read() * coeff.read(i)`. -/
def prodAt (coeff : List Word) (shift_register : Signals) (i : Nat) : Option Word := do
  some ((← shift_register[i]?) * (← coeff[i]?))

/-- Product (fir.hpp:26). -/
def product (size : Nat) (coeff : List Word) (shift_register prod : Signals) : Option Signals :=
  (List.range size).foldlM (fun (p : Signals) i => do p.write i (← prodAt coeff shift_register i)) prod

/-- `compute_fir` (fir.hpp:16). -/
def computeFir (size : Nat) (coeff : List Word) (s : State) : Option State := do
  let shift_register ← shift size s.x s.shift_register
  let prod ← product size coeff s.shift_register s.prod
  let adder ← compute size s.prod s.adder
  let top ← s.adder[getLevelNumber size - 1]?
  some { x := s.x, shift_register, prod, adder, y := ← top[0]? }

/-- The state after `t` activations; at the `j`-th the input is `x j`. -/
def activations (size : Nat) (coeff : List Word) (x : Nat → Word) : Nat → Option State
  | 0 => some (zero size)
  | t + 1 => (activations size coeff x t).bind fun s => computeFir size coeff { s with x := x (t + 1) }

section Law

variable {size n t : Nat} {coeff : List Word} {x : Nat → Word}

/-- The last samples before the `n`-th, the most recent first. -/
def window (size : Nat) (x : Nat → Word) (n : Int) : Signals := (List.range size).map fun i : Nat => since 1 x (n - i)

/-- The products of the coefficients and the last samples. -/
def products (coeff : List Word) (x : Nat → Word) (n : Int) : Signals :=
  (List.range coeff.length).map fun i : Nat => coeff.getD i 0 * since 1 x (n - i)

theorem length_window (n : Int) : (window size x n).length = size := by
  rw [window, List.length_map, List.length_range]

theorem length_products (n : Int) : (products coeff x n).length = coeff.length := by
  rw [products, List.length_map, List.length_range]

theorem getElem?_window {i : Nat} (hi : i < size) (n : Int) : (window size x n)[i]? = some (since 1 x (n - i)) := by
  rw [window, List.getElem?_map, List.getElem?_range hi]
  rfl

theorem sum_products (n : Int) : (products coeff x n).sum = conv coeff (since 1 x) n :=
  (conv_eq_list_sum coeff (since 1 x) n).symm

theorem shift_window (hsize : 1 ≤ size) (t : Nat) :
    shift size (x (t + 1)) (window size x t) = some (window size x (t + 1)) := by
  obtain ⟨n, rfl⟩ : ∃ n, size = n + 1 := ⟨size - 1, (Nat.sub_add_cancel hsize).symm⟩
  have hread : ∀ i < n, (window (n + 1) x t)[i]? = some (since 1 x (t - i)) :=
    fun i hi => getElem?_window (Nat.lt_succ_of_lt hi) t
  have hdrop : (window (n + 1) x t).drop (1 + n) = [] :=
    List.drop_of_length_le (by rw [length_window, Nat.add_comm])
  rw [shift, Nat.add_sub_cancel, List.write_loop hread (by rw [length_window, Nat.add_comm]), Option.bind_eq_bind,
    Option.bind_some, hdrop, List.append_nil]
  unfold window
  rw [List.range_succ_eq_map]
  simp only [List.map_cons, List.take_succ_cons, List.take_zero, List.singleton_append,
    List.write, List.length_cons, Nat.zero_lt_succ, if_true, List.set_cons_zero, List.map_map]
  congr 2
  · rw [since_of_le (by omega)]
    simp
  · refine List.map_congr_left fun i _ => ?_
    simp

theorem product_window (hsize : coeff.length = size) {prod : Signals} (hprod : prod.length = size) (n : Int) :
    product size coeff (window size x n) prod = some (products coeff x n) := by
  have hread : ∀ i < size, prodAt coeff (window size x n) i = some (coeff.getD i 0 * since 1 x (n - i)) := by
    intro i hi
    rw [prodAt, getElem?_window hi]
    simp [List.getElem?_eq_getElem (hsize ▸ hi), BitVec.mul_comm]
  rw [product, List.write_fill hread hprod, products, hsize]

/-- The stages after `t` activations. -/
structure Pipeline (size : Nat) (coeff : List Word) (x : Nat → Word) (t : Nat) (s : State) : Prop where
  shift_register : s.shift_register = window size x t
  prod : s.prod = products coeff x (t - 1)
  adder : calls size (fun k => products coeff x (k - 2)) t = some s.adder
  y : s.y = conv coeff (since 1 x) (t - 2 - getLevelNumber size)

theorem window_zero : window size x 0 = List.replicate size 0 := by
  refine List.eq_replicate_iff.2 ⟨length_window 0, fun v hv => ?_⟩
  obtain ⟨i, -, rfl⟩ := List.mem_map.1 hv
  exact since_of_lt (by omega)

theorem products_neg_one : products coeff x (-1) = List.replicate coeff.length 0 := by
  refine List.eq_replicate_iff.2 ⟨length_products (-1), fun v hv => ?_⟩
  obtain ⟨i, -, rfl⟩ := List.mem_map.1 hv
  rw [since_of_lt (by omega), mul_zero]

theorem pipeline_zero (hsize : coeff.length = size) : Pipeline size coeff x 0 (zero size) where
  shift_register := window_zero.symm
  prod := by
    subst hsize
    exact products_neg_one.symm
  adder := rfl
  y := (conv_since_of_lt (by omega)).symm

/-- **One activation**: each stage takes over what the stage before had. -/
theorem Pipeline.computeFir (h2 : 2 ≤ size) (hsize : coeff.length = size) {s : State} (h : Pipeline size coeff x t s) :
    ∃ s', computeFir size coeff { s with x := x (t + 1) } = some s' ∧ Pipeline size coeff x (t + 1) s' := by
  have hoperands : ∀ k : Nat, (products coeff x (k - 2)).length = size := fun k => (length_products _).trans hsize
  obtain ⟨ls, hcalls, hshaped, htop⟩ := calls_top h2 hoperands t
  obtain rfl : ls = s.adder := Option.some.inj (hcalls.symm.trans h.adder)
  obtain ⟨adder, hadder, -⟩ := compute_shaped h2 (hoperands (t + 1)) hshaped
  have hprod : s.prod = products coeff x ((t + 1 : Nat) - 2) := by
    rw [h.prod, show ((t + 1 : Nat) : Int) - 2 = t - 1 by omega]
  have hproduct : product size coeff (window size x t) s.prod = some (products coeff x t) :=
    product_window hsize (by rw [h.prod, length_products, hsize]) t
  rw [hprod] at hproduct
  refine ⟨⟨x (t + 1), window size x (t + 1), products coeff x t, adder,
    if getLevelNumber size ≤ t then (products coeff x ((t + 1 - getLevelNumber size : Nat) - 2)).sum else 0⟩, ?_, ?_⟩
  · simp only [Fir.computeFir, h.shift_register, shift_window (Nat.le_of_succ_le h2) t, hproduct, hprod,
      hadder, htop, Option.bind_eq_bind, Option.bind_some]
    rfl
  · refine ⟨rfl, ?_, ?_, ?_⟩
    · simp
    · rw [calls, hcalls, Option.bind_some, hadder]
    · -- the top of the adder is what went in a level number of activations before
      dsimp only
      by_cases ht : getLevelNumber size ≤ t
      · rw [if_pos ht, sum_products]
        congr 1
        omega
      · rw [if_neg ht, conv_since_of_lt (by omega)]

theorem activations_pipeline (h2 : 2 ≤ size) (hsize : coeff.length = size) (x : Nat → Word) (t : Nat) :
    ∃ s, activations size coeff x t = some s ∧ Pipeline size coeff x t s := by
  induction t with
  | zero => exact ⟨_, rfl, pipeline_zero hsize⟩
  | succ t ih =>
    obtain ⟨s, hs, hp⟩ := ih
    obtain ⟨s', hs', hp'⟩ := hp.computeFir h2 hsize
    refine ⟨s', ?_, hp'⟩
    rw [activations, hs, Option.bind_some, hs']

/-- **The law of the activations.** -/
theorem compute_fir_law (h2 : 2 ≤ size) (hsize : coeff.length = size) (x : Nat → Word) (t : Nat) :
    ∃ s, activations size coeff x t = some s ∧ s.y = conv coeff (since 1 x) (t - 2 - getLevelNumber size) := by
  obtain ⟨s, hs, hp⟩ := activations_pipeline h2 hsize x t
  exact ⟨s, hs, hp.y⟩

/-- Two coefficients, and the number of the activation at the input. -/
theorem compute_fir_law_two : ∃ s, activations 2 [10, 1] (BitVec.ofNat 32) 5 = some s ∧ s.y = 21 := by
  have hnumber : getLevelNumber 2 = 1 := getLevelNumber_of_le (by decide)
  have hsize : ([10, 1] : List Word).length = 2 := rfl
  obtain ⟨s, hs, hy⟩ := compute_fir_law (by decide) hsize (BitVec.ofNat 32) 5
  refine ⟨s, hs, hy.trans ?_⟩
  rw [hnumber]
  decide

end Law

/-! ## Coefficients -/

section Coefficients

/-- The specialisations of `fir_coefficient` (fir.h:27): an array of `int`, of input ports, of signals. -/
inductive Mode
  | static
  | dynamic
  | dynamicEmbedded
  deriving DecidableEq

variable {size words : Nat} {mode : Mode} {val values : List Word}

/-- `set_values`, up to the update of the signals. `words` is what `sizeof(values)` is in words: an array that is a
parameter is a pointer. -/
def setValues (words size : Nat) (mode : Mode) (val values : List Word) : Option (List Word) :=
  match mode with
  | .static =>
    if words ≤ val.length ∧ words ≤ values.length then some (values.take words ++ val.drop words) else none
  -- `val[i]` is an `sc_in`, which has no `write`
  | .dynamic => none
  | .dynamicEmbedded =>
    (List.range size).foldlM (fun (val : Signals) i => do val.write i (← values[i]?)) val

/-- After `init_coefficient(values)` the vector is read, and the product stage uses it. -/
def Loads (words size : Nat) (mode : Mode) (val values : List Word) : Prop :=
  ∃ val', setValues words size mode val values = some val' ∧ (∀ i < size, val'[i]? = values[i]?) ∧
    ∀ shift_register prod, product size val' shift_register prod = product size values shift_register prod

theorem setValues_signals (hval : val.length = size) (hvalues : values.length = size) :
    setValues words size .dynamicEmbedded val values = some values := by
  have hread : ∀ i < size, values[i]? = some (values.getD i 0) := by
    intro i hi
    rw [List.getD_eq_getElem?_getD, List.getElem?_eq_getElem (hvalues ▸ hi), Option.getD_some]
  have hmap : (List.range size).map (fun i => values.getD i 0) = values := by
    refine List.ext_getElem? fun i => ?_
    by_cases hi : i < size
    · rw [List.getElem?_map, List.getElem?_range hi, Option.map_some, hread i hi]
    · rw [List.getElem?_eq_none (by simpa using hi), List.getElem?_eq_none (by omega)]
  rw [setValues, List.write_fill hread hval, hmap]

/-- What is read is the vector. -/
theorem eq_of_read {val' : List Word} (hval' : val'.length = size) (hvalues : values.length = size)
    (h : ∀ i < size, val'[i]? = values[i]?) : val' = values := by
  refine List.ext_getElem? fun i => ?_
  by_cases hi : i < size
  · exact h i hi
  · rw [List.getElem?_eq_none (by omega), List.getElem?_eq_none (by omega)]

/-- What is written is the vector, so it is what is read. -/
theorem loads_of_setValues (hset : setValues words size mode val values = some values) :
    Loads words size mode val values := ⟨values, hset, fun _ _ => rfl, fun _ _ => rfl⟩

/-- The block copy. -/
theorem loads_static_iff (hval : val.length = size) (hvalues : values.length = size) :
    Loads words size .static val values ↔ words ≤ size ∧ val.drop words = values.drop words := by
  constructor
  · rintro ⟨val', hset, hread, -⟩
    simp only [setValues, hval, hvalues, and_self, Option.ite_none_right_eq_some, Option.some.injEq] at hset
    obtain ⟨hwords, rfl⟩ := hset
    have hcopy : (values.take words).length = words := by
      rw [List.length_take]
      omega
    have heq := eq_of_read (by rw [List.length_append, hcopy, List.length_drop]; omega) hvalues hread
    exact ⟨hwords, List.append_cancel_left (heq.trans (List.take_append_drop words values).symm)⟩
  · rintro ⟨hwords, hdrop⟩
    refine loads_of_setValues ?_
    rw [setValues, if_pos ⟨by omega, by omega⟩, hdrop, List.take_append_drop]

/-- **Loading the coefficients**: the specialisation for signals loads any vector, that for ports none; the block copy
loads the words of a pointer, and the vector only if it is the same as `val` behind them. -/
theorem init_coefficient_iff (hval : val.length = size) (hvalues : values.length = size) :
    Loads words size mode val values ↔
      mode = .dynamicEmbedded ∨ mode = .static ∧ words ≤ size ∧ val.drop words = values.drop words := by
  cases mode with
  | static =>
    rw [loads_static_iff hval hvalues]
    simp
  | dynamic =>
    refine ⟨fun h => ?_, fun h => ?_⟩
    · obtain ⟨val', hset, -⟩ := h
      cases hset
    · rcases h with h | ⟨h, -⟩ <;> cases h
  | dynamicEmbedded =>
    exact ⟨fun _ => Or.inl rfl, fun _ => loads_of_setValues (setValues_signals hval hvalues)⟩

/-- The block copy loads all vectors only if they have the size of a pointer. -/
theorem loads_all_static :
    (∀ val values : List Word, val.length = size → values.length = size → Loads words size .static val values) ↔
      words = size := by
  constructor
  · intro h
    obtain ⟨hwords, hdrop⟩ := (loads_static_iff List.length_replicate List.length_replicate).1
      (h (List.replicate size 0) (List.replicate size 1) List.length_replicate List.length_replicate)
    rw [List.drop_replicate, List.drop_replicate] at hdrop
    by_contra hne
    obtain ⟨n, hn⟩ : ∃ n, size - words = n + 1 := ⟨size - words - 1, by omega⟩
    rw [hn, List.replicate_succ, List.replicate_succ, List.cons.injEq] at hdrop
    cases hdrop.1
  · rintro rfl val values hval hvalues
    refine (loads_static_iff hval hvalues).2 ⟨le_rfl, ?_⟩
    rw [List.drop_of_length_le (le_of_eq hval), List.drop_of_length_le (le_of_eq hvalues)]

/-- Signals are loaded. -/
theorem init_coefficient_iff_signals : Loads 2 3 .dynamicEmbedded [0, 0, 0] [1, 2, 3] := by
  have hval : ([0, 0, 0] : List Word).length = 3 := rfl
  have hvalues : ([1, 2, 3] : List Word).length = 3 := rfl
  exact (init_coefficient_iff hval hvalues).2 (Or.inl rfl)

/-- With pointers of two words, two of 64 coefficients are. -/
theorem not_loads_static : ¬ Loads 2 64 .static (List.replicate 64 0) (List.replicate 64 1) := by
  rintro ⟨val', hset, hread, -⟩
  have hval' : setValues 2 64 .static (List.replicate 64 0) (List.replicate 64 1) =
      some ([1, 1] ++ List.replicate 62 0) := by decide
  obtain rfl := Option.some.inj (hval'.symm.trans hset)
  exact absurd (hread 2 (by decide)) (by decide)

end Coefficients

end VirtualSoc.Fir
