import Mathlib.Data.BitVec
import VirtualSoc.Lib.Quads
import VirtualSoc.Lib.Writes

/-!
# The pipelined adder (fir/include/fir/adder.hpp)

`pipeline_adder<M>` adds `M` signals in levels of adders with four inputs. A level is an array of signals,
`partial_sum`: `compute` reads all of them as they were before the call, and what it writes is read by the
next. `int` is `BitVec 32`. An index outside of an array is `none`.

* `compute_pipeline`: after a call the top level has the sum of the operands of the call that many levels
  before;
* `computeLast_iff`: which of the overloads with trailing operands agree with the plain one.
-/

namespace VirtualSoc.Fir

open Quads

abbrev Word := BitVec 32

/-- An array of signals: the values that are read. `s.write i v` is `s[i].write(v)`. -/
abbrev Signals := List Word

/-! ## Levels -/

/-- The template argument of `pipeline_adder_basis`: `_M/4`, or `_M/4+1` if there is a rest. -/
def basisSize (M : Nat) : Nat := if M % 4 = 0 then M / 4 else M / 4 + 1

theorem basisSize_eq (M : Nat) : basisSize M = (M + 3) / 4 := by
  unfold basisSize
  split <;> omega

theorem basisSize_lt {M : Nat} (h : 5 ≤ M) : basisSize M < M := by
  rw [basisSize_eq]
  omega

theorem two_le_basisSize {M : Nat} (h : 5 ≤ M) : 2 ≤ basisSize M := by
  rw [basisSize_eq]
  omega

/-- `get_level_number` (adder.hpp:19 and :45). -/
def getLevelNumber (M : Nat) : Nat := if 5 ≤ M then 1 + getLevelNumber (basisSize M) else 1
termination_by M
decreasing_by exact basisSize_lt ‹_›

/-- `get_level_size` (adder.hpp:22 and :47). -/
def getLevelSize (M : Nat) : Nat → Nat
  | 0 => if 5 ≤ M then basisSize M else 1
  | lvl + 1 => if 5 ≤ M then getLevelSize (basisSize M) lvl else 0

/-- The arrays of an adder, from level 0 on, all signals 0. -/
def levels (M : Nat) : List Signals :=
  (List.range (getLevelNumber M)).map fun lvl => List.replicate (getLevelSize M lvl) 0

/-! ## `compute` -/

/-- `pipeline_adder<2>` (adder.hpp:62): what is written to `sum`. -/
def sum2 (operand : Signals) : List Word → Option Word
  | [] => do some ((← operand[0]?) + (← operand[1]?))
  | [last0] => do some ((← operand[0]?) + last0)
  | _ => none

/-- `pipeline_adder<3>` (adder.hpp:82). -/
def sum3 (operand : Signals) : List Word → Option Word
  | [] => do some ((← operand[0]?) + (← operand[1]?) + (← operand[2]?))
  | [last0] => do some ((← operand[0]?) + (← operand[1]?) + last0)
  | [last0, last1] => do some ((← operand[0]?) + last0 + last1)
  | _ => none

/-- `pipeline_adder<4>` (adder.hpp:114). -/
def sum4 (operand : Signals) : List Word → Option Word
  | [] => do some ((← operand[0]?) + (← operand[1]?) + (← operand[2]?) + (← operand[3]?))
  | [last0] => do some ((← operand[0]?) + (← operand[1]?) + (← operand[2]?) + last0)
  | [last0, last1] => do some ((← operand[0]?) + (← operand[1]?) + last0 + last1)
  | [last0, last1, last2] => do some ((← operand[0]?) + last0 + last1 + last2)
  | _ => none

def baseSum (M : Nat) : Signals → List Word → Option Word :=
  match M with
  | 2 => sum2
  | 3 => sum3
  | 4 => sum4
  | _ => fun _ _ => none

/-- The limit that an overload of `compute` passes to `basis::compute`, and what it writes to `partial_sum`
itself. -/
abbrev Overload := Option (Nat × List (Nat × Word))

/-- `_M%4==0` (adder.hpp:161). -/
def overload0 (N : Nat) (operand : Signals) : List Word → Overload
  | [] => some (N, [])
  | [last0] => do
    some (N - 1, [(N, (← operand[4 * N - 4]?) + (← operand[4 * N - 3]?) + (← operand[4 * N - 2]?) + last0)])
  | [last0, last1] => do some (N - 1, [(N, (← operand[4 * N - 4]?) + (← operand[4 * N - 3]?) + last0 + last1)])
  | [last0, last1, last2] => do some (N - 1, [(N, (← operand[4 * N - 4]?) + last0 + last1 + last2)])
  | _ => none

/-- `_M%4==1` (adder.hpp:212). -/
def overload1 (N : Nat) (operand : Signals) : List Word → Overload
  | [] => do some (N, [(N, ← operand[4 * N]?)])
  | [last0] => some (N, [(N, last0)])
  | [last0, last1] => do
    some (N - 1,
      [(N - 1, (← operand[4 * N - 4]?) + (← operand[4 * N - 3]?) + (← operand[4 * N - 2]?) + last0), (N, last1)])
  | [last0, last1, last2] => do
    some (N - 1, [(N - 1, (← operand[4 * N - 3]?) + (← operand[4 * N - 2]?) + last0 + last1), (N, last2)])
  | _ => none

/-- `_M%4==2` (adder.hpp:263). -/
def overload2 (N : Nat) (operand : Signals) : List Word → Overload
  | [] => do some (N, [(N, (← operand[4 * N]?) + (← operand[4 * N + 1]?))])
  | [last0] => do some (N, [(N, (← operand[4 * N]?) + last0)])
  | [last0, last1] => some (N, [(N, last0 + last1)])
  | [last0, last1, last2] => do
    some (N - 1,
      [(N - 1, (← operand[4 * N - 4]?) + (← operand[4 * N - 3]?) + (← operand[4 * N - 2]?) + last0), (N, last1 + last2)])
  | _ => none

/-- `_M%4==3` (adder.hpp:317). -/
def overload3 (N : Nat) (operand : Signals) : List Word → Overload
  | [] => do some (N, [(N, (← operand[4 * N]?) + (← operand[4 * N + 1]?) + (← operand[4 * N + 2]?))])
  | [last0] => do some (N, [(N, (← operand[4 * N]?) + (← operand[4 * N + 1]?) + last0)])
  | [last0, last1] => do some (N, [(N, (← operand[4 * N]?) + last0 + last1)])
  | [last0, last1, last2] => some (N, [(N, last0 + last1 + last2)])
  | _ => none

def overload (M : Nat) : Signals → List Word → Overload :=
  match M % 4 with
  | 0 => overload0 (M / 4)
  | 1 => overload1 (M / 4)
  | 2 => overload2 (M / 4)
  | _ => overload3 (M / 4)

/-- The loop of `basis::compute` (adder.hpp:33). -/
def basisLoop (operand : Signals) (limit : Nat) (partial_sum : Signals) : Option Signals :=
  (List.range limit).foldlM (fun s i => do
    s.write i ((← operand[4 * i]?) + (← operand[4 * i + 1]?) + (← operand[4 * i + 2]?) + (← operand[4 * i + 3]?)))
    partial_sum

/-- What `compute` writes to the level of the adder. -/
def computeLevel (M : Nat) (operand : Signals) (last : List Word) (partial_sum : Signals) : Option Signals := do
  let (limit, writes) ← overload M operand last
  let partial_sum ← basisLoop operand limit partial_sum
  writes.foldlM (fun s w => s.write w.1 w.2) partial_sum

/-- `compute(operand)`, on the levels of the adder. -/
def compute (M : Nat) (operand : Signals) : List Signals → Option (List Signals)
  | [] => none
  | level :: sub_level =>
    if 5 ≤ M then do
      let sub_level ← compute (basisSize M) level sub_level
      some ((← computeLevel M operand [] level) :: sub_level)
    else do some ((← level.write 0 (← baseSum M operand [])) :: sub_level)

/-- `compute(operand, last0, ..)`. -/
def computeLast (M : Nat) (operand : Signals) (last : List Word) : List Signals → Option (List Signals)
  | [] => none
  | level :: sub_level =>
    if 5 ≤ M then do
      let sub_level ← compute (basisSize M) level sub_level
      some ((← computeLevel M operand last level) :: sub_level)
    else do some ((← level.write 0 (← baseSum M operand last)) :: sub_level)

/-! ## What a level gets -/

section Level

variable {M n : Nat} {operand last P Q : List Word} {level : Signals} {sub_level : List Signals}

theorem split_four (h : P.length = 4 * (n + 1)) : ∃ P' a b c d, P = P' ++ [a, b, c, d] ∧ P'.length = 4 * n := by
  have hdrop : (P.drop (4 * n)).length = 4 := by
    rw [List.length_drop]
    omega
  obtain ⟨a, b, c, d, habcd⟩ : ∃ a b c d, P.drop (4 * n) = [a, b, c, d] := by
    match hP : P.drop (4 * n), hdrop with
    | [a, b, c, d], _ => exact ⟨a, b, c, d, rfl⟩
  refine ⟨P.take (4 * n), a, b, c, d, ?_, ?_⟩
  · rw [← habcd, List.take_append_drop]
  · rw [List.length_take]
    omega

/-- The loop writes the sums of the groups in front. -/
theorem basisLoop_eq (hP : P.length = 4 * n) (hn : n ≤ level.length) :
    basisLoop (P ++ Q) n level = some (quads P ++ level.drop n) := by
  induction n generalizing P Q with
  | zero =>
    obtain rfl : P = [] := List.eq_nil_of_length_eq_zero hP
    rfl
  | succ n ih =>
    obtain ⟨P', a, b, c, d, rfl, hP'⟩ := split_four hP
    have hquads : (quads P').length = n := by
      rw [length_quads, hP']
      omega
    have h0 := List.getElem?_behind (Q := [a, b, c, d] ++ Q) hP' 0
    have h1 := List.getElem?_behind (Q := [a, b, c, d] ++ Q) hP' 1
    have h2 := List.getElem?_behind (Q := [a, b, c, d] ++ Q) hP' 2
    have h3 := List.getElem?_behind (Q := [a, b, c, d] ++ Q) hP' 3
    have hloop := ih (Q := [a, b, c, d] ++ Q) hP' (by omega)
    unfold basisLoop at hloop ⊢
    rw [List.append_assoc, List.range_succ, List.foldlM_append, hloop]
    simp only [Option.bind_eq_bind, Option.bind_some, List.foldlM_cons, List.foldlM_nil]
    rw [show 4 * n = 4 * n + 0 from rfl, h0, h1, h2, h3]
    simp only [List.cons_append, List.nil_append, List.getElem?_cons_zero, List.getElem?_cons_succ, Option.bind_some]
    rw [List.write_behind hquads _ (by rw [hquads, List.length_drop]; omega), List.tail_drop, quads_append n _ hP']
    simp [quads]

/-- An overload that writes the sum of the last group. -/
theorem computeLevel_one {v : Word} (hover : overload M (P ++ Q) last = some (n, [(n, v)]))
    (hP : P.length = 4 * n) (hlevel : level.length = n + 1) :
    computeLevel M (P ++ Q) last level = some (quads P ++ [v]) := by
  have hquads : (quads P).length = n := by
    rw [length_quads, hP]
    omega
  simp only [computeLevel, hover, Option.bind_eq_bind, Option.bind_some,
    basisLoop_eq hP (show n ≤ level.length by omega), List.foldlM_cons, List.foldlM_nil]
  rw [List.write_behind hquads v (by rw [hquads, List.length_drop]; omega), List.tail_drop,
    List.drop_of_length_le (by omega)]
  rfl

/-- An overload that writes the sums of the last two groups. -/
theorem computeLevel_two {v w : Word} (hover : overload M (P ++ Q) last = some (n, [(n, v), (n + 1, w)]))
    (hP : P.length = 4 * n) (hlevel : level.length = n + 2) :
    computeLevel M (P ++ Q) last level = some (quads P ++ [v, w]) := by
  have hquads : (quads P).length = n := by
    rw [length_quads, hP]
    omega
  simp only [computeLevel, hover, Option.bind_eq_bind, Option.bind_some,
    basisLoop_eq hP (show n ≤ level.length by omega), List.foldlM_cons, List.foldlM_nil]
  rw [List.write_behind hquads v (by rw [hquads, List.length_drop]; omega), List.tail_drop]
  have hquads' : (quads P ++ [v]).length = n + 1 := by rw [List.length_append, hquads]; rfl
  rw [Option.bind_some, ← List.singleton_append, ← List.append_assoc, List.write_behind hquads' w (by
    rw [hquads', List.length_drop]
    omega), List.tail_drop, List.drop_of_length_le (by omega)]
  simp

/-- The groups in front, and what is left of the operands. -/
theorem split_operand (n k : Nat) (h : operand.length = 4 * n + k) :
    ∃ A B, operand = A ++ B ∧ A.length = 4 * n ∧ B.length = k := by
  refine ⟨operand.take (4 * n), operand.drop (4 * n), (List.take_append_drop _ _).symm, ?_, ?_⟩
  · rw [List.length_take]
    omega
  · rw [List.length_drop]
    omega

/-- The plain `compute` adds the operands four by four. -/
theorem computeLevel_plain (h : operand.length = M) (hlevel : level.length = basisSize M) :
    computeLevel M operand [] level = some (quads operand) := by
  obtain ⟨A, B, rfl, hA, hB⟩ := split_operand (M / 4) (M % 4) (show operand.length = _ by omega)
  have h0 := List.getElem?_behind (Q := B) hA 0
  have h1 := List.getElem?_behind (Q := B) hA 1
  have h2 := List.getElem?_behind (Q := B) hA 2
  rw [Nat.add_zero] at h0
  rw [quads_append _ _ hA]
  unfold basisSize at hlevel
  obtain hr | hr | hr | hr : M % 4 = 0 ∨ M % 4 = 1 ∨ M % 4 = 2 ∨ M % 4 = 3 := by omega
  · rw [hr] at hB
    obtain rfl := List.eq_nil_of_length_eq_zero hB
    rw [if_pos hr] at hlevel
    have hover : overload M (A ++ []) [] = some (M / 4, []) := by
      simp only [overload, hr]
      rfl
    simp only [computeLevel, hover, Option.bind_eq_bind, Option.bind_some,
      basisLoop_eq hA (Nat.le_of_eq hlevel.symm), List.foldlM_nil]
    rw [List.drop_of_length_le (Nat.le_of_eq hlevel)]
    rfl
  · rw [hr] at hB
    obtain ⟨a, rfl⟩ := List.length_eq_one_iff.1 hB
    rw [if_neg (by omega)] at hlevel
    have hover : overload M (A ++ [a]) [] = some (M / 4, [(M / 4, a)]) := by
      simp only [overload, hr]
      simp [overload1, h0]
    rw [computeLevel_one hover hA hlevel]
    rfl
  · rw [hr] at hB
    obtain ⟨a, b, rfl⟩ := List.length_eq_two.1 hB
    rw [if_neg (by omega)] at hlevel
    have hover : overload M (A ++ [a, b]) [] = some (M / 4, [(M / 4, a + b)]) := by
      simp only [overload, hr]
      simp [overload2, h0, h1]
    rw [computeLevel_one hover hA hlevel]
    rfl
  · rw [hr] at hB
    obtain ⟨a, b, c, rfl⟩ := List.length_eq_three.1 hB
    rw [if_neg (by omega)] at hlevel
    have hover : overload M (A ++ [a, b, c]) [] = some (M / 4, [(M / 4, a + b + c)]) := by
      simp only [overload, hr]
      simp [overload3, h0, h1, h2]
    rw [computeLevel_one hover hA hlevel]
    rfl

/-- The sizes at which an overload with `k` trailing operands writes what the plain `compute` writes. -/
def Agrees (M k : Nat) : Prop := M % 4 ≠ 0 ∧ ¬(M % 4 = 1 ∧ k = 3)

instance (M k : Nat) : Decidable (Agrees M k) := inferInstanceAs (Decidable (_ ∧ _))

/-- An overload whose trailing operands all belong to the last group. -/
theorem computeLevel_last_one {v : Word} (hA : P.length = 4 * (M / 4)) (hlevel : level.length = M / 4 + 1)
    (hover : overload M (P ++ Q) last = some (M / 4, [(M / 4, v)])) (hquads : quads (Q ++ last) = [v]) :
    computeLevel M (P ++ Q) last level = some (quads (P ++ Q ++ last)) := by
  rw [computeLevel_one hover hA hlevel, List.append_assoc, quads_append _ _ hA, hquads]

/-- An overload whose trailing operands begin in the group before. -/
theorem computeLevel_last_two {v w : Word} (hA : P.length = 4 * n) (hlevel : level.length = n + 2)
    (hover : overload M (P ++ Q) last = some (n, [(n, v), (n + 1, w)])) (hquads : quads (Q ++ last) = [v, w]) :
    computeLevel M (P ++ Q) last level = some (quads (P ++ Q ++ last)) := by
  rw [computeLevel_two hover hA hlevel, List.append_assoc, quads_append _ _ hA, hquads]

/-- The overloads that agree with the plain `compute`. -/
theorem computeLevel_last (h5 : 5 ≤ M) (h : operand.length + last.length = M) (hlast : 1 ≤ last.length)
    (hlast3 : last.length ≤ 3) (hlevel : level.length = basisSize M) (hagree : Agrees M last.length) :
    computeLevel M operand last level = some (quads (operand ++ last)) := by
  obtain ⟨h0, h13⟩ := hagree
  rw [basisSize, if_neg h0] at hlevel
  obtain ⟨n, hn⟩ : ∃ n, M / 4 = n + 1 := ⟨M / 4 - 1, by omega⟩
  -- the operands before the groups that the trailing ones complete
  obtain ⟨m, k, hm⟩ : ∃ m k, operand.length = 4 * m + k ∧ k ≤ 3 := ⟨operand.length / 4, operand.length % 4, by omega⟩
  obtain ⟨A, B, rfl, hA, hB⟩ := split_operand m k hm.1
  have g0 := List.getElem?_behind (Q := B) hA 0
  have g1 := List.getElem?_behind (Q := B) hA 1
  have g2 := List.getElem?_behind (Q := B) hA 2
  rw [Nat.add_zero] at g0
  match last, hlast, hlast3 with
  | [l0], _, _ =>
    simp only [List.length_append, List.length_cons, List.length_nil] at h
    obtain hr | hr | hr : M % 4 = 1 ∨ M % 4 = 2 ∨ M % 4 = 3 := by omega
    · obtain ⟨rfl, hk⟩ : m = M / 4 ∧ B.length = 0 := by omega
      obtain rfl := List.eq_nil_of_length_eq_zero hk
      exact computeLevel_last_one hA hlevel (v := l0) (by simp only [overload, hr]; rfl) rfl
    · obtain ⟨rfl, hk⟩ : m = M / 4 ∧ B.length = 1 := by omega
      obtain ⟨a, rfl⟩ := List.length_eq_one_iff.1 hk
      exact computeLevel_last_one hA hlevel (v := a + l0) (by simp only [overload, hr]; simp [overload2, g0]) rfl
    · obtain ⟨rfl, hk⟩ : m = M / 4 ∧ B.length = 2 := by omega
      obtain ⟨a, b, rfl⟩ := List.length_eq_two.1 hk
      exact computeLevel_last_one hA hlevel (v := a + b + l0) (by simp only [overload, hr]; simp [overload3, g0, g1]) rfl
  | [l0, l1], _, _ =>
    simp only [List.length_append, List.length_cons, List.length_nil] at h
    obtain hr | hr | hr : M % 4 = 1 ∨ M % 4 = 2 ∨ M % 4 = 3 := by omega
    · obtain ⟨rfl, hk⟩ : m = n ∧ B.length = 3 := by omega
      obtain ⟨a, b, c, rfl⟩ := List.length_eq_three.1 hk
      rw [hn] at hlevel
      refine computeLevel_last_two hA hlevel (v := a + b + c + l0) (w := l1) ?_ rfl
      simp only [overload, hr, hn]
      simp [overload1, show 4 * (m + 1) - 4 = 4 * m by omega, show 4 * (m + 1) - 3 = 4 * m + 1 by omega,
        show 4 * (m + 1) - 2 = 4 * m + 2 by omega, g0, g1, g2]
    · obtain ⟨rfl, hk⟩ : m = M / 4 ∧ B.length = 0 := by omega
      obtain rfl := List.eq_nil_of_length_eq_zero hk
      exact computeLevel_last_one hA hlevel (v := l0 + l1) (by simp only [overload, hr]; rfl) rfl
    · obtain ⟨rfl, hk⟩ : m = M / 4 ∧ B.length = 1 := by omega
      obtain ⟨a, rfl⟩ := List.length_eq_one_iff.1 hk
      exact computeLevel_last_one hA hlevel (v := a + l0 + l1) (by simp only [overload, hr]; simp [overload3, g0]) rfl
  | [l0, l1, l2], _, _ =>
    simp only [List.length_append, List.length_cons, List.length_nil] at h
    have h1 : M % 4 ≠ 1 := fun hr => h13 ⟨hr, rfl⟩
    obtain hr | hr : M % 4 = 2 ∨ M % 4 = 3 := by omega
    · obtain ⟨rfl, hk⟩ : m = n ∧ B.length = 3 := by omega
      obtain ⟨a, b, c, rfl⟩ := List.length_eq_three.1 hk
      rw [hn] at hlevel
      refine computeLevel_last_two hA hlevel (v := a + b + c + l0) (w := l1 + l2) ?_ rfl
      simp only [overload, hr, hn]
      simp [overload2, show 4 * (m + 1) - 4 = 4 * m by omega, show 4 * (m + 1) - 3 = 4 * m + 1 by omega,
        show 4 * (m + 1) - 2 = 4 * m + 2 by omega, g0, g1, g2]
    · obtain ⟨rfl, hk⟩ : m = M / 4 ∧ B.length = 0 := by omega
      obtain rfl := List.eq_nil_of_length_eq_zero hk
      exact computeLevel_last_one hA hlevel (v := l0 + l1 + l2) (by simp only [overload, hr]; rfl) rfl

/-- The others use an index outside of `partial_sum` or of the operands. -/
theorem computeLevel_outside (h5 : 5 ≤ M) (h : operand.length + last.length = M) (hlast : 1 ≤ last.length)
    (hlast3 : last.length ≤ 3) (hlevel : level.length = basisSize M) (hnot : ¬ Agrees M last.length) :
    computeLevel M operand last level = none := by
  unfold basisSize at hlevel
  by_cases hr : M % 4 = 0
  · -- the sum is written behind the end of `partial_sum`
    rw [if_pos hr] at hlevel
    have hsplit : operand.length = 4 * (M / 4 - 1) + (4 - last.length) := by omega
    obtain ⟨A, B, rfl, hA, hB⟩ := split_operand _ _ hsplit
    have hquads : (quads A).length = M / 4 - 1 := by
      rw [length_quads, hA]
      omega
    have hloop := basisLoop_eq (Q := B) hA (show M / 4 - 1 ≤ level.length by omega)
    have hend : (quads A ++ level.drop (M / 4 - 1)).length = M / 4 := by
      rw [List.length_append, List.length_drop, hquads]
      omega
    have hover : ∀ v, overload M (A ++ B) last = some v → ∃ w, v = (M / 4 - 1, [(M / 4, w)]) := by
      intro v hv
      simp only [overload, hr] at hv
      match last, hlast, hlast3 with
      | [l0], _, _ | [l0, l1], _, _ | [l0, l1, l2], _, _ =>
        simp only [overload0, Option.bind_eq_bind, Option.bind_eq_some_iff, Option.some.injEq] at hv
        grind
    simp only [computeLevel, Option.bind_eq_bind]
    cases hv : overload M (A ++ B) last with
    | none => rfl
    | some v =>
      obtain ⟨w, rfl⟩ := hover v hv
      simp only [Option.bind_some, hloop, List.foldlM_cons]
      rw [List.write_of_le (by omega)]
      rfl
  · -- the second operand that is read is behind the end
    obtain ⟨h1, h3⟩ : M % 4 = 1 ∧ last.length = 3 := by
      unfold Agrees at hnot
      omega
    obtain ⟨l0, l1, l2, rfl⟩ := List.length_eq_three.1 h3
    have hread : operand[4 * (M / 4) - 2]? = none := by
      rw [List.getElem?_eq_none_iff]
      omega
    simp only [computeLevel, overload, h1, overload1, hread]
    cases operand[4 * (M / 4) - 3]? <;> rfl

end Level

/-! ## The levels -/

section Levels

variable {M : Nat} {operand : Signals} {level : Signals} {sub_level ls : List Signals}

theorem getLevelNumber_of_le (h : M ≤ 4) : getLevelNumber M = 1 := by
  rw [getLevelNumber, if_neg (by omega)]

theorem getLevelNumber_of_five (h : 5 ≤ M) : getLevelNumber M = 1 + getLevelNumber (basisSize M) := by
  rw [getLevelNumber, if_pos h]

theorem one_le_getLevelNumber (M : Nat) : 1 ≤ getLevelNumber M := by
  rw [getLevelNumber]
  split <;> omega

/-- The induction over the instances of the template. -/
theorem adder_induction {motive : ∀ M, 2 ≤ M → Prop} (base : ∀ M (h : 2 ≤ M), M ≤ 4 → motive M h)
    (basis : ∀ M (h : 5 ≤ M), motive (basisSize M) (two_le_basisSize h) → motive M (Nat.le_trans (by decide) h)) :
    ∀ M (h : 2 ≤ M), motive M h := by
  intro M h
  induction M using Nat.strongRecOn with
  | ind M ih =>
    by_cases h5 : 5 ≤ M
    · exact basis M h5 (ih _ (basisSize_lt h5) (two_le_basisSize h5))
    · exact base M h (by omega)

theorem getLevelNumber_eq (h : 2 ≤ M) : getLevelNumber M = Nat.clog 4 M := by
  induction M, h using adder_induction with
  | base M h2 h4 =>
    rw [getLevelNumber_of_le h4]
    have : M = 2 ∨ M = 3 ∨ M = 4 := by omega
    rcases this with rfl | rfl | rfl <;> decide
  | basis M h5 ih => rw [getLevelNumber_of_five h5, ih, clog_four h5, basisSize_eq, Nat.add_comm]

theorem getLevelSize_eq (h : 2 ≤ M) {lvl : Nat} (hlvl : lvl < getLevelNumber M) :
    getLevelSize M lvl = (M + 4 ^ (lvl + 1) - 1) / 4 ^ (lvl + 1) := by
  induction lvl generalizing M with
  | zero =>
    simp only [getLevelSize, Nat.zero_add, Nat.pow_one]
    split
    · exact basisSize_eq M
    · omega
  | succ lvl ih =>
    have h5 : 5 ≤ M := by
      by_contra h5
      rw [getLevelNumber_of_le (by omega)] at hlvl
      omega
    rw [getLevelNumber_of_five h5] at hlvl
    simp only [getLevelSize, if_pos h5]
    rw [ih (two_le_basisSize h5) (by omega), basisSize_eq, ceil_div_div]

/-- The top level is a single cell. -/
theorem getLevelSize_top (h : 2 ≤ M) : getLevelSize M (getLevelNumber M - 1) = 1 := by
  induction M, h using adder_induction with
  | base M h2 h4 =>
    rw [getLevelNumber_of_le h4, getLevelSize, if_neg (by omega)]
  | basis M h5 ih =>
    have hsub := one_le_getLevelNumber (basisSize M)
    rw [getLevelNumber_of_five h5,
      show 1 + getLevelNumber (basisSize M) - 1 = getLevelNumber (basisSize M) - 1 + 1 by omega,
      getLevelSize, if_pos h5, ih]

theorem levels_of_five (h : 5 ≤ M) : levels M = List.replicate (basisSize M) 0 :: levels (basisSize M) := by
  unfold levels
  rw [getLevelNumber_of_five h, Nat.add_comm, List.range_succ_eq_map, List.map_cons, List.map_map]
  simp [getLevelSize, h]

theorem levels_of_le (h : M ≤ 4) : levels M = [[0]] := by
  unfold levels
  rw [getLevelNumber_of_le h]
  simp [getLevelSize, show ¬ 5 ≤ M by omega]

/-- The arrays have the sizes of the template. -/
def Shaped (M : Nat) (ls : List Signals) : Prop :=
  ls.map List.length = (List.range (getLevelNumber M)).map (getLevelSize M)

theorem shaped_of_five (h : 5 ≤ M) :
    Shaped M ls ↔ ∃ level sub_level, ls = level :: sub_level ∧ level.length = basisSize M ∧
      Shaped (basisSize M) sub_level := by
  unfold Shaped
  rw [getLevelNumber_of_five h, Nat.add_comm, List.range_succ_eq_map, List.map_cons, List.map_map]
  have hsub : getLevelSize M ∘ Nat.succ = getLevelSize (basisSize M) := by
    funext lvl
    simp [getLevelSize, h]
  rw [hsub, List.map_eq_cons_iff]
  simp [getLevelSize, h]

theorem shaped_of_le (h : M ≤ 4) : Shaped M ls ↔ ∃ v, ls = [[v]] := by
  unfold Shaped
  rw [getLevelNumber_of_le h]
  simp only [List.range_one, List.map_cons, List.map_nil, getLevelSize, if_neg (show ¬ 5 ≤ M by omega)]
  rw [List.map_eq_singleton_iff]
  constructor
  · rintro ⟨level, rfl, hlevel⟩
    obtain ⟨v, rfl⟩ := List.length_eq_one_iff.1 hlevel
    exact ⟨v, rfl⟩
  · rintro ⟨v, rfl⟩
    exact ⟨[v], rfl, rfl⟩

/-- **One call** of `compute`: the level of the adder gets the sums of four of the operands, the others are
those of the sub-level. -/
theorem compute_cons (h5 : 5 ≤ M) (h : operand.length = M) (hlevel : level.length = basisSize M) :
    compute M operand (level :: sub_level) = (compute (basisSize M) level sub_level).map (quads operand :: ·) := by
  rw [compute, if_pos h5, computeLevel_plain h hlevel]
  cases compute (basisSize M) level sub_level <;> rfl

theorem baseSum_plain (h2 : 2 ≤ M) (h4 : M ≤ 4) (h : operand.length = M) : baseSum M operand [] = some operand.sum := by
  obtain rfl | rfl | rfl : M = 2 ∨ M = 3 ∨ M = 4 := by omega
  · obtain ⟨a, b, rfl⟩ := List.length_eq_two.1 h
    simp [baseSum, sum2]
  · obtain ⟨a, b, c, rfl⟩ := List.length_eq_three.1 h
    simp [baseSum, sum3, add_assoc]
  · match operand, h with
    | [a, b, c, d], _ => simp [baseSum, sum4, add_assoc]

/-- A call uses no index outside of an array, and leaves the sizes of the arrays as they are. -/
theorem compute_shaped (h2 : 2 ≤ M) (h : operand.length = M) (hls : Shaped M ls) :
    ∃ ls', compute M operand ls = some ls' ∧ Shaped M ls' := by
  induction M, h2 using adder_induction generalizing operand ls with
  | base M h2 h4 =>
    obtain ⟨v, rfl⟩ := (shaped_of_le h4).1 hls
    refine ⟨[[operand.sum]], ?_, (shaped_of_le h4).2 ⟨_, rfl⟩⟩
    rw [compute, if_neg (by omega), baseSum_plain h2 h4 h]
    rfl
  | basis M h5 ih =>
    obtain ⟨level, sub_level, rfl, hlevel, hsub⟩ := (shaped_of_five h5).1 hls
    obtain ⟨sub_level', hcompute, hsub'⟩ := ih hlevel hsub
    refine ⟨quads operand :: sub_level', ?_, (shaped_of_five h5).2 ⟨_, _, rfl, ?_, hsub'⟩⟩
    · rw [compute_cons h5 h hlevel, hcompute, Option.map_some]
    · rw [length_quads, h, basisSize_eq]

/-- The levels after `k` calls, the `j`-th of which is given the operands `operands j`. -/
def calls (M : Nat) (operands : Nat → Signals) : Nat → Option (List Signals)
  | 0 => some (levels M)
  | k + 1 => (calls M operands k).bind (compute M (operands (k + 1)))

variable {operands : Nat → Signals}

/-- The level of the adder after `k` calls. -/
def levelAfter (M : Nat) (operands : Nat → Signals) (k : Nat) : Signals :=
  if k = 0 then List.replicate (basisSize M) 0 else quads (operands k)

theorem length_levelAfter (h : ∀ k, (operands k).length = M) (k : Nat) :
    (levelAfter M operands k).length = basisSize M := by
  unfold levelAfter
  split
  · exact List.length_replicate
  · rw [length_quads, h, basisSize_eq]

/-- The sub-level is an adder that is given in each call what the level was after the call before. -/
theorem calls_cons (h5 : 5 ≤ M) (h : ∀ k, (operands k).length = M) (k : Nat) :
    calls M operands k =
      (calls (basisSize M) (fun j => levelAfter M operands (j - 1)) k).map (levelAfter M operands k :: ·) := by
  induction k with
  | zero => simp [calls, levelAfter, levels_of_five h5]
  | succ k ih =>
    rw [calls, calls, ih]
    cases calls (basisSize M) (fun j => levelAfter M operands (j - 1)) k with
    | none => rfl
    | some sub_level =>
      rw [Option.map_some, Option.bind_some, compute_cons h5 (h _) (length_levelAfter h k)]
      simp [levelAfter]

/-- Without a sub-level the sum is there after the call. -/
theorem calls_base (h2 : 2 ≤ M) (h4 : M ≤ 4) (h : ∀ k, (operands k).length = M) (k : Nat) :
    calls M operands k = some [[if 1 ≤ k then (operands k).sum else 0]] := by
  induction k with
  | zero => simp [calls, levels_of_le h4]
  | succ k ih =>
    rw [calls, ih, Option.bind_some, compute, if_neg (by omega), baseSum_plain h2 h4 (h _), if_pos (Nat.le_add_left 1 k)]
    rfl

/-- The top has the sum of the operands of the call as many calls before as there are levels. -/
theorem calls_top (h2 : 2 ≤ M) (h : ∀ k, (operands k).length = M) (k : Nat) :
    ∃ ls, calls M operands k = some ls ∧ Shaped M ls ∧
      ls[getLevelNumber M - 1]? = some [if getLevelNumber M ≤ k then (operands (k + 1 - getLevelNumber M)).sum else 0] := by
  induction M, h2 using adder_induction generalizing operands with
  | base M h2 h4 =>
    rw [getLevelNumber_of_le h4, Nat.add_sub_cancel]
    exact ⟨_, calls_base h2 h4 h k, (shaped_of_le h4).2 ⟨_, rfl⟩, rfl⟩
  | basis M h5 ih =>
    obtain ⟨sub_level, hcalls, hshaped, htop⟩ := ih (length_levelAfter h <| · - 1)
    have hsub := one_le_getLevelNumber (basisSize M)
    refine ⟨levelAfter M operands k :: sub_level, ?_, (shaped_of_five h5).2 ⟨_, _, rfl, length_levelAfter h k, hshaped⟩, ?_⟩
    · rw [calls_cons h5 h, hcalls, Option.map_some]
    · rw [getLevelNumber_of_five h5, Nat.add_sub_cancel_left]
      obtain ⟨L, hL⟩ : ∃ L, getLevelNumber (basisSize M) = L + 1 := ⟨_, (Nat.sub_add_cancel hsub).symm⟩
      rw [hL, Nat.add_sub_cancel] at htop
      rw [hL, List.getElem?_cons_succ, htop]
      -- what comes out of the sub-level went into it a call after it was given to the adder
      by_cases hk : L + 1 ≤ k
      · rw [if_pos hk]
        unfold levelAfter
        by_cases hk' : 1 + (L + 1) ≤ k
        · rw [if_pos hk', if_neg (by omega), sum_quads, show k + 1 - (L + 1) - 1 = k + 1 - (1 + (L + 1)) by omega]
        · rw [if_neg hk', if_pos (by omega), List.sum_replicate, smul_zero]
      · rw [if_neg hk, if_neg (by omega)]

end Levels

/-! ## The adder -/

/-- **The pipelined adder**: the number of levels and their sizes; whatever it is given in each call, it uses no index
outside of an array, and after the `k`-th call the cell of the top level has the sum of the operands of the
call `getLevelNumber M - 1` before. -/
theorem compute_pipeline {M : Nat} (h : 2 ≤ M) :
    getLevelNumber M = max 1 (Nat.clog 4 M) ∧
    (∀ lvl < getLevelNumber M, getLevelSize M lvl = (M + 4 ^ (lvl + 1) - 1) / 4 ^ (lvl + 1)) ∧
    getLevelSize M (getLevelNumber M - 1) = 1 ∧
    ∀ operands : Nat → Signals, (∀ k, (operands k).length = M) → ∀ k, ∃ ls, calls M operands k = some ls ∧
      Shaped M ls ∧ ls[getLevelNumber M - 1]? =
        some [if getLevelNumber M ≤ k then (operands (k - (getLevelNumber M - 1))).sum else 0] := by
  have h1 := one_le_getLevelNumber M
  refine ⟨?_, fun lvl hlvl => getLevelSize_eq h hlvl, getLevelSize_top h, fun operands hoperands k => ?_⟩
  · rw [← getLevelNumber_eq h, Nat.max_eq_right h1]
  · obtain ⟨ls, hcalls, hsizes, htop⟩ := calls_top h hoperands k
    refine ⟨ls, hcalls, hsizes, ?_⟩
    rw [htop]
    by_cases hk : getLevelNumber M ≤ k
    · rw [if_pos hk, if_pos hk, show k + 1 - getLevelNumber M = k - (getLevelNumber M - 1) by omega]
    · rw [if_neg hk, if_neg hk]

/-- Six operands, the number of the call each. -/
theorem compute_pipeline_six : ∃ ls, calls 6 (fun k => List.replicate 6 (BitVec.ofNat 32 k)) 3 = some ls ∧
    ls[getLevelNumber 6 - 1]? = some [12] := by
  have hnumber : getLevelNumber 6 = 2 := by
    rw [getLevelNumber_eq (by decide)]
    decide
  obtain ⟨-, -, -, hcalls⟩ := compute_pipeline (M := 6) (by decide)
  obtain ⟨ls, hls, -, htop⟩ := hcalls (fun k => List.replicate 6 (BitVec.ofNat 32 k)) (fun _ => List.length_replicate) 3
  refine ⟨ls, hls, htop.trans ?_⟩
  rw [hnumber]
  rfl

/-- **The overloads with trailing operands**: which of them do what the plain `compute` does on all operands in one
array, with no index outside of an array. The others use such an index, whatever the operands. -/
theorem computeLast_iff {M : Nat} (h5 : 5 ≤ M) {operand : Signals} {last : List Word} (hlast : 1 ≤ last.length)
    (hlast3 : last.length ≤ 3) (h : operand.length + last.length = M) {ls : List Signals} (hls : Shaped M ls) :
    (∃ ls', computeLast M operand last ls = some ls' ∧ compute M (operand ++ last) ls = some ls') ↔
      Agrees M last.length := by
  obtain ⟨level, sub_level, rfl, hlevel, hsub⟩ := (shaped_of_five h5).1 hls
  obtain ⟨sub_level', hcompute, -⟩ := compute_shaped (two_le_basisSize h5) hlevel hsub
  have hplain : compute M (operand ++ last) (level :: sub_level) = _ :=
    compute_cons h5 ((List.length_append).trans h) hlevel
  rw [hcompute, Option.map_some] at hplain
  rw [hplain, computeLast, if_pos h5, hcompute, Option.bind_eq_bind, Option.bind_some]
  by_cases hagree : Agrees M last.length
  · rw [computeLevel_last h5 h hlast hlast3 hlevel hagree]
    exact iff_of_true ⟨_, rfl, rfl⟩ hagree
  · rw [computeLevel_outside h5 h hlast hlast3 hlevel hagree]
    exact iff_of_false (fun ⟨_, hnone, _⟩ => nomatch hnone) hagree

/-- An adder of six with the last two given on their own. -/
theorem computeLast_iff_six :
    ∃ ls', computeLast 6 [1, 2, 3, 4] [5, 6] [[0, 0], [0]] = some ls' ∧
      compute 6 [1, 2, 3, 4, 5, 6] [[0, 0], [0]] = some ls' := by
  have hshaped : Shaped 6 [[0, 0], [0]] :=
    (shaped_of_five (by decide)).2 ⟨_, _, rfl, rfl, (shaped_of_le (by decide)).2 ⟨_, rfl⟩⟩
  have hlast : 1 ≤ ([5, 6] : List Word).length := by decide
  have hlength : ([1, 2, 3, 4] : Signals).length + ([5, 6] : List Word).length = 6 := rfl
  exact (computeLast_iff (by decide) hlast (by decide) hlength hshaped).2 (by decide)

/-- An adder of eight writes behind `partial_sum`, one of five reads behind the operands. -/
theorem not_agrees_eight_five :
    (¬ ∃ ls', computeLast 8 [1, 2, 3, 4, 5, 6, 7] [8] [[0, 0], [0]] = some ls' ∧
      compute 8 [1, 2, 3, 4, 5, 6, 7, 8] [[0, 0], [0]] = some ls') ∧
    ¬ ∃ ls', computeLast 5 [1, 2] [3, 4, 5] [[0, 0], [0]] = some ls' ∧
      compute 5 [1, 2, 3, 4, 5] [[0, 0], [0]] = some ls' := by
  have h8 : computeLast 8 [1, 2, 3, 4, 5, 6, 7] [8] [[0, 0], [0]] = none := by decide
  have h5 : computeLast 5 [1, 2] [3, 4, 5] [[0, 0], [0]] = none := by decide
  constructor
  · rintro ⟨ls', h, -⟩
    cases h8.symm.trans h
  · rintro ⟨ls', h, -⟩
    cases h5.symm.trans h

end VirtualSoc.Fir
