import VirtualSoc.Fir.Filter
import VirtualSoc.Lib.Changes
import VirtualSoc.Wcdma.Fir

/-!
# The filter of the accelerator (virtualsoc/src/cluster/cl_acc.cpp, fir/include/fir/fir.h)

`acc_processing_fir1` writes a sample to `io.x` and waits for the clock. `compute_fir` is sensitive to `io.x`:
it runs in the delta cycle after the write, but only if the write changes the value. So the pipeline of the
filter does not advance at a sample that equals the one before.

* `clocks_law`: what is at `io.y` after each clock;
* `clocks_convolution_iff`: the streams of which it is the convolution.
-/

namespace VirtualSoc.Fir

open Convolution Changes

/-- A write to `io.x`, and the activation that it causes. -/
def writeX (size : Nat) (coeff : List Word) (sample : Word) (s : State) : Option State :=
  if s.x = sample then some s else computeFir size coeff { s with x := sample }

/-- The state after `n` clocks; the process runs once at the start. -/
def clocks (size : Nat) (coeff : List Word) (x : Nat → Word) : Nat → Option State
  | 0 => computeFir size coeff (zero size)
  | n + 1 => (clocks size coeff x n).bind (writeX size coeff (x (n + 1)))

/-- What `io.x` is after the clock `n`. -/
def held (x : Nat → Word) (n : Nat) : Word := if n = 0 then 0 else x n

section Clocks

variable {size n t : Nat} {coeff : List Word} {x : Nat → Word} {s s' : State}

theorem held_zero : held x 0 = 0 := if_pos rfl

theorem held_succ : held x (n + 1) = x (n + 1) := if_neg (Nat.succ_ne_zero n)

theorem since_held (x : Nat → Word) : since 1 x = since 0 (held x) := by
  funext m
  by_cases hm : 1 ≤ m
  · rw [since_of_le hm, since_of_le (by omega), held, if_neg (by omega)]
  · rw [since_of_lt (by omega)]
    by_cases h0 : 0 ≤ m
    · rw [since_of_le h0, held, if_pos (by omega)]
    · rw [since_of_lt (by omega)]

theorem computeFir_x (h : computeFir size coeff s = some s') : s'.x = s.x := by
  simp only [computeFir, Option.bind_eq_bind, Option.bind_eq_some_iff, Option.some.injEq] at h
  obtain ⟨_, -, _, -, _, -, _, -, _, -, rfl⟩ := h
  rfl

theorem activations_x (h : activations size coeff x (t + 1) = some s) : s.x = x (t + 1) := by
  rw [activations, Option.bind_eq_some_iff] at h
  obtain ⟨s₀, -, h⟩ := h
  exact computeFir_x h

/-- The clocks are activations: one at the start, and one for each change of `io.x`. -/
theorem clocks_eq (h2 : 2 ≤ size) (hsize : coeff.length = size) (n : Nat) :
    clocks size coeff x n =
      activations size coeff (fun j => sampled (held x) (j - 1)) (changes (held x) n + 1) := by
  induction n with
  | zero =>
    rw [changes_zero]
    rfl
  | succ n ih =>
    obtain ⟨s, hs, -⟩ := activations_pipeline h2 hsize (fun j => sampled (held x) (j - 1)) (changes (held x) n + 1)
    have hx : s.x = held x n := by
      rw [activations_x hs, Nat.add_sub_cancel, sampled_changes]
    rw [clocks, ih, hs, Option.bind_some, writeX, hx]
    by_cases hchanged : Changed (held x) (n + 1)
    · rw [changes_of_changed hchanged, activations, hs, Option.bind_some, Nat.add_sub_cancel,
        sampled_of_changed hchanged, held_succ, if_neg]
      rw [← held_succ (x := x)]
      exact (changed_succ.1 hchanged).symm
    · have hheld : held x (n + 1) = held x n := not_not.1 (mt changed_succ.2 hchanged)
      rw [changes_of_not hchanged, hs, if_pos (by rw [← hheld, held_succ])]

/-- After each clock `io.y` is the convolution of the changes, as many changes ago as there are stages. -/
theorem clocks_law (h2 : 2 ≤ size) (hsize : coeff.length = size) (x : Nat → Word) (n : Nat) :
    ∃ s, clocks size coeff x n = some s ∧
      s.y = conv coeff (since 0 (sampled (held x))) (changes (held x) n - 2 - getLevelNumber size) := by
  obtain ⟨s, hs, hp⟩ := activations_pipeline h2 hsize (fun j => sampled (held x) (j - 1)) (changes (held x) n + 1)
  refine ⟨s, (clocks_eq h2 hsize n).trans hs, hp.y.trans ?_⟩
  have hsince : since 1 (fun j => sampled (held x) (j - 1)) = fun m => since 0 (sampled (held x)) (m - 1) :=
    funext fun m => since_succ 0 m _ le_rfl
  rw [hsince, conv_delay]
  congr 1
  push_cast
  omega

/-- After the clock `n` the convolution is at `io.y`, as long after its last sample as there are stages, and that is
what `parallelFir` computes of the same samples. -/
def Delivers (size : Nat) (coeff : List Word) (x : Nat → Word) (n : Nat) : Prop :=
  ∃ s, clocks size coeff x n = some s ∧ s.y = conv coeff (since 1 x) (n - 2 - getLevelNumber size) ∧
    Wcdma.parallelFir coeff size (Wcdma.cells (since 1 x) (n - 2 - getLevelNumber size - size) (size + 1)) 1 [0] =
      some [s.y]

/-- The software filter, on a window of the stream. -/
theorem parallelFir_window (hsize : coeff.length = size) (m : Int) :
    Wcdma.parallelFir coeff size (Wcdma.cells (since 1 x) (m - size) (size + 1)) 1 [0] =
      some [conv coeff (since 1 x) m] := by
  subst hsize
  have hlength : ([0] : List Word).length = 1 := rfl
  rw [Wcdma.parallelFir_eq hlength (Nat.add_comm 1 _).le]
  simp

/-- **A sample a clock**: for any vector the values at `io.y` are the convolution, if and only if no sample equals the one
before it, zeros in front apart. -/
theorem clocks_convolution_iff (h2 : 2 ≤ size) (x : Nat → Word) :
    (∀ coeff : List Word, coeff.length = size → ∀ n, Delivers size coeff x n) ↔ Fresh (held x) := by
  have hdelay : ∀ (X : Nat → Word) (_ : X 0 = 0) (a i : Nat),
      since 0 X (a - 2 - getLevelNumber size - i) = X (a - (2 + getLevelNumber size + i)) := by
    intro X hX a i
    rw [← since_zero_sub hX]
    congr 1
    push_cast
    omega
  have hsampled : sampled (held x) 0 = 0 := held_zero
  constructor
  · intro h
    refine (sampled_delay_iff (show 1 ≤ 2 + getLevelNumber size by omega)).1 fun n => ?_
    -- the vector that gives the stream itself
    have hsize : (1 :: List.replicate (size - 1) (0 : Word)).length = size := by
      rw [List.length_cons, List.length_replicate]
      omega
    obtain ⟨s, hs, hy, -⟩ := h _ hsize n
    obtain ⟨s', hs', hy'⟩ := clocks_law h2 hsize x n
    obtain rfl : s = s' := Option.some.inj (hs.symm.trans hs')
    rw [hy, since_held, conv_unit, conv_unit] at hy'
    have hseen := hdelay _ hsampled (changes (held x) n) 0
    have hthere := hdelay (held x) held_zero n 0
    rw [Nat.cast_zero, sub_zero, Nat.add_zero] at hseen hthere
    rw [← hseen, ← hthere, hy']
  · intro hfresh coeff hsize n
    obtain ⟨s, hs, hy⟩ := clocks_law h2 hsize x n
    have hconv : s.y = conv coeff (since 1 x) (n - 2 - getLevelNumber size) := by
      rw [hy, since_held]
      refine Finset.sum_congr rfl fun i _ => ?_
      rw [hdelay _ hsampled, hdelay _ held_zero, hfresh.changes_sub, sampled_changes]
    exact ⟨s, hs, hconv, by rw [parallelFir_window hsize, hconv]⟩

/-- The numbers of the clocks. -/
theorem clocks_convolution_iff_counting :
    ∃ s, clocks 2 [3, 1] (BitVec.ofNat 32) 7 = some s ∧ s.y = 15 := by
  have hfresh : Fresh (held (BitVec.ofNat 32)) := by
    intro n hn hheld
    exfalso
    unfold held at hheld
    have := congrArg BitVec.toNat hheld
    simp only [hn, if_false] at this
    split at this <;> simp at this <;> omega
  obtain ⟨s, hs, hy, -⟩ := (clocks_convolution_iff le_rfl (BitVec.ofNat 32)).2 hfresh [3, 1] rfl 7
  refine ⟨s, hs, hy.trans ?_⟩
  rw [getLevelNumber_of_le (by decide)]
  decide

/-- A stream that is held is seen once. -/
theorem changes_constant (v : Word) (n : Nat) : changes (held fun _ => v) (n + 1) ≤ 1 := by
  induction n with
  | zero => exact (changes_add_le 0 1).trans (by rw [changes_zero])
  | succ n ih =>
    have hnot : ¬ Changed (held fun _ => v) (n + 1 + 1) := by
      rw [changed_succ, not_not, held_succ, held_succ]
    rwa [changes_of_not hnot]

/-- So it never comes to `io.y`, whatever the latency. -/
theorem not_convolution_constant : ¬ ∃ d : Nat, ∀ (x : Nat → Word) (n : Nat),
    ∃ s, clocks 2 [1, 0] x n = some s ∧ s.y = conv [1, 0] (since 1 x) (n - d) := by
  rintro ⟨d, h⟩
  have hsize : ([1, 0] : List Word).length = 2 := rfl
  obtain ⟨s, hs, hy⟩ := h (fun _ => 1) (d + 1)
  obtain ⟨s', hs', hy'⟩ := clocks_law le_rfl hsize (fun _ => 1) (d + 1)
  obtain rfl : s = s' := Option.some.inj (hs.symm.trans hs')
  have hone := changes_constant 1 d
  have hzero : s.y = 0 := by
    rw [hy', getLevelNumber_of_le (by decide), conv_since_of_lt (by omega)]
  have hsum : conv [1, 0] (since 1 fun _ => (1 : Word)) ((d + 1 : Nat) - d) = 1 := by
    rw [show ((d + 1 : Nat) : Int) - d = 1 by omega]
    decide
  rw [hzero, hsum] at hy
  exact absurd hy (by decide)

end Clocks

end VirtualSoc.Fir
