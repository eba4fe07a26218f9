import Mathlib.Logic.Function.Basic
import Mathlib.Data.List.Count
import VirtualSoc.Lib.Transition

/-!
# Threads that share nothing

Each thread has a state and a step of its own, and a schedule says whose turn it is.

* `run_turn`: what a thread comes to depends on how many turns it had, and on nothing else.
* `turns_inv` is the rule for one of them: with an invariant under which it does not fail, and a measure that each
  turn brings down, it is finished when it had enough of them.
-/

namespace Threads

variable {ι σ : Type*} [DecidableEq ι]

/-- `n` turns of one thread. -/
def turns (step : σ → Option σ) : Nat → σ → Option σ
  | 0, s => some s
  | n + 1, s => (step s).bind (turns step n)

/-- A thread that only waits. -/
theorem turns_some (n : Nat) (s : σ) : turns some n s = some s := by
  induction n with
  | zero => rfl
  | succ n ih => exact ih

/-- The turn of thread `i`. -/
def turn (step : ι → σ → Option σ) (s : ι → σ) (i : ι) : Option (ι → σ) :=
  (step i (s i)).map (Function.update s i)

/-- **Independence**: a schedule has the effect that the turns of each thread have on its own state. -/
theorem run_turn {step : ι → σ → Option σ} {s t : ι → σ} {is : List ι} :
    Trans.run (turn step) s is = some t ↔ ∀ i, turns (step i) (is.count i) (s i) = some (t i) := by
  induction is generalizing s with
  | nil =>
    simp only [Trans.run_nil, List.count_nil, turns, Option.some.injEq]
    exact funext_iff
  | cons j is ih =>
    rw [Trans.run_cons]
    constructor
    · rintro ⟨u, hu, hr⟩ i
      obtain ⟨v, hv, rfl⟩ := Option.map_eq_some_iff.1 hu
      have h := ih.1 hr i
      by_cases hi : i = j
      · subst hi
        rw [Function.update_self] at h
        rw [List.count_cons_self, turns, hv]
        exact h
      · rw [Function.update_of_ne hi] at h
        rwa [List.count_cons_of_ne (Ne.symm hi)]
    · intro h
      have hj := h j
      rw [List.count_cons_self, turns] at hj
      obtain ⟨v, hv, hrest⟩ := Option.bind_eq_some_iff.1 hj
      refine ⟨Function.update s j v, by rw [turn, hv]; rfl, ih.2 fun i => ?_⟩
      by_cases hi : i = j
      · subst hi
        rwa [Function.update_self]
      · rw [Function.update_of_ne hi]
        have hi' := h i
        rwa [List.count_cons_of_ne (Ne.symm hi)] at hi'

theorem turns_inv {step : σ → Option σ} (I : σ → Prop) (left : σ → Nat)
    (hstep : ∀ s, I s → ∃ t, step s = some t ∧ I t ∧ left t ≤ left s - 1) (n : Nat) {s : σ} (h0 : I s) :
    ∃ t, turns step n s = some t ∧ I t ∧ left t ≤ left s - n := by
  induction n generalizing s with
  | zero => exact ⟨s, rfl, h0, Nat.le_refl _⟩
  | succ n ih =>
    obtain ⟨u, hu, hI, hleft⟩ := hstep s h0
    obtain ⟨t, ht, hI, hleft'⟩ := ih hI
    exact ⟨t, by rw [turns, hu]; exact ht, hI, by omega⟩

end Threads
