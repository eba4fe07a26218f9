import Mathlib.Data.Nat.Nth
import Mathlib.Tactic.Common

/-!
# Sampling on change

A process that is sensitive to a value runs when the value changes, and so it sees the sequence of the values without
repetitions. `changes X n` is how often it ran up to `n`, and `sampled X k` is what it saw at its `k`-th run.

What it saw `d` runs ago is what the value was `d` instants ago only if the value changes all the time, from its
first change on (`sampled_delay_iff`).
-/

namespace Changes

variable {α : Type*} {X : Nat → α} {n d : Nat}

def Changed (X : Nat → α) (n : Nat) : Prop := n ≠ 0 ∧ X n ≠ X (n - 1)

instance [DecidableEq α] (X : Nat → α) : DecidablePred (Changed X) := fun _ => inferInstanceAs (Decidable (_ ∧ _))

/-- The value is not held, unless it never changed. -/
def Fresh (X : Nat → α) : Prop := ∀ n, n ≠ 0 → X n = X (n - 1) → ∀ j ≤ n, X j = X 0

noncomputable def sampled (X : Nat → α) : Nat → α
  | 0 => X 0
  | k + 1 => X (Nat.nth (Changed X) k)

theorem not_changed_zero : ¬ Changed X 0 := fun h => h.1 rfl

theorem changed_succ : Changed X (n + 1) ↔ X (n + 1) ≠ X n := and_iff_right (Nat.succ_ne_zero n)

variable [DecidableEq α]

def changes (X : Nat → α) (n : Nat) : Nat := Nat.count (Changed X) (n + 1)

@[simp] theorem changes_zero : changes X 0 = 0 := by
  rw [changes, Nat.count_succ, Nat.count_zero, if_neg not_changed_zero]

theorem changes_of_changed (h : Changed X (n + 1)) : changes X (n + 1) = changes X n + 1 :=
  Nat.count_succ_eq_succ_count_iff.2 h

theorem changes_of_not (h : ¬ Changed X (n + 1)) : changes X (n + 1) = changes X n :=
  Nat.count_succ_eq_count_iff.2 h

/-- What a run at a change sees. -/
theorem sampled_of_changed (h : Changed X (n + 1)) : sampled X (changes X n + 1) = X (n + 1) :=
  congrArg X (Nat.nth_count h)

theorem sampled_changes (n : Nat) : sampled X (changes X n) = X n := by
  induction n with
  | zero => rw [changes_zero, sampled]
  | succ n ih =>
    by_cases h : Changed X (n + 1)
    · rw [changes_of_changed h, sampled_of_changed h]
    · rw [changes_of_not h, ih]
      by_contra hne
      exact h (changed_succ.2 (Ne.symm hne))

theorem changes_add_le (n k : Nat) : changes X (n + k) ≤ changes X n + k := by
  induction k with
  | zero => exact le_rfl
  | succ k ih =>
    rw [← Nat.add_assoc]
    by_cases h : Changed X (n + k + 1)
    · rw [changes_of_changed h]
      omega
    · rw [changes_of_not h]
      omega

/-- Without a change there was no run. -/
theorem changes_eq_zero (h : ∀ j ≤ n, X j = X 0) : changes X n = 0 := by
  induction n with
  | zero => exact changes_zero
  | succ n ih =>
    have hnot : ¬ Changed X (n + 1) := by
      rw [changed_succ, not_not, h (n + 1) le_rfl, h n (Nat.le_succ n)]
    rw [changes_of_not hnot, ih fun j hj => h j (Nat.le_succ_of_le hj)]

/-- A value that is not held is seen at every instant. -/
theorem Fresh.changes_sub (h : Fresh X) (n d : Nat) : changes X n - d = changes X (n - d) := by
  induction d with
  | zero => rfl
  | succ d ih =>
    rw [← Nat.sub_sub, ih, ← Nat.sub_sub]
    match hm : n - d with
    | 0 => rw [changes_zero]
    | m + 1 =>
      rw [Nat.add_sub_cancel]
      by_cases hchanged : Changed X (m + 1)
      · rw [changes_of_changed hchanged, Nat.add_sub_cancel]
      · have hinit := h (m + 1) (Nat.succ_ne_zero m) (not_not.1 (mt changed_succ.2 hchanged))
        rw [changes_eq_zero hinit, changes_eq_zero fun j hj => hinit j (Nat.le_succ_of_le hj)]

section Delay

variable {p : Nat}

/-- From its first change on the value changes all the time. -/
theorem changes_of_delay (hd : 1 ≤ d) (h : ∀ n, sampled X (changes X n - d) = X (n - d)) (hp : changes X p = 1)
    (hne : X p ≠ X 0) (i : Nat) : changes X (p + i) = 1 + i := by
  induction i using Nat.strongRecOn with
  | ind i ih =>
    by_cases hi : i ≤ d
    · -- the first `d` runs are needed to see the first change
      have hsaw : changes X (p + d) - d ≠ 0 := by
        intro hzero
        have hdelay := h (p + d)
        rw [hzero, Nat.add_sub_cancel] at hdelay
        exact hne hdelay.symm
      have hle := changes_add_le (X := X) p i
      have hrest := changes_add_le (X := X) (p + i) (d - i)
      rw [show p + i + (d - i) = p + d by omega] at hrest
      omega
    · -- after them, a change `d` instants ago needs a run now
      obtain ⟨j, rfl⟩ : ∃ j, i = j + 1 := ⟨i - 1, by omega⟩
      have hj := ih j (Nat.lt_succ_self j)
      rw [← Nat.add_assoc]
      by_cases hchanged : Changed X (p + j + 1)
      · rw [changes_of_changed hchanged, hj, Nat.add_assoc]
      · exfalso
        have hbefore := ih (j - d) (by omega)
        have hafter := ih (j - d + 1) (by omega)
        have hnow := h (p + j + 1)
        rw [changes_of_not hchanged, h (p + j), show p + j - d = p + (j - d) by omega,
          show p + j + 1 - d = p + (j - d) + 1 by omega] at hnow
        have hnot : ¬ Changed X (p + (j - d) + 1) := by
          rw [changed_succ, not_not, hnow]
        rw [← Nat.add_assoc, changes_of_not hnot] at hafter
        omega

theorem exists_first_change (hne : X n ≠ X 0) : ∃ p ≤ n, changes X p = 1 ∧ X p ≠ X 0 ∧ X (p - 1) = X 0 := by
  have hex : ∃ p, X p ≠ X 0 := ⟨n, hne⟩
  have hmin : ∀ j < Nat.find hex, X j = X 0 := fun j hj => not_not.1 (Nat.find_min hex hj)
  have hspec := Nat.find_spec hex
  have hle := Nat.find_min' hex hne
  match hp : Nat.find hex with
  | 0 =>
    rw [hp] at hspec
    exact absurd rfl hspec
  | p + 1 =>
    rw [hp] at hmin hspec hle
    have hbefore := hmin p (Nat.lt_succ_self p)
    refine ⟨p + 1, hle, ?_, hspec, hbefore⟩
    rw [changes_of_changed (changed_succ.2 (by rwa [hbefore])), changes_eq_zero fun j hj => hmin j (Nat.lt_succ_of_le hj)]

/-- **What was seen `d` runs ago is what was there `d` instants ago**, if and only if the value is not held. -/
theorem sampled_delay_iff (hd : 1 ≤ d) : (∀ n, sampled X (changes X n - d) = X (n - d)) ↔ Fresh X := by
  constructor
  · intro h n hn hheld j hj
    by_contra hne
    obtain ⟨p, hpj, hp, hpne, hbefore⟩ := exists_first_change hne
    have hpn : p ≠ n := by
      rintro rfl
      exact hpne (hheld.trans hbefore)
    obtain ⟨i, rfl⟩ : ∃ i, n = p + i + 1 := ⟨n - p - 1, by omega⟩
    have hnot : ¬ Changed X (p + i + 1) := fun hchanged => hchanged.2 hheld
    have hnow := changes_of_delay hd h hp hpne (i + 1)
    rw [← Nat.add_assoc, changes_of_not hnot, changes_of_delay hd h hp hpne i] at hnow
    omega
  · intro h n
    rw [h.changes_sub, sampled_changes]

end Delay

end Changes
