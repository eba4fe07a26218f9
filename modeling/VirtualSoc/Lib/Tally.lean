import Mathlib.Data.Finset.Card
import Mathlib.Data.Finset.Image
import Mathlib.Data.List.Count
import Mathlib.Logic.Function.Basic

/-!
# Tables that count

A table of (key, number) pairs tallies a list of values if its first `k` entries list each value of
the list once, with how often it occurs. One more value either raises the number of its entry
(`Tallies.again`) or is appended with the number 1 (`Tallies.fresh`), and `k` stays the number of
distinct values (`Tallies.card`).
-/

namespace Tally

variable {α : Type*} [DecidableEq α]

structure Tallies (f : Nat → α × Int) (k : Nat) (xs : List α) : Prop where
  occurs : ∀ i, i < k → (f i).1 ∈ xs
  once : ∀ i j, i < k → j < k → (f i).1 = (f j).1 → i = j
  times : ∀ i, i < k → (f i).2 = xs.count (f i).1
  listed : ∀ a ∈ xs, ∃ i, i < k ∧ (f i).1 = a

variable {f : Nat → α × Int} {k i : Nat} {xs : List α} {a : α}

theorem Tallies.nil (f : Nat → α × Int) : Tallies f 0 [] where
  occurs _ hi := absurd hi (Nat.not_lt_zero _)
  once _ _ hi := absurd hi (Nat.not_lt_zero _)
  times _ hi := absurd hi (Nat.not_lt_zero _)
  listed _ ha := absurd ha List.not_mem_nil

/-- As many entries as there are distinct values. -/
theorem Tallies.card (h : Tallies f k xs) : xs.toFinset.card = k := by
  have himage : xs.toFinset = (Finset.range k).image fun i => (f i).1 := by
    ext a
    rw [List.mem_toFinset, Finset.mem_image]
    constructor
    · intro ha
      obtain ⟨i, hi, hia⟩ := h.listed a ha
      exact ⟨i, Finset.mem_range.2 hi, hia⟩
    · rintro ⟨i, hi, rfl⟩
      exact h.occurs i (Finset.mem_range.1 hi)
  rw [himage, Finset.card_image_of_injOn, Finset.card_range]
  intro i hi j hj hij
  exact h.once i j (Finset.mem_range.1 hi) (Finset.mem_range.1 hj) hij

theorem Tallies.le_length (h : Tallies f k xs) : k ≤ xs.length := by
  rw [← h.card]
  exact xs.toFinset_card_le

/-- A value that has an entry occurs once more. -/
theorem Tallies.again (h : Tallies f k xs) (hi : i < k) :
    Tallies (Function.update f i ((f i).1, (f i).2 + 1)) k ((f i).1 :: xs) := by
  have hkey : ∀ j, (Function.update f i ((f i).1, (f i).2 + 1) j).1 = (f j).1 := by
    intro j
    by_cases hj : j = i
    · subst hj
      rw [Function.update_self]
    · rw [Function.update_of_ne hj]
  refine ⟨fun j hj => ?_, fun j l hj hl hjl => ?_, fun j hj => ?_, fun a ha => ?_⟩
  · rw [hkey]
    exact List.mem_cons_of_mem _ (h.occurs j hj)
  · rw [hkey, hkey] at hjl
    exact h.once j l hj hl hjl
  · rw [hkey]
    by_cases hji : j = i
    · subst hji
      rw [Function.update_self, List.count_cons_self, h.times j hj]
      rfl
    · have hne : (f i).1 ≠ (f j).1 := fun heq => hji (h.once j i hj hi heq.symm)
      rw [Function.update_of_ne hji, List.count_cons_of_ne hne]
      exact h.times j hj
  · have hlisted : ∃ j, j < k ∧ (f j).1 = a := by
      rcases List.mem_cons.1 ha with rfl | ha
      · exact ⟨i, hi, rfl⟩
      · exact h.listed a ha
    obtain ⟨j, hj, hja⟩ := hlisted
    exact ⟨j, hj, (hkey j).trans hja⟩

/-- A value that has no entry gets the next one. -/
theorem Tallies.fresh (h : Tallies f k xs) (ha : a ∉ xs) :
    Tallies (Function.update f k (a, 1)) (k + 1) (a :: xs) := by
  have hold : ∀ j, j < k → Function.update f k (a, 1) j = f j := fun j hj =>
    Function.update_of_ne (Nat.ne_of_lt hj) ..
  have hne : ∀ j, j < k → (f j).1 ≠ a := fun j hj heq => ha (heq ▸ h.occurs j hj)
  refine ⟨fun j hj => ?_, fun j l hj hl hjl => ?_, fun j hj => ?_, fun b hb => ?_⟩
  · rcases Nat.lt_succ_iff_lt_or_eq.1 hj with hj | rfl
    · rw [hold j hj]
      exact List.mem_cons_of_mem _ (h.occurs j hj)
    · rw [Function.update_self]
      exact List.mem_cons_self
  · rcases Nat.lt_succ_iff_lt_or_eq.1 hj with hj | rfl <;> rcases Nat.lt_succ_iff_lt_or_eq.1 hl with hl | rfl
    · rw [hold j hj, hold l hl] at hjl
      exact h.once j l hj hl hjl
    · rw [hold j hj, Function.update_self] at hjl
      exact absurd hjl (hne j hj)
    · rw [hold l hl, Function.update_self] at hjl
      exact absurd hjl.symm (hne l hl)
    · rfl
  · rcases Nat.lt_succ_iff_lt_or_eq.1 hj with hj | rfl
    · rw [hold j hj, List.count_cons_of_ne (hne j hj).symm]
      exact h.times j hj
    · rw [Function.update_self, List.count_cons_self, List.count_eq_zero.2 ha]
      rfl
  · rcases List.mem_cons.1 hb with rfl | hb
    · exact ⟨k, Nat.lt_succ_self k, by rw [Function.update_self]⟩
    · obtain ⟨j, hj, hjb⟩ := h.listed b hb
      exact ⟨j, Nat.lt_succ_of_lt hj, by rw [hold j hj, hjb]⟩

end Tally
