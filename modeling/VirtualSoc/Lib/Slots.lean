import Mathlib.Tactic.Common
import Mathlib.Logic.Function.Basic

/-!
# Slots of an associative store

A store keeps copies of lines in slots: each slot has a tag, a valid bit and data. `Sound` says that
the valid slots hold what their tags stand for, `Distinct` that no two of them have one tag. Both
survive that all slots are invalidated, and that a slot is given a line that is `Missing` elsewhere.
-/

namespace Slots

structure Slot (τ β : Type*) where
  tag : τ
  valid : Bool
  data : β

variable {ι τ β : Type*} {holds : τ → β → Prop} {slots : ι → Slot τ β} {t : τ} {p : ι} {r : Slot τ β}

/-- A valid slot has data that its tag stands for. -/
def Sound (holds : τ → β → Prop) (slots : ι → Slot τ β) : Prop :=
  ∀ i, (slots i).valid = true → holds (slots i).tag (slots i).data

def Distinct (slots : ι → Slot τ β) : Prop :=
  ∀ i j, (slots i).valid = true → (slots j).valid = true → (slots i).tag = (slots j).tag → i = j

/-- No valid slot but `p` has the tag. -/
def Missing (slots : ι → Slot τ β) (p : ι) (t : τ) : Prop :=
  ∀ i, i ≠ p → (slots i).valid = true → (slots i).tag ≠ t

/-- The slots with every valid bit down. -/
def clear (slots : ι → Slot τ β) : ι → Slot τ β := fun i => { slots i with valid := false }

@[simp] theorem clear_valid (slots : ι → Slot τ β) (i : ι) : (clear slots i).valid = false := rfl

@[simp] theorem clear_tag (slots : ι → Slot τ β) (i : ι) : (clear slots i).tag = (slots i).tag := rfl

theorem Sound.of_invalid (h : ∀ i, (slots i).valid = false) : Sound holds slots := by
  intro i hi
  rw [h] at hi
  cases hi

theorem Distinct.of_invalid (h : ∀ i, (slots i).valid = false) : Distinct slots := by
  intro i _ hi
  rw [h] at hi
  cases hi

variable [DecidableEq ι]

/-- **A fill keeps the store sound** if the line is right. -/
theorem Sound.fill (h : Sound holds slots) (hr : r.valid = true → holds r.tag r.data) :
    Sound holds (Function.update slots p r) := by
  intro i hi
  by_cases hip : i = p
  · subst hip
    rw [Function.update_self] at hi ⊢
    exact hr hi
  · rw [Function.update_of_ne hip] at hi ⊢
    exact h i hi

/-- **A fill keeps the tags distinct** if the line is missing elsewhere. -/
theorem Distinct.fill (h : Distinct slots) (hm : Missing slots p r.tag) :
    Distinct (Function.update slots p r) := by
  intro i j hi hj htag
  by_cases hip : i = p
  · by_cases hjp : j = p
    · rw [hip, hjp]
    · rw [Function.update_of_ne hjp] at hj htag
      rw [hip, Function.update_self] at htag
      exact absurd htag.symm (hm j hjp hj)
  · rw [Function.update_of_ne hip] at hi htag
    by_cases hjp : j = p
    · rw [hjp, Function.update_self] at htag
      exact absurd htag (hm i hip hi)
    · rw [Function.update_of_ne hjp] at hj htag
      exact h i j hi hj htag

end Slots
