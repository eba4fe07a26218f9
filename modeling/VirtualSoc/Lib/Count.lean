import Mathlib.Logic.Function.Basic
import Mathlib.Data.Fintype.Card

/-!
# How many parties are in a state

`count p f` is the number of parties `i` with `p (f i)`. One party moves at a time, so the
lemmas are about `Function.update`.
-/

namespace Count

variable {ι α : Type*} [Fintype ι] (p : α → Prop) [DecidablePred p]

def count (f : ι → α) : Nat := (Finset.univ.filter fun i => p (f i)).card

variable {p} {f : ι → α} {t : ι} {x : α}

/-- A move that keeps the party on its side. -/
theorem count_update_same [DecidableEq ι] (h : p (f t) ↔ p x) : count p (Function.update f t x) = count p f := by
  unfold count
  congr 1
  ext i
  by_cases hi : i = t
  · subst hi
    simp [h]
  · simp [hi]

/-- A move into `p`. -/
theorem count_update_new [DecidableEq ι] (h : ¬ p (f t)) (hx : p x) :
    count p (Function.update f t x) = count p f + 1 := by
  unfold count
  have hins : (Finset.univ.filter fun i => p (Function.update f t x i)) =
      insert t (Finset.univ.filter fun i => p (f i)) := by
    ext i
    by_cases hi : i = t
    · subst hi
      simp [hx]
    · simp [hi]
  rw [hins, Finset.card_insert_of_notMem (by simp [h])]

/-- A move out of `p`. -/
theorem count_update_old [DecidableEq ι] (h : p (f t)) (hx : ¬ p x) :
    count p (Function.update f t x) + 1 = count p f := by
  have hback := count_update_new (p := p) (f := Function.update f t x) (t := t) (x := f t) (by simpa using hx) h
  rw [Function.update_idem, Function.update_eq_self] at hback
  exact hback.symm

theorem count_lt (h : ¬ p (f t)) : count p f < Fintype.card ι :=
  Finset.card_lt_univ_of_notMem (x := t) (by simp [h])

theorem count_eq_card_iff : count p f = Fintype.card ι ↔ ∀ i, p (f i) := by
  constructor
  · intro h i
    by_contra hi
    have := count_lt (f := f) hi
    omega
  · intro h
    rw [count, Finset.filter_true_of_mem fun i _ => h i, Finset.card_univ]

theorem count_eq_zero (h : ∀ i, ¬ p (f i)) : count p f = 0 := by
  rw [count, Finset.filter_false_of_mem fun i _ => h i, Finset.card_empty]

end Count
