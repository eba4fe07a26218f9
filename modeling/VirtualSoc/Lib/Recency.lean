import Mathlib.Data.List.Basic

/-!
# Which slot was used longest ago

The uses of some slots are a list, the last one first. A slot that was never used is older than any that
was. A store does not keep the list but ranks its slots by numbers: ages that are set to zero, or stamps from a
counter. If the ranks follow the order of the uses (`Ranked`), a slot that no other outranks is one that was never used,
if there is one, and else the one used longest ago (`oldest_new`, `oldest_last`).
-/

namespace Recency

variable {ι : Type*} [DecidableEq ι] {p : ι → Prop} {younger younger' : ι → ι → Prop} {hist : List ι} {v w : ι}

/-- `v` was used before `w`, or never. -/
def Older (hist : List ι) (v w : ι) : Prop := hist.idxOf w < hist.idxOf v

instance (hist : List ι) (v w : ι) : Decidable (Older hist v w) := inferInstanceAs (Decidable (_ < _))

/-- The ranks of the slots follow the order of the uses. -/
def Ranked (p : ι → Prop) (younger : ι → ι → Prop) (hist : List ι) : Prop :=
  ∀ v w, p v → p w → Older hist v w → younger w v

theorem Ranked.nil : Ranked p younger [] := fun _ _ _ _ h => absurd h (Nat.lt_irrefl 0)

/-- The order after one more use: the slot is the youngest, the others keep theirs. -/
theorem older_cons {u : ι} : Older (u :: hist) v w ↔ v ≠ u ∧ (w = u ∨ Older hist v w) := by
  unfold Older
  by_cases hv : v = u
  · subst hv
    simp
  · by_cases hw : w = u
    · subst hw
      simp [hv, List.idxOf_cons_ne hist (Ne.symm hv)]
    · simp [hv, hw, List.idxOf_cons_ne hist (Ne.symm hv), List.idxOf_cons_ne hist (Ne.symm hw)]

/-- Uses in a row count as one. -/
theorem older_replicate {u : ι} (n : Nat) : Older (List.replicate (n + 1) u ++ hist) v w ↔ Older (u :: hist) v w := by
  induction n with
  | zero => exact Iff.rfl
  | succ n ih =>
    rw [List.replicate_succ, List.cons_append, older_cons, ih, older_cons]
    constructor
    · rintro ⟨hv, hw | ⟨-, hw⟩⟩
      · exact ⟨hv, Or.inl hw⟩
      · exact ⟨hv, hw⟩
    · rintro ⟨hv, hw⟩
      exact ⟨hv, Or.inr ⟨hv, hw⟩⟩

/-- **A use** makes a slot younger than all others and changes nothing among these. -/
theorem Ranked.use {u : ι} (h : Ranked p younger hist) (hu : ∀ v, p v → v ≠ u → younger' u v)
    (hkeep : ∀ v w, p v → p w → v ≠ u → w ≠ u → younger w v → younger' w v) : Ranked p younger' (u :: hist) := by
  intro v w hv hw hold
  obtain ⟨hvu, rfl | hold⟩ := older_cons.1 hold
  · exact hu v hv hvu
  · by_cases hwu : w = u
    · subst hwu
      exact hu v hv hvu
    · exact hkeep v w hv hw hvu hwu (h v w hv hw hold)

theorem Ranked.uses {u : ι} {n : Nat} (hn : n ≠ 0) (h : Ranked p younger' (u :: hist)) :
    Ranked p younger' (List.replicate n u ++ hist) := by
  obtain ⟨n, rfl⟩ := Nat.exists_eq_succ_of_ne_zero hn
  exact fun v w hv hw hold => h v w hv hw ((older_replicate n).1 hold)

section Oldest

variable (h : Ranked p younger hist) (hv : p v) (hmax : ∀ w, p w → ¬ younger v w)

include h hv hmax

theorem not_older_oldest (hw : p w) : ¬ Older hist w v := fun hold => hmax w hw (h w v hw hv hold)

/-- As long as there is a slot that was never used, the oldest is one. -/
theorem oldest_new (hw : p w) (hnew : w ∉ hist) : v ∉ hist := by
  intro hmem
  refine not_older_oldest h hv hmax hw ?_
  unfold Older
  rw [List.idxOf_eq_length hnew]
  exact List.idxOf_lt_length_of_mem hmem

/-- The oldest was used before every other. -/
theorem oldest_last (hw : p w) (hne : w ≠ v) (hmem : w ∈ hist) : Older hist v w := by
  have hnot := not_older_oldest h hv hmax hw
  unfold Older at hnot ⊢
  have hidx : hist.idxOf w ≠ hist.idxOf v := fun he => hne ((List.idxOf_inj hmem).1 he)
  omega

end Oldest

end Recency
