import Mathlib.Tactic.Common
import Mathlib.Logic.Function.Basic
import VirtualSoc.Lib.Scan

/-!
# The books of a crossbar

`n` requesters share `m` targets. An arbiter keeps, besides the sampled requests `req`, a table
(who waits for or is served by which target), the rows `grp` (the group each target serves
now) and a flag `served` for each requester. `Books` says that the four fit together under a
routing relation; the lemmas are the moves such an arbiter makes: scan new requests into the
table, grant, release a group, and serve a waiting requester. `Matching` is what is left of them
where a requester may be served by any target, and a target serves one at a time.
-/

namespace Crossbar

variable {n m : Nat}

/-- Who a free target is given to: the lowest index, or the first from a moving start. -/
inductive Sched | fixedPriority | roundRobin
deriving DecidableEq, Repr

def Sched.pick (sched : Sched) (start : Nat) (p : Fin n → Bool) : Option (Fin n) :=
  match sched with
  | .fixedPriority => Scan.first p
  | .roundRobin => Scan.firstFrom start p

theorem Sched.pick_some {sched : Sched} {start : Nat} {p : Fin n → Bool} {k : Fin n}
    (h : sched.pick start p = some k) : p k = true := by
  cases sched with
  | fixedPriority => exact Scan.first_some h
  | roundRobin => exact Scan.firstFrom_some h

theorem Sched.pick_none {sched : Sched} {start : Nat} {p : Fin n → Bool} :
    sched.pick start p = none ↔ ∀ k, p k = false := by
  cases sched with
  | fixedPriority => exact Scan.first_none
  | roundRobin => exact Scan.firstFrom_none

/-- Sampled requests `R`, served flags `S`, table `T` and groups `G` fit together. -/
structure Books (route : Fin n → Fin m → Prop) (R S : Fin n → Bool) (T G : Fin m → Fin n → Bool) : Prop where
  inj : ∀ k i j, route k i → route k j → i = j
  table : ∀ i k, T i k = true → R k = true ∧ route k i
  grp : ∀ i k, G i k = true → T i k = true ∧ S k = true
  served : ∀ k, S k = true → ∃ i, G i k = true

namespace Books

variable {route route' : Fin n → Fin m → Prop} {R S : Fin n → Bool} {T G : Fin m → Fin n → Bool}
  {i j : Fin m} {k l : Fin n}

theorem table_inj (h : Books route R S T G) (hi : T i k = true) (hj : T j k = true) :
    i = j :=
  h.inj k i j (h.table i k hi).2 (h.table j k hj).2

/-- A requester is served by one target only. -/
theorem grp_inj (h : Books route R S T G) (hi : G i k = true) (hj : G j k = true) : i = j :=
  h.table_inj (h.grp i k hi).1 (h.grp j k hj).1

/-- Whoever is in the table of a target but not in its group has not been served. -/
theorem not_served (h : Books route R S T G) (hr : route k i) (hg : G i k = false) :
    S k = false := by
  by_contra hs
  obtain ⟨j, hj⟩ := h.served k (by simpa using hs)
  have hij := h.inj k i j hr (h.table j k (h.grp j k hj).1).2
  subst hij
  rw [hg] at hj
  cases hj

/-- Requests outside the table may come and go, and change their target. -/
theorem reroute (h : Books route R S T G) {R' : Fin n → Bool}
    (inj : ∀ k i j, route' k i → route' k j → i = j)
    (hk : ∀ i k, T i k = true → R' k = true ∧ route' k i) : Books route' R' S T G :=
  ⟨inj, hk, h.grp, h.served⟩

/-- New requests enter the table. -/
theorem scan (h : Books route R S T G) {T' : Fin m → Fin n → Bool}
    (hmono : ∀ i k, T i k = true → T' i k = true)
    (hnew : ∀ i k, T' i k = true → T i k = true ∨ R k = true ∧ route k i) :
    Books route R S T' G where
  inj := h.inj
  table i k hk := (hnew i k hk).elim (h.table i k) id
  grp i k hk := ⟨hmono i k (h.grp i k hk).1, (h.grp i k hk).2⟩
  served := h.served

/-- Groups grow by requesters of their row. -/
theorem grant (h : Books route R S T G) {S' : Fin n → Bool} {G' : Fin m → Fin n → Bool}
    (hgrp : ∀ i k, G' i k = true → T i k = true ∧ S' k = true)
    (hserved : ∀ k, S' k = true → ∃ i, G' i k = true) : Books route R S' T G' :=
  ⟨h.inj, h.table, hgrp, hserved⟩

/-- Target `i` lets its group go. -/
theorem finish (h : Books route R S T G) (i : Fin m) :
    Books route (fun k => !G i k && R k) (fun k => !G i k && S k)
      (Function.update T i fun k => !G i k && T i k) (Function.update G i fun _ => false) := by
  have hrow : ∀ j k, j ≠ i → T j k = true → G i k = false := by
    intro j k hj ht
    by_contra hg
    exact hj (h.table_inj ht (h.grp i k (by simpa using hg)).1)
  constructor
  · exact h.inj
  · intro j k hk
    by_cases hj : j = i
    · subst hj
      simp only [Function.update_self, Bool.and_eq_true] at hk
      exact ⟨by simp [hk.1, (h.table j k hk.2).1], (h.table j k hk.2).2⟩
    · rw [Function.update_of_ne hj] at hk
      exact ⟨by simp [hrow j k hj hk, (h.table j k hk).1], (h.table j k hk).2⟩
  · intro j k hk
    by_cases hj : j = i
    · subst hj; simp at hk
    · rw [Function.update_of_ne hj] at hk
      obtain ⟨ht, hs⟩ := h.grp j k hk
      exact ⟨by rw [Function.update_of_ne hj]; exact ht, by simp [hrow j k hj ht, hs]⟩
  · intro k hk
    simp only [Bool.and_eq_true, Bool.not_eq_true'] at hk
    obtain ⟨j, hj⟩ := h.served k hk.2
    have hji : j ≠ i := by
      rintro rfl
      rw [hk.1] at hj
      cases hj
    exact ⟨j, by rw [Function.update_of_ne hji]; exact hj⟩

/-- Target `i` takes up requester `l` of its row. -/
theorem serve (h : Books route R S T G) (hl : T i l = true) :
    Books route R (Function.update S l true) T (Function.update G i (Function.update (G i) l true)) := by
  constructor
  · exact h.inj
  · exact h.table
  · intro j k hk
    by_cases hkl : k = l
    · subst hkl
      refine ⟨?_, by simp⟩
      by_cases hj : j = i
      · subst hj; exact hl
      · rw [Function.update_of_ne hj] at hk; exact (h.grp j k hk).1
    · have hg : G j k = true := by
        by_cases hj : j = i
        · subst hj; simpa [hkl] using hk
        · simpa [hj] using hk
      exact ⟨(h.grp j k hg).1, by simp [hkl, (h.grp j k hg).2]⟩
  · intro k hk
    by_cases hkl : k = l
    · exact ⟨i, by simp [hkl]⟩
    · rw [Function.update_of_ne hkl] at hk
      obtain ⟨j, hj⟩ := h.served k hk
      refine ⟨j, ?_⟩
      by_cases hji : j = i
      · subst hji; simp [hkl, hj]
      · simp [hji, hj]

end Books

/-! ## Matchings

Where a target serves one requester at a time, `serves` is a matching of targets and requesters, and `taken`
says which requesters are in it.
-/

structure Matching (serves : Fin m → Option (Fin n)) (taken : Fin n → Bool) : Prop where
  inj : ∀ i j k, serves i = some k → serves j = some k → i = j
  taken : ∀ k, taken k = true ↔ ∃ i, serves i = some k

namespace Matching

variable {serves : Fin m → Option (Fin n)} {taken : Fin n → Bool} {i : Fin m} {k : Fin n}

/-- A free target takes a free requester. -/
theorem assign (h : Matching serves taken) (hi : serves i = none) (hk : taken k = false) :
    Matching (Function.update serves i (some k)) (Function.update taken k true) := by
  have hno : ∀ j, serves j ≠ some k := by
    intro j hj
    rw [(h.taken k).2 ⟨j, hj⟩] at hk
    cases hk
  constructor
  · intro j j' l hj hj'
    by_cases h1 : j = i
    · by_cases h2 : j' = i
      · rw [h1, h2]
      · rw [h1, Function.update_self] at hj
        rw [Function.update_of_ne h2, ← hj] at hj'
        exact absurd hj' (hno j')
    · rw [Function.update_of_ne h1] at hj
      by_cases h2 : j' = i
      · rw [h2, Function.update_self] at hj'
        rw [← hj'] at hj
        exact absurd hj (hno j)
      · rw [Function.update_of_ne h2] at hj'
        exact h.inj j j' l hj hj'
  · intro l
    by_cases hl : l = k
    · subst hl
      rw [Function.update_self]
      exact ⟨fun _ => ⟨i, Function.update_self ..⟩, fun _ => rfl⟩
    · rw [Function.update_of_ne hl, h.taken l]
      constructor
      · rintro ⟨j, hj⟩
        refine ⟨j, ?_⟩
        rw [Function.update_of_ne]
        · exact hj
        · rintro rfl
          rw [hi] at hj
          cases hj
      · rintro ⟨j, hj⟩
        by_cases hji : j = i
        · rw [hji, Function.update_self] at hj
          exact absurd (Option.some.inj hj).symm hl
        · rw [Function.update_of_ne hji] at hj
          exact ⟨j, hj⟩

/-- A target lets its requester go. -/
theorem release (h : Matching serves taken) (hi : serves i = some k) :
    Matching (Function.update serves i none) (Function.update taken k false) := by
  have hne : ∀ {j l}, Function.update serves i none j = some l → j ≠ i ∧ serves j = some l := by
    intro j l hj
    by_cases hji : j = i
    · rw [hji, Function.update_self] at hj
      cases hj
    · rw [Function.update_of_ne hji] at hj
      exact ⟨hji, hj⟩
  constructor
  · exact fun j j' l hj hj' => h.inj j j' l (hne hj).2 (hne hj').2
  · intro l
    by_cases hl : l = k
    · subst hl
      rw [Function.update_self]
      constructor
      · intro hf
        cases hf
      · rintro ⟨j, hj⟩
        exact absurd (h.inj j i l (hne hj).2 hi) (hne hj).1
    · rw [Function.update_of_ne hl, h.taken l]
      constructor
      · rintro ⟨j, hj⟩
        refine ⟨j, ?_⟩
        rw [Function.update_of_ne]
        · exact hj
        · rintro rfl
          rw [hi] at hj
          exact hl (Option.some.inj hj).symm
      · exact fun ⟨j, hj⟩ => ⟨j, (hne hj).2⟩

end Matching

end Crossbar
