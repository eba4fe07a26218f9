import Mathlib.Tactic.Common
import Mathlib.Data.List.FinRange

/-!
# Scanning a request line for the first requester

Arbiters look for the first of `n` requesters, either from index 0 (fixed priority) or from
a moving start point (round robin), where the `k`-th candidate is `(start + k) % n`. A scan
fails exactly when nobody requests, and otherwise it returns a requester; `rank_after`: each scan
that begins behind the last one found brings every other requester nearer.
-/

namespace Scan

variable {n : Nat}

/-- The `k`-th candidate of a scan that begins at `start`. -/
def rot (start : Nat) (k : Fin n) : Fin n := ⟨(start + k) % n, Nat.mod_lt _ k.pos⟩

/-- Lowest index first. -/
def first (p : Fin n → Bool) : Option (Fin n) := (List.finRange n).find? p

/-- Candidates in the order `start, start + 1, ..` modulo `n`. -/
def firstFrom (start : Nat) (p : Fin n → Bool) : Option (Fin n) :=
  ((List.finRange n).map (rot start)).find? p

/-- The place of `j` in the order of a scan from `start`. -/
def rank (start : Nat) (j : Fin n) : Nat := (j + (n - start % n)) % n

theorem rank_lt (start : Nat) (j : Fin n) : rank start j < n := Nat.mod_lt _ j.pos

theorem rot_rank (start : Nat) (j : Fin n) : rot start ⟨rank start j, rank_lt start j⟩ = j := by
  have hs := Nat.mod_lt start j.pos
  apply Fin.ext
  simp only [rot, rank, Nat.add_mod_mod]
  rw [← Nat.mod_add_mod, show start % n + (j + (n - start % n)) = j + n by omega, Nat.add_mod_right,
    Nat.mod_eq_of_lt j.isLt]

theorem rot_surj (start : Nat) (j : Fin n) : ∃ k, rot start k = j :=
  ⟨⟨rank start j, rank_lt start j⟩, rot_rank start j⟩

theorem first_some {p : Fin n → Bool} {k : Fin n} (h : first p = some k) : p k = true :=
  List.find?_some h

theorem first_none {p : Fin n → Bool} : first p = none ↔ ∀ k, p k = false := by
  simp [first, List.find?_eq_none]

theorem firstFrom_some {start : Nat} {p : Fin n → Bool} {k : Fin n} (h : firstFrom start p = some k) :
    p k = true :=
  List.find?_some h

theorem firstFrom_none {start : Nat} {p : Fin n → Bool} :
    firstFrom start p = none ↔ ∀ k, p k = false := by
  simp only [firstFrom, List.find?_eq_none, List.mem_map, List.mem_finRange, true_and,
    forall_exists_index, forall_apply_eq_imp_iff, Bool.not_eq_true]
  constructor
  · intro h k
    obtain ⟨j, rfl⟩ := rot_surj start k
    exact h j
  · intro h k; exact h _

/-! ## How soon a scan comes to a requester -/

theorem rank_rot (start : Nat) (k : Fin n) : rank start (rot start k) = k := by
  have hs := Nat.mod_lt start k.pos
  have hd := Nat.div_add_mod start n
  simp only [rank, rot]
  rw [Nat.mod_add_mod, show start + k + (n - start % n) = k + n * (start / n + 1) by rw [Nat.mul_add]; omega,
    Nat.add_mul_mod_self_left, Nat.mod_eq_of_lt k.isLt]

/-- A scan that begins after the `a`-th candidate of another one. -/
theorem rot_after (start : Nat) {a b c : Fin n} (h : (c : Nat) = a + b + 1) :
    rot (rot start a + 1) b = rot start c := by
  apply Fin.ext
  simp only [rot]
  rw [Nat.add_assoc, Nat.mod_add_mod, h]
  congr 1
  omega

/-- A requester is never passed by one behind it in the order of the scan. -/
theorem firstFrom_rank {start : Nat} {p : Fin n → Bool} {l k : Fin n} (h : firstFrom start p = some l)
    (hk : p k = true) : rank start l ≤ rank start k := by
  obtain ⟨-, i, hi, hl, hbefore⟩ := List.find?_eq_some_iff_getElem.1 h
  simp only [List.getElem_map, List.getElem_finRange, List.length_map, List.length_finRange] at hi hl hbefore
  by_contra hlt
  have hli : rank start l = i := by
    rw [← hl]
    exact rank_rot start _
  have := hbefore (rank start k) (by omega)
  rw [show (Fin.cast _ ⟨rank start k, _⟩ : Fin n) = ⟨rank start k, rank_lt start k⟩ from rfl, rot_rank, hk] at this
  cases this

/-- After a scan that found somebody else, a requester is nearer to the new start. -/
theorem rank_after {start : Nat} {p : Fin n → Bool} {l k : Fin n} (h : firstFrom start p = some l)
    (hk : p k = true) (hne : l ≠ k) : rank (l + 1) k < rank start k := by
  have hle := firstFrom_rank h hk
  have hl := rot_rank start l
  have hk' := rot_rank start k
  have hkn := rank_lt start k
  have hlt : rank start l < rank start k := by
    refine lt_of_le_of_ne hle fun he => hne ?_
    rw [← hl, ← hk']
    exact congrArg (rot start) (Fin.ext he)
  -- from the one found, the requester is as many places ahead as the ranks differ
  obtain ⟨d, hd⟩ := Nat.exists_eq_add_of_lt hlt
  have hdn : d < n := by omega
  have hrot : rot (l + 1) ⟨d, hdn⟩ = k := by
    have := rot_after start (a := ⟨rank start l, rank_lt start l⟩) (b := ⟨d, hdn⟩)
      (c := ⟨rank start k, rank_lt start k⟩) hd
    rw [hl, hk'] at this
    exact this
  have hrank := rank_rot (l + 1) ⟨d, hdn⟩
  rw [hrot] at hrank
  rw [hrank]
  change d < rank start k
  omega

/-! ## A single requester -/

theorem filter_finRange {p : Fin n → Bool} {k : Fin n} (h : ∀ l, p l = true ↔ l = k) :
    (List.finRange n).filter p = [k] := by
  have hp : p = fun l => l == k := by
    funext l
    rw [Bool.eq_iff_iff, h l, beq_iff_eq]
  rw [hp, List.filter_beq, List.count_eq_one_of_mem (List.nodup_finRange n) (List.mem_finRange k),
    List.replicate_one]

theorem first_unique {p : Fin n → Bool} {k : Fin n} (h : ∀ l, p l = true ↔ l = k) : first p = some k := by
  cases hf : first p with
  | none =>
    have hk := first_none.1 hf k
    rw [(h k).2 rfl] at hk
    cases hk
  | some l => rw [(h l).1 (first_some hf)]

end Scan
