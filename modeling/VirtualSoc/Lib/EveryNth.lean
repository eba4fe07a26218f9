import Mathlib.Tactic.Common
import Mathlib.Data.List.Nodup
import Mathlib.Data.List.Count

/-!
# Every n-th element of a list

`everyNth n c xs` skips `c` elements, takes one, and from then on takes every `n`-th. A counter
that is full after `n` events selects the events this way.
-/

namespace EveryNth

variable {α : Type*}

def everyNth (n : Nat) : Nat → List α → List α
  | _, [] => []
  | 0, x :: xs => x :: everyNth n (n - 1) xs
  | c + 1, _ :: xs => everyNth n c xs

variable {n c m : Nat}

theorem everyNth_sublist (n c : Nat) (xs : List α) : (everyNth n c xs).Sublist xs := by
  induction xs generalizing c with
  | nil => simp [everyNth]
  | cons x xs ih =>
    cases c with
    | zero => exact (ih (n - 1)).cons_cons x
    | succ c => exact (ih c).cons x

theorem everyNth_length (hn : 0 < n) {xs : List α} (h : xs.length = c + n * m) :
    (everyNth n c xs).length = m := by
  induction xs generalizing c m with
  | nil =>
    rw [List.length_nil] at h
    have : n * m = 0 := by omega
    rcases Nat.mul_eq_zero.1 this with h0 | h0
    · omega
    · simp [everyNth, h0]
  | cons x xs ih =>
    rw [List.length_cons] at h
    cases c with
    | zero =>
      cases m with
      | zero => omega
      | succ m =>
        rw [Nat.mul_succ] at h
        rw [everyNth, List.length_cons, ih (c := n - 1) (m := m) (by omega)]
    | succ c => exact ih (c := c) (m := m) (by omega)

/-- In a sorted list, what is taken after `c` skips has `c` copies before it, if it is the least. -/
theorem count_of_mem_everyNth {x : Nat} {xs : List Nat} (hs : xs.Pairwise (· ≤ ·)) (hx : ∀ y ∈ xs, x ≤ y)
    (h : x ∈ everyNth n c xs) : c < xs.count x := by
  induction xs generalizing c with
  | nil => simp [everyNth] at h
  | cons y ys ih =>
    obtain ⟨hy, hs⟩ := List.pairwise_cons.1 hs
    have hyx : ∀ c, x ∈ everyNth n c ys → y = x := fun c hmem =>
      Nat.le_antisymm (hy x ((everyNth_sublist n c ys).subset hmem)) (hx y (List.mem_cons_self ..))
    cases c with
    | zero =>
      rcases List.mem_cons.1 h with rfl | h
      · simp
      · simp [hyx _ h]
    | succ c =>
      have := ih hs (fun z hz => hx z (List.mem_cons_of_mem y hz)) h
      rw [hyx _ h, List.count_cons_self]
      omega

/-- In a sorted list with at most `n` copies of anything, no two that are `n` apart are equal. -/
theorem everyNth_nodup {xs : List Nat} (hs : xs.Pairwise (· ≤ ·)) (hc : ∀ k, xs.count k ≤ n) :
    (everyNth n c xs).Nodup := by
  induction xs generalizing c with
  | nil => simp [everyNth]
  | cons x xs ih =>
    obtain ⟨hx, hs⟩ := List.pairwise_cons.1 hs
    have ih : ∀ c, (everyNth n c xs).Nodup := fun c =>
      ih hs fun k => Nat.le_trans (List.count_le_count_cons ..) (hc k)
    cases c with
    | zero =>
      refine List.nodup_cons.2 ⟨fun hmem => ?_, ih _⟩
      have := count_of_mem_everyNth hs hx hmem
      have := hc x
      rw [List.count_cons_self] at this
      omega
    | succ c => exact ih _

/-- As many as there are values: each once, or one twice and another not at all. -/
theorem count_eq_one_iff_nodup {xs : List Nat} (hlen : xs.length = m) (hlt : ∀ x ∈ xs, x < m) :
    (∀ k < m, xs.count k = 1) ↔ xs.Nodup := by
  constructor
  · intro h
    exact List.nodup_iff_count_eq_one.2 fun k hk => h k (hlt k hk)
  · intro h k hk
    refine List.count_eq_one_of_mem h ?_
    have hperm : xs.Perm (List.range m) :=
      List.Subperm.perm_of_length_le (List.subperm_of_subset h fun x hx => List.mem_range.2 (hlt x hx))
        (by simp [hlen])
    exact hperm.mem_iff.2 (List.mem_range.2 hk)

end EveryNth
