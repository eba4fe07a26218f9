import VirtualSoc.Lib.EveryNth
import VirtualSoc.Gomp.WorkShare
import Mathlib.Algebra.BigOperators.Group.Finset.Basic
import Mathlib.Data.Fintype.Card
import Mathlib.Data.Fintype.BigOperators

/-!
# `GOMP_single_start` (libgomp/single.c)

The body of `GOMP_single_start` is one critical section. The descriptor counts the calls that find
it open, whichever instance they are for, so of all calls the winners are every `nthreads`-th
(`answers_count`). Each instance has one winner if and only if these are for different instances
(`single_once_iff`); so it is when no thread is an instance ahead (`nodup_of_sorted`).
-/

namespace VirtualSoc.Gomp

open EveryNth

/-- `GOMP_single_start` (single.c:40) under `ws->lock`, and what it returns. -/
def WorkShare.singleStart (ws : WorkShare) (nthreads : UInt32) : WorkShare × Bool :=
  let ret : Bool := ws.checkfirst != WS_INITED
  let ws := if ret then { ws with checkfirst := WS_INITED, completed := 0 } else ws
  let ws := { ws with completed := ws.completed + 1 }
  let ws := if ws.completed = nthreads then { ws with checkfirst := WS_NOT_INITED } else ws
  (ws, ret)

/-! ## Calls in the order of the lock -/

/-- Which instance each call is for, when the threads call in this order and each meets the
instances one after another; `met` is how many a thread has met. -/
def instances {n : Nat} : (Fin n → Nat) → List (Fin n) → List Nat
  | _, [] => []
  | met, t :: ts => met t :: instances (Function.update met t (met t + 1)) ts

/-- The calls, each with what it returns. -/
def answers (nthreads : UInt32) : WorkShare → List Nat → List (Nat × Bool)
  | _, [] => []
  | ws, k :: ks => (k, (ws.singleStart nthreads).2) :: answers nthreads (ws.singleStart nthreads).1 ks

section Answers

variable {nthreads : UInt32} {ws : WorkShare} {c k : Nat}

/-- The descriptor lets `c` more calls pass before it is free again. -/
def Left (nthreads : UInt32) (ws : WorkShare) (c : Nat) : Prop :=
  (c = 0 ∧ ws.checkfirst ≠ WS_INITED) ∨
  (0 < c ∧ c < nthreads.toNat ∧ ws.checkfirst = WS_INITED ∧ ws.completed.toNat + c = nthreads.toNat)

/-- A call on a free descriptor wins, a call on one that is taken does not. -/
theorem singleStart_left (hn : 0 < nthreads.toNat) (h : Left nthreads ws c) :
    (ws.singleStart nthreads).2 = decide (c = 0) ∧
      Left nthreads (ws.singleStart nthreads).1 (if c = 0 then nthreads.toNat - 1 else c - 1) := by
  have hlt := nthreads.toNat_lt
  rcases h with ⟨rfl, hfree⟩ | ⟨hc, hcn, hinit, hcompl⟩
  · refine ⟨by simp [WorkShare.singleStart, hfree], ?_⟩
    by_cases h1 : (1 : UInt32) = nthreads
    · subst h1
      left
      simp [WorkShare.singleStart, hfree]
      decide
    · right
      have hne : nthreads.toNat ≠ 1 := fun h => h1 (UInt32.toNat_inj.1 (by rw [h]; rfl))
      simp [WorkShare.singleStart, hfree, h1]
      omega
  · refine ⟨by simp [WorkShare.singleStart, hinit]; omega, ?_⟩
    have hsucc : (ws.completed + 1).toNat = ws.completed.toNat + 1 := by
      rw [UInt32.toNat_add, UInt32.toNat_one]
      omega
    rw [if_neg (by omega)]
    by_cases hfull : ws.completed + 1 = nthreads
    · left
      have : ws.completed.toNat + 1 = nthreads.toNat := by rw [← hsucc, hfull]
      refine ⟨by omega, ?_⟩
      simp [WorkShare.singleStart, hinit, hfull]
      decide
    · right
      have : ws.completed.toNat + 1 ≠ nthreads.toNat := fun h =>
        hfull (UInt32.toNat_inj.1 (by rw [hsucc, h]))
      refine ⟨by omega, by omega, by simp [WorkShare.singleStart, hinit, hfull], ?_⟩
      simp [WorkShare.singleStart, hinit, hfull]
      omega

/-- **The winners** are every `nthreads`-th call. -/
theorem answers_count (hn : 0 < nthreads.toNat) (ks : List Nat) (h : Left nthreads ws c) :
    (answers nthreads ws ks).count (k, true) = (everyNth nthreads.toNat c ks).count k := by
  induction ks generalizing ws c with
  | nil => simp [answers, everyNth]
  | cons j ks ih =>
    obtain ⟨hret, hleft⟩ := singleStart_left hn h
    rw [answers, hret]
    cases c with
    | zero =>
      have ih := ih hleft
      simp only [if_true] at ih
      rw [everyNth, List.count_cons, List.count_cons, ih]
      simp
    | succ c =>
      have ih := ih hleft
      simp only [Nat.add_one_ne_zero, if_false, Nat.add_sub_cancel] at ih
      rw [everyNth, List.count_cons, ih]
      simp

/-- Every call returns one thing. -/
theorem answers_total (nthreads : UInt32) (ks : List Nat) (ws : WorkShare) (k : Nat) :
    (answers nthreads ws ks).count (k, true) + (answers nthreads ws ks).count (k, false) = ks.count k := by
  induction ks generalizing ws with
  | nil => simp [answers]
  | cons j ks ih =>
    have ih := ih (ws.singleStart nthreads).1
    rw [answers, List.count_cons, List.count_cons, List.count_cons, ← ih]
    cases (ws.singleStart nthreads).2 <;> by_cases hj : j = k <;> simp [hj] <;> omega

end Answers

section Order

variable {n M : Nat}

/-- An order in which every thread makes `M` calls. -/
def Complete (M : Nat) (order : List (Fin n)) : Prop := ∀ t, order.count t = M

instance (order : List (Fin n)) : Decidable (Complete M order) := inferInstanceAs (Decidable (∀ _, _))

@[simp] theorem instances_length (met : Fin n → Nat) (order : List (Fin n)) :
    (instances met order).length = order.length := by
  induction order generalizing met with
  | nil => rfl
  | cons t ts ih => rw [instances, List.length_cons, List.length_cons, ih]

/-- The calls for instance `k` come from the threads that get past it. -/
theorem instances_count (met : Fin n → Nat) (order : List (Fin n)) (k : Nat) :
    (instances met order).count k =
      (Finset.univ.filter fun t => met t ≤ k ∧ k < met t + order.count t).card := by
  induction order generalizing met with
  | nil =>
    rw [Finset.filter_false_of_mem fun t _ => by simp]
    rfl
  | cons t ts ih =>
    have hother : ∀ d, d ≠ t → (t :: ts).count d = ts.count d := fun d hd => List.count_cons_of_ne (Ne.symm hd)
    rw [instances, List.count_cons, ih]
    by_cases hk : met t = k
    · have hins : (Finset.univ.filter fun d => met d ≤ k ∧ k < met d + (t :: ts).count d) =
          insert t (Finset.univ.filter fun d => Function.update met t (met t + 1) d ≤ k ∧
            k < Function.update met t (met t + 1) d + ts.count d) := by
        ext d
        by_cases hd : d = t
        · subst hd
          simp [hk]
        · simp [hd, hother d hd]
      rw [hins, Finset.card_insert_of_notMem (by simp [hk])]
      simp [hk]
    · rw [if_neg (by simpa using hk), Nat.add_zero]
      congr 1
      ext d
      by_cases hd : d = t
      · subst hd
        simp
        omega
      · simp [hd, hother d hd]

theorem Complete.count {order : List (Fin n)} (h : Complete M order) {k : Nat} (hk : k < M) :
    (instances (fun _ => 0) order).count k = n := by
  rw [instances_count, Finset.filter_true_of_mem fun t _ => by rw [h t]; omega, Finset.card_univ, Fintype.card_fin]

theorem Complete.lt {order : List (Fin n)} (h : Complete M order) {k : Nat}
    (hk : k ∈ instances (fun _ => 0) order) : k < M := by
  have hpos := List.count_pos_iff.2 hk
  rw [instances_count] at hpos
  obtain ⟨t, ht⟩ := Finset.card_pos.1 hpos
  have := (Finset.mem_filter.1 ht).2
  rw [h t] at this
  omega

theorem Complete.length {order : List (Fin n)} (h : Complete M order) : order.length = n * M := by
  have hsum := Finset.sum_subset (Finset.subset_univ order.toFinset)
    fun t _ ht => List.count_eq_zero.2 fun hmem => ht (List.mem_toFinset.2 hmem)
  rw [List.sum_toFinset_count_eq_length] at hsum
  rw [hsum, Finset.sum_congr rfl fun t _ => h t]
  simp

end Order

/-! ## One winner for each instance -/

section Once

variable {nthreads : UInt32} {M : Nat}

/-- Of the calls for instance `k` exactly one returns 1. -/
def OneWinner (nthreads : UInt32) (rs : List (Nat × Bool)) (k : Nat) : Prop :=
  rs.count (k, true) = 1 ∧ rs.count (k, false) = nthreads.toNat - 1

instance (rs : List (Nat × Bool)) (k : Nat) : Decidable (OneWinner nthreads rs k) :=
  inferInstanceAs (Decidable (_ ∧ _))

/-- **Single**: every instance has one winner if and only if every `nthreads`-th call, in the order
of the lock, is for another instance. -/
theorem single_once_iff {ws : WorkShare} (hn : 0 < nthreads.toNat) (hws : ws.checkfirst ≠ WS_INITED)
    {order : List (Fin nthreads.toNat)} (h : Complete M order) :
    (∀ k < M, OneWinner nthreads (answers nthreads ws (instances (fun _ => 0) order)) k) ↔
      (everyNth nthreads.toNat 0 (instances (fun _ => 0) order)).Nodup := by
  have hcount : ∀ k, (answers nthreads ws (instances (fun _ => 0) order)).count (k, true) =
      (everyNth nthreads.toNat 0 (instances (fun _ => 0) order)).count k := fun k =>
    answers_count hn _ (Or.inl ⟨rfl, hws⟩)
  have hlen : (everyNth nthreads.toNat 0 (instances (fun _ => 0) order)).length = M :=
    everyNth_length hn (by rw [instances_length, h.length, Nat.zero_add])
  have hlt : ∀ x ∈ everyNth nthreads.toNat 0 (instances (fun _ => 0) order), x < M := fun x hx =>
    h.lt ((everyNth_sublist _ _ _).subset hx)
  rw [← count_eq_one_iff_nodup hlen hlt]
  constructor
  · intro hall k hk
    rw [← hcount]
    exact (hall k hk).1
  · intro hall k hk
    have h1 := hcount k
    rw [hall k hk] at h1
    refine ⟨h1, ?_⟩
    have htotal := answers_total nthreads (instances (fun _ => 0) order) ws k
    rw [h.count hk, h1] at htotal
    omega

/-- Three threads, two instances: the first thread is through both before the others begin. -/
def harmlessSkew : List (Fin (3 : UInt32).toNat) := ([0, 0, 1, 1, 2, 2] : List (Fin 3))

theorem single_once_harmlessSkew :
    OneWinner 3 (answers 3 ⟨0, 0, 0, 0, WS_NOT_INITED, 0⟩ (instances (fun _ => 0) harmlessSkew)) 0 ∧
    OneWinner 3 (answers 3 ⟨0, 0, 0, 0, WS_NOT_INITED, 0⟩ (instances (fun _ => 0) harmlessSkew)) 1 := by
  have hcomplete : Complete 2 harmlessSkew := by decide +kernel
  have hws : (⟨0, 0, 0, 0, WS_NOT_INITED, 0⟩ : WorkShare).checkfirst ≠ WS_INITED := by decide
  have h := (single_once_iff (by decide) hws hcomplete).2 (by decide +kernel)
  exact ⟨h 0 (by decide), h 1 (by decide)⟩

def twoAhead : List (Fin (2 : UInt32).toNat) := ([0, 0, 1, 1] : List (Fin 2))

/-- With two threads the second call of the first thread completes the count of the first instance,
and the other thread wins that instance again. -/
theorem not_single_once :
    ¬ ∀ order : List (Fin (2 : UInt32).toNat), Complete 2 order →
      ∀ k < 2, OneWinner 2 (answers 2 ⟨0, 0, 0, 0, WS_NOT_INITED, 0⟩ (instances (fun _ => 0) order)) k := by
  intro h
  have h := h twoAhead (by decide +kernel)
  revert h
  decide +kernel

/-- When no call for an instance comes before a call for an earlier one, every `nthreads`-th call is
for another instance. -/
theorem nodup_of_sorted {order : List (Fin nthreads.toNat)} (h : Complete M order)
    (hs : (instances (fun _ => 0) order).Pairwise (· ≤ ·)) :
    (everyNth nthreads.toNat 0 (instances (fun _ => 0) order)).Nodup := by
  refine everyNth_nodup hs fun k => ?_
  by_cases hk : k < M
  · exact Nat.le_of_eq (h.count hk)
  · rw [List.count_eq_zero.2 fun hmem => hk (h.lt hmem)]
    exact Nat.zero_le _

end Once

end VirtualSoc.Gomp
