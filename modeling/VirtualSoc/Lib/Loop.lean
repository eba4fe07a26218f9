import Mathlib.Tactic.Common
import Mathlib.Tactic.Linarith
import Mathlib.Data.List.Nodup

/-!
# The iterations of a counted loop

`iters incr i stop` is what `for (i = ..; incr > 0 ? i < stop : i > stop; i += incr)` visits.
A loop can be cut at any point it visits (`iters_split`), and it visits nothing twice
(`iters_nodup`). `range_inv` is the invariant rule for a loop from 0, and `range_some`
the rule for one whose body can fail: with an invariant that each iteration keeps up and under which it
does not fail, the loop ends in it; `range_none` is for the loop that comes to an iteration where it fails.
-/

namespace Loop

/-- The condition of the loop. -/
def Runs (incr i stop : Int) : Prop := 0 < incr ∧ i < stop ∨ incr < 0 ∧ stop < i

instance (incr i stop : Int) : Decidable (Runs incr i stop) := inferInstanceAs (Decidable (_ ∨ _))

def iters (incr i stop : Int) : List Int :=
  if Runs incr i stop then i :: iters incr (i + incr) stop else []
termination_by (if 0 < incr then stop - i else i - stop).toNat
decreasing_by
  rename_i h
  unfold Runs at h
  split <;> omega

/-- `j` is at or past `i` in the direction of the step. -/
def Toward (incr i j : Int) : Prop := 0 < incr ∧ i ≤ j ∨ incr < 0 ∧ j ≤ i

variable {incr i j k stop : Int}

theorem iters_cons (h : Runs incr i stop) : iters incr i stop = i :: iters incr (i + incr) stop := by
  rw [iters, if_pos h]

theorem iters_nil (h : ¬ Runs incr i stop) : iters incr i stop = [] := by
  rw [iters, if_neg h]

@[simp] theorem iters_self : iters incr i i = [] := iters_nil (by unfold Runs; omega)

theorem iters_ne_nil (h : Runs incr i stop) : iters incr i stop ≠ [] := by
  rw [iters_cons h]; exact List.cons_ne_nil _ _

theorem Toward.refl (h : incr ≠ 0) : Toward incr i i := by unfold Toward; omega

theorem Toward.trans (h1 : Toward incr i j) (h2 : Toward incr j k) : Toward incr i k := by
  unfold Toward at *; omega

theorem Toward.runs (h : Toward incr i j) (hne : i ≠ j) : Runs incr i j := by
  unfold Toward at h; unfold Runs; omega

theorem Runs.toward (h : Runs incr i j) : Toward incr i j := by
  unfold Runs at h; unfold Toward; omega

/-- **The loop can be cut** after any number of whole steps that do not pass its end. -/
theorem iters_split (c : Nat) (h : Toward incr (i + c * incr) stop) :
    iters incr i stop = iters incr i (i + c * incr) ++ iters incr (i + c * incr) stop := by
  induction c generalizing i with
  | zero => simp
  | succ c ih =>
    have hstep : i + ((c + 1 : Nat) : Int) * incr = i + incr + c * incr := by push_cast; linarith
    rw [hstep] at h ⊢
    have hruns : Runs incr i (i + incr + c * incr) := by
      unfold Toward at h
      unfold Runs
      rcases h with ⟨hpos, -⟩ | ⟨hneg, -⟩
      · have : 0 ≤ (c : Int) * incr := Int.mul_nonneg (Int.natCast_nonneg c) (by omega)
        omega
      · have : (c : Int) * incr ≤ 0 := Int.mul_nonpos_of_nonneg_of_nonpos (Int.natCast_nonneg c) (by omega)
        omega
    have hruns' : Runs incr i stop := by unfold Runs Toward at *; omega
    rw [iters_cons hruns, iters_cons hruns', List.cons_append, ih h]

theorem mem_iters {x : Int} (h : x ∈ iters incr i stop) : Toward incr i x ∧ Runs incr x stop := by
  fun_induction iters incr i stop with
  | case1 i hr ih =>
    rcases List.mem_cons.1 h with rfl | h
    · exact ⟨Toward.refl (by unfold Runs at hr; omega), hr⟩
    · obtain ⟨h1, h2⟩ := ih h
      exact ⟨by unfold Toward at *; omega, h2⟩
  | case2 i hr => cases h

theorem iters_nodup (incr i stop : Int) : (iters incr i stop).Nodup := by
  fun_induction iters incr i stop with
  | case1 i hr ih =>
    refine List.nodup_cons.2 ⟨fun hmem => ?_, ih⟩
    have := (mem_iters hmem).1
    unfold Toward at this
    omega
  | case2 i hr => exact List.nodup_nil

/-! ## Loops from 0 -/

theorem range_inv {σ : Type*} {f : σ → Nat → σ} {I : Nat → σ → Prop} {n : Nat} {s : σ} (h0 : I 0 s)
    (hstep : ∀ i s, i < n → I i s → I (i + 1) (f s i)) : I n ((List.range n).foldl f s) := by
  induction n with
  | zero => exact h0
  | succ n ih =>
    rw [List.range_succ, List.foldl_append]
    exact hstep n _ (Nat.lt_succ_self n) (ih fun i s hi => hstep i s (Nat.lt_succ_of_lt hi))

theorem range_some {σ : Type*} {f : σ → Nat → Option σ} {I : Nat → σ → Prop} {n : Nat} {s : σ} (h0 : I 0 s)
    (hstep : ∀ i s, i < n → I i s → ∃ t, f s i = some t ∧ I (i + 1) t) :
    ∃ t, (List.range n).foldlM f s = some t ∧ I n t := by
  induction n with
  | zero => exact ⟨s, rfl, h0⟩
  | succ n ih =>
    obtain ⟨u, hu, hI⟩ := ih fun i s hi => hstep i s (Nat.lt_succ_of_lt hi)
    obtain ⟨t, ht, hI⟩ := hstep n u (Nat.lt_succ_self n) hI
    refine ⟨t, ?_, hI⟩
    rw [List.range_succ, List.foldlM_append, hu]
    simp [ht]

theorem range_none {σ : Type*} {f : σ → Nat → Option σ} {I : Nat → σ → Prop} {P : Nat → Prop} {n : Nat} {s : σ}
    (h0 : I 0 s) (hstep : ∀ i s, i < n → P i → I i s → ∃ t, f s i = some t ∧ I (i + 1) t)
    (hfail : ∀ i s, i < n → ¬ P i → I i s → f s i = none) (hP : ¬ ∀ i < n, P i) :
    (List.range n).foldlM f s = none := by
  induction n with
  | zero => exact absurd (fun i hi => absurd hi (Nat.not_lt_zero i)) hP
  | succ n ih =>
    rw [List.range_succ, List.foldlM_append]
    by_cases hn : ∀ i < n, P i
    · -- the last iteration is the one
      obtain ⟨u, hu, hI⟩ := range_some h0 fun i s hi => hstep i s (Nat.lt_succ_of_lt hi) (hn i hi)
      have hlast : ¬ P n := by
        intro hlast
        refine hP fun i hi => ?_
        rcases Nat.lt_succ_iff_lt_or_eq.1 hi with hi | rfl
        · exact hn i hi
        · exact hlast
      rw [hu]
      simp [hfail n u (Nat.lt_succ_self n) hlast hI]
    · rw [ih (fun i s hi => hstep i s (Nat.lt_succ_of_lt hi)) (fun i s hi => hfail i s (Nat.lt_succ_of_lt hi)) hn]
      rfl

/-- Two loops in one. -/
theorem foldlM_pair {α β : Type} {ι : Type*} {f : α → ι → Option α} {g : β → ι → Option β} {is : List ι} {a a' : α} {b b' : β}
    (hf : is.foldlM f a = some a') (hg : is.foldlM g b = some b') :
    is.foldlM (fun (p : α × β) i => do some (← f p.1 i, ← g p.2 i)) (a, b) = some (a', b') := by
  induction is generalizing a b with
  | nil =>
    cases hf
    cases hg
    rfl
  | cons i is ih =>
    rw [List.foldlM_cons] at hf hg ⊢
    obtain ⟨a₁, ha, hf⟩ := Option.bind_eq_some_iff.1 hf
    obtain ⟨b₁, hb, hg⟩ := Option.bind_eq_some_iff.1 hg
    simp only [ha, hb, Option.bind_eq_bind, Option.bind_some]
    exact ih hf hg

end Loop
