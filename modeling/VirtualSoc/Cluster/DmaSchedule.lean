import Mathlib.Tactic.Ring
import VirtualSoc.Cluster.DmaEvent

/-!
# Who the scheduler of the DMA serves (cluster/cl_dma.cpp, `set_next_job`)

The scan counts from the current core, and a core that it finds becomes the current one while the scan goes on:
the `i`-th step then looks `i + 1` cores behind that one. If every core has a job that can run, each step
finds somebody, and the core that is left is `1 + 2 + .. + N` behind the old one. That is the same core if `N` is
odd, and the one half way round if `N` is even: the others wait as long as the load lasts (`busy_cores`).
-/

namespace VirtualSoc.Dma

variable {N : Nat} {s t : State N} {a : Action N}

/-! ## What a scan leaves -/

/-- The scan changes neither the table nor what the cores are programming. -/
structure SameTable (s t : State N) : Prop where
  jt : t.jt = s.jt
  jobCurrProg : t.jobCurrProg = s.jobCurrProg

theorem scanCore_same (s : State N) (i : Fin N) : SameTable s (scanCore s i) := by
  obtain ⟨-, he⟩ | ⟨j, -, he⟩ := scanCore_cases s i
  · rw [he]
    exact ⟨rfl, rfl⟩
  · rw [he]
    exact ⟨rfl, rfl⟩

theorem fold_same (is : List (Fin N)) (s : State N) : SameTable s (is.foldl scanCore s) := by
  induction is generalizing s with
  | nil => exact ⟨rfl, rfl⟩
  | cons i is ih =>
    have h := ih (scanCore s i)
    have hi := scanCore_same s i
    exact ⟨h.jt.trans hi.jt, h.jobCurrProg.trans hi.jobCurrProg⟩

theorem setNextJob_same (s : State N) : SameTable s (setNextJob s) := by
  unfold setNextJob
  split
  · exact ⟨rfl, rfl⟩
  · exact fold_same _ s

/-- What is selected can run. -/
theorem setNextJob_runnable (hidle : s.workingSig = false) (hwork : (setNextJob s).workingSig = true) :
    (setNextJob s).currentJob.runnable = true := by
  have hset : setNextJob s = (List.finRange N).foldl scanCore s := by
    rw [setNextJob, hidle, if_neg (by decide)]
  rw [hset] at hwork ⊢
  cases N with
  | zero => exact s.currCore.elim0
  | succ n =>
    rw [List.finRange_succ_last, List.foldl_append, List.foldl_cons, List.foldl_nil] at hwork ⊢
    have h0 : Scanned s s := ⟨rfl, fun hw => by rw [hidle] at hw; cases hw⟩
    have h := h0.fold ((List.finRange n).map Fin.castSucc)
    -- the last core of the scan is the current one, so what was found before it makes it ready
    have hlast := rot_last (((List.finRange n).map Fin.castSucc).foldl scanCore s).currCore
    refine scanCore_self hlast ?_
    obtain ⟨-, he⟩ | ⟨j, hj, -⟩ := scanCore_cases (((List.finRange n).map Fin.castSucc).foldl scanCore s) (Fin.last n)
    · rw [he] at hwork
      exact h.ready hwork
    · rw [hlast] at hj
      exact ⟨_, hj⟩

/-! ## Under load -/

/-- A step of the scan that finds somebody. -/
theorem scanCore_ready {i : Fin N} (h : s.Ready (Scan.rot (s.currCore + 1) i)) :
    (scanCore s i).currCore = Scan.rot (s.currCore + 1) i := by
  obtain ⟨hno, -⟩ | ⟨j, -, he⟩ := scanCore_cases s i
  · exact absurd h hno
  · rw [he]

theorem fold_ready (is : List (Fin N)) (h : ∀ core, s.Ready core) :
    ((is.foldl scanCore s).currCore : Nat) = (s.currCore + (is.map fun i : Fin N => i.val + 1).sum) % N := by
  induction is generalizing s with
  | nil => exact (Nat.mod_eq_of_lt s.currCore.isLt).symm
  | cons i is ih =>
    have hnext : ∀ core, (scanCore s i).Ready core := by
      intro core
      unfold State.Ready
      rw [(scanCore_same s i).jt]
      exact h core
    have hcore : ((scanCore s i).currCore : Nat) = (s.currCore + 1 + i) % N := congrArg Fin.val (scanCore_ready (h _))
    rw [List.foldl_cons, ih hnext, hcore, List.map_cons, List.sum_cons, Nat.mod_add_mod]
    congr 1
    omega

/-- `1 + 2 + .. + N`. -/
theorem sum_finRange (N : Nat) : ((List.finRange N).map fun i : Fin N => i.val + 1).sum = N * (N + 1) / 2 := by
  have hrange : (List.finRange N).map (fun i : Fin N => i.val + 1) = (List.range N).map (· + 1) := by
    rw [← List.map_coe_finRange_eq_range, List.map_map]
    rfl
  have hsum : ∀ n, 2 * ((List.range n).map (· + 1)).sum = n * (n + 1) := by
    intro n
    induction n with
    | zero => rfl
    | succ n ih =>
      rw [List.range_succ, List.map_append, List.sum_append, Nat.mul_add, ih]
      simp only [List.map_cons, List.map_nil, List.sum_cons, List.sum_nil]
      ring
  rw [hrange, ← hsum N, Nat.mul_div_cancel_left _ (by decide)]

/-- How far the current core moves when everybody has a job: by nothing, or half way round. -/
theorem sum_mod (hN : 0 < N) : N * (N + 1) / 2 % N = if N % 2 = 1 then 0 else N / 2 := by
  split
  · rename_i hodd
    obtain ⟨k, hk⟩ : ∃ k, N + 1 = 2 * k := ⟨(N + 1) / 2, by omega⟩
    rw [hk, show N * (2 * k) = 2 * (N * k) by ring, Nat.mul_div_cancel_left _ (by decide), Nat.mul_mod_right]
  · rename_i heven
    obtain ⟨k, rfl⟩ : ∃ k, N = 2 * k := ⟨N / 2, by omega⟩
    rw [show 2 * k * (2 * k + 1) = 2 * (k + 2 * k * k) by ring, Nat.mul_div_cancel_left _ (by decide),
      Nat.mul_div_cancel_left _ (by decide), Nat.add_mul_mod_self_left, Nat.mod_eq_of_lt (by omega)]

/-- The scan when every core has a job that can run. -/
theorem setNextJob_ready (hidle : s.workingSig = false) (h : ∀ core, s.Ready core) :
    ((setNextJob s).currCore : Nat) = (s.currCore + if N % 2 = 1 then 0 else N / 2) % N := by
  rw [setNextJob, hidle, if_neg (by decide), fold_ready _ h, sum_finRange, ← sum_mod s.currCore.pos, Nat.add_mod_mod]

/-- The scheduler is asked while every core has a job that can run. -/
def Busy (s : State N) : Action N → Prop
  | .schedule => ∀ core, s.Ready core
  | _ => True

instance (s : State N) (core : Fin N) : Decidable (s.Ready core) :=
  inferInstanceAs (Decidable (∃ slot : Fin JT_SIZE, (s.jt core slot).runnable = true))

instance (s : State N) : ∀ a, Decidable (Busy s a)
  | .schedule => inferInstanceAs (Decidable (∀ core, s.Ready core))
  | .request _ _ _ => isTrue trivial
  | .finish => isTrue trivial

/-- The cores that are served beside the current one: none, or the one half way round. -/
def opposite (core : Fin N) : Nat := (core + if N % 2 = 1 then 0 else N / 2) % N

theorem opposite_opposite {core core' : Fin N} (h : (core' : Nat) = opposite core) : opposite core' = core := by
  have hlt := core.isLt
  unfold opposite at *
  rw [h, Nat.mod_add_mod, Nat.add_assoc]
  split
  · exact Nat.mod_eq_of_lt hlt
  · rw [show N / 2 + N / 2 = N by omega, Nat.add_mod_right, Nat.mod_eq_of_lt hlt]

theorem jobDone_currCore (s : State N) : (jobDone s).currCore = s.currCore := by
  unfold jobDone
  by_cases hpri : ((s.jt s.currCore (s.currJob s.currCore)).pri != 0) = true
  · simp only [if_pos hpri]
    split <;> rfl
  · simp only [if_neg hpri]
    split <;> rfl

theorem busy_step (hbusy : Busy s a) (h : step s a = some t) :
    t.currCore = s.currCore ∨ (t.currCore : Nat) = opposite s.currCore := by
  cases a with
  | request core address data =>
    simp only [step, Option.map_eq_some_iff, Prod.exists, exists_and_right, exists_eq_right] at h
    obtain ⟨id, h⟩ := h
    exact Or.inl (processRequest_frame h).currCore
  | schedule =>
    obtain rfl := Option.some.inj h
    cases hwork : s.workingSig with
    | true => exact Or.inl (by rw [setNextJob, hwork, if_pos rfl])
    | false => exact Or.inr (setNextJob_ready hwork hbusy)
  | finish =>
    simp only [step] at h
    split at h
    · obtain rfl := Option.some.inj h
      exact Or.inl (jobDone_currCore s)
    · cases h

/-- **The round robin under load**, for any number of cores and from any state: while every core has a job that can
run whenever the scheduler looks, the engine serves one core only, or, if their number is even, two. -/
theorem busy_cores {as : List (Action N)} (hbusy : Trans.Along step Busy s as) (hr : Trans.run step s as = some t) :
    t.currCore = s.currCore ∨ N % 2 = 0 ∧ (t.currCore : Nat) = (s.currCore + N / 2) % N := by
  have hinv : t.currCore = s.currCore ∨ (t.currCore : Nat) = opposite s.currCore := by
    refine Trans.run_inv_along (fun u => u.currCore = s.currCore ∨ (u.currCore : Nat) = opposite s.currCore)
      (fun u a v hu hb hs => ?_) (Or.inl rfl) hbusy hr
    obtain hstay | hmove := busy_step hb hs
    · rw [hstay]
      exact hu
    · rcases hu with hu | hu
      · exact Or.inr (hu ▸ hmove)
      · exact Or.inl (Fin.ext (hmove.trans (opposite_opposite hu)))
  rcases hinv with h | h
  · exact Or.inl h
  · unfold opposite at h
    by_cases hodd : N % 2 = 1
    · rw [if_pos hodd, Nat.add_zero, Nat.mod_eq_of_lt s.currCore.isLt] at h
      exact Or.inl (Fin.ext h)
    · rw [if_neg hodd] at h
      exact Or.inr ⟨by omega, h⟩

/-- Four cores with a job in every slot. -/
def allTriggered : State 4 := { @init 4 ⟨by decide⟩ with jt := fun _ _ => { trigger := true } }

/-- The cores 1 and 3 wait. -/
theorem busy_cores_allTriggered : ∃ t, Trans.run step allTriggered
      [.schedule, .finish, .schedule, .finish, .schedule] = some t ∧
    (t.currCore = allTriggered.currCore ∨ 4 % 2 = 0 ∧ (t.currCore : Nat) = (allTriggered.currCore + 4 / 2) % 4) := by
  obtain ⟨t, ht⟩ := Option.isSome_iff_exists.1 (show (Trans.run step allTriggered
    [.schedule, .finish, .schedule, .finish, .schedule]).isSome = true by decide +kernel)
  exact ⟨t, ht, busy_cores (by decide +kernel) ht⟩

end VirtualSoc.Dma
