import Mathlib.Tactic.Common
import VirtualSoc.Cluster.PicFair

/-!
# The access counters of the peripheral interconnect (cluster/cl_pic.cpp)

`READ` and `WRITE` count a transaction after the loop over its beats, for the masters that `idc_fsm` still has
in the row of the slave. But the last beat of that loop takes them out of the row (cl_pic.cpp:346, :437), and a
row never has more than one master. So no transaction is ever counted: the counters keep the zeros of the
constructor (`counters_zero`), and they are right of the runs in which there was nothing to count
(`accounted_iff`).

`Log` is a history beside the system: the address that each master asked for, and the transactions whose
last pulse the master has seen. `stats` prints the sums over the masters, and averages that are these sums
over `num_masters`.
-/

namespace VirtualSoc.Pic

open Trans

variable {n m : Nat} {cfg : Config n} {s t : State n m} {i : Fin m} {k : Fin n}

/-- What was asked for last, and the transactions that are over, by master and address. -/
structure Log (n : Nat) where
  asked : Fin n → Nat
  done : List (Fin n × Nat)

def Log.init : Log n := { asked := fun _ => 0, done := [] }

/-- The transactions that end with an action. -/
def ending (s : State n m) (g : Log n) : Action n m → List (Fin n × Nat)
  | .fall i => (lowering s i).map fun k => (k, g.asked k)
  | _ => []

def Log.next (s : State n m) (a : Action n m) (g : Log n) : Log n where
  asked :=
    match a with
    | .raise k p => Function.update g.asked k p.address
    | _ => g.asked
  done := ending s g a ++ g.done

abbrev logged (cfg : Config n) : State n m × Log n → Action n m → Option (State n m × Log n) :=
  withHistory (step cfg) Log.next

/-- How many transactions of a master in an address space are over. -/
def accesses (cfg : Config n) (space : Nat → Nat → Bool) (k : Fin n) (g : Log n) : Nat :=
  g.done.countP fun x => x.1 = k ∧ space x.2 cfg.ID

/-- The counters of a master are right. -/
def Accounted (cfg : Config n) (k : Fin n) (x : State n m × Log n) : Prop :=
  x.1.l3Acc k = accesses cfg isInL3Space k x.2 ∧
    x.1.semAcc k = accesses cfg isInSemSpace k x.2 ∧
    x.1.hwsAcc k = accesses cfg isInHWSSpace k x.2

/-- An address in none of the spaces that are counted. -/
def Uncounted (cfg : Config n) (address : Nat) : Prop :=
  isInL3Space address cfg.ID = false ∧ isInSemSpace address cfg.ID = false ∧ isInHWSSpace address cfg.ID = false

instance (cfg : Config n) (k : Fin n) (x : State n m × Log n) : Decidable (Accounted cfg k x) :=
  inferInstanceAs (Decidable (_ ∧ _ ∧ _))

instance (cfg : Config n) (address : Nat) : Decidable (Uncounted cfg address) :=
  inferInstanceAs (Decidable (_ ∧ _ ∧ _))

/-- The sums that `stats` prints: `tot_L3_acc`, `tot_sem_acc` and `tot_HWS_acc`. -/
def stats (s : State n m) : Nat × Nat × Nat :=
  (((List.finRange n).map s.l3Acc).sum, ((List.finRange n).map s.semAcc).sum, ((List.finRange n).map s.hwsAcc).sum)

/-! ## No action counts -/

/-- The counters of every master, which only `statistics` writes. -/
def counters (s : State n m) : (Fin n → Nat) × (Fin n → Nat) × (Fin n → Nat) := (s.l3Acc, s.semAcc, s.hwsAcc)

theorem statistics_empty (h : ∀ k, s.idcFsm i k = false) : counters (statistics cfg s i) = counters s := by
  simp [counters, statistics, h]

/-- The last beat has taken the row away. -/
theorem rowOver_counters (cfg : Config n) (s : State n m) (i : Fin m) : counters (rowOver cfg s i) = counters s := by
  unfold rowOver
  rw [statistics_empty]
  · rfl
  · intro k
    simp [clear, dropReady, slaveFall]

theorem rise_counters {d : UInt32} (hf : fsmPos (slaveRise s i d) i = some t) : counters t = counters s := by
  unfold fsmPos at hf
  split at hf
  · obtain rfl := Option.some.inj hf
    rfl
  · obtain ⟨k, -, rfl⟩ := Option.map_eq_some_iff.1 hf
    rfl
  · obtain rfl := Option.some.inj hf
    rfl

/-- **No action changes a counter.** -/
theorem step_counters {a : Action n m} (h : Queue cfg s) (hs : step cfg s a = some t) : counters t = counters s := by
  obtain ⟨early, -, rfl⟩ | ⟨k, p, -, -, -, -, rfl⟩ | ⟨k, d, -, rfl⟩ | ⟨i, d, -, -, -, hf⟩ | ⟨i, -, -, -, hf⟩ :=
    step_cases hs
  · rfl
  · rfl
  · rfl
  · exact rise_counters hf
  · obtain rfl | ⟨-, ⟨b, c, -, rfl⟩ | ⟨-, l, -, rfl⟩ | ⟨-, rfl⟩⟩ := h.fall_cases hf
    · rfl
    · rfl
    · exact rowOver_counters cfg s i
    · exact rowOver_counters cfg s i

/-- **In every reachable state every counter is zero.** -/
theorem counters_zero {as : List (Action n m)} (hr : run (step cfg) (init : State n m) as = some t) :
    counters t = (fun _ => 0, fun _ => 0, fun _ => 0) := by
  have hI := Trans.run_inv (fun s => Queue cfg s ∧ counters s = counters (init : State n m))
    (fun s a t h hs => ⟨step_queue h.1 hs, (step_counters h.1 hs).trans h.2⟩) ⟨init_queue, rfl⟩ hr
  exact hI.2

theorem stats_zero {as : List (Action n m)} (hr : run (step cfg) (init : State n m) as = some t) :
    stats t = (0, 0, 0) := by
  have h := counters_zero hr
  simp only [counters, Prod.mk.injEq] at h
  simp [stats, h]

theorem accesses_eq_zero {space : Nat → Nat → Bool} {g : Log n} :
    0 = accesses cfg space k g ↔ ∀ x ∈ g.done, x.1 = k → space x.2 cfg.ID = false := by
  unfold accesses
  rw [eq_comm, List.countP_eq_zero]
  simp

/-- **The access counters.** In every run, with any bursts, the counters of a master are the numbers of its
transactions that are over in the L3, semaphore and HWS space if and only if there are none. -/
theorem accounted_iff {as : List (Action n m)} {y : State n m × Log n}
    (hr : run (logged cfg) (init, Log.init) as = some y) (k : Fin n) :
    Accounted cfg k y ↔ ∀ x ∈ y.2.done, x.1 = k → Uncounted cfg x.2 := by
  have hzero := counters_zero (withHistory_run hr)
  simp only [counters, Prod.mk.injEq] at hzero
  obtain ⟨hl3, hsem, hhws⟩ := hzero
  unfold Accounted
  rw [hl3, hsem, hhws, accesses_eq_zero, accesses_eq_zero, accesses_eq_zero]
  constructor
  · rintro ⟨h1, h2, h3⟩ x hx hk
    exact ⟨h1 x hx hk, h2 x hx hk, h3 x hx hk⟩
  · intro h
    exact ⟨fun x hx hk => (h x hx hk).1, fun x hx hk => (h x hx hk).2.1, fun x hx hk => (h x hx hk).2.2⟩

/-- The port of the counter device. -/
def counterPort : Fin 6 := (Fin.last 4).castSucc

/-- Master 0 reads the counter device, which nothing counts. -/
def counterRead : List (Action 2 6) :=
  [.raise master0 { address := COUNTER_BASE_ADDR, burst := 1 }, .clock fun _ => false,
   .clock fun _ => true, .rise counterPort 0, .clock fun _ => true, .fall counterPort]

theorem counterRead_isSome : (run (logged twoMasters) (init, Log.init) counterRead).isSome = true := by
  decide +kernel

theorem accounted_iff_counterRead :
    Accounted twoMasters master0 ((run (logged twoMasters) (init, Log.init) counterRead).get counterRead_isSome) :=
  (accounted_iff (Option.some_get counterRead_isSome).symm master0).2 (by decide +kernel)

theorem singleBeats_isSome : (run (logged twoMasters) (init, Log.init) singleBeats).isSome = true := by
  decide +kernel

/-- Both masters read a semaphore, and neither is counted. -/
theorem not_accounted_semaphores :
    ∃ y, run (logged twoMasters) (init, Log.init) singleBeats = some y ∧
      y.2.done = [(master1, CL_SEM_BASE), (master0, CL_SEM_BASE)] ∧
      stats y.1 = (0, 0, 0) ∧ ∀ k, ¬ Accounted twoMasters k y := by
  refine ⟨_, (Option.some_get singleBeats_isSome).symm, ?_, ?_, ?_⟩
  · decide +kernel
  · decide +kernel
  · decide +kernel

end VirtualSoc.Pic
