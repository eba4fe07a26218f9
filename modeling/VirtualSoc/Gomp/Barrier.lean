import Mathlib.Logic.Function.Basic
import VirtualSoc.Lib.Transition
import VirtualSoc.Core.Bus

/-!
# The master-slave barrier (libgomp/config/vsoc/bar_sw.c, bar.h)

A slave samples its release counter, sets its arrival flag and spins until the counter has moved.
The master polls and resets the arrival flags one by one (`MSGBarrier_Wait`) and then increments
the release counters one by one (`MSGBarrier_Release`), by a load and a store each. One episode is
a wait and a release: at a barrier the second follows the first, at the dock `GOMP_parallel_end`
waits and the next `GOMP_parallel_start` releases.

* `Stage` says how far a slave is with an episode, from its own state, its two words and the
  position of the master; `step_stage` moves it along by the events that the step shows;
* `barrier_safe`: nobody leaves an episode that somebody has not entered, and arrivals, resets,
  releases and departures of a slave alternate episode after episode.
-/

namespace VirtualSoc.Gomp.Barrier

/-! ## The words -/

def SIZEOF_INT : Nat := 4
def DEFAULT_MAXPROC : Nat := 64
def BARRIER_BASE : Nat := CL_TCDM_BASE

def SLAVE_FLAG (x : Nat) : Nat := BARRIER_BASE + x * SIZEOF_INT
def MASTER_FLAG (x : Nat) : Nat := BARRIER_BASE + DEFAULT_MAXPROC + x * SIZEOF_INT

theorem SLAVE_FLAG_inj {x y : Nat} : SLAVE_FLAG x = SLAVE_FLAG y ↔ x = y := by
  unfold SLAVE_FLAG SIZEOF_INT
  omega

theorem MASTER_FLAG_inj {x y : Nat} : MASTER_FLAG x = MASTER_FLAG y ↔ x = y := by
  unfold MASTER_FLAG SIZEOF_INT
  omega

/-- Below 16 the counters end where the flags begin. -/
theorem SLAVE_FLAG_ne_MASTER_FLAG {x : Nat} (hx : x < 16) (y : Nat) : SLAVE_FLAG x ≠ MASTER_FLAG y := by
  unfold SLAVE_FLAG MASTER_FLAG SIZEOF_INT DEFAULT_MAXPROC
  omega

/-! ## The program -/

/-- The members of a team, the master first. -/
structure Team where
  nthreads : Nat
  proc_ids : Nat → Nat
  inj : ∀ i j, i < nthreads → j < nthreads → proc_ids i = proc_ids j → i = j
  lt_16 : ∀ i, i < nthreads → proc_ids i < 16

/-- What the master does between the wait and the release of an episode. -/
inductive Kind
  | barrier
  | dock
deriving DecidableEq, Repr

/-- The master: outside before episode `k`, polling or about to reset the flag of thread `i`, past
the wait, about to load the counter of thread `i` or to store it incremented. -/
inductive MasterPc
  | outside (k : Nat)
  | poll (k i : Nat)
  | reset (k i : Nat)
  | gathered (k : Nat)
  | load (k i : Nat)
  | store (k i : Nat) (exit : Int32)
deriving DecidableEq, Repr

/-- A slave: outside before episode `k`, with the counter sampled, spinning. -/
inductive SlavePc
  | outside (k : Nat)
  | announce (k : Nat) (g : Int32)
  | spin (k : Nat) (g : Int32)
deriving DecidableEq, Repr

structure State where
  mem : Nat → Int32
  master : MasterPc
  slave : Nat → SlavePc

variable (team : Team)

/-- The head of the loop of `MSGBarrier_Wait`. -/
def waitLoop (k i : Nat) : MasterPc := if i < team.nthreads then .poll k i else .gathered k

/-- The head of the loop of `MSGBarrier_Release`. -/
def releaseLoop (k i : Nat) : MasterPc := if i < team.nthreads then .load k i else .outside (k + 1)

/-- `MSGBarrier_Wait` and `MSGBarrier_Release`, a load or a store at a time. -/
def masterStep (s : State) : State :=
  match s.master with
  | .outside k => { s with master := waitLoop team k 1 }
  | .poll k i => if s.mem (MASTER_FLAG (team.proc_ids i)) = 0 then s else { s with master := .reset k i }
  | .reset k i =>
    { s with
      mem := Function.update s.mem (MASTER_FLAG (team.proc_ids i)) 0
      master := waitLoop team k (i + 1) }
  | .gathered k => { s with master := releaseLoop team k 1 }
  | .load k i => { s with master := .store k i (s.mem (SLAVE_FLAG (team.proc_ids i))) }
  | .store k i exit =>
    { s with
      mem := Function.update s.mem (SLAVE_FLAG (team.proc_ids i)) (exit + 1)
      master := releaseLoop team k (i + 1) }

/-- `MSGBarrier_SlaveEnter`, a load or a store at a time. -/
def slaveStep (s : State) (x : Nat) : State :=
  let myid := team.proc_ids x
  match s.slave x with
  | .outside k => { s with slave := Function.update s.slave x (.announce k (s.mem (SLAVE_FLAG myid))) }
  | .announce k g =>
    { s with
      mem := Function.update s.mem (MASTER_FLAG myid) 1
      slave := Function.update s.slave x (.spin k g) }
  | .spin k g =>
    if g = s.mem (SLAVE_FLAG myid) then s
    else { s with slave := Function.update s.slave x (.outside (k + 1)) }

/-- The next access of thread `t` of the team. -/
def step (s : State) (t : Nat) : Option State :=
  if t < team.nthreads then some (if t = 0 then masterStep team s else slaveStep team s t) else none

/-- No arrival is pending; the counters are whatever they were left at. -/
structure Init (s : State) : Prop where
  mem : ∀ x, 0 < x → x < team.nthreads → s.mem (MASTER_FLAG (team.proc_ids x)) = 0
  master : s.master = .outside 0
  slave : ∀ x, s.slave x = .outside 0

/-! ## Who has entered and who has left -/

/-- How many waits of the master have passed thread `i`. -/
def MasterPc.consumed : MasterPc → Nat → Nat
  | .outside k, _ => k
  | .poll k j, i | .reset k j, i => if i < j then k + 1 else k
  | .gathered k, _ | .load k _, _ | .store k _ _, _ => k + 1

/-- How many releases of the master have passed thread `i`. -/
def MasterPc.released : MasterPc → Nat → Nat
  | .outside k, _ | .poll k _, _ | .reset k _, _ | .gathered k, _ => k
  | .load k j, i | .store k j _, i => if i < j then k + 1 else k

/-- The master has started the wait of episode `k`. -/
def MasterPc.Entered : MasterPc → Nat → Prop
  | .outside j, k => k < j
  | .poll j _, k | .reset j _, k | .gathered j, k | .load j _, k | .store j _ _, k => k ≤ j

/-- A barrier is left at the end of the release, the gather of the dock at the end of the wait. -/
def MasterPc.Left (kind : Nat → Kind) (m : MasterPc) (k : Nat) : Prop :=
  match kind k, m with
  | _, .outside j => k < j
  | _, .poll j _ | _, .reset j _ => k < j
  | .dock, .gathered j | .dock, .load j _ | .dock, .store j _ _ => k ≤ j
  | .barrier, .gathered j | .barrier, .load j _ | .barrier, .store j _ _ => k < j

/-- The slave has announced itself for episode `k`. -/
def SlavePc.Entered : SlavePc → Nat → Prop
  | .outside j, k | .announce j _, k => k < j
  | .spin j _, k => k ≤ j

def SlavePc.Left : SlavePc → Nat → Prop
  | .outside j, k | .announce j _, k | .spin j _, k => k < j

def Entered (s : State) (c k : Nat) : Prop := if c = 0 then s.master.Entered k else (s.slave c).Entered k

def Left (kind : Nat → Kind) (s : State) (c k : Nat) : Prop :=
  if c = 0 then s.master.Left kind k else (s.slave c).Left k

/-! ## What happens to the words of a slave -/

inductive Phase
  | away
  | arrived
  | consumed
  | released
deriving DecidableEq, Repr

/-- The slave sets its flag, the master resets it, the master increments the counter, the slave
sees that. -/
inductive Event
  | arrive (k : Nat)
  | consume (k : Nat)
  | release (k : Nat)
  | leave (k : Nat)
deriving DecidableEq, Repr

/-- Each of them once an episode, in this order. -/
def cycle : Nat × Phase → Event → Option (Nat × Phase)
  | (k, .away), .arrive j => if j = k then some (k, .arrived) else none
  | (k, .arrived), .consume j => if j = k then some (k, .consumed) else none
  | (k, .consumed), .release j => if j = k then some (k, .released) else none
  | (k, .released), .leave j => if j = k then some (k + 1, .away) else none
  | _, _ => none

/-- What the access of thread `t` is for the words of slave `x`. -/
def events (x : Nat) (s : State) (t : Nat) : List Event :=
  if t = 0 then
    match s.master with
    | .reset k i => if i = x then [.consume k] else []
    | .store k i _ => if i = x then [.release k] else []
    | _ => []
  else if t = x then
    match s.slave x with
    | .announce k _ => [.arrive k]
    | .spin k g => if g = s.mem (SLAVE_FLAG (team.proc_ids x)) then [] else [.leave k]
    | _ => []
  else []

/-! ## The invariant -/

/-- How far a slave is, with `consumed` waits and `released` releases past it, its flag and its
counter. -/
def Stage (consumed released : Nat) (flag exit : Int32) (p : SlavePc) : Nat × Phase → Prop
  | (k, .away) =>
    consumed = k ∧ released = k ∧ flag = 0 ∧ (p = .outside k ∨ p = .announce k exit)
  | (k, .arrived) => consumed = k ∧ released = k ∧ flag = 1 ∧ p = .spin k exit
  | (k, .consumed) => consumed = k + 1 ∧ released = k ∧ flag = 0 ∧ p = .spin k exit
  | (k, .released) => consumed = k + 1 ∧ released = k + 1 ∧ flag = 0 ∧ ∃ g, p = .spin k g ∧ exit = g + 1

/-- The stage of slave `x`. -/
def StageOf (s : State) (x : Nat) : Nat × Phase → Prop :=
  Stage (s.master.consumed x) (s.master.released x) (s.mem (MASTER_FLAG (team.proc_ids x)))
    (s.mem (SLAVE_FLAG (team.proc_ids x))) (s.slave x)

/-- What the master has in hand: the flag that it is about to reset is set, the value that it is
about to store incremented is the counter's. -/
def Holds (mem : Nat → Int32) : MasterPc → Prop
  | .reset _ i => 0 < i ∧ i < team.nthreads ∧ mem (MASTER_FLAG (team.proc_ids i)) ≠ 0
  | .store _ i exit => 0 < i ∧ i < team.nthreads ∧ exit = mem (SLAVE_FLAG (team.proc_ids i))
  | .poll _ i | .load _ i => 0 < i ∧ i < team.nthreads
  | _ => True

structure Inv (s : State) : Prop where
  holds : Holds team s.mem s.master
  stages : ∀ x, 0 < x → x < team.nthreads → ∃ st, StageOf team s x st

variable {team} {s s' : State} {t x i k : Nat} {st : Nat × Phase}

theorem waitLoop_consumed (hx : x < team.nthreads) :
    (waitLoop team k i).consumed x = if x < i then k + 1 else k := by
  unfold waitLoop
  split
  · rfl
  · rw [if_pos (by omega)]
    rfl

theorem waitLoop_released : (waitLoop team k i).released x = k := by
  unfold waitLoop
  split <;> rfl

theorem releaseLoop_consumed : (releaseLoop team k i).consumed x = k + 1 := by
  unfold releaseLoop
  split <;> rfl

theorem releaseLoop_released (hx : x < team.nthreads) :
    (releaseLoop team k i).released x = if x < i then k + 1 else k := by
  unfold releaseLoop
  split
  · rfl
  · rw [if_pos (by omega)]
    rfl

theorem holds_waitLoop {mem : Nat → Int32} (hi : 0 < i) : Holds team mem (waitLoop team k i) := by
  unfold waitLoop
  split
  · exact ⟨hi, ‹_›⟩
  · trivial

theorem holds_releaseLoop {mem : Nat → Int32} (hi : 0 < i) : Holds team mem (releaseLoop team k i) := by
  unfold releaseLoop
  split
  · exact ⟨hi, ‹_›⟩
  · trivial

theorem proc_ids_ne (hi : i < team.nthreads) (hx : x < team.nthreads) (hne : i ≠ x) :
    team.proc_ids x ≠ team.proc_ids i := fun h => hne (team.inj i x hi hx h.symm)

/-- A step of the master that touches neither the words of a slave nor its place before it. -/
theorem StageOf.frame (h : StageOf team s x st)
    (hcons : s'.master.consumed x = s.master.consumed x) (hrel : s'.master.released x = s.master.released x)
    (hflag : s'.mem (MASTER_FLAG (team.proc_ids x)) = s.mem (MASTER_FLAG (team.proc_ids x)))
    (hexit : s'.mem (SLAVE_FLAG (team.proc_ids x)) = s.mem (SLAVE_FLAG (team.proc_ids x)))
    (hslave : s'.slave x = s.slave x) : StageOf team s' x st := by
  unfold StageOf
  rw [hcons, hrel, hflag, hexit, hslave]
  exact h

theorem add_one_ne_self (g : Int32) : g + 1 ≠ g := by
  rw [Ne, Int32.add_eq_left]
  decide

/-- The reset of the flag of slave `i` consumes its arrival. -/
theorem reset_stage (hm : s.master = .reset k i) (hh : Holds team s.mem s.master) (hx : x < team.nthreads)
    (h : StageOf team s x st) :
    ∃ st', Trans.run cycle st (events team x s 0) = some st' ∧ StageOf team (masterStep team s) x st' := by
  rw [hm] at hh
  obtain ⟨hi0, hi, hset⟩ := hh
  have hmaster : (masterStep team s).master = waitLoop team k (i + 1) := by simp [masterStep, hm]
  by_cases hix : i = x
  · subst hix
    obtain ⟨j, ph⟩ := st
    have hcons : s.master.consumed i = k := by rw [hm]; exact if_neg (by omega)
    cases ph with
    | arrived =>
      obtain ⟨hj, -, -, hslave⟩ := h
      obtain rfl : k = j := by omega
      refine ⟨(k, .consumed), by simp [events, hm, cycle, Trans.run], ?_, ?_, ?_, ?_⟩
      · rw [hmaster, waitLoop_consumed hi, if_pos (by omega)]
      · rw [hmaster, waitLoop_released]
      · simp [masterStep, hm]
      · simpa [masterStep, hm, SLAVE_FLAG_ne_MASTER_FLAG (team.lt_16 i hi)] using hslave
    | away => exact absurd h.2.2.1 hset
    | consumed => exact absurd h.2.2.1 hset
    | released => exact absurd h.2.2.1 hset
  · have hne := proc_ids_ne hi hx hix
    refine ⟨st, by simp [events, hm, hix], h.frame ?_ ?_ ?_ ?_ ?_⟩
    · rw [hmaster, waitLoop_consumed hx, hm, MasterPc.consumed]
      by_cases hlt : x < i
      · rw [if_pos hlt, if_pos (by omega)]
      · rw [if_neg hlt, if_neg (by omega)]
    · rw [hmaster, waitLoop_released, hm]
      rfl
    · simp [masterStep, hm, MASTER_FLAG_inj, hne]
    · simp [masterStep, hm, SLAVE_FLAG_ne_MASTER_FLAG (team.lt_16 x hx)]
    · simp [masterStep, hm]

/-- The store to the flag of slave `i` releases it. -/
theorem store_stage {exit : Int32} (hm : s.master = .store k i exit) (hh : Holds team s.mem s.master)
    (hx : x < team.nthreads) (h : StageOf team s x st) :
    ∃ st', Trans.run cycle st (events team x s 0) = some st' ∧ StageOf team (masterStep team s) x st' := by
  rw [hm] at hh
  obtain ⟨hi0, hi, rfl⟩ := hh
  have hmaster : (masterStep team s).master = releaseLoop team k (i + 1) := by simp [masterStep, hm]
  by_cases hix : i = x
  · subst hix
    obtain ⟨j, ph⟩ := st
    have hcons : s.master.consumed i = k + 1 := by rw [hm]; rfl
    have hrel : s.master.released i = k := by rw [hm]; exact if_neg (by omega)
    cases ph with
    | consumed =>
      obtain ⟨-, hj, hflag, hslave⟩ := h
      obtain rfl : k = j := by omega
      refine ⟨(k, .released), by simp [events, hm, cycle, Trans.run], ?_, ?_, ?_,
        s.mem (SLAVE_FLAG (team.proc_ids i)), ?_, ?_⟩
      · rw [hmaster, releaseLoop_consumed]
      · rw [hmaster, releaseLoop_released hi, if_pos (by omega)]
      · simpa [masterStep, hm, (SLAVE_FLAG_ne_MASTER_FLAG (team.lt_16 i hi) _).symm] using hflag
      · simpa [masterStep, hm] using hslave
      · simp [masterStep, hm]
    | away =>
      have h1 := h.1
      have h2 := h.2.1
      omega
    | arrived =>
      have h1 := h.1
      have h2 := h.2.1
      omega
    | released =>
      have h1 := h.1
      have h2 := h.2.1
      omega
  · have hne := proc_ids_ne hi hx hix
    refine ⟨st, by simp [events, hm, hix], h.frame ?_ ?_ ?_ ?_ ?_⟩
    · rw [hmaster, releaseLoop_consumed, hm]
      rfl
    · rw [hmaster, releaseLoop_released hx, hm, MasterPc.released]
      by_cases hlt : x < i
      · rw [if_pos hlt, if_pos (by omega)]
      · rw [if_neg hlt, if_neg (by omega)]
    · simp [masterStep, hm, (SLAVE_FLAG_ne_MASTER_FLAG (team.lt_16 i hi) _).symm]
    · simp [masterStep, hm, SLAVE_FLAG_inj, hne]
    · simp [masterStep, hm]

/-- **The master moves** a slave from arrived to consumed and from consumed to released, and leaves
it alone otherwise. -/
theorem masterStep_stage (hh : Holds team s.mem s.master) (hx : x < team.nthreads) (hx0 : 0 < x)
    (h : StageOf team s x st) :
    ∃ st', Trans.run cycle st (events team x s 0) = some st' ∧ StageOf team (masterStep team s) x st' := by
  cases hm : s.master with
  | outside k =>
    have hmaster : (masterStep team s).master = waitLoop team k 1 := by simp [masterStep, hm]
    refine ⟨st, by simp [events, hm], h.frame ?_ ?_ ?_ ?_ ?_⟩
    · rw [hmaster, waitLoop_consumed hx, hm, if_neg (by omega)]
      rfl
    · rw [hmaster, waitLoop_released, hm]
      rfl
    all_goals simp [masterStep, hm]
  | poll k i =>
    refine ⟨st, by simp [events, hm], ?_⟩
    by_cases hz : s.mem (MASTER_FLAG (team.proc_ids i)) = 0
    · simpa [masterStep, hm, hz] using h
    · refine h.frame ?_ ?_ ?_ ?_ ?_ <;> simp [masterStep, hm, hz, MasterPc.consumed, MasterPc.released]
  | reset k i => exact reset_stage hm hh hx h
  | gathered k =>
    have hmaster : (masterStep team s).master = releaseLoop team k 1 := by simp [masterStep, hm]
    refine ⟨st, by simp [events, hm], h.frame ?_ ?_ ?_ ?_ ?_⟩
    · rw [hmaster, releaseLoop_consumed, hm]
      rfl
    · rw [hmaster, releaseLoop_released hx, hm, if_neg (by omega)]
      rfl
    all_goals simp [masterStep, hm]
  | load k i =>
    refine ⟨st, by simp [events, hm], h.frame ?_ ?_ ?_ ?_ ?_⟩ <;>
      simp [masterStep, hm, MasterPc.consumed, MasterPc.released]
  | store k i exit => exact store_stage hm hh hx h

/-- **A slave moves** itself from away to arrived, and from released to away again. -/
theorem slaveStep_stage (ht : t < team.nthreads) (ht0 : 0 < t) (hx : x < team.nthreads)
    (h : StageOf team s x st) :
    ∃ st', Trans.run cycle st (events team x s t) = some st' ∧ StageOf team (slaveStep team s t) x st' := by
  have hnot0 : t ≠ 0 := by omega
  have hmaster : (slaveStep team s t).master = s.master := by
    unfold slaveStep
    cases s.slave t <;> simp only
    split <;> rfl
  by_cases htx : t = x
  · subst htx
    obtain ⟨j, ph⟩ := st
    cases hsl : s.slave t with
    | outside k =>
      refine ⟨(j, ph), by simp [events, hnot0, hsl], ?_⟩
      cases ph with
      | away =>
        obtain ⟨hc, hr, hf, hpc | hpc⟩ := h
        · rw [hsl] at hpc
          cases hpc
          refine ⟨by rw [hmaster, hc], by rw [hmaster, hr], ?_, Or.inr ?_⟩
          · simpa [slaveStep, hsl] using hf
          · simp [slaveStep, hsl]
        · rw [hsl] at hpc
          cases hpc
      | arrived => have := h.2.2.2; rw [hsl] at this; cases this
      | consumed => have := h.2.2.2; rw [hsl] at this; cases this
      | released => obtain ⟨g, hg, -⟩ := h.2.2.2; rw [hsl] at hg; cases hg
    | announce k g =>
      cases ph with
      | away =>
        obtain ⟨hc, hr, hf, hpc | hpc⟩ := h
        · rw [hsl] at hpc
          cases hpc
        · rw [hsl] at hpc
          cases hpc
          refine ⟨(j, .arrived), by simp [events, hnot0, hsl, cycle, Trans.run], by rw [hmaster, hc],
            by rw [hmaster, hr], ?_, ?_⟩
          · simp [slaveStep, hsl]
          · simp [slaveStep, hsl, SLAVE_FLAG_ne_MASTER_FLAG (team.lt_16 t ht)]
      | arrived => have := h.2.2.2; rw [hsl] at this; cases this
      | consumed => have := h.2.2.2; rw [hsl] at this; cases this
      | released => obtain ⟨g, hg, -⟩ := h.2.2.2; rw [hsl] at hg; cases hg
    | spin k g =>
      by_cases hg : g = s.mem (SLAVE_FLAG (team.proc_ids t))
      · refine ⟨(j, ph), by simp [events, hnot0, hsl, hg], ?_⟩
        have : slaveStep team s t = s := by simp [slaveStep, hsl, hg]
        rw [this]
        exact h
      · cases ph with
        | away => rcases h.2.2.2 with hpc | hpc <;> rw [hsl] at hpc <;> cases hpc
        | arrived => have := h.2.2.2; rw [hsl] at this; cases this; exact absurd rfl hg
        | consumed => have := h.2.2.2; rw [hsl] at this; cases this; exact absurd rfl hg
        | released =>
          obtain ⟨hc, hr, hf, g', hpc, -⟩ := h
          rw [hsl] at hpc
          cases hpc
          refine ⟨(j + 1, .away), by simp [events, hnot0, hsl, hg, cycle, Trans.run], by rw [hmaster, hc],
            by rw [hmaster, hr], ?_, Or.inl ?_⟩
          · simpa [slaveStep, hsl, hg] using hf
          · simp [slaveStep, hsl, hg]
  · have hne := proc_ids_ne ht hx htx
    refine ⟨st, by simp [events, hnot0, htx], h.frame (by rw [hmaster]) (by rw [hmaster]) ?_ ?_ ?_⟩
    all_goals
      unfold slaveStep
      cases s.slave t with
      | outside k => simp [Ne.symm htx]
      | announce k g =>
        simp [Ne.symm htx, MASTER_FLAG_inj, hne, SLAVE_FLAG_ne_MASTER_FLAG (team.lt_16 x hx)]
      | spin k g => simp only; split <;> simp [Ne.symm htx]

theorem masterStep_holds (h : Holds team s.mem s.master) :
    Holds team (masterStep team s).mem (masterStep team s).master := by
  cases hm : s.master with
  | outside k =>
    simp only [masterStep, hm]
    exact holds_waitLoop (by omega)
  | poll k i =>
    rw [hm] at h
    by_cases hz : s.mem (MASTER_FLAG (team.proc_ids i)) = 0
    · simpa [masterStep, hm, hz] using h
    · simpa [masterStep, hm, hz] using ⟨h.1, h.2, hz⟩
  | reset k i =>
    simp only [masterStep, hm]
    exact holds_waitLoop (by omega)
  | gathered k =>
    simp only [masterStep, hm]
    exact holds_releaseLoop (by omega)
  | load k i =>
    rw [hm] at h
    simp only [masterStep, hm]
    exact ⟨h.1, h.2, rfl⟩
  | store k i exit =>
    simp only [masterStep, hm]
    exact holds_releaseLoop (by omega)

/-- What the master has in hand no slave takes away. -/
theorem slaveStep_holds (t : Nat) (h : Holds team s.mem s.master) :
    Holds team (slaveStep team s t).mem (slaveStep team s t).master := by
  cases hsl : s.slave t with
  | outside k => simpa [slaveStep, hsl] using h
  | announce k g =>
    simp only [slaveStep, hsl]
    cases hm : s.master with
    | reset j i =>
      rw [hm] at h
      refine ⟨h.1, h.2.1, ?_⟩
      by_cases hit : MASTER_FLAG (team.proc_ids i) = MASTER_FLAG (team.proc_ids t)
      · simp [hit]
      · simpa [Function.update_of_ne hit] using h.2.2
    | store j i exit =>
      rw [hm] at h
      refine ⟨h.1, h.2.1, ?_⟩
      simpa [Function.update_of_ne (SLAVE_FLAG_ne_MASTER_FLAG (team.lt_16 i h.2.1) _)] using h.2.2
    | _ => rw [hm] at h; exact h
  | spin k g =>
    simp only [slaveStep, hsl]
    split
    · exact h
    · exact h

/-! ## Every run -/

/-- **What one step keeps**, and what the observer of slave `x` sees of it. -/
theorem step_stage (hh : Holds team s.mem s.master) (hx : x < team.nthreads) (hx0 : 0 < x)
    (h : StageOf team s x st) (hs : step team s t = some s') :
    ∃ st', Trans.run cycle st (events team x s t) = some st' ∧ StageOf team s' x st' := by
  unfold step at hs
  split at hs
  · rename_i ht
    cases hs
    by_cases ht0 : t = 0
    · subst ht0
      exact masterStep_stage hh hx hx0 h
    · rw [if_neg ht0]
      exact slaveStep_stage ht (by omega) hx h
  · cases hs

theorem step_holds (hh : Holds team s.mem s.master) (hs : step team s t = some s') : Holds team s'.mem s'.master := by
  unfold step at hs
  split at hs
  · rename_i ht
    cases hs
    by_cases ht0 : t = 0
    · subst ht0
      exact masterStep_holds hh
    · rw [if_neg ht0]
      exact slaveStep_holds t hh
  · cases hs

theorem step_inv (h : Inv team s) (hs : step team s t = some s') : Inv team s' := by
  refine ⟨step_holds h.holds hs, fun x hx0 hx => ?_⟩
  obtain ⟨st, hst⟩ := h.stages x hx0 hx
  obtain ⟨st', -, hst'⟩ := step_stage h.holds hx hx0 hst hs
  exact ⟨st', hst'⟩

theorem Init.stage (h : Init team s) (hx0 : 0 < x) (hx : x < team.nthreads) : StageOf team s x (0, .away) := by
  have hcons : s.master.consumed x = 0 := by rw [h.master]; rfl
  have hrel : s.master.released x = 0 := by rw [h.master]; rfl
  exact ⟨hcons, hrel, h.mem x hx0 hx, Or.inl (h.slave x)⟩

theorem Init.holds (h : Init team s) : Holds team s.mem s.master := by
  rw [h.master]
  trivial

/-- What the master has counted of an episode has been announced. -/
theorem StageOf.entered (h : StageOf team s x st) (hk : k < s.master.consumed x) : (s.slave x).Entered k := by
  obtain ⟨j, ph⟩ := st
  cases ph with
  | away =>
    obtain ⟨hc, -, -, hpc | hpc⟩ := h <;> rw [hpc] <;> simp only [SlavePc.Entered] <;> omega
  | arrived =>
    obtain ⟨hc, -, -, hpc⟩ := h
    rw [hpc]
    simp only [SlavePc.Entered]
    omega
  | consumed =>
    obtain ⟨hc, -, -, hpc⟩ := h
    rw [hpc]
    simp only [SlavePc.Entered]
    omega
  | released =>
    obtain ⟨hc, -, -, g, hpc, -⟩ := h
    rw [hpc]
    simp only [SlavePc.Entered]
    omega

/-- What a slave has left has been released. -/
theorem StageOf.left (h : StageOf team s x st) (hk : (s.slave x).Left k) : k < s.master.released x := by
  obtain ⟨j, ph⟩ := st
  cases ph with
  | away =>
    obtain ⟨-, hr, -, hpc | hpc⟩ := h <;> rw [hpc] at hk <;> simp only [SlavePc.Left] at hk <;> omega
  | arrived =>
    obtain ⟨-, hr, -, hpc⟩ := h
    rw [hpc] at hk
    simp only [SlavePc.Left] at hk
    omega
  | consumed =>
    obtain ⟨-, hr, -, hpc⟩ := h
    rw [hpc] at hk
    simp only [SlavePc.Left] at hk
    omega
  | released =>
    obtain ⟨-, hr, -, g, hpc, -⟩ := h
    rw [hpc] at hk
    simp only [SlavePc.Left] at hk
    omega

/-- The master releases no one before its wait is over for all. -/
theorem MasterPc.consumed_of_released {m : MasterPc} (h : k < m.released x) (d : Nat) :
    k < m.consumed d ∧ m.Entered k := by
  cases m <;> simp only [MasterPc.released, MasterPc.consumed, MasterPc.Entered] at h ⊢ <;> grind

theorem MasterPc.consumed_of_left {kind : Nat → Kind} {m : MasterPc} (h : m.Left kind k) (d : Nat) :
    k < m.consumed d ∧ m.Entered k := by
  unfold MasterPc.Left at h
  cases m <;> cases hk : kind k <;> simp only [hk, MasterPc.consumed, MasterPc.Entered] at h ⊢ <;> grind

/-- Nobody leaves an episode that somebody has not entered. -/
theorem Inv.entered_of_left (h : Inv team s) {kind : Nat → Kind} {c d : Nat} (hc : c < team.nthreads)
    (hd : d < team.nthreads) (hleft : Left kind s c k) : Entered s d k := by
  have hall : k < s.master.consumed d ∧ s.master.Entered k := by
    unfold Left at hleft
    split at hleft
    · exact MasterPc.consumed_of_left hleft d
    · obtain ⟨st, hst⟩ := h.stages c (by omega) hc
      exact MasterPc.consumed_of_released (hst.left hleft) d
  unfold Entered
  split
  · exact hall.2
  · obtain ⟨st, hst⟩ := h.stages d (by omega) hd
    exact hst.entered hall.1

/-- An arrival that is not consumed is there for the master to see, and a release that is not
consumed is there for the slave. -/
theorem StageOf.visible (h : StageOf team s x st) (hx0 : 0 < x) :
    (st.2 = .arrived → s.mem (MASTER_FLAG (team.proc_ids x)) ≠ 0) ∧
    (st.2 = .released → events team x s x = [.leave st.1]) := by
  obtain ⟨j, ph⟩ := st
  refine ⟨fun hph => ?_, fun hph => ?_⟩
  · cases hph
    rw [h.2.2.1]
    decide
  · cases hph
    obtain ⟨-, -, -, g, hpc, hexit⟩ := h
    have hne : g ≠ s.mem (SLAVE_FLAG (team.proc_ids x)) := by
      rw [hexit]
      exact (add_one_ne_self g).symm
    simp [events, show x ≠ 0 by omega, hpc, hne]

/-- **The barrier**: nobody leaves an episode that somebody has not entered; for every slave the
arrivals, resets, releases and departures alternate, episode after episode, and what is pending
is seen by the one it is for. -/
theorem barrier_safe (kind : Nat → Kind) {s0 : State} (h0 : Init team s0) {ts : List Nat}
    (hr : Trans.run (step team) s0 ts = some s) :
    (∀ c d k, c < team.nthreads → d < team.nthreads → Left kind s c k → Entered s d k) ∧
    (∀ x, 0 < x → x < team.nthreads →
      ∃ st, Trans.run cycle (0, .away) (Trans.trace (step team) (events team x) s0 ts) = some st ∧
        (st.2 = .arrived → s.mem (MASTER_FLAG (team.proc_ids x)) ≠ 0) ∧
        (st.2 = .released → events team x s x = [.leave st.1])) := by
  have hinit : Inv team s0 := ⟨h0.holds, fun x hx0 hx => ⟨_, h0.stage hx0 hx⟩⟩
  have hinv : Inv team s := Trans.run_inv (Inv team) (fun _ _ _ h hs => step_inv h hs) hinit hr
  refine ⟨fun c d k hc hd => hinv.entered_of_left hc hd, fun x hx0 hx => ?_⟩
  obtain ⟨st, hrun, -, hst⟩ := Trans.accepts_of_sim (fun s st => Holds team s.mem s.master ∧ StageOf team s x st)
    (fun s t s' st hR _ hs => by
      obtain ⟨st', hrun, hst⟩ := step_stage hR.1 hx hx0 hR.2 hs
      exact ⟨st', hrun, step_holds hR.1 hs, hst⟩)
    ⟨h0.holds, h0.stage hx0 hx⟩ (Trans.along_true s0 ts) hr
  exact ⟨st, hrun, hst.visible hx0⟩

/-- Processors 3 and 5, a barrier and then the dock; the counter wraps around. -/
def pair : Team where
  nthreads := 2
  proc_ids := fun i => 3 + 2 * i
  inj := fun i j _ _ h => by omega
  lt_16 := fun i hi => by omega

def pairInit : State := ⟨Function.update (fun _ => 0) (SLAVE_FLAG 5) Int32.maxValue, .outside 0, fun _ => .outside 0⟩

def pairRun : List Nat := [1, 0, 1, 0, 0, 1, 0, 0, 0, 0, 1, 1, 0, 1, 1, 0, 0]

def barrierThenDock (k : Nat) : Kind := if k = 0 then .barrier else .dock

theorem barrier_safe_pair :
    ∃ s, Trans.run (step pair) pairInit pairRun = some s ∧ Left barrierThenDock s 0 1 ∧ Entered s 1 1 ∧
      ∃ st, Trans.run cycle (0, .away) (Trans.trace (step pair) (events pair 1) pairInit pairRun) = some st := by
  have hinit : Init pair pairInit := by
    refine ⟨fun x hx0 hx => ?_, rfl, fun _ => rfl⟩
    have : x = 1 := by simp [pair] at hx; omega
    subst this
    decide
  have hsome : (Trans.run (step pair) pairInit pairRun).isSome := by decide +kernel
  have hmaster : (Trans.run (step pair) pairInit pairRun).map State.master = some (.gathered 1) := by decide +kernel
  obtain ⟨s, hrun⟩ := Option.isSome_iff_exists.1 hsome
  rw [hrun] at hmaster
  obtain ⟨hsafe, hobs⟩ := barrier_safe barrierThenDock hinit hrun
  have hleft : Left barrierThenDock s 0 1 := by
    show s.master.Left barrierThenDock 1
    rw [Option.some.inj hmaster]
    exact Nat.le_refl 1
  obtain ⟨st, hst, -⟩ := hobs 1 (by decide) (by decide)
  exact ⟨s, hrun, hleft, hsafe 0 1 1 (by decide) (by decide) hleft, st, hst⟩

end VirtualSoc.Gomp.Barrier
