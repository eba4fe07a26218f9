import Mathlib.Data.Fintype.Basic
import Mathlib.Data.Fintype.Defs
import VirtualSoc.Lib.Transition
import VirtualSoc.Cluster.Dma

/-!
# The completion of jobs in sleep mode (cluster/cl_dma.cpp, support/simulator/dmasupport.c)

A core that sleeps until its job is done (`dma_wait`) is woken by `dma_event` and then reads
`DMA_EVENT_JOB_ID`, which says which job it was and frees a slot. There is one cell a core for the id, so a
second completion overwrites an id that was not read; and the slot that the read frees is that of the job that the
core programmed last, not of the one that it reports (`not_reported_twoJobsOfOne`). `sleep_events` has the runs in
which neither matters (`Orderly`).
-/

namespace VirtualSoc.Dma

variable {N : Nat}

/-- A request at the slave port, the scheduler at a clock edge, or the end of a transfer, which is not before
the engine works. -/
inductive Action (N : Nat)
  | request (core : Fin N) (address : Nat) (data : UInt32)
  | schedule
  | finish

def step (s : State N) : Action N → Option (State N)
  | .request core address data => (processRequest s core address data).map Prod.fst
  | .schedule => some (setNextJob s)
  | .finish => if s.workingSig then some (jobDone s) else none

/-! ## Completions and what the cores read -/

/-- The job that is transferred. -/
def State.currSlot (s : State N) : Slot := s.currJob s.currCore

def State.currentJob (s : State N) : Job := s.jt s.currCore s.currSlot

/-- The jobs in sleep mode that completed and were not yet reported to their core: a read takes away the one
that it returns. -/
def pending (s : State N) (a : Action N) (g : Fin N → List Slot) : Fin N → List Slot :=
  match a with
  | .finish => if s.currentJob.sleep then Function.update g s.currCore (g s.currCore ++ [s.currSlot]) else g
  | .request core address data =>
    match decode address, processRequest s core address data with
    | some .eventJobId, some (_, id) =>
      Function.update g core ((g core).eraseP fun slot => slotWord (some slot) == id)
    | _, _ => g
  | .schedule => g

/-- A read that returns `id` and leaves `t`: without a completed job it returns -1 and frees nothing; otherwise it
returns the id of one, whose slot is done, and frees its slot only. -/
def ReportsOne (x : State N × (Fin N → List Slot)) (core : Fin N) (t : State N) (id : UInt32) : Prop :=
  x.2 core = [] ∧ id = slotWord none ∧ t.jt = x.1.jt ∨
    ∃ slot ∈ x.2 core, id = slotWord (some slot) ∧ (x.1.jt core slot).done = true ∧
      t.jt = (clearEntry x.1 core slot).jt

instance (x : State N × (Fin N → List Slot)) (core : Fin N) (t : State N) (id : UInt32) :
    Decidable (ReportsOne x core t id) :=
  inferInstanceAs (Decidable (x.2 core = [] ∧ id = slotWord none ∧ t.jt = x.1.jt ∨
    ∃ slot ∈ x.2 core, id = slotWord (some slot) ∧ (x.1.jt core slot).done = true ∧
      t.jt = (clearEntry x.1 core slot).jt))

/-- A read of `DMA_EVENT_JOB_ID`, as `dma_wait` needs it. -/
def Reported (x : State N × (Fin N → List Slot)) : Action N → Prop
  | .request core address data => decode address = some .eventJobId →
    ∃ r, processRequest x.1 core address data = some r ∧ ReportsOne x core r.1 r.2
  | _ => True

instance (x : State N × (Fin N → List Slot)) : ∀ a, Decidable (Reported x a)
  | .request core address data =>
    if hreg : decode address = some .eventJobId then
      match hr : processRequest x.1 core address data with
      | some r => decidable_of_iff (ReportsOne x core r.1 r.2)
          ⟨fun h _ => ⟨r, hr, h⟩, fun h => by
            obtain ⟨r', hr', h⟩ := h hreg
            rw [hr] at hr'
            cases hr'
            exact h⟩
      | none => isFalse fun h => by
          obtain ⟨r', hr', -⟩ := h hreg
          rw [hr] at hr'
          cases hr'
    else isTrue fun h => absurd h hreg
  | .schedule => isTrue trivial
  | .finish => isTrue trivial

/-- A job in sleep mode completes only after the id of the one before it was read; and a core reads the id while
the job that it programmed last is the one that completed and still holds its slot, or, if none completed, while
that slot is free. -/
def Orderly (s : State N) : Action N → Prop
  | .finish => s.currentJob.sleep = true → s.jobGenEv s.currCore = none
  | .request core address _ => decode address = some .eventJobId →
    match s.jobGenEv core with
    | some slot => s.jobCurrProg core = some slot ∧ (s.jt core slot).done = true
    | none => ∃ slot, s.jobCurrProg core = some slot ∧ s.jt core slot = {}
  | .schedule => True

instance (s : State N) : ∀ a, Decidable (Orderly s a)
  | .finish => inferInstanceAs (Decidable (s.currentJob.sleep = true → s.jobGenEv s.currCore = none))
  | .request core address _ =>
    match h : s.jobGenEv core with
    | some slot => decidable_of_iff (decode address = some .eventJobId →
        s.jobCurrProg core = some slot ∧ (s.jt core slot).done = true) (by simp only [Orderly, h])
    | none => decidable_of_iff (decode address = some .eventJobId →
        ∃ slot : Fin JT_SIZE, s.jobCurrProg core = some slot ∧ s.jt core slot = {}) (by simp only [Orderly, h])
  | .schedule => isTrue trivial

/-! ## The invariant -/

variable {s t : State N} {a : Action N} {core : Fin N} {address : Nat} {data id : UInt32}

/-- The read of the id. -/
theorem processRequest_eventJobId (hreg : decode address = some .eventJobId) :
    processRequest s core address data = some (t, id) ↔ ∃ slot, s.jobCurrProg core = some slot ∧
      t = { clearEntry s core slot with jobGenEv := Function.update s.jobGenEv core none } ∧
        id = slotWord (s.jobGenEv core) := by
  simp only [processRequest, hreg, Option.map_eq_some_iff, Prod.mk.injEq]
  constructor
  · rintro ⟨slot, hslot, rfl, rfl⟩
    exact ⟨slot, hslot, rfl, rfl⟩
  · rintro ⟨slot, hslot, rfl, rfl⟩
    exact ⟨slot, hslot, rfl, rfl⟩

theorem setNextJob_jobGenEv (s : State N) : (setNextJob s).jobGenEv = s.jobGenEv := by
  have hfold : ∀ (is : List (Fin N)) (u : State N), (is.foldl scanCore u).jobGenEv = u.jobGenEv := by
    intro is
    induction is with
    | nil => exact fun _ => rfl
    | cons i is ih =>
      intro u
      rw [List.foldl_cons, ih]
      obtain ⟨-, he⟩ | ⟨j, -, he⟩ := scanCore_cases u i
      · rw [he]
      · rw [he]
  unfold setNextJob
  split
  · rfl
  · exact hfold _ s

theorem jobDone_jobGenEv (s : State N) : (jobDone s).jobGenEv =
    if s.currentJob.sleep then Function.update s.jobGenEv s.currCore (some s.currSlot) else s.jobGenEv := by
  unfold jobDone State.currentJob State.currSlot
  by_cases hpri : ((s.jt s.currCore (s.currJob s.currCore)).pri != 0) = true
  · simp only [if_pos hpri]
    split
    · rfl
    · rfl
  · simp only [if_neg hpri]
    split
    · rfl
    · rfl

/-- The cell of a core holds what is still to be reported to it. -/
def InCell (x : State N × (Fin N → List Slot)) : Prop := ∀ core, x.2 core = (x.1.jobGenEv core).toList

theorem InCell.next {x y : State N × (Fin N → List Slot)} (h : InCell x) (ho : Orderly x.1 a)
    (hs : Trans.withHistory step pending x a = some y) : InCell y := by
  obtain ⟨hs, hy⟩ := Trans.withHistory_some.1 hs
  intro core
  cases a with
  | schedule =>
    have ht : setNextJob x.1 = y.1 := Option.some.inj hs
    rw [hy, ← ht, setNextJob_jobGenEv]
    exact h core
  | finish =>
    simp only [step] at hs
    split at hs
    · rw [hy, ← Option.some.inj hs, jobDone_jobGenEv]
      simp only [pending]
      split
      · rename_i hsleep
        by_cases hcore : core = x.1.currCore
        · subst hcore
          rw [Function.update_self, Function.update_self, h, ho hsleep]
          rfl
        · rw [Function.update_of_ne hcore, Function.update_of_ne hcore]
          exact h core
      · exact h core
    · cases hs
  | request core' address data =>
    simp only [step, Option.map_eq_some_iff, Prod.exists, exists_and_right, exists_eq_right] at hs
    obtain ⟨id, hid⟩ := hs
    by_cases hreg : decode address = some .eventJobId
    · obtain ⟨slot, -, ht, rfl⟩ := (processRequest_eventJobId hreg).1 hid
      simp only [pending, hreg, hid] at hy
      rw [hy, ht]
      by_cases hcore : core = core'
      · subst hcore
        rw [Function.update_self]
        simp only [Function.update_self, h core]
        cases x.1.jobGenEv core with
        | none => rfl
        | some slot' => simp
      · rw [Function.update_of_ne hcore]
        simp only [Function.update_of_ne hcore]
        exact h core
    · have hpending : y.2 = x.2 := by
        rw [hy]
        simp only [pending]
        split
        · rename_i hdec _
          exact absurd hdec hreg
        · rfl
      rw [hpending, (processRequest_frame hid).jobGenEv hreg]
      exact h core

/-- A slot that is free is not changed when it is cleared. -/
theorem clearEntry_free {slot : Slot} (h : s.jt core slot = {}) : (clearEntry s core slot).jt = s.jt := by
  have hrow : Function.update (s.jt core) slot {} = s.jt core := by
    rw [← h]
    exact Function.update_eq_self slot (s.jt core)
  simp only [clearEntry, State.setJob, hrow]
  exact Function.update_eq_self core s.jt

theorem InCell.reported {x : State N × (Fin N → List Slot)} (h : InCell x) (ho : Orderly x.1 a) : Reported x a := by
  cases a with
  | schedule => trivial
  | finish => trivial
  | request core address data =>
    intro hreg
    have ho := ho hreg
    have hcell := h core
    cases hgen : x.1.jobGenEv core with
    | some slot =>
      rw [hgen] at ho hcell
      refine ⟨_, (processRequest_eventJobId hreg).2 ⟨slot, ho.1, rfl, rfl⟩, Or.inr ⟨slot, ?_, ?_, ho.2, rfl⟩⟩
      · rw [hcell]
        exact List.mem_singleton_self slot
      · rw [hgen]
    | none =>
      rw [hgen] at ho hcell
      obtain ⟨slot, hslot, hfree⟩ := ho
      refine ⟨_, (processRequest_eventJobId hreg).2 ⟨slot, hslot, rfl, rfl⟩, Or.inl ⟨hcell, ?_, ?_⟩⟩
      · rw [hgen]
      · exact clearEntry_free hfree

/-! ## Runs -/

theorem init_inCell [NeZero N] : InCell ((init : State N), fun _ => []) := fun _ => rfl

/-- **Each completed job is reported once**: in every orderly run, each read of the id returns that of a completed
job that was not reported, as long as there is one, and frees its slot and no other. -/
theorem sleep_events [NeZero N] {as : List (Action N)}
    (hC : Trans.Along (Trans.withHistory step pending) (fun x a => Orderly x.1 a) (init, fun _ => []) as) :
    Trans.Along (Trans.withHistory step pending) Reported ((init : State N), fun _ => []) as :=
  hC.of_inv InCell init_inCell (fun _ _ _ h ho hs => h.next ho hs) fun _ _ h ho => h.reported ho

/-- `dma_prog` (dmasupport.c:8). -/
def dmaProg (core : Fin N) (mode : UInt32) : List (Action N) :=
  [.request core CL_DMA_BASE 0, .request core (CL_DMA_BASE + 1) 0x08000000, .request core (CL_DMA_BASE + 2) 0x100,
    .request core (CL_DMA_BASE + 8) mode]

/-- `DMA_SET_MODE` (dmasupport.h:24). -/
def dmaSetMode (size dir async sleep trig : UInt32) : UInt32 :=
  trig ||| dir <<< 1 ||| async <<< 2 ||| sleep <<< 5 ||| size <<< 6

/-- 64 bytes from `addr1` to `addr2`, in sleep mode, triggered at once. -/
def sleepMode : UInt32 := dmaSetMode 64 1 0 1 1

def readEvent (core : Fin N) : Action N := .request core (CL_DMA_BASE + 11) 0

/-- Each core has one job, and waits for it. -/
def oneJobEach : List (Action 2) :=
  dmaProg core0 sleepMode ++ dmaProg core1 sleepMode ++
    [.schedule, .finish, .schedule, .finish, readEvent core0, readEvent core1]

theorem sleep_events_oneJobEach :
    Trans.Along (Trans.withHistory step pending) Reported (init, fun _ => []) oneJobEach :=
  sleep_events (by decide +kernel)

/-- A core programs a second job while the first one is transferred, and waits for the first. -/
def twoJobsOfOne : List (Action 1) :=
  dmaProg 0 sleepMode ++ [.schedule] ++ dmaProg 0 sleepMode ++ [.finish, readEvent 0]

/-- The read reports job 0 and frees the slot of job 1. -/
theorem not_reported_twoJobsOfOne :
    ¬ Trans.Along (Trans.withHistory step pending) Reported (init, fun _ => []) twoJobsOfOne := by
  decide +kernel

end VirtualSoc.Dma
