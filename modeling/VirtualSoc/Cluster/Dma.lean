import Mathlib.Logic.Function.Basic
import VirtualSoc.Lib.Scan
import VirtualSoc.Core.Bus

/-!
# The job table of the DMA (cluster/cl_dma.cpp, cluster/cl_dma.h)

Each core programs jobs in its row of the job table through the registers of the engine
(`processRequest`). While the engine is idle, `setNextJob` looks for a job that is triggered and not done, with
a round robin over the cores and over the slots of a core; `transfer` then moves the data (`DmaCopy`) and at
last marks the job (`jobDone`).

The slots that `set_next_job` tests and those that it selects are counted from two different places, and a
later core of the scan overrides an earlier one. The last core of the scan is always the current one, where
both places agree, so what is left selected can run (`set_next_job_runnable`).

`jobFIFO` and `job_id` are written and never read, and are left out; so are the lines `dma_event`, which `transfer`
only raises.
-/

namespace VirtualSoc.Dma

def JT_SIZE : Nat := 16

/-- `1<<20`. -/
def MAX_TRANSFER_SIZE : Nat := 0x100000

abbrev Slot := Fin JT_SIZE

/-- `dma_job`, with the values that `clear_entry` and `reset_jt` give. `core_id` is -1 in a free slot. -/
structure Job where
  coreId : Int8 := -1
  addr1 : UInt32 := 0xFFFFFFFF
  addr2 : UInt32 := 0xFFFFFFFF
  size : UInt32 := 0
  dir : Bool := false
  pri : UInt8 := 0
  sleep : Bool := false
  trigger : Bool := false
  done : Bool := false
deriving DecidableEq, Repr

/-- The test of `set_next_job`. -/
def Job.runnable (job : Job) : Bool := job.trigger && !job.done

/-- `N` channels (`DMA_CHANNELS`). `jobCurrProg` and `jobGenEv` are -1 without a job. -/
structure State (N : Nat) where
  jt : Fin N → Slot → Job
  currCore : Fin N
  currJob : Fin N → Slot
  jobCurrProg : Fin N → Option Slot
  jobGenEv : Fin N → Option Slot
  workingSig : Bool

variable {N : Nat}

def slot0 : Slot := ⟨0, by decide⟩

/-- The constructor, with `reset_jt` (cl_dma.cpp:52). -/
def init [NeZero N] : State N where
  jt _ _ := {}
  currCore := 0
  currJob _ := slot0
  jobCurrProg _ := none
  jobGenEv _ := none
  workingSig := false

/-- `jt[core][slot] = ..`. -/
def State.setJob (s : State N) (core : Fin N) (slot : Slot) (job : Job) : State N :=
  { s with jt := Function.update s.jt core (Function.update (s.jt core) slot job) }

/-- `clear_entry` (cl_dma.cpp:80). -/
def clearEntry (s : State N) (core : Fin N) (slot : Slot) : State N := s.setJob core slot {}

/-- `look_4_free_slot` (cl_dma.cpp:37). -/
def look4FreeSlot (s : State N) (core : Fin N) : Option Slot := Scan.first fun slot => (s.jt core slot).coreId == -1

/-! ## `set_next_job` (cl_dma.cpp:98) -/

/-- The loop over the slots for the `i`-th core of the scan. -/
def scanCore (s : State N) (i : Fin N) : State N :=
  match Scan.first fun j : Slot =>
    (s.jt (Scan.rot (s.currCore + 1) i) (Scan.rot (s.currJob s.currCore + 1) j)).runnable with
  | some j =>
    let core := Scan.rot (s.currCore + 1) i
    { s with
      currCore := core
      currJob := Function.update s.currJob core (Scan.rot (s.currJob core + 1) j)
      workingSig := true }
  | none => s

/-- `working_sig` is a signal, so the loops do not see their own write to it: the `break` leaves the inner loop
only, and the outer one goes on with the next core. -/
def setNextJob (s : State N) : State N := if s.workingSig then s else (List.finRange N).foldl scanCore s

/-! ## `process_request` (cl_dma.cpp:118) -/

/-- The registers, by the low bits of the address (config.h:84). -/
inductive Reg
  | freeSlot | addr1 | addr2 | size | dir | trigger | sleep | async | mode | done | dump | eventJobId
deriving DecidableEq, Repr

def decode (address : Nat) : Option Reg :=
  [Reg.freeSlot, .addr1, .addr2, .size, .dir, .trigger, .sleep, .async, .mode, .done, .dump,
    .eventJobId][address % 16]?

/-- A slot, or -1, as the core reads it. -/
def slotWord : Option Slot → UInt32
  | some slot => UInt32.ofNat slot
  | none => 0xFFFFFFFF

/-- A register that changes the job that the core is programming. With `job_curr_prog` at -1 the write is
outside of the row of the core. -/
def program (s : State N) (core : Fin N) (f : Job → Job) : Option (State N) :=
  (s.jobCurrProg core).map fun slot => s.setJob core slot (f (s.jt core slot))

/-- `DMA_MODE_REG` (cl_dma.cpp:220). -/
def setMode (data : UInt32) (job : Job) : Job :=
  { job with
    pri := ((data &&& 0x0000001C) >>> 2).toUInt8
    dir := (data &&& 0x00000002) >>> 1 != 0
    sleep := (data &&& 0x00000020) >>> 5 != 0
    size := (data &&& 0x00FFFFC0) >>> 6
    trigger := data &&& 0x00000001 != 0 }

/-- One request of a core: the new table, and the data for the core. An `assert` that fails, an unknown register
and an access outside of the table have no outcome. -/
def processRequest (s : State N) (core : Fin N) (address : Nat) (data : UInt32) : Option (State N × UInt32) :=
  match decode address with
  | some .freeSlot =>
    let slot := look4FreeSlot s core
    some ({ s with jobCurrProg := Function.update s.jobCurrProg core slot }, slotWord slot)
  | some .addr1 =>
    (program s core fun job => { job with coreId := Int8.ofNat core, addr1 := data }).map fun t => (t, data)
  | some .addr2 => (program s core fun job => { job with addr2 := data }).map fun t => (t, data)
  | some .size =>
    if data.toNat ≤ MAX_TRANSFER_SIZE then
      (program s core fun job => { job with size := data }).map fun t => (t, data)
    else none
  | some .dir => (program s core fun job => { job with dir := data != 0 }).map fun t => (t, data)
  | some .trigger =>
    if h : data.toNat < JT_SIZE then
      some (s.setJob core ⟨data.toNat, h⟩ { s.jt core ⟨data.toNat, h⟩ with trigger := true }, data)
    else none
  | some .sleep => (program s core fun job => { job with sleep := data != 0 }).map fun t => (t, data)
  | some .async => (program s core fun job => { job with pri := data.toUInt8 }).map fun t => (t, data)
  | some .mode =>
    if ((data &&& 0x00FFFFC0) >>> 6).toNat ≤ MAX_TRANSFER_SIZE then
      (program s core (setMode data)).map fun t => (t, data)
    else none
  | some .done =>
    let slot : Slot := ⟨address / 16 % JT_SIZE, Nat.mod_lt _ (by decide)⟩
    let done := (s.jt core slot).done
    some (if done then clearEntry s core slot else s, if done then 1 else 0)
  | some .eventJobId =>
    (s.jobCurrProg core).map fun slot =>
      ({ clearEntry s core slot with jobGenEv := Function.update s.jobGenEv core none }, slotWord (s.jobGenEv core))
  | some .dump => some (s, data)
  | none => none

variable {s t : State N}

/-- What a request leaves alone: the place of the scheduler, the signal, and, unless it is the read of the id, the
cells of the events. -/
structure Requested (address : Nat) (s t : State N) : Prop where
  currCore : t.currCore = s.currCore
  currJob : t.currJob = s.currJob
  workingSig : t.workingSig = s.workingSig
  jobGenEv : decode address ≠ some .eventJobId → t.jobGenEv = s.jobGenEv

theorem program_frame {core : Fin N} {address : Nat} {data id : UInt32} {f : Job → Job}
    (h : (program s core f).map (fun t => (t, data)) = some (t, id)) : Requested address s t := by
  simp only [program, Option.map_map, Option.map_eq_some_iff, Function.comp_apply, Prod.mk.injEq] at h
  obtain ⟨slot, -, rfl, -⟩ := h
  exact ⟨rfl, rfl, rfl, fun _ => rfl⟩

theorem processRequest_frame {core : Fin N} {address : Nat} {data id : UInt32}
    (h : processRequest s core address data = some (t, id)) : Requested address s t := by
  unfold processRequest at h
  split at h
  · cases h
    exact ⟨rfl, rfl, rfl, fun _ => rfl⟩
  · exact program_frame h
  · exact program_frame h
  · split at h
    · exact program_frame h
    · cases h
  · exact program_frame h
  · split at h
    · cases h
      exact ⟨rfl, rfl, rfl, fun _ => rfl⟩
    · cases h
  · exact program_frame h
  · exact program_frame h
  · split at h
    · exact program_frame h
    · cases h
  · simp only [Option.some.injEq, Prod.mk.injEq] at h
    obtain ⟨rfl, -⟩ := h
    split <;> exact ⟨rfl, rfl, rfl, fun _ => rfl⟩
  · rename_i hdec
    simp only [Option.map_eq_some_iff, Prod.mk.injEq] at h
    obtain ⟨slot, -, rfl, -⟩ := h
    exact ⟨rfl, rfl, rfl, fun hreg => absurd hdec hreg⟩
  · cases h
    exact ⟨rfl, rfl, rfl, fun _ => rfl⟩
  · cases h

/-! ## The end of `transfer` (cl_dma.cpp:502) -/

/-- `done` is set, a sleeping core gets the event, and a job with a priority is cleared at once. -/
def jobDone (s : State N) : State N :=
  let core := s.currCore
  let slot := s.currJob core
  let job := s.jt core slot
  let s₁ := s.setJob core slot { job with done := true }
  let s₂ := if job.sleep then { s₁ with jobGenEv := Function.update s₁.jobGenEv core (some slot) } else s₁
  let s₃ := if job.pri != 0 then clearEntry s₂ core slot else s₂
  { s₃ with workingSig := false }

/-! ## The scheduler picks what can run -/

variable {i : Fin N}

/-- The row of a core has a job that can run. -/
def State.Ready (s : State N) (core : Fin N) : Prop := ∃ slot, (s.jt core slot).runnable = true

/-- What the scan of one core does, whatever the slot is from which it counts. -/
theorem scanCore_cases (s : State N) (i : Fin N) :
    (¬ s.Ready (Scan.rot (s.currCore + 1) i) ∧ scanCore s i = s) ∨
      ∃ j : Slot, (s.jt (Scan.rot (s.currCore + 1) i) (Scan.rot (s.currJob s.currCore + 1) j)).runnable = true ∧
        scanCore s i = { s with
          currCore := Scan.rot (s.currCore + 1) i
          currJob := Function.update s.currJob (Scan.rot (s.currCore + 1) i)
            (Scan.rot (s.currJob (Scan.rot (s.currCore + 1) i) + 1) j)
          workingSig := true } := by
  unfold scanCore
  split
  · rename_i j hj
    exact Or.inr ⟨j, Scan.first_some hj, rfl⟩
  · rename_i hnone
    refine Or.inl ⟨?_, rfl⟩
    rintro ⟨slot, hslot⟩
    obtain ⟨j, rfl⟩ := Scan.rot_surj (s.currJob s.currCore + 1) slot
    have := Scan.first_none.1 hnone j
    rw [hslot] at this
    cases this

/-- What the scan keeps up: the current core, once one was found, has a job that can run. -/
structure Scanned (s t : State N) : Prop where
  jt : t.jt = s.jt
  ready : t.workingSig = true → t.Ready t.currCore

theorem Scanned.next (h : Scanned s t) (i : Fin N) : Scanned s (scanCore t i) := by
  obtain ⟨-, he⟩ | ⟨j, hj, he⟩ := scanCore_cases t i
  · rw [he]
    exact h
  · rw [he]
    exact ⟨h.jt, fun _ => ⟨_, hj⟩⟩

theorem Scanned.fold (h : Scanned s t) (is : List (Fin N)) : Scanned s (is.foldl scanCore t) := by
  induction is generalizing t with
  | nil => exact h
  | cons i is ih => exact ih (h.next i)

theorem scanCore_working (h : s.workingSig = true) : (scanCore s i).workingSig = true := by
  obtain ⟨-, he⟩ | ⟨j, -, he⟩ := scanCore_cases s i
  · rw [he]
    exact h
  · rw [he]

theorem fold_working {is : List (Fin N)} (h : s.workingSig = true) : (is.foldl scanCore s).workingSig = true := by
  induction is generalizing s with
  | nil => exact h
  | cons i is ih => exact ih (scanCore_working h)

/-- A core with a job that can run ends the idle state. -/
theorem fold_finds {is : List (Fin N)} (hi : i ∈ is) (h : s.Ready (Scan.rot (s.currCore + 1) i)) :
    (is.foldl scanCore s).workingSig = true := by
  induction is with
  | nil => cases hi
  | cons i' is ih =>
    obtain ⟨hno, he⟩ | ⟨j, -, he⟩ := scanCore_cases s i'
    · have hne : i ≠ i' := by
        rintro rfl
        exact hno h
      rw [List.foldl_cons, he]
      exact ih ((List.mem_cons.1 hi).resolve_left hne)
    · rw [List.foldl_cons]
      refine fold_working ?_
      rw [he]

/-- The last core of the scan is the current one. -/
theorem rot_last {n : Nat} (k : Fin (n + 1)) : Scan.rot (k + 1) (Fin.last n) = k := by
  apply Fin.ext
  change (k.val + 1 + n) % (n + 1) = k.val
  rw [show k.val + 1 + n = k.val + (n + 1) by omega, Nat.add_mod_right, Nat.mod_eq_of_lt k.isLt]

/-- There the slot that is tested is the one that is selected. -/
theorem scanCore_self (hi : Scan.rot (s.currCore + 1) i = s.currCore) (h : s.Ready s.currCore) :
    ((scanCore s i).jt (scanCore s i).currCore ((scanCore s i).currJob (scanCore s i).currCore)).runnable = true := by
  obtain ⟨hno, -⟩ | ⟨j, hj, he⟩ := scanCore_cases s i
  · rw [hi] at hno
    exact absurd h hno
  · rw [hi] at hj he
    rw [he]
    simp only [Function.update_self]
    exact hj

/-- **The scheduler picks a job that can run**, and it picks one whenever there is one: for every number of
channels, every table and every place at which the scan starts. -/
theorem set_next_job_runnable (s : State N) (hidle : s.workingSig = false) :
    ((setNextJob s).workingSig = true →
      ((setNextJob s).jt (setNextJob s).currCore ((setNextJob s).currJob (setNextJob s).currCore)).trigger = true ∧
      ((setNextJob s).jt (setNextJob s).currCore ((setNextJob s).currJob (setNextJob s).currCore)).done = false) ∧
    ((∃ core slot, (s.jt core slot).trigger = true ∧ (s.jt core slot).done = false) →
      (setNextJob s).workingSig = true) := by
  have hset : setNextJob s = (List.finRange N).foldl scanCore s := by
    rw [setNextJob, hidle, if_neg (by decide)]
  have hrun : ∀ job : Job, job.runnable = true ↔ job.trigger = true ∧ job.done = false := by
    intro job
    rw [Job.runnable, Bool.and_eq_true, Bool.not_eq_true']
  rw [hset]
  constructor
  · intro hwork
    rw [← hrun]
    cases N with
    | zero => exact s.currCore.elim0
    | succ n =>
      rw [List.finRange_succ_last, List.foldl_append, List.foldl_cons, List.foldl_nil] at hwork ⊢
      have h0 : Scanned s s := ⟨rfl, fun hw => by rw [hidle] at hw; cases hw⟩
      have h := h0.fold ((List.finRange n).map Fin.castSucc)
      generalize ((List.finRange n).map Fin.castSucc).foldl scanCore s = t at h hwork
      have hlast := rot_last t.currCore
      refine scanCore_self hlast ?_
      -- the last core is found, or another one was found before it
      obtain ⟨hno, he⟩ | ⟨j, hj, -⟩ := scanCore_cases t (Fin.last n)
      · rw [he] at hwork
        exact h.ready hwork
      · rw [hlast] at hj
        exact ⟨_, hj⟩
  · rintro ⟨core, slot, hjob⟩
    obtain ⟨i, rfl⟩ := Scan.rot_surj (s.currCore + 1) core
    exact fold_finds (List.mem_finRange i) ⟨slot, (hrun _).2 hjob⟩

def core0 : Fin 2 := ⟨0, by decide⟩

def core1 : Fin 2 := ⟨1, by decide⟩

theorem twoCores : NeZero 2 := ⟨by decide⟩

def slot2 : Slot := ⟨2, by decide⟩

def slot7 : Slot := ⟨7, by decide⟩

/-- Two cores with a job each; the slots are counted from 0 for core 0 and from 7 for core 1. -/
def twoJobs : State 2 :=
  { @init 2 twoCores with
    jt := fun core slot =>
      if core = core0 ∧ slot = slot7 ∨ core = core1 ∧ slot = slot2 then { trigger := true } else {}
    currJob := fun core => if core = core1 then slot7 else slot0 }

theorem set_next_job_runnable_twoJobs : (setNextJob twoJobs).workingSig = true ∧
    ((setNextJob twoJobs).jt (setNextJob twoJobs).currCore
      ((setNextJob twoJobs).currJob (setNextJob twoJobs).currCore)).trigger = true := by
  obtain ⟨hpicks, hraises⟩ := set_next_job_runnable twoJobs rfl
  have hwork := hraises ⟨1, slot2, by decide, by decide⟩
  exact ⟨hwork, (hpicks hwork).1⟩

end VirtualSoc.Dma
