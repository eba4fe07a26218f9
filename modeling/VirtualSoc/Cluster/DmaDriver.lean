import VirtualSoc.Cluster.DmaMode
import VirtualSoc.Cluster.DmaSchedule

/-!
# The driver of the DMA (support/simulator/dmasupport.c, cluster/cl_dma.cpp, processors/mmu.tpp)

On each core runs a program that calls `dma_prog`, `dma_start` and `dma_wait`; each access of these to the registers
is a step, and so are the phases of `transfer`, the scheduler, and whatever else is written to the memory. A program
starts the jobs of its own that are not started, and waits for those that are; it does not poll for a job with
a priority, whose slot is free as soon as it is done.

`life` is what should be seen of a slot of the table, and `Jobs` ties its phase to the entry, as long as the
calls of `dma_prog` are `Plain`: nobody sleeps (what the completions come to with cores that do is in
`DmaEvent`), and the mode word has room for the arguments.
-/

namespace VirtualSoc.Dma.Driver

/-! ## The driver -/

/-- The arguments of `dma_prog`; `id` is not used. -/
structure Args where
  addr1 : UInt32
  addr2 : UInt32
  size : UInt32
  direction : Bool
  async : UInt8
  sleep : Bool
  trigger : Bool

/-- Arguments of a call of `dma_prog` that does not ask for sleep mode, and that the mode word has room for. -/
structure Args.Plain (args : Args) : Prop where
  awake : args.sleep = false
  size_lt : args.size.toNat < 2 ^ 18
  async_lt : args.async.toNat < 8

instance (args : Args) : Decidable args.Plain :=
  decidable_of_iff (args.sleep = false ∧ args.size.toNat < 2 ^ 18 ∧ args.async.toNat < 8)
    ⟨fun h => ⟨h.1, h.2.1, h.2.2⟩, fun h => ⟨h.awake, h.size_lt, h.async_lt⟩⟩

def SLEEP_ID_OFF : UInt32 := 0x10

/-- The id that `dma_prog` returns (dmasupport.c:37). -/
def jobId (job : Slot) (sleep : Bool) : UInt32 := if sleep then UInt32.ofNat job + SLEEP_ID_OFF else UInt32.ofNat job

/-- The slot of an id, for `dma_start` (dmasupport.c:47). -/
def triggered (job_id : UInt32) : UInt32 := if job_id ≥ SLEEP_ID_OFF then job_id - SLEEP_ID_OFF else job_id

/-- The register that a core is at in `dma_prog`, the loop of `dma_wait`, or its other branch: the core sleeps, or
was woken. -/
inductive Pc
  | user
  | addr1 (job : Slot) (args : Args)
  | addr2 (job : Slot) (args : Args)
  | mode (job : Slot) (args : Args)
  | poll (job : Slot)
  | asleep
  | collect

/-- What a program knows of a job: that it may start it, or wait for it, and whether it has an id in sleep mode. -/
inductive Held
  | nothing
  | programmed (async : UInt8) (sleep : Bool)
  | started (sleep : Bool)
deriving DecidableEq, Repr

structure State (N : Nat) where
  table : Dma.State N
  engine : Engine
  storing : Bool  -- `transfer` is behind the SOURCE phase
  dmaEvent : Fin N → Bool
  pc : Fin N → Pc
  held : Fin N → Slot → Held

inductive Act (N : Nat)
  | prog (core : Fin N) (args : Args)
  | start (core : Fin N) (job : Slot)
  | wait (core : Fin N) (job : Slot)
  | go (core : Fin N)
  | schedule
  | source
  | target
  | memory (mem : MemClass)

variable {N : Nat}

def init [NeZero N] (mem : MemClass) (io : Nat → UInt32) : State N where
  table := Dma.init
  engine := Engine.start mem io
  storing := false
  dmaEvent _ := false
  pc _ := .user
  held _ _ := .nothing

/-- The function with another value for a slot of a core. -/
def setCell {α : Type} (f : Fin N → Slot → α) (core : Fin N) (job : Slot) (v : α) : Fin N → Slot → α := fun c j =>
  if c = core ∧ j = job then v else f c j

namespace State

variable (s : State N)

/-- An access of the core to a register of the engine. -/
def access (core : Fin N) (reg : Nat) (data : UInt32) : Option (State N × UInt32) :=
  (processRequest s.table core (CL_DMA_BASE + reg) data).map fun r => ({ s with table := r.1 }, r.2)

def goto (core : Fin N) (pc : Pc) : State N := { s with pc := Function.update s.pc core pc }

def hold (core : Fin N) (job : Slot) (held : Held) : State N := { s with held := setCell s.held core job held }

end State

/-- A program forgets a job with a priority when it is started, unless it can sleep for it. -/
def heldStarted (async : UInt8) (sleep : Bool) : Held := if async = 0 ∨ sleep then .started sleep else .nothing

/-- What it knows when `dma_prog` returns. -/
def Args.held (args : Args) : Held :=
  if args.trigger then heldStarted args.async args.sleep else .programmed args.async args.sleep

/-- `dma_prog` up to the first register (dmasupport.c:20): it fails on `DMA_ERROR`. -/
def progStep (s : State N) (core : Fin N) (args : Args) : Option (State N) :=
  match s.pc core with
  | .user => do
    let (s, job) ← s.access core 0 0
    some (if h : job.toNat < JT_SIZE then s.goto core (.addr1 ⟨job.toNat, h⟩ args) else s)
  | _ => none

/-- `dma_start` (dmasupport.c:43). -/
def startStep (s : State N) (core : Fin N) (job : Slot) : Option (State N) :=
  match s.pc core, s.held core job with
  | .user, .programmed async sleep => do
    let (s, _) ← s.access core 5 (triggered (jobId job sleep))
    some (s.hold core job (heldStarted async sleep))
  | _, _ => none

/-- `dma_wait` (dmasupport.c:52): what a job with an id in sleep mode writes is kept by the core, which falls
asleep (mmu.tpp:1252). -/
def waitStep (s : State N) (core : Fin N) (job : Slot) : Option (State N) :=
  match s.pc core, s.held core job with
  | .user, .started sleep => some (s.goto core (if jobId job sleep < SLEEP_ID_OFF then .poll job else .asleep))
  | _, _ => none

/-- The next access of a core in `dma_prog` (dmasupport.c:28) or `dma_wait` (dmasupport.c:56). A core that sleeps
is woken by `dma_event`, and lowers it (mmu.tpp:1168). -/
def goStep (s : State N) (core : Fin N) : Option (State N) :=
  match s.pc core with
  | .user => none
  | .addr1 job args => do
    let (s, _) ← s.access core 1 args.addr1
    some (s.goto core (.addr2 job args))
  | .addr2 job args => do
    let (s, _) ← s.access core 2 args.addr2
    some (s.goto core (.mode job args))
  | .mode job args => do
    let (s, _) ← s.access core 8
      (dmaSetMode args.size (flag args.direction) args.async.toUInt32 (flag args.sleep) (flag args.trigger))
    some ((s.hold core job args.held).goto core .user)
  | .poll job => do
    let (s, done) ← s.access core (9 + job.val <<< 4) 0
    some (if done = 0 then s else (s.hold core job .nothing).goto core .user)
  | .asleep =>
    if s.dmaEvent core then some ({ s with dmaEvent := Function.update s.dmaEvent core false }.goto core .collect)
    else none
  | .collect => do
    let (s, id) ← s.access core 11 0
    some ((if h : id.toNat < JT_SIZE then s.hold core ⟨id.toNat, h⟩ .nothing else s).goto core .user)

def step (s : State N) : Act N → Option (State N)
  | .prog core args => progStep s core args
  | .start core job => startStep s core job
  | .wait core job => waitStep s core job
  | .go core => goStep s core
  | .schedule => some { s with table := setNextJob s.table }
  | .source =>
    if s.table.workingSig && !s.storing then
      (source s.table.currentJob s.engine).map fun e => { s with engine := e, storing := true }
    else none
  | .target =>
    if s.storing then
      (target s.table.currentJob s.engine).map fun e =>
        { s with
          engine := e
          storing := false
          table := jobDone s.table
          dmaEvent :=
            if s.table.currentJob.sleep then Function.update s.dmaEvent s.table.currCore true else s.dmaEvent }
    else none
  | .memory mem =>
    if mem.size = s.engine.port.mem.size then
      some { s with engine := { s.engine with port := { s.engine.port with mem := mem } } }
    else none

/-! ## The life of a job -/

inductive Event
  | prog (job : Job)
  | start
  | fetch (job : Job)
  | store (job : Job)
  | ret
deriving DecidableEq, Repr

/-- A slot between two lives, or in one; the job is as it was programmed. -/
inductive Phase
  | free
  | programmed (job : Job)
  | queued (job : Job)
  | fetched (job : Job)
  | moved (job : Job)
deriving DecidableEq, Repr

def life : Phase → Event → Option Phase
  | .free, .prog job => some (if job.trigger then .queued job else .programmed job)
  | .programmed job, .start => some (.queued { job with trigger := true })
  | .queued job, .fetch job' => if job' = job then some (.fetched job) else none
  | .fetched job, .store job' => if job' = job then some (if job.pri = 0 then .moved job else .free) else none
  | .moved _, .ret => some .free
  | _, _ => none

/-- The job that a call of `dma_prog` asks for. -/
def Args.entry (args : Args) (core : Nat) : Job where
  coreId := Int8.ofNat core
  addr1 := args.addr1
  addr2 := args.addr2
  size := args.size
  dir := args.direction
  pri := args.async
  sleep := args.sleep
  trigger := args.trigger

/-- What is seen of the slot `job` of `core`. -/
def events (core : Fin N) (job : Slot) (s : State N) : Act N → List Event
  | .start c j => if c = core ∧ j = job then [.start] else []
  | .go c =>
    match s.pc c with
    | .mode j args => if c = core ∧ j = job then [.prog (args.entry c)] else []
    | .poll j => if c = core ∧ j = job ∧ (s.table.jt core job).done then [.ret] else []
    | .collect => if c = core ∧ s.table.jobGenEv core = some job then [.ret] else []
    | _ => []
  | .source => if s.table.currCore = core ∧ s.table.currSlot = job then [.fetch s.table.currentJob] else []
  | .target => if s.table.currCore = core ∧ s.table.currSlot = job then [.store s.table.currentJob] else []
  | _ => []

/-! ## The table -/

section Table

variable {s t : State N} {a : Act N} {c core : Fin N} {j job : Slot} {φ : Fin N → Slot → Phase} {args : Args}

/-- The phase that `dma_prog` leaves. -/
def Args.phase (args : Args) (core : Nat) : Phase :=
  if args.trigger then .queued (args.entry core) else .programmed (args.entry core)

/-- What the core has written of the slot so far. -/
def Pc.entry (core : Nat) (job : Slot) : Pc → Job
  | .addr2 job' args => if job' = job then { coreId := Int8.ofNat core, addr1 := args.addr1 } else {}
  | .mode job' args =>
    if job' = job then { coreId := Int8.ofNat core, addr1 := args.addr1, addr2 := args.addr2 } else {}
  | _ => {}

/-- The core is in `dma_prog` for this slot. -/
def Pc.Programs (job : Slot) : Pc → Prop
  | .addr1 job' _ | .addr2 job' _ | .mode job' _ => job' = job
  | _ => False

/-- The core is in no call that has to do with sleep mode. -/
def Pc.Plain : Pc → Prop
  | .addr1 _ args | .addr2 _ args | .mode _ args => args.Plain
  | .user | .poll _ => True
  | .asleep | .collect => False

def Phase.entry (pc : Pc) (core : Nat) (job : Slot) : Phase → Job
  | .free => pc.entry core job
  | .programmed job | .queued job | .fetched job => job
  | .moved job => { job with done := true }

/-- A job as `dma_prog` leaves it. -/
structure Filled (core : Nat) (job : Job) : Prop where
  coreId : job.coreId = Int8.ofNat core
  done : job.done = false
  sleep : job.sleep = false

def Phase.Ok (core : Nat) : Phase → Prop
  | .free => True
  | .programmed job => Filled core job ∧ job.trigger = false
  | .queued job | .fetched job => Filled core job ∧ job.trigger = true
  | .moved job => Filled core job ∧ job.pri = 0

/-- What a program knows is so. -/
def Held.Of (ph : Phase) : Held → Prop
  | .nothing => True
  | .programmed async sleep => sleep = false ∧ ∃ job, ph = .programmed job ∧ job.pri = async
  | .started sleep => sleep = false ∧
    match ph with
    | .queued job | .fetched job => job.pri = 0
    | .moved _ => True
    | _ => False

/-- Each entry of the table is that of its phase. -/
structure Jobs (s : State N) (φ : Fin N → Slot → Phase) : Prop where
  table : ∀ c j, s.table.jt c j = (φ c j).entry (s.pc c) c j
  ok : ∀ c j, (φ c j).Ok c
  held : ∀ c j, (s.held c j).Of (φ c j)
  prog : ∀ c j, (s.pc c).Programs j → s.table.jobCurrProg c = some j ∧ φ c j = .free
  poll : ∀ c j, s.pc c = .poll j → s.held c j = .started false
  plain : ∀ c, (s.pc c).Plain
  working : s.table.workingSig = true →
    ∃ job, φ s.table.currCore s.table.currSlot = if s.storing then .fetched job else .queued job
  storing : s.storing = true → s.table.workingSig = true
  fetched : ∀ c j job, φ c j = .fetched job → s.storing = true ∧ c = s.table.currCore ∧ j = s.table.currSlot

theorem heldStarted_of {v : Job} : (heldStarted v.pri false).Of (.queued v) := by
  unfold heldStarted
  split
  · rename_i hpri
    exact ⟨rfl, hpri.resolve_right Bool.false_ne_true⟩
  · trivial

theorem Args.phase_cases (args : Args) (core : Nat) :
    args.phase core = .queued (args.entry core) ∧ args.trigger = true ∧ args.held = heldStarted args.async args.sleep ∨
      args.phase core = .programmed (args.entry core) ∧ args.trigger = false ∧
        args.held = .programmed args.async args.sleep := by
  unfold Args.phase Args.held
  cases args.trigger
  · exact Or.inr ⟨rfl, rfl, rfl⟩
  · exact Or.inl ⟨rfl, rfl, rfl⟩

/-- What `dma_prog` leaves of the slot. -/
theorem Args.Plain.phase_ok {args : Args} (h : args.Plain) (core : Nat) :
    (args.phase core).Ok core ∧ args.held.Of (args.phase core) ∧
      (∀ pc job, (args.phase core).entry pc core job = args.entry core) ∧ ∀ v, args.phase core ≠ .fetched v := by
  have hfilled : Filled core (args.entry core) := ⟨rfl, rfl, h.awake⟩
  obtain ⟨hph, htrig, hheld⟩ | ⟨hph, htrig, hheld⟩ := args.phase_cases core
  · rw [hph, hheld, h.awake]
    exact ⟨⟨hfilled, htrig⟩, heldStarted_of, fun _ _ => rfl, fun v hv => nomatch hv⟩
  · rw [hph, hheld, h.awake]
    exact ⟨⟨hfilled, htrig⟩, ⟨rfl, _, rfl, rfl⟩, fun _ _ => rfl, fun v hv => nomatch hv⟩

@[simp] theorem setCell_self {α : Type} (f : Fin N → Slot → α) (v : α) : setCell f c j v c j = v :=
  if_pos ⟨rfl, rfl⟩

theorem setCell_of_ne {α : Type} {f : Fin N → Slot → α} {v : α} (h : ¬ (c = core ∧ j = job)) :
    setCell f core job v c j = f c j :=
  if_neg h

theorem jt_setJob (s : Dma.State N) (core : Fin N) (job : Slot) (v : Job) :
    (s.setJob core job v).jt = setCell s.jt core job v := by
  funext c j
  unfold Dma.State.setJob setCell
  by_cases hc : c = core
  · subst hc
    by_cases hj : j = job
    · subst hj
      simp
    · simp [hj]
  · simp [hc]

theorem init_jobs [NeZero N] (mem : MemClass) (io : Nat → UInt32) : Jobs (init mem io : State N) fun _ _ => .free where
  table _ _ := rfl
  ok _ _ := trivial
  held _ _ := trivial
  prog _ _ h := h.elim
  poll _ _ h := nomatch h
  plain _ := trivial
  working h := nomatch h
  storing h := nomatch h
  fetched _ _ _ h := nomatch h

/-! ## The registers -/

theorem request_freeSlot (s : Dma.State N) (core : Fin N) (data : UInt32) :
    processRequest s core (CL_DMA_BASE + 0) data =
      some ({ s with jobCurrProg := Function.update s.jobCurrProg core (look4FreeSlot s core) },
        slotWord (look4FreeSlot s core)) := rfl

theorem request_addr1 {s : Dma.State N} (h : s.jobCurrProg core = some job) (data : UInt32) :
    processRequest s core (CL_DMA_BASE + 1) data =
      some (s.setJob core job { s.jt core job with coreId := Int8.ofNat core, addr1 := data }, data) := by
  change (program s core _).map _ = _
  rw [program, h]
  rfl

theorem request_addr2 {s : Dma.State N} (h : s.jobCurrProg core = some job) (data : UInt32) :
    processRequest s core (CL_DMA_BASE + 2) data = some (s.setJob core job { s.jt core job with addr2 := data }, data) := by
  change (program s core _).map _ = _
  rw [program, h]
  rfl

/-- The slot of the id is that of the job. -/
theorem triggered_jobId : ∀ (job : Slot) (sleep : Bool), triggered (jobId job sleep) = UInt32.ofNat job := by
  decide

/-- Only the ids in sleep mode are from the offset on. -/
theorem jobId_lt : ∀ (job : Slot) (sleep : Bool), jobId job sleep < SLEEP_ID_OFF ↔ sleep = false := by
  decide

theorem request_trigger (s : Dma.State N) (core : Fin N) (job : Slot) :
    processRequest s core (CL_DMA_BASE + 5) (UInt32.ofNat job) =
      some (s.setJob core job { s.jt core job with trigger := true }, UInt32.ofNat job) := by
  have hlt : job.val < 16 := job.isLt
  have hjob : (UInt32.ofNat job).toNat = job := by
    rw [UInt32.toNat_ofNat', Nat.mod_eq_of_lt (by omega)]
  have h : (UInt32.ofNat job).toNat < JT_SIZE := by rw [hjob]; exact hlt
  change (if h : (UInt32.ofNat job).toNat < JT_SIZE then _ else _) = _
  rw [dif_pos h]
  simp only [hjob]

/-- The mode word has room for plain arguments. -/
theorem request_mode {s : Dma.State N} (h : s.jobCurrProg core = some job) (hargs : args.Plain) :
    processRequest s core (CL_DMA_BASE + 8)
        (dmaSetMode args.size (flag args.direction) args.async.toUInt32 (flag args.sleep) (flag args.trigger)) =
      some (s.setJob core job
        { s.jt core job with
          pri := args.async, dir := args.direction, sleep := args.sleep, size := args.size, trigger := args.trigger },
        dmaSetMode args.size (flag args.direction) args.async.toUInt32 (flag args.sleep) (flag args.trigger)) := by
  have hsize : UInt32.ofNat (args.size.toNat % 2 ^ 18) = args.size := by
    rw [Nat.mod_eq_of_lt hargs.size_lt]
    exact UInt32.ofNat_toNat
  rw [processRequest_mode h (Nat.le_trans hargs.size_lt.le (by decide)) hargs.async_lt, hsize]

theorem request_done (s : Dma.State N) (core : Fin N) (job : Slot) :
    processRequest s core (CL_DMA_BASE + (9 + job.val <<< 4)) 0 =
      some (if (s.jt core job).done then clearEntry s core job else s, if (s.jt core job).done then 1 else 0) := by
  have hlt : job.val < 16 := job.isLt
  have hdecode : decode (CL_DMA_BASE + (9 + job.val <<< 4)) = some .done := by
    unfold decode CL_DMA_BASE
    rw [Nat.shiftLeft_eq, show (0x0A000000 + (9 + job.val * 2 ^ 4)) % 16 = 9 by omega]
    rfl
  have hslot : (⟨(CL_DMA_BASE + (9 + job.val <<< 4)) / 16 % JT_SIZE, Nat.mod_lt _ (by decide)⟩ : Slot) = job := by
    apply Fin.ext
    change (CL_DMA_BASE + (9 + job.val <<< 4)) / 16 % 16 = job.val
    unfold CL_DMA_BASE
    rw [Nat.shiftLeft_eq]
    omega
  simp only [processRequest, hdecode, hslot]

/-- The end of a transfer of a job that nobody sleeps for. -/
theorem jobDone_awake {s : Dma.State N} (h : s.currentJob.sleep = false) :
    jobDone s = { s.setJob s.currCore s.currSlot
      (if s.currentJob.pri = 0 then { s.currentJob with done := true } else {}) with workingSig := false } := by
  unfold Dma.State.currentJob Dma.State.currSlot at *
  unfold jobDone
  by_cases hpri : (s.jt s.currCore (s.currJob s.currCore)).pri = 0
  · simp [h, hpri]
  · simp [h, hpri, clearEntry, Dma.State.setJob]

end Table

end VirtualSoc.Dma.Driver
