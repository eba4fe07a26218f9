import Mathlib.Tactic.Common
import Mathlib.Logic.Function.Basic
import VirtualSoc.Lib.Scan
import VirtualSoc.Lib.Crossbar
import VirtualSoc.Lib.Transition
import VirtualSoc.Core.Bus

/-!
# The local interconnect `cl_lic` (cluster/cl_lic.cpp, cluster/cl_lic.h)

`num_cores` cores share `num_slaves` word-interleaved TCDM banks. One arbiter (an `SC_METHOD`
on the clock edge), one `req_polling` thread a core and one `fsm` thread a bank work on a
shared request table, the `idc_fsm` table (who is being answered) and a few flags a bank.

One action of the transition system is one stimulus with the delta cycles it sets off:

* `clock`: a rising edge. The arbiter is sensitive to the clock itself, so it runs before any
  fsm of that edge and sees `served` as it was before the edge; then the fsms that wait in
  `IDLE` and got a rising `go_fsm` start an access;
* `raise k p`: core `k` raises its request with `p` on its pinout;
* `rise i`, `fall i`: the ready pulse of bank `i` begins (the bank accesses its memory,
  cl_memory.cpp:69) and ends; the fsm waiting for that edge reacts, and a core that loses its
  ready lowers its request.

The banks run on `ClockGen_2`, twice as fast as the clock of the interconnect
(cl_platform_shr.h:304): a ready pulse may begin before the arbiter has run again, but it
ends with the next clock edge, after the arbiter. `seen i` records that the arbiter ran since
bank `i` was given its access. Accesses are single-beat and aligned, as the data ports of the
cores issue them for words, half words and bytes; the counters of the statistics are left out.
-/

namespace VirtualSoc.Lic

/-- The parameters of the constructor that the logic reads. `xbar_sched` is one of the two
modes that are implemented; the others end the simulation. -/
structure Config where
  ID : Nat
  xbarSched : Crossbar.Sched

/-- `ctrl_state`, split at the `wait`s: which edge of `ready_slave` the fsm waits for.
`old_val` is the local of the same name (cl_lic.cpp:418). -/
inductive CtrlState
  | idle
  | readPos | readNeg
  | writePos | writeNeg
  | tasPos | tasNeg (oldVal : UInt32) | tasPos2 (oldVal : UInt32) | tasNeg2
deriving DecidableEq, Repr

/-- Where `req_polling` waits: for the request to rise, or for `served` to fall. -/
inductive Poll | waitRequest | waitServed
deriving DecidableEq, Repr

structure State (n m : Nat) where
  requestCore : Fin n → Bool
  readyCore : Fin n → Bool
  pinoutCore : Fin n → Pinout
  poll : Fin n → Poll
  req : Fin n → Bool
  served : Fin n → Bool
  requestSlave : Fin m → Bool
  readySlave : Fin m → Bool
  pinoutSlave : Fin m → Pinout
  mem : Fin m → MemClass
  seen : Fin m → Bool
  cs : Fin m → CtrlState
  reqTable : Fin m → Fin n → Bool
  idcFsm : Fin m → Fin n → Bool
  busyFsm : Fin m → Bool
  goFsm : Fin m → Bool
  pendingReq : Fin m → Bool
  isTestAndSet : Fin m → Bool
  next : Fin m → Nat
  nextToServe : Fin m → Nat

variable {n m : Nat}

/-- The constructor (cl_lic.h:167), over banks with the given content. -/
def init (mem : Fin m → MemClass) : State n m where
  requestCore _ := false
  readyCore _ := false
  pinoutCore _ := {}
  poll _ := .waitRequest
  req _ := false
  served _ := false
  requestSlave _ := false
  readySlave _ := false
  pinoutSlave _ := {}
  mem := mem
  seen _ := false
  cs _ := .idle
  reqTable _ _ := false
  idcFsm _ _ := false
  busyFsm _ := false
  goFsm _ := false
  pendingReq _ := false
  isTestAndSet _ := false
  next _ := 0
  nextToServe _ := 0

/-! ## The arbiter (cl_lic.cpp:18) -/

section Arbiter

variable (cfg : Config) (s : State n m)

/-- The local `pinout[id]`: read only for the cores that are scanned, else as constructed. -/
def rowPinout (k : Fin n) : Pinout := if s.req k && !s.served k then s.pinoutCore k else {}

/-- Core `k` is scanned and its address lies in bank `i` (cl_lic.cpp:43). -/
def requests (i : Fin m) (k : Fin n) : Bool :=
  s.req k && !s.served k && getTcdmBankId m (s.pinoutCore k).address == i

/-- `req_table` after the scan. -/
def tableAfter (i : Fin m) (k : Fin n) : Bool := s.reqTable i k || requests s i k

/-- `is_test_and_set` after the scan: one flag a bank (cl_lic.cpp:52). -/
def tasAfter (i : Fin m) : Bool :=
  decide (∃ k, requests s i k && isInTaSSpace (s.pinoutCore k).address cfg.ID && !(s.pinoutCore k).rw)

/-- The winner of a free bank (cl_lic.cpp:75 and :133). -/
def grant (i : Fin m) : Option (Fin n) :=
  if s.busyFsm i then none else cfg.xbarSched.pick (s.nextToServe i) (tableAfter s i)

/-- `hp_addr`, `hp_rw`, `hp_served` with the defaults of the init loop (cl_lic.cpp:34). -/
def hp (i : Fin m) : Nat × Bool × Nat :=
  match grant cfg s i with
  | some k => ((rowPinout s k).address, (rowPinout s k).rw, k)
  | none => (0, false, 0)

/-- A multicast companion: same address, both reads, nothing pending (cl_lic.cpp:98 and :150). -/
def multicast (i : Fin m) (k : Fin n) : Bool :=
  tableAfter s i k && (rowPinout s k).address == (hp cfg s i).1 && (rowPinout s k).rw == (hp cfg s i).2.1
    && !(rowPinout s k).rw && k.val != (hp cfg s i).2.2 && !s.pendingReq i

/-- `idc_fsm` after the grant and the multicast. -/
def idcAfter (i : Fin m) (k : Fin n) : Bool := s.idcFsm i k || grant cfg s i == some k || multicast cfg s i k

/-- `served` after the signal update: written in this run of the arbiter, or set before. -/
def servedAfter (k : Fin n) : Bool :=
  s.served k || decide (∃ i, grant cfg s i == some k || multicast cfg s i k)

/-- Counted by `queued_cores`. The signal `served` still has its old value here; round robin
also looks at `idc_fsm` (cl_lic.cpp:111 and :167). -/
def queued (i : Fin m) (k : Fin n) : Bool :=
  tableAfter s i k && !s.served k && (cfg.xbarSched == .fixedPriority || !idcAfter cfg s i k)

/-- The bank has an entry in `req_table`: it is locked and its fsm started (cl_lic.cpp:119). -/
def requested (i : Fin m) : Bool := decide (∃ k, tableAfter s i k)

def arbiter : State n m :=
  { s with
    reqTable := tableAfter s
    isTestAndSet := tasAfter cfg s
    idcFsm := idcAfter cfg s
    served := servedAfter cfg s
    nextToServe := fun i =>
      match cfg.xbarSched, grant cfg s i with
      | .roundRobin, some k => (k + 1) % 256
      | _, _ => s.nextToServe i
    pendingReq := fun i => decide (∃ k, queued cfg s i k)
    busyFsm := fun i => s.busyFsm i || requested s i
    goFsm := requested s }

end Arbiter

/-! ## The fsm of a bank (cl_lic.cpp:229) -/

section Fsm

/-- `pinout_core[k]` of the first `k` in `idc_fsm` (cl_lic.cpp:245). -/
def leaderPinout (t : State n m) (i : Fin m) : Pinout :=
  match Scan.first (t.idcFsm i) with
  | some k => t.pinoutCore k
  | none => {}

/-- `go_fsm[i].posedge_event()` reaches an fsm that waits for it. -/
def wakes (s t : State n m) (i : Fin m) : Bool := !s.goFsm i && t.goFsm i && s.cs i == .idle

/-- `IDLE` after the edge of `go_fsm` (cl_lic.cpp:245-264). -/
def idleWake (s t : State n m) : State n m :=
  { t with
    pinoutSlave := fun i => if wakes s t i then leaderPinout t i else t.pinoutSlave i
    requestSlave := fun i => wakes s t i || t.requestSlave i
    cs := fun i =>
      if wakes s t i then
        if (leaderPinout t i).rw then .writePos else if t.isTestAndSet i then .tasPos else .readPos
      else t.cs i
    seen := fun i => !wakes s t i }

variable (s : State n m) (i : Fin m)

/-- `pinout` and the ready pulse for every core of the group. -/
def answer (p : Pinout) : State n m :=
  { s with
    pinoutCore := fun k => if s.idcFsm i k then p else s.pinoutCore k
    readyCore := fun k => s.idcFsm i k || s.readyCore k }

/-- What the fsm does at a rising edge of `ready_slave[i]`. -/
def fsmPos : State n m :=
  match s.cs i with
  | .readPos => { answer s i (s.pinoutSlave i) with cs := Function.update s.cs i .readNeg }
  | .writePos =>
    { s with
      readyCore := fun k => s.idcFsm i k || s.readyCore k
      cs := Function.update s.cs i .writeNeg }
  | .tasPos => { s with cs := Function.update s.cs i (.tasNeg (s.pinoutSlave i).data) }
  | .tasPos2 old =>
    { answer s i { s.pinoutSlave i with data := old, rw := false } with
      cs := Function.update s.cs i .tasNeg2 }
  | _ => s

/-- The end of an access (cl_lic.cpp:282-300): the group is released, its cores lower their
requests at the end of their ready pulse, and `served` falling re-arms `req_polling`. -/
def finish : State n m :=
  { s with
    readyCore := fun k => !s.idcFsm i k && s.readyCore k
    requestCore := fun k => !s.idcFsm i k && s.requestCore k
    req := fun k => !s.idcFsm i k && s.req k
    served := fun k => !s.idcFsm i k && s.served k
    poll := fun k => if s.idcFsm i k && s.served k then .waitRequest else s.poll k
    reqTable := Function.update s.reqTable i fun k => !s.idcFsm i k && s.reqTable i k
    idcFsm := Function.update s.idcFsm i fun _ => false
    requestSlave := Function.update s.requestSlave i false }

/-- The pending request that is chained: the first entry after `next[i]`, or `next[i]` itself
if the scan finds none (cl_lic.cpp:305). -/
def chainPick : Option (Fin n) :=
  (Scan.firstFrom (s.next i + 1) (s.reqTable i)).or (if h : s.next i < n then some ⟨s.next i, h⟩ else none)

/-- Serve a pending request from `READ` or `WRITE` (cl_lic.cpp:302-327 and :380-402). -/
def chain (j : Fin n) : State n m :=
  { s with
    next := Function.update s.next i j
    nextToServe := Function.update s.nextToServe i (j % 256)
    idcFsm := Function.update s.idcFsm i (Function.update (s.idcFsm i) j true)
    pinoutSlave := Function.update s.pinoutSlave i (s.pinoutCore j)
    requestSlave := Function.update s.requestSlave i true
    served := Function.update s.served j true
    cs := Function.update s.cs i (if (s.pinoutCore j).rw then .writePos else .readPos)
    seen := Function.update s.seen i false }

/-- The second access of a test-and-set: "setting '1'" (cl_lic.cpp:424). -/
def tasSet (old : UInt32) : State n m :=
  { s with
    pinoutSlave := Function.update s.pinoutSlave i { s.pinoutSlave i with data := 1, rw := true }
    cs := Function.update s.cs i (.tasPos2 old)
    seen := Function.update s.seen i false }

/-- Back to `IDLE`. -/
def release : State n m :=
  { s with
    busyFsm := Function.update s.busyFsm i false
    goFsm := Function.update s.goFsm i false
    cs := Function.update s.cs i .idle }

/-- What the fsm does at a falling edge of `ready_slave[i]`; `none` only where the chained
index would lie outside the core arrays. -/
def fsmNeg : Option (State n m) :=
  match s.cs i with
  | .readNeg | .writeNeg =>
    let t := finish s i
    if t.pendingReq i then (chainPick t i).map (chain t i) else some (release t i)
  | .tasNeg old => some (tasSet s i old)
  | .tasNeg2 => some (release (finish s i) i)  -- no pending requests support by now (safer)
  | _ => some s

end Fsm

/-! ## The system -/

/-- The access of a bank (cl_memory.cpp:69 and :101, one beat); `none` is its `exit(1)`. -/
def bankAccess (s : State n m) (i : Fin m) : Option (MemClass × Pinout) :=
  let p := s.pinoutSlave i
  let addr := bankAddressing m p.address
  if p.rw then ((s.mem i).write addr p.data p.bw).map fun mem => (mem, p)
  else ((s.mem i).read addr p.bw).map fun d => (s.mem i, { p with data := d })

/-- What the demux of a core lets through to the interconnect: one aligned beat in the TCDM. -/
def validRequest (p : Pinout) : Bool :=
  demuxIsInTcdmSpace p.address && p.burst == 1 &&
    (p.bw == MEM_WORD && p.address % 4 == 0 || p.bw == MEM_BYTE || p.bw == MEM_HWORD && p.address % 2 == 0)

inductive Action (n m : Nat)
  | clock
  | raise (k : Fin n) (p : Pinout)
  | rise (i : Fin m)
  | fall (i : Fin m)

/-- A core raises its request; `req_polling` samples it if it waits for that edge. -/
def raiseRequest (s : State n m) (k : Fin n) (p : Pinout) : State n m :=
  { s with
    requestCore := Function.update s.requestCore k true
    pinoutCore := Function.update s.pinoutCore k p
    req := if s.poll k = .waitRequest then Function.update s.req k true else s.req
    poll := Function.update s.poll k .waitServed }

/-- The ready pulse of bank `i` begins with the outcome of its access. -/
def bankRise (s : State n m) (i : Fin m) (mem : MemClass) (p : Pinout) : State n m :=
  { s with
    mem := Function.update s.mem i mem
    pinoutSlave := Function.update s.pinoutSlave i p
    readySlave := Function.update s.readySlave i true }

/-- The ready pulse of bank `i` ends. -/
def bankFall (s : State n m) (i : Fin m) : State n m :=
  { s with readySlave := Function.update s.readySlave i false }

def step (cfg : Config) (s : State n m) : Action n m → Option (State n m)
  | .clock => some (idleWake s (arbiter cfg s))
  | .raise k p => if !s.requestCore k && validRequest p then some (raiseRequest s k p) else none
  | .rise i =>
    if s.requestSlave i && !s.readySlave i then
      (bankAccess s i).map fun (mem, p) => fsmPos (bankRise s i mem p) i
    else none
  | .fall i => if s.readySlave i && s.seen i then fsmNeg (bankFall s i) i else none

/-! ## What the cores see -/

/-- A completed access: the core, the address it requested, and the data. -/
inductive Event (n : Nat)
  | ret (k : Fin n) (address : Nat) (data : UInt32)
  | wr (k : Fin n) (address : Nat) (data : UInt32)
deriving DecidableEq, Repr

/-- The cores of the group bank `i` is answering. -/
def group (s : State n m) (i : Fin m) : List (Fin n) := (List.finRange n).filter (s.idcFsm i)

/-- The accesses that the ready pulse of a bank completes. -/
def completes (s : State n m) (i : Fin m) (p : Pinout) : List (Event n) :=
  match s.cs i with
  | .readPos => (group s i).map fun k => .ret k (s.pinoutCore k).address p.data
  | .writePos => (group s i).map fun k => .wr k (s.pinoutCore k).address (s.pinoutCore k).data
  | .tasPos2 old => (group s i).map fun k => .ret k (s.pinoutCore k).address old
  | _ => []

def obs (s : State n m) : Action n m → List (Event n)
  | .rise i => ((bankAccess s i).map fun (_, p) => completes s i p).getD []
  | _ => []

end VirtualSoc.Lic
