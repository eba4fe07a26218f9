import Mathlib.Tactic.Common
import Mathlib.Logic.Function.Basic
import VirtualSoc.Lib.Scan
import VirtualSoc.Lib.Crossbar
import VirtualSoc.Lib.Transition
import VirtualSoc.Core.Bus

/-!
# The crossbar of the shared instruction cache (cluster/cl_xbar_sharedI.cpp, cluster/cl_xbar_sharedI.h)

`num_cores` instruction ports share `num_banks` cache banks, interleaved by cache lines. The
processes are those of the local interconnect without the test-and-set: an arbiter, one `req_polling`
thread a core and one `fsm` thread a bank. Three things differ:

* `busy_fsm` keeps an arbiter from a second grant but not from a multicast: a core can join a
  transaction that a bank is already busy with, if its address is the default of `hp_addr`;
* so a core can be released that never got a ready, and `req_polling` looks at its request line
  again as soon as `served` falls (cl_xbar_sharedI.cpp:275);
* round robin grants nothing while `pending_req` is set (cl_xbar_sharedI.cpp:204).

One action is one stimulus with the delta cycles it sets off, as in `Lic`: `clock` is an edge of
`ClockGen_3`, `raise` a fetch, `rise` and `fall` the ends of the ready pulse of a bank. The banks run on
`ClockGen_2`, half as fast (cl_sharedI_cache.h:98 and :125), so the arbiter has run when the pulse ends.

A bank is a `cache_module`. Whether it hits or first fetches the line is its own affair: it answers
after some time with data that it holds for the address and the width on its pinout, and `holds` says
which data these are. The counters of the statistics are left out.
-/

namespace VirtualSoc.SharedI

/-- The parameters of the constructor that the logic reads, and what the caches hold: `holds a bw d`
if `d` is the content of address `a` in an access of width `bw`. -/
structure Config where
  ID : Nat
  sched : Crossbar.Sched
  holds : Nat → Nat → UInt32 → Bool

/-- `ctrl_state`, split at the `wait`s: which edge of `ready_cache` the fsm waits for. -/
inductive CtrlState
  | idle
  | readPos | readNeg
  | writePos | writeNeg
deriving DecidableEq, Repr

/-- Where `req_polling` waits: for the request to rise, or for `served` to fall. -/
inductive Poll | waitRequest | waitServed
deriving DecidableEq, Repr

structure State (n m : Nat) where
  requestCore : Fin n → Bool
  readyCore : Fin n → Bool
  pinoutCore : Fin n → Pinout
  poll : Fin n → Poll
  req : Fin n → Bool
  served : Fin n → Bool
  requestCache : Fin m → Bool
  readyCache : Fin m → Bool
  pinoutCache : Fin m → Pinout
  seen : Fin m → Bool
  cs : Fin m → CtrlState
  reqTable : Fin m → Fin n → Bool
  idcFsm : Fin m → Fin n → Bool
  busyFsm : Fin m → Bool
  goFsm : Fin m → Bool
  pendingReq : Fin m → Bool
  next : Fin m → Nat
  nextToServe : Fin m → Nat

variable {n m : Nat}

/-- The constructor (cl_xbar_sharedI.h:88). -/
def init : State n m where
  requestCore _ := false
  readyCore _ := false
  pinoutCore _ := {}
  poll _ := .waitRequest
  req _ := false
  served _ := false
  requestCache _ := false
  readyCache _ := false
  pinoutCache _ := {}
  seen _ := false
  cs _ := .idle
  reqTable _ _ := false
  idcFsm _ _ := false
  busyFsm _ := false
  goFsm _ := false
  pendingReq _ := false
  next _ := 0
  nextToServe _ := 0

/-- `CL_SHR_ICACHE_LINE` (config.h:59), in words. -/
def CL_SHR_ICACHE_LINE : Nat := 4

/-- `GetCacheId` (cl_xbar_sharedI.cpp:13). -/
def getCacheId (numBanks address : Nat) : Nat := address / (CL_WORD * CL_SHR_ICACHE_LINE) % numBanks

/-! ## The arbiter (cl_xbar_sharedI.cpp:89) -/

section Arbiter

variable (cfg : Config) (s : State n m)

/-- The local `pinout[id]`: read only for the cores that are scanned, else as constructed. -/
def rowPinout (k : Fin n) : Pinout := if s.req k && !s.served k then s.pinoutCore k else {}

/-- Core `k` is scanned and its address lies in bank `i` (cl_xbar_sharedI.cpp:119). -/
def requests (i : Fin m) (k : Fin n) : Bool :=
  s.req k && !s.served k && getCacheId m (s.pinoutCore k).address == i

/-- `req_table` after the scan. -/
def tableAfter (i : Fin m) (k : Fin n) : Bool := s.reqTable i k || requests s i k

/-- The winner of a free bank (cl_xbar_sharedI.cpp:144 and :199). -/
def grant (i : Fin m) : Option (Fin n) :=
  if s.busyFsm i then none
  else match cfg.sched with
    | .fixedPriority => Scan.first (tableAfter s i)
    | .roundRobin => if s.pendingReq i then none else Scan.firstFrom (s.nextToServe i) (tableAfter s i)

/-- `hp_addr`, `hp_rw`, `hp_served` with the defaults of the init loop (cl_xbar_sharedI.cpp:106). -/
def hp (i : Fin m) : Nat × Bool × Nat :=
  match grant cfg s i with
  | some k => ((rowPinout s k).address, (rowPinout s k).rw, k)
  | none => (0, false, 0)

/-- A multicast companion: same address, both reads, nothing pending (cl_xbar_sharedI.cpp:162 and :216).
`busy_fsm` is not asked. -/
def multicast (i : Fin m) (k : Fin n) : Bool :=
  tableAfter s i k && (rowPinout s k).address == (hp cfg s i).1 && (rowPinout s k).rw == (hp cfg s i).2.1
    && !(rowPinout s k).rw && k.val != (hp cfg s i).2.2 && !s.pendingReq i

/-- `idc_fsm` after the grant and the multicast. -/
def idcAfter (i : Fin m) (k : Fin n) : Bool := s.idcFsm i k || grant cfg s i == some k || multicast cfg s i k

/-- `served` after the signal update: written in this run of the arbiter, or set before. -/
def servedAfter (k : Fin n) : Bool :=
  s.served k || decide (∃ i, grant cfg s i == some k || multicast cfg s i k)

/-- Counted by `queued_cores` (cl_xbar_sharedI.cpp:173 and :231). -/
def queued (i : Fin m) (k : Fin n) : Bool := tableAfter s i k && !idcAfter cfg s i k

/-- The bank has an entry in `req_table`: it is locked and its fsm started (cl_xbar_sharedI.cpp:185). -/
def requested (i : Fin m) : Bool := decide (∃ k, tableAfter s i k)

def arbiter : State n m :=
  { s with
    reqTable := tableAfter s
    idcFsm := idcAfter cfg s
    served := servedAfter cfg s
    nextToServe := fun i =>
      match cfg.sched, grant cfg s i with
      | .roundRobin, some k => (k + 1) % 256
      | _, _ => s.nextToServe i
    pendingReq := fun i => decide (∃ k, queued cfg s i k)
    busyFsm := fun i => s.busyFsm i || requested s i
    goFsm := requested s }

end Arbiter

/-! ## The fsm of a bank (cl_xbar_sharedI.cpp:289) -/

section Fsm

/-- `pinout_core[k]` of the first `k` in `idc_fsm` (cl_xbar_sharedI.cpp:305). -/
def leaderPinout (t : State n m) (i : Fin m) : Pinout :=
  match Scan.first (t.idcFsm i) with
  | some k => t.pinoutCore k
  | none => {}

/-- `go_fsm[i].posedge_event()` reaches an fsm that waits for it. -/
def wakes (s t : State n m) (i : Fin m) : Bool := !s.goFsm i && t.goFsm i && s.cs i == .idle

/-- `IDLE` after the edge of `go_fsm` (cl_xbar_sharedI.cpp:305-320). -/
def idleWake (s t : State n m) : State n m :=
  { t with
    pinoutCache := fun i => if wakes s t i then leaderPinout t i else t.pinoutCache i
    requestCache := fun i => wakes s t i || t.requestCache i
    cs := fun i => if wakes s t i then if (leaderPinout t i).rw then .writePos else .readPos else t.cs i
    seen := fun i => !wakes s t i }

variable (s : State n m) (i : Fin m)

/-- What the fsm does at a rising edge of `ready_cache[i]`. -/
def fsmPos : State n m :=
  match s.cs i with
  | .readPos =>
    { s with
      pinoutCore := fun k => if s.idcFsm i k then s.pinoutCache i else s.pinoutCore k
      readyCore := fun k => s.idcFsm i k || s.readyCore k
      cs := Function.update s.cs i .readNeg }
  | .writePos =>
    { s with
      readyCore := fun k => s.idcFsm i k || s.readyCore k
      cs := Function.update s.cs i .writeNeg }
  | _ => s

/-- The request lines at the end of the pulse: a core lowers its own at the edge at which it sees its
ready; a core of the group that joined after the pulse had begun sees none. -/
def requestAfter (k : Fin n) : Bool := !(s.idcFsm i k && s.readyCore k) && s.requestCore k

/-- The end of an access (cl_xbar_sharedI.cpp:337-362): the group is released, and `served` falling
makes `req_polling` read the request lines again (cl_xbar_sharedI.cpp:275). -/
def finish : State n m :=
  { s with
    readyCore := fun k => !s.idcFsm i k && s.readyCore k
    requestCore := requestAfter s i
    req := fun k => if s.idcFsm i k then s.served k && requestAfter s i k else s.req k
    served := fun k => !s.idcFsm i k && s.served k
    poll := fun k =>
      if s.idcFsm i k && s.served k then if requestAfter s i k then .waitServed else .waitRequest
      else s.poll k
    reqTable := Function.update s.reqTable i fun k => !s.idcFsm i k && s.reqTable i k
    idcFsm := Function.update s.idcFsm i fun _ => false
    requestCache := Function.update s.requestCache i false }

/-- The pending request that is chained: the first entry after `next[i]`, or `next[i]` itself
if the scan finds none (cl_xbar_sharedI.cpp:367). -/
def chainPick : Option (Fin n) :=
  (Scan.firstFrom (s.next i + 1) (s.reqTable i)).or (if h : s.next i < n then some ⟨s.next i, h⟩ else none)

/-- Serve a pending request (cl_xbar_sharedI.cpp:364-389 and :429-454). -/
def chain (j : Fin n) : State n m :=
  { s with
    next := Function.update s.next i j
    nextToServe := Function.update s.nextToServe i (j % 256)
    idcFsm := Function.update s.idcFsm i (Function.update (s.idcFsm i) j true)
    pinoutCache := Function.update s.pinoutCache i (s.pinoutCore j)
    requestCache := Function.update s.requestCache i true
    served := Function.update s.served j true
    cs := Function.update s.cs i (if (s.pinoutCore j).rw then .writePos else .readPos)
    seen := Function.update s.seen i false }

/-- Back to `IDLE`. -/
def release : State n m :=
  { s with
    busyFsm := Function.update s.busyFsm i false
    goFsm := Function.update s.goFsm i false
    cs := Function.update s.cs i .idle }

/-- What the fsm does at a falling edge of `ready_cache[i]`; `none` only where the chained
index would lie outside the core arrays. -/
def fsmNeg : Option (State n m) :=
  match s.cs i with
  | .readNeg | .writeNeg =>
    let t := finish s i
    if t.pendingReq i then (chainPick t i).map (chain t i) else some (release t i)
  | _ => some s

end Fsm

/-! ## The system -/

/-- The address that a cache of this tile looks up (cache_module.cpp:138). -/
def cacheAddr (cfg : Config) (address : Nat) : Nat :=
  (address + 2 ^ 32 - cfg.ID * TILE_SPACING % 2 ^ 32) % 2 ^ 32

/-- `addr>=0x19000000` (cache_module.cpp:147): beyond it a cache ends the simulation. -/
def CACHE_LIMIT : Nat := 0x19000000

/-- What a bank answers with (cache_module.cpp:129): the pinout of the request with the data, here
`d`. `none` is its `exit(1)`, or data that it does not hold. -/
def handleRequest (cfg : Config) (p : Pinout) (d : UInt32) : Option Pinout :=
  if p.rw then none
  else if CACHE_LIMIT ≤ cacheAddr cfg p.address then none
  else if cfg.holds p.address p.bw d then some { p with data := d }
  else none

/-- A fetch of the instruction port: a single read below the limit (mmu.tpp:584 and :607). -/
def validFetch (cfg : Config) (p : Pinout) : Bool :=
  decide (p.address < 2 ^ 32) && !p.rw && p.burst == 1 && decide (cacheAddr cfg p.address < CACHE_LIMIT)

inductive Action (n m : Nat)
  | clock
  | raise (k : Fin n) (p : Pinout)
  | rise (i : Fin m) (d : UInt32)
  | fall (i : Fin m)

/-- A core raises its request; `req_polling` samples it if it waits for that edge. -/
def raiseRequest (s : State n m) (k : Fin n) (p : Pinout) : State n m :=
  { s with
    requestCore := Function.update s.requestCore k true
    pinoutCore := Function.update s.pinoutCore k p
    req := if s.poll k = .waitRequest then Function.update s.req k true else s.req
    poll := Function.update s.poll k .waitServed }

/-- The ready pulse of bank `i` begins with the answer on its pinout. -/
def bankRise (s : State n m) (i : Fin m) (p : Pinout) : State n m :=
  { s with
    pinoutCache := Function.update s.pinoutCache i p
    readyCache := Function.update s.readyCache i true }

/-- The ready pulse of bank `i` ends. -/
def bankFall (s : State n m) (i : Fin m) : State n m :=
  { s with readyCache := Function.update s.readyCache i false }

def step (cfg : Config) (s : State n m) : Action n m → Option (State n m)
  | .clock => some (idleWake s (arbiter cfg s))
  | .raise k p => if !s.requestCore k && validFetch cfg p then some (raiseRequest s k p) else none
  | .rise i d =>
    if s.requestCache i && !s.readyCache i then
      (handleRequest cfg (s.pinoutCache i) d).map fun p => fsmPos (bankRise s i p) i
    else none
  | .fall i => if s.readyCache i && s.seen i then fsmNeg (bankFall s i) i else none

end VirtualSoc.SharedI
