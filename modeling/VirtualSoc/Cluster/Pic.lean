import Mathlib.Tactic.Common
import Mathlib.Logic.Function.Basic
import VirtualSoc.Lib.Scan
import VirtualSoc.Lib.Crossbar
import VirtualSoc.Lib.Transition
import VirtualSoc.Core.Bus

/-!
# The peripheral interconnect `cl_pic` (cluster/cl_pic.cpp, cluster/cl_pic.h)

`num_masters` masters (the cores and the DMA) share `num_slaves` ports: a private L3 port for
each master, the synchroniser ports, the semaphores, the DMA, the counter and the accelerator.
It is built as `cl_lic` is, with bursts: a slave answers a request with one ready pulse a beat.
`PIC_MCAST` is not defined, and the arbiter delay is zero.

The actions are those of the local interconnect. The slaves run on the clock of the
interconnect, so every edge of a ready line belongs to a clock edge after the event it
answers: `seen i` says that the arbiter ran since the last event at slave `i`. `req_polling`
waits for a clock edge once its request was served; whether it runs before or after the
arbiter at that edge is open, so `clock early` says which masters' threads run before.

A slave latches the burst when it takes up a request and then gives that many pulses,
whatever the interconnect does; a master counts its own pulses and lowers its request at the
end of the last. The latency counters of the statistics are left out.
-/

namespace VirtualSoc.Pic

/-- The constructor's parameters, and `CL_CORE_METRICS`. -/
structure Config (n : Nat) where
  ID : Nat
  xbarSched : Crossbar.Sched
  metrics : Fin n → Bool

/-- `ctrl_state` and the ready edge waited for; `writeNeg` keeps the local `k` of `WRITE`. -/
inductive CtrlState (n : Nat)
  | idle
  | readPos | readNeg
  | writePos | writeNeg (k : Fin n)
deriving DecidableEq, Repr

/-- Where `req_polling` waits (cl_pic.cpp:261). -/
inductive Poll | waitRequest | waitServed | waitClock
deriving DecidableEq, Repr

structure State (n m : Nat) where
  requestCore : Fin n → Bool
  readyCore : Fin n → Bool
  pinoutCore : Fin n → Pinout
  beats : Fin n → Nat  -- pulses the master still waits for
  poll : Fin n → Poll
  req : Fin n → Bool
  served : Fin n → Bool
  requestSlave : Fin m → Bool
  readySlave : Fin m → Bool
  pinoutSlave : Fin m → Pinout
  owed : Fin m → Nat  -- pulses the slave still gives
  seen : Fin m → Bool
  cs : Fin m → CtrlState n
  burst : Fin m → Nat
  burstCnt : Fin m → Nat
  reqTable : Fin m → Fin n → Bool
  idcFsm : Fin m → Fin n → Bool
  busyFsm : Fin m → Bool
  goFsm : Fin m → Bool
  pendingReq : Fin m → Bool
  next : Fin m → Nat
  nextToServe : Fin m → Nat
  l3Acc : Fin n → Nat
  semAcc : Fin n → Nat
  hwsAcc : Fin n → Nat

variable {n m : Nat}

/-- The constructor (cl_pic.h:150). -/
def init : State n m where
  requestCore _ := false
  readyCore _ := false
  pinoutCore _ := {}
  beats _ := 0
  poll _ := .waitRequest
  req _ := false
  served _ := false
  requestSlave _ := false
  readySlave _ := false
  pinoutSlave _ := {}
  owed _ := 0
  seen _ := false
  cs _ := .idle
  burst _ := 0
  burstCnt _ := 0
  reqTable _ _ := false
  idcFsm _ _ := false
  busyFsm _ := false
  goFsm _ := false
  pendingReq _ := false
  next _ := 0
  nextToServe _ := 0
  l3Acc _ := 0
  semAcc _ := 0
  hwsAcc _ := 0

/-! ## The slave of an address (cl_pic.cpp:38-101) -/

def getHWSPort (address : Nat) : Nat := (address &&& 0x000000FF) / CL_WORD

/-- An index into the slave arrays; outside of them the access is undefined. -/
def slavePort (m : Nat) (ids : Int) : Option (Fin m) :=
  if h : 0 ≤ ids ∧ ids.toNat < m then some ⟨ids.toNat, h.2⟩ else none

/-- The slave index `ids` of a master's address; `none` where the arbiter ends the simulation. -/
def decode (m ID : Nat) (id : Fin n) (address : Nat) : Option (Fin m) :=
  if isInL3Space address ID then slavePort m id
  else if isInHWSSpace address ID then slavePort m (n + getHWSPort address)
  else if isInSemSpace address ID then slavePort m (m - 4)
  else if isInDmaSpace address ID then slavePort m (m - 3)
  else if isInCOUNTERSpace address ID then slavePort m (m - 2)
  else if isInACCELERATORSpace address ID then slavePort m (m - 1)
  else none

/-! ## The arbiter (cl_pic.cpp:11) -/

section Arbiter

variable (cfg : Config n) (s : State n m)

/-- The slave that master `k` asks for. -/
def slaveOf (k : Fin n) : Option (Fin m) := decode m cfg.ID k (s.pinoutCore k).address

/-- A scanned address that no slave port answers to: `exit(1)` (cl_pic.cpp:97). -/
def unmapped : Bool := decide (∃ k, s.req k && !s.served k && (slaveOf cfg s k).isNone)

def requests (i : Fin m) (k : Fin n) : Bool := s.req k && !s.served k && slaveOf cfg s k == some i

/-- `req_table` after the scan. -/
def tableAfter (i : Fin m) (k : Fin n) : Bool := s.reqTable i k || requests cfg s i k

/-- The winner of a free slave (cl_pic.cpp:132 and :186). -/
def grant (i : Fin m) : Option (Fin n) :=
  if s.busyFsm i then none else cfg.xbarSched.pick (s.nextToServe i) (tableAfter cfg s i)

def idcAfter (i : Fin m) (k : Fin n) : Bool := s.idcFsm i k || grant cfg s i == some k

def servedAfter (k : Fin n) : Bool := s.served k || decide (∃ i, grant cfg s i == some k)

/-- Counted by `queued_cores`: the signal `served` still has its old value, round robin also
looks at `idc_fsm` (cl_pic.cpp:164 and :220). -/
def queued (i : Fin m) (k : Fin n) : Bool :=
  tableAfter cfg s i k && !s.served k && (cfg.xbarSched == .fixedPriority || !idcAfter cfg s i k)

def requested (i : Fin m) : Bool := decide (∃ k, tableAfter cfg s i k)

def arbiter : State n m :=
  { s with
    reqTable := tableAfter cfg s
    idcFsm := idcAfter cfg s
    served := servedAfter cfg s
    nextToServe := fun i =>
      match cfg.xbarSched, grant cfg s i with
      | .roundRobin, some k => (k + 1) % 256
      | _, _ => s.nextToServe i
    pendingReq := fun i => decide (∃ k, queued cfg s i k)
    busyFsm := fun i => s.busyFsm i || requested cfg s i
    goFsm := requested cfg s }

/-- The threads `req_polling` of the masters in `who` that wait for the clock edge. -/
def pollClock (who : Fin n → Bool) : State n m :=
  { s with
    req := fun k => if who k && s.poll k == .waitClock then s.requestCore k else s.req k
    poll := fun k =>
      if who k && s.poll k == .waitClock then if s.requestCore k then .waitServed else .waitRequest
      else s.poll k }

end Arbiter

/-! ## The fsm of a slave (cl_pic.cpp:290) -/

section Fsm

/-- `pinout_core[k]` of the first `k` in `idc_fsm` (cl_pic.cpp:308). -/
def leaderPinout (t : State n m) (i : Fin m) : Pinout :=
  match Scan.first (t.idcFsm i) with
  | some k => t.pinoutCore k
  | none => {}

def wakes (s t : State n m) (i : Fin m) : Bool := !s.goFsm i && t.goFsm i && s.cs i == .idle

/-- `IDLE` after the edge of `go_fsm`: the only place that reads `pinout.burst`. -/
def idleWake (s t : State n m) : State n m :=
  { t with
    pinoutSlave := fun i => if wakes s t i then leaderPinout t i else t.pinoutSlave i
    requestSlave := fun i => wakes s t i || t.requestSlave i
    burst := fun i => if wakes s t i then (leaderPinout t i).burst else t.burst i
    burstCnt := fun i => if wakes s t i then 0 else t.burstCnt i
    cs := fun i =>
      if wakes s t i then if (leaderPinout t i).rw then .writePos else .readPos else t.cs i
    seen := fun i => !wakes s t i }

variable (cfg : Config n) (s : State n m) (i : Fin m)

/-- What the fsm does at a rising edge of `ready_slave[i]`; `WRITE` has no index to write to
if its row is empty. -/
def fsmPos : Option (State n m) :=
  match s.cs i with
  | .readPos =>
    some
      { s with
        pinoutCore := fun k => if s.idcFsm i k then s.pinoutSlave i else s.pinoutCore k
        readyCore := fun k => s.idcFsm i k || s.readyCore k
        cs := Function.update s.cs i .readNeg }
  | .writePos =>
    (Scan.first (s.idcFsm i)).map fun k =>
      { s with
        readyCore := Function.update s.readyCore k true
        pinoutSlave := Function.update s.pinoutSlave i (s.pinoutCore k)
        cs := Function.update s.cs i (.writeNeg k) }
  | _ => some s

/-- `ready_core` falls for the masters in `p`: each counts the pulse, and lowers its request
if it was the last of its own burst. -/
def dropReady (p : Fin n → Bool) : State n m :=
  { s with
    readyCore := fun k => !p k && s.readyCore k
    beats := fun k => if p k && s.readyCore k then s.beats k - 1 else s.beats k
    requestCore := fun k => if p k && s.readyCore k && s.beats k == 1 then false else s.requestCore k }

/-- "last burst beat - clearing requests" (cl_pic.cpp:346 and :437). -/
def clear (p : Fin n → Bool) : State n m :=
  { s with
    req := fun k => !p k && s.req k
    served := fun k => !p k && s.served k
    poll := fun k => if p k && s.served k && s.poll k == .waitServed then .waitClock else s.poll k
    reqTable := Function.update s.reqTable i fun k => !p k && s.reqTable i k
    idcFsm := Function.update s.idcFsm i fun k => !p k && s.idcFsm i k }

/-- The statistics of a transaction: they look for `idc_fsm` entries after the last beat. -/
def statistics : State n m :=
  let hit (space : Nat → Nat → Bool) (k : Fin n) : Bool :=
    s.idcFsm i k && cfg.metrics k && space (s.pinoutSlave i).address cfg.ID
  { s with
    l3Acc := fun k => if hit isInL3Space k then s.l3Acc k + 1 else s.l3Acc k
    semAcc := fun k => if hit isInSemSpace k then s.semAcc k + 1 else s.semAcc k
    hwsAcc := fun k => if hit isInHWSSpace k then s.hwsAcc k + 1 else s.hwsAcc k }

def chainPick : Option (Fin n) :=
  (Scan.firstFrom (s.next i + 1) (s.reqTable i)).or (if h : s.next i < n then some ⟨s.next i, h⟩ else none)

/-- Serve a pending request from `READ` or `WRITE`: the local `burst` keeps its value. -/
def chain (j : Fin n) : State n m :=
  { s with
    next := Function.update s.next i j
    nextToServe := Function.update s.nextToServe i (j % 256)
    idcFsm := Function.update s.idcFsm i (Function.update (s.idcFsm i) j true)
    pinoutSlave := Function.update s.pinoutSlave i (s.pinoutCore j)
    requestSlave := Function.update s.requestSlave i true
    served := Function.update s.served j true
    burstCnt := Function.update s.burstCnt i 0
    cs := Function.update s.cs i (if (s.pinoutCore j).rw then .writePos else .readPos) }

def release : State n m :=
  { s with
    requestSlave := Function.update s.requestSlave i false
    busyFsm := Function.update s.busyFsm i false
    goFsm := Function.update s.goFsm i false
    cs := Function.update s.cs i .idle }

/-- After the loop over the beats (cl_pic.cpp:357-408 and :443-491). -/
def endBurst : Option (State n m) :=
  let t := statistics cfg s i
  if t.pendingReq i then (chainPick t i).map (chain t i) else some (release t i)

/-- The end of a pulse that the masters in `p` got, within the loop over the beats. -/
def beatEnd (p : Fin n → Bool) (pos : CtrlState n) : Option (State n m) :=
  let t := dropReady s p
  if s.burstCnt i + 1 = s.burst i then endBurst cfg (clear t i p) i
  else
    some
      { t with
        burstCnt := Function.update s.burstCnt i (s.burstCnt i + 1)
        cs := Function.update s.cs i pos }

/-- What the fsm does at a falling edge of `ready_slave[i]`. -/
def fsmNeg : Option (State n m) :=
  match s.cs i with
  | .readNeg => beatEnd cfg s i (s.idcFsm i) .readPos
  | .writeNeg k => beatEnd cfg s i (· == k) .writePos
  | _ => some s

end Fsm

/-! ## The system -/

inductive Action (n m : Nat)
  | clock (early : Fin n → Bool)
  | raise (k : Fin n) (p : Pinout)
  | beat (k : Fin n) (d : UInt32)
  | rise (i : Fin m) (d : UInt32)
  | fall (i : Fin m)

/-- A master raises a request; `req_polling` samples it if it waits for that edge. -/
def raiseRequest (s : State n m) (k : Fin n) (p : Pinout) : State n m :=
  { s with
    requestCore := Function.update s.requestCore k true
    pinoutCore := Function.update s.pinoutCore k p
    beats := Function.update s.beats k p.burst
    req := if s.poll k = .waitRequest then Function.update s.req k true else s.req
    poll := if s.poll k = .waitRequest then Function.update s.poll k .waitServed else s.poll }

/-- A slave starts a pulse: it takes up the request if it owes nothing, and answers a read. -/
def slaveRise (s : State n m) (i : Fin m) (d : UInt32) : State n m :=
  { s with
    owed := Function.update s.owed i (if s.owed i = 0 then (s.pinoutSlave i).burst else s.owed i)
    pinoutSlave :=
      if (s.pinoutSlave i).rw then s.pinoutSlave
      else Function.update s.pinoutSlave i { s.pinoutSlave i with data := d }
    readySlave := Function.update s.readySlave i true
    seen := Function.update s.seen i false }

def slaveFall (s : State n m) (i : Fin m) : State n m :=
  { s with
    owed := Function.update s.owed i (s.owed i - 1)
    readySlave := Function.update s.readySlave i false
    seen := Function.update s.seen i false }

def step (cfg : Config n) (s : State n m) : Action n m → Option (State n m)
  | .clock early =>
    let s := pollClock s early
    if unmapped cfg s then none
    else some (idleWake s (pollClock (arbiter cfg s) fun k => !early k))
  | .raise k p =>
    if !s.requestCore k && (decode m cfg.ID k p.address).isSome && decide (1 ≤ p.burst) then
      some (raiseRequest s k p)
    else none
  -- the next word of a write burst
  | .beat k d =>
    if s.requestCore k then
      some { s with pinoutCore := Function.update s.pinoutCore k { s.pinoutCore k with data := d } }
    else none
  | .rise i d =>
    if !s.readySlave i && s.seen i && (s.requestSlave i || decide (0 < s.owed i)) then
      fsmPos (slaveRise s i d) i
    else none
  | .fall i => if s.readySlave i && s.seen i then fsmNeg cfg (slaveFall s i) i else none

/-! ## What the masters see -/

inductive Event (n m : Nat)
  | request (k : Fin n) (i : Fin m) (burst : Nat)
  | ready (k : Fin n) (i : Fin m)
  | done (k : Fin n)
deriving DecidableEq, Repr

/-- The masters whose ready line rises with a pulse of slave `i`. -/
def pulsed (s : State n m) (i : Fin m) : List (Fin n) :=
  match s.cs i with
  | .readPos => (List.finRange n).filter (s.idcFsm i)
  | .writePos => (Scan.first (s.idcFsm i)).toList
  | _ => []

/-- The masters that see their last pulse end with the pulse of slave `i`. -/
def lowering (s : State n m) (i : Fin m) : List (Fin n) :=
  let ends (p : Fin n → Bool) := (List.finRange n).filter fun k => p k && s.readyCore k && s.beats k == 1
  match s.cs i with
  | .readNeg => ends (s.idcFsm i)
  | .writeNeg k => ends (· == k)
  | _ => []

def obs (cfg : Config n) (s : State n m) : Action n m → List (Event n m)
  | .raise k p => ((decode m cfg.ID k p.address).map fun i => .request k i p.burst).toList
  | .rise i _ => (pulsed s i).map fun k => .ready k i
  | .fall i => (lowering s i).map .done
  | _ => []

end VirtualSoc.Pic
