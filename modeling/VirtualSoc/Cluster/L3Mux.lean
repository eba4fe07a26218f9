import Mathlib.Tactic.Common
import Mathlib.Logic.Function.Basic
import VirtualSoc.Lib.Scan
import VirtualSoc.Lib.Crossbar
import VirtualSoc.Lib.Transition
import VirtualSoc.Core.Bus

/-!
# The multiplexer of the L3 memory (cluster/cl_L3_mux_NM.cpp, cluster/cl_L3_mux_NM.h)

`n_mst` masters (the instruction caches and the data ports of the cores, and the DMA) share `n_slv` ports of the
L3 memory: an arbiter, one `req_polling` thread a master and one `fsm` thread a port. With the static mapping
a master has one port (`GetMyPortId`); else its request is booked on every port, the first that is free
serves it and withdraws it from the others. The scheduling is round robin, the others end the simulation,
and the arbiter delay is zero.

The actions are those of the peripheral interconnect. The memory runs on the clock of the multiplexer, so the
edges of its ready belong to clock edges after the event that they answer: `seen i` says that the arbiter ran
since the last event at port `i`. A port of the memory takes up the burst of a request and then gives that
many pulses, whatever the multiplexer does; a master counts its own pulses and lowers its request at the end of
the last.

The loops of the constructor count in an `unsigned char`: they end only for less than 256 entries in
`req_table`, so the indices fit in the `unsigned char` arrays. `current` is the scratch of the scan and is
left out. `idc_fsm` is read after a grant only; here it has no value before the first.
-/

namespace VirtualSoc.L3Mux

structure Config where
  staticMapping : Bool

/-- `ctrl_state`, and the edge of `ready_from_L3` that the thread waits for. -/
inductive CtrlState
  | idle
  | readPos | readNeg
  | writePos | writeNeg
deriving DecidableEq, Repr

/-- Where `req_polling` waits: for the request to rise, or for `served` to fall. -/
inductive Poll | waitRequest | waitServed
deriving DecidableEq, Repr

/-- What the scheduling reads and writes. -/
structure Grants (n m : Nat) where
  busyFsm : Fin m → Bool
  goFsm : Fin m → Bool
  idcFsm : Fin m → Option (Fin n)
  nextToServe : Fin m → Nat
  done : Fin n → Bool
  served : Fin n → Bool

structure State (n m : Nat) extends Grants n m where
  requestCore : Fin n → Bool
  readyCore : Fin n → Bool
  pinoutCore : Fin n → Pinout
  beats : Fin n → Nat  -- pulses the master still waits for
  poll : Fin n → Poll
  req : Fin n → Bool
  reqTable : Fin m → Fin n → Bool
  requestL3 : Fin m → Bool
  readyL3 : Fin m → Bool
  pinoutL3 : Fin m → Pinout
  owed : Fin m → Nat  -- pulses the memory still gives
  seen : Fin m → Bool
  cs : Fin m → CtrlState
  burst : Fin m → Nat
  burstCtr : Fin m → Nat

variable {n m : Nat}

/-- The constructor (cl_L3_mux_NM.h:119). -/
def init : State n m where
  busyFsm _ := false
  goFsm _ := false
  idcFsm _ := none
  nextToServe _ := 0
  done _ := false
  served _ := false
  requestCore _ := false
  readyCore _ := false
  pinoutCore _ := {}
  beats _ := 0
  poll _ := .waitRequest
  req _ := false
  reqTable _ _ := false
  requestL3 _ := false
  readyL3 _ := false
  pinoutL3 _ := {}
  owed _ := 0
  seen _ := false
  cs _ := .idle
  burst _ := 0
  burstCtr _ := 0

/-- `GetMyPortId`. -/
def getMyPortId (nMst nSlv id : Nat) : Nat :=
  let normId := if nMst / 2 ≤ id then id - nMst / 2 else id
  if 1 < nSlv then normId % nSlv else 0

/-! ## The arbiter -/

/-- `req_table` after the scan. -/
def tableAfter (cfg : Config) (s : State n m) (i : Fin m) (k : Fin n) : Bool :=
  s.reqTable i k || s.req k && !s.served k && (!cfg.staticMapping || decide (i.val = getMyPortId n m k))

def grant (g : Grants n m) (i : Fin m) (k : Fin n) : Grants n m where
  busyFsm := Function.update g.busyFsm i true
  goFsm := Function.update g.goFsm i true
  idcFsm := Function.update g.idcFsm i (some k)
  nextToServe := Function.update g.nextToServe i ((k + 1) % 256)
  done := Function.update g.done k true
  served := Function.update g.served k true

/-- The turn of one port in the scheduling (cl_L3_mux_NM.cpp:57). -/
def schedulePort (table : Fin m → Fin n → Bool) (g : Grants n m) (i : Fin m) : Grants n m :=
  if g.busyFsm i then g
  else
    match Scan.firstFrom (g.nextToServe i) fun k => table i k && !g.done k with
    | some k => grant g i k
    | none => g

def schedule (table : Fin m → Fin n → Bool) (g : Grants n m) : Grants n m :=
  (List.finRange m).foldl (schedulePort table) g

def arbiter (cfg : Config) (s : State n m) : State n m :=
  { s with
    reqTable := tableAfter cfg s
    toGrants := schedule (tableAfter cfg s) { s.toGrants with goFsm := fun _ => false } }

/-! ## The fsm of a port -/

def wakes (s t : State n m) (i : Fin m) : Bool := !s.goFsm i && t.goFsm i && s.cs i == .idle

/-- `pinout_core[idc_fsm[i]]`. -/
def granted (t : State n m) (i : Fin m) : Pinout :=
  match t.idcFsm i with
  | some k => t.pinoutCore k
  | none => {}

/-- `IDLE` after the edge of `go_fsm`. -/
def idleWake (s t : State n m) : State n m :=
  { t with
    pinoutL3 := fun i => if wakes s t i then granted t i else t.pinoutL3 i
    requestL3 := fun i => wakes s t i || t.requestL3 i
    burst := fun i => if wakes s t i then (granted t i).burst else t.burst i
    burstCtr := fun i => if wakes s t i then 0 else t.burstCtr i
    cs := fun i => if wakes s t i then if (granted t i).rw then .writePos else .readPos else t.cs i
    seen := fun i => !wakes s t i }

/-- What the fsm does at a rising edge of `ready_from_L3[i]`. -/
def fsmPos (s : State n m) (i : Fin m) : State n m :=
  match s.cs i, s.idcFsm i with
  | .readPos, some k =>
    { s with
      pinoutCore := Function.update s.pinoutCore k (s.pinoutL3 i)
      readyCore := Function.update s.readyCore k true
      cs := Function.update s.cs i .readNeg }
  | .writePos, some k =>
    { s with
      readyCore := Function.update s.readyCore k true
      pinoutL3 := Function.update s.pinoutL3 i (s.pinoutCore k)
      cs := Function.update s.cs i .writeNeg }
  | _, _ => s

/-- `ready_to_core[k]` falls: the master counts the pulse, and lowers its request if it was the last. -/
def dropReady (s : State n m) (k : Fin n) : State n m :=
  { s with
    readyCore := Function.update s.readyCore k false
    beats := if s.readyCore k then Function.update s.beats k (s.beats k - 1) else s.beats
    requestCore :=
      if s.readyCore k && s.beats k == 1 then Function.update s.requestCore k false else s.requestCore }

/-- After the loop over the beats (cl_L3_mux_NM.cpp:141 and :173); `served` falls, and `req_polling` waits for the
next request. -/
def finish (s : State n m) (i : Fin m) (k : Fin n) : State n m :=
  { s with
    requestL3 := Function.update s.requestL3 i false
    req := Function.update s.req k false
    busyFsm := Function.update s.busyFsm i false
    served := Function.update s.served k false
    poll := if s.served k && s.poll k == .waitServed then Function.update s.poll k .waitRequest else s.poll
    done := Function.update s.done k false
    goFsm := Function.update s.goFsm i false
    reqTable := fun j => Function.update (s.reqTable j) k false
    cs := Function.update s.cs i .idle }

/-- The end of a pulse, within the loop over the beats. -/
def beatEnd (s : State n m) (i : Fin m) (k : Fin n) (pos : CtrlState) : State n m :=
  if s.burstCtr i + 1 < s.burst i then
    { dropReady s k with
      burstCtr := Function.update s.burstCtr i (s.burstCtr i + 1)
      cs := Function.update s.cs i pos }
  else finish (dropReady s k) i k

/-- What the fsm does at a falling edge of `ready_from_L3[i]`. -/
def fsmNeg (s : State n m) (i : Fin m) : State n m :=
  match s.cs i, s.idcFsm i with
  | .readNeg, some k => beatEnd s i k .readPos
  | .writeNeg, some k => beatEnd s i k .writePos
  | _, _ => s

/-! ## The system -/

inductive Action (n m : Nat)
  | clock
  | raise (k : Fin n) (p : Pinout)
  | beat (k : Fin n) (d : UInt32)
  | rise (i : Fin m) (d : UInt32)
  | fall (i : Fin m)

/-- A master raises a request; `req_polling` samples it if it waits for that edge. -/
def raiseRequest (s : State n m) (k : Fin n) (p : Pinout) : State n m :=
  { s with
    requestCore := Function.update s.requestCore k true
    pinoutCore := Function.update s.pinoutCore k p
    beats := Function.update s.beats k p.burst
    req := if s.poll k = .waitRequest then Function.update s.req k true else s.req
    poll := if s.poll k = .waitRequest then Function.update s.poll k .waitServed else s.poll }

/-- The memory starts a pulse: it takes up the request if it owes nothing, and answers a read. -/
def l3Rise (s : State n m) (i : Fin m) (d : UInt32) : State n m :=
  { s with
    owed := Function.update s.owed i (if s.owed i = 0 then (s.pinoutL3 i).burst else s.owed i)
    pinoutL3 :=
      if (s.pinoutL3 i).rw then s.pinoutL3
      else Function.update s.pinoutL3 i { s.pinoutL3 i with data := d }
    readyL3 := Function.update s.readyL3 i true
    seen := Function.update s.seen i false }

def l3Fall (s : State n m) (i : Fin m) : State n m :=
  { s with
    owed := Function.update s.owed i (s.owed i - 1)
    readyL3 := Function.update s.readyL3 i false
    seen := Function.update s.seen i false }

def step (cfg : Config) (s : State n m) : Action n m → Option (State n m)
  | .clock => some (idleWake s (arbiter cfg s))
  | .raise k p => if !s.requestCore k && decide (1 ≤ p.burst) then some (raiseRequest s k p) else none
  -- the next word of a write burst
  | .beat k d =>
    if s.requestCore k then
      some { s with pinoutCore := Function.update s.pinoutCore k { s.pinoutCore k with data := d } }
    else none
  | .rise i d =>
    if !s.readyL3 i && s.seen i && (s.requestL3 i || decide (0 < s.owed i)) then some (fsmPos (l3Rise s i d) i)
    else none
  | .fall i => if s.readyL3 i && s.seen i then some (fsmNeg (l3Fall s i) i) else none

/-! ## What the masters and the memory see -/

inductive Event (n m : Nat)
  | request (k : Fin n) (burst : Nat)
  | forward (k : Fin n) (i : Fin m)
  | ready (k : Fin n) (i : Fin m)
  | done (k : Fin n)
deriving DecidableEq, Repr

/-- The request of port `i` rises, for the master of its `idc_fsm`. -/
def forwards (s t : State n m) (i : Fin m) : List (Event n m) :=
  if t.requestL3 i && !s.requestL3 i then (t.idcFsm i).toList.map fun k => .forward k i else []

/-- The edges of the lines in a step: the requests of ports that rise, the ready lines of masters that rise with a
pulse of port `i`, the requests of masters that fall. -/
def obs (cfg : Config) (s : State n m) (a : Action n m) : List (Event n m) :=
  match a, step cfg s a with
  | .raise k p, some _ => [.request k p.burst]
  | .clock, some t => (List.finRange m).flatMap (forwards s t)
  | .rise i _, some t =>
    ((List.finRange n).filter fun k => t.readyCore k && !s.readyCore k).map fun k => .ready k i
  | .fall _, some t => ((List.finRange n).filter fun k => s.requestCore k && !t.requestCore k).map .done
  | _, _ => []

end VirtualSoc.L3Mux
