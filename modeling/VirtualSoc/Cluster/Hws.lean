import Mathlib.Data.Fintype.Basic
import Mathlib.Data.Nat.Bitwise
import VirtualSoc.Lib.Delta
import VirtualSoc.Lib.Scan
import VirtualSoc.Core.Bus

/-!
# The hardware synchroniser (cluster/cl_hws.cpp, cluster/cl_hws.h)

Events with a counter and a wake mask, behind programming ports and slave ports. Three processes run at
each clock edge, in an order that SystemC leaves open:

* `programme`: one machine a core; a core asks for an event, waits for the answer, releases the event
  (which starts its use and wakes the slaves of a mask) or frees it;
* `notify`: wakes the mask of each event whose counter has run down, and reloads counter and mask;
* `signal`: takes the notifications on the slave ports, counts them off and stops the notifying core
  one clock later. It reads all counters at the edge and writes all of them back.

The counters and masks are signals: a process reads them as they were before the edge, and the writes of
all processes are committed after it, in the order in which the processes ran (`Delta.commit`).
`ARM11_STOP` is a plain array that the three processes write and do not read, so the last write of an edge
wins there too. The lines `slave_int` are left out: `idle_mngr` sets them to `ARM11_STOP` (with
`ARM11_IDLE`, cl_hws.cpp:606) at each edge, and the three processes write them together with it; so are
the messages by which a core stops itself (sim_support.cpp:99).

One action is one clock edge: the order of the processes, and what is on the request lines of the ports. An
`assert` that fails ends the simulation.
-/

namespace VirtualSoc.Hws

def MAX_CORES : Nat := 16
def MAX_SLAVES : Nat := 16

/-- config.h:78. -/
def N_HWS_EVENTS : Nat := 16

abbrev Core := Fin MAX_CORES
abbrev Event := Fin N_HWS_EVENTS

/-- `n_slaves`: the cores whose `ARM11_STOP` the synchroniser wakes. -/
structure Config where
  nSlaves : Nat

/-- What the synchroniser reads of a `PINOUT` on a port. -/
structure Request where
  id : Nat
  rw : Bool
  data : UInt32
deriving DecidableEq, Repr

/-- Byte `k` of the data, from the low end. -/
def byte (d : UInt32) (k : Nat) : Nat := (d.toNat >>> (8 * k)) &&& 0xFF

/-- `program_machine_state`. -/
inductive ProgramState
  | requestType | requestAcc
  | askEvent | askAcc
  | waitEvent | waitAcc
  | manageEvent | manageAcc
  | releaseOrFreeEvent | releaseOrFreeAcc
  | releaseEvent | releaseAcc
deriving DecidableEq, Repr

/-- The locals of `programme` for one core. `ev` are the events that the core holds, `nsl` the number of
notifications it asked for with each. -/
structure Machine (p : Nat) where
  state : ProgramState := .requestType
  nextNext : ProgramState := .requestType
  nsl : Event → Nat := fun _ => 0
  nslTemp : Nat := 0
  inQueue : Bool := false
  gotEvent : Bool := false
  maskType : Nat := 0
  port : Option (Fin p) := none
  evManaging : Option Event := none
  ev : Fin N_HWS_EVENTS → Option Event := fun _ => none

/-- `p` programming ports and `q` slave ports. `sig` are the locals of `signal`: the port of a core whose
notification was taken at the last edge (state 1). -/
structure State (p q : Nat) where
  atomicCounters : Event → Nat
  atomicCountersSetValue : Event → Nat
  mask : Event → Nat
  maskDefault : Event → Nat
  notifyCore : Event → Bool
  arm11Stop : Core → Bool
  prRdy : Fin p → Bool
  prgPort : Fin p → UInt32
  slRdy : Fin q → Bool
  prog : Core → Machine p
  sig : Core → Option (Fin q)

variable {p q : Nat}

/-- The constructor (cl_hws.h:56). -/
def init : State p q where
  atomicCounters _ := 0
  atomicCountersSetValue _ := 0
  mask _ := 0
  maskDefault _ := 0
  notifyCore _ := false
  arm11Stop _ := false
  prRdy _ := false
  prgPort _ := 0
  slRdy _ := false
  prog _ := {}
  sig _ := none

/-! ## Writes -/

/-- One write of a process. `wake e c` clears `ARM11_STOP[c]` for event `e`, `halt c` sets it. -/
inductive Write (p q : Nat)
  | counter (e : Event) (v : Nat)
  | setValue (e : Event) (v : Nat)
  | mask (e : Event) (v : Nat)
  | maskDefault (e : Event) (v : Nat)
  | notifyCore (e : Event) (b : Bool)
  | wake (e : Event) (c : Core)
  | halt (c : Core)
  | prRdy (port : Fin p) (b : Bool)
  | prgPort (port : Fin p) (d : UInt32)
  | slRdy (port : Fin q) (b : Bool)
deriving DecidableEq

namespace Write

def counter? : Write p q → Option (Event × Nat)
  | counter e v => some (e, v)
  | _ => none

def setValue? : Write p q → Option (Event × Nat)
  | setValue e v => some (e, v)
  | _ => none

def mask? : Write p q → Option (Event × Nat)
  | mask e v => some (e, v)
  | _ => none

def maskDefault? : Write p q → Option (Event × Nat)
  | maskDefault e v => some (e, v)
  | _ => none

def notifyCore? : Write p q → Option (Event × Bool)
  | notifyCore e b => some (e, b)
  | _ => none

def stop? : Write p q → Option (Core × Bool)
  | wake _ c => some (c, false)
  | halt c => some (c, true)
  | _ => none

def prRdy? : Write p q → Option (Fin p × Bool)
  | prRdy port b => some (port, b)
  | _ => none

def prgPort? : Write p q → Option (Fin p × UInt32)
  | prgPort port d => some (port, d)
  | _ => none

def slRdy? : Write p q → Option (Fin q × Bool)
  | slRdy port b => some (port, b)
  | _ => none

end Write

/-- The state after the writes of an edge. -/
def commit (s : State p q) (ws : List (Write p q)) : State p q :=
  { s with
    atomicCounters := Delta.commit s.atomicCounters (ws.filterMap Write.counter?)
    atomicCountersSetValue := Delta.commit s.atomicCountersSetValue (ws.filterMap Write.setValue?)
    mask := Delta.commit s.mask (ws.filterMap Write.mask?)
    maskDefault := Delta.commit s.maskDefault (ws.filterMap Write.maskDefault?)
    notifyCore := Delta.commit s.notifyCore (ws.filterMap Write.notifyCore?)
    arm11Stop := Delta.commit s.arm11Stop (ws.filterMap Write.stop?)
    prRdy := Delta.commit s.prRdy (ws.filterMap Write.prRdy?)
    prgPort := Delta.commit s.prgPort (ws.filterMap Write.prgPort?)
    slRdy := Delta.commit s.slRdy (ws.filterMap Write.slRdy?) }

/-- The loop that wakes the slaves of a mask (cl_hws.cpp:321, :418 and :477). -/
def wakes (cfg : Config) (e : Event) (maskVar : Nat) : List (Write p q) :=
  ((List.finRange MAX_CORES).filter fun sl : Core => decide (sl.val < cfg.nSlaves) && maskVar.testBit sl.val).map
    (.wake e)

/-! ## `programme` (cl_hws.cpp:21) -/

section Programme

variable (cfg : Config) (s : State p q) (prg : Fin p → Option Request) (core : Core)

/-- The loop over the ports in a state that waits for a request of its core. -/
def scanPorts (body : Machine p → Fin p → Request → Option (Machine p × List (Write p q))) :
    List (Fin p) → Machine p → Option (Machine p × List (Write p q))
  | [], m => some (m, [])
  | port :: ports, m =>
    match prg port with
    | some var =>
      if var.id = core then
        (body m port var).bind fun (m', ws) => (scanPorts body ports m').map fun (m'', us) => (m'', ws ++ us)
      else scanPorts body ports m
    | none => scanPorts body ports m

/-- The end of the handshake, one edge later. -/
def acknowledge (m : Machine p) (next : ProgramState) : Machine p × List (Write p q) :=
  ({ m with state := next }, (m.port.map fun port => .prRdy port false).toList)

/-- `REQUEST_TYPE` (cl_hws.cpp:54). -/
def requestType (m : Machine p) (port : Fin p) (var : Request) : Option (Machine p × List (Write p q)) :=
  if var.rw && byte var.data 1 == core.val then
    if byte var.data 0 == 0 then
      some ({ m with state := .requestAcc, nextNext := .askEvent, port := some port }, [.prRdy port true])
    else if byte var.data 0 == 1 then
      some ({ m with state := .requestAcc, nextNext := .manageEvent, port := some port }, [.prRdy port true])
    else none
  else none

/-- `ASK_EVENT` (cl_hws.cpp:95). -/
def askEvent (m : Machine p) (port : Fin p) (var : Request) : Option (Machine p × List (Write p q)) :=
  if var.rw && byte var.data 1 == core.val && (byte var.data 3 == 1 || byte var.data 3 == 2) then
    some ({ m with
      state := .askAcc, nslTemp := byte var.data 0, inQueue := byte var.data 2 != 0
      maskType := byte var.data 3, port := some port }, [.prRdy port true])
  else none

/-- The answer to an ask: bit 7 of the second byte says whether there is an event (cl_hws.cpp:181 and :210). -/
def answerWord (e : Option Event) : UInt32 :=
  match e with
  | some i => UInt32.ofNat (i.val &&& 0xFF ||| ((core.val ||| 0x80) &&& 0xFF) <<< 8)
  | none => UInt32.ofNat (0 ||| (core.val &&& 0x7F &&& 0xFF) <<< 8)

/-- The first event that is not reserved. -/
def freeEvent : Option Event := Scan.first fun i => (s.atomicCounters i &&& 0x80) >>> 7 == 0

/-- `WAIT_EVENT` (cl_hws.cpp:153): an unreserved event gets the reservation bit and the count. -/
def waitEvent (m : Machine p) (port : Fin p) (var : Request) : Option (Machine p × List (Write p q)) :=
  if var.rw then none
  else
    match Scan.first fun e => (m.ev e).isNone with
    | none => none
    | some slot =>
      match freeEvent s with
      | some i =>
        some ({ m with
          state := .waitAcc, gotEvent := true, port := some port
          nsl := Function.update m.nsl i m.nslTemp, ev := Function.update m.ev slot (some i) },
          [.prgPort port (answerWord core (some i)), .counter i ((0x80 ||| m.nslTemp) % 256),
            .setValue i ((0x80 ||| m.nslTemp) % 256), .prRdy port true])
      | none =>
        some ({ m with state := .waitAcc, gotEvent := false, port := some port },
          [.prgPort port (answerWord core none), .prRdy port true])

/-- `MANAGE_EVENT` (cl_hws.cpp:242). -/
def manageEvent (m : Machine p) (port : Fin p) (var : Request) : Option (Machine p × List (Write p q)) :=
  if h : byte var.data 0 < N_HWS_EVENTS then
    if var.rw && byte var.data 1 == core.val && decide (∃ e, m.ev e = some ⟨byte var.data 0, h⟩) then
      some ({ m with state := .manageAcc, evManaging := some ⟨byte var.data 0, h⟩, port := some port },
        [.prRdy port true])
    else none
  else none

/-- What a release does once its mask is complete (cl_hws.cpp:318-342 and :415-442). -/
def release (e : Event) (maskVar : Nat) : List (Write p q) :=
  [.mask e (1 <<< core.val), .maskDefault e (1 <<< core.val)] ++ wakes cfg e maskVar ++ [.notifyCore e true]

/-- `RELEASE_OR_FREE_EVENT` (cl_hws.cpp:289). -/
def releaseOrFree (m : Machine p) (port : Fin p) (var : Request) : Option (Machine p × List (Write p q)) :=
  match m.evManaging with
  | none => none
  | some e =>
    if var.rw then
      if m.maskType == 1 then
        if m.nsl e ≤ MAX_SLAVES then
          some ({ m with state := .releaseOrFreeAcc, nextNext := .requestType, port := some port },
            .mask e (var.data.toNat % 2 ^ 16) :: release cfg core e (var.data.toNat % 2 ^ 16) ++ [.prRdy port true])
        else none
      else if m.maskType == 2 then
        some ({ m with state := .releaseOrFreeAcc, nextNext := .releaseEvent, port := some port },
          [.mask e var.data.toNat, .prRdy port true])
      else none
    else
      match Scan.first fun slot => m.ev slot == some e with
      | none => none
      | some slot =>
        some ({ m with
          state := .releaseOrFreeAcc, nextNext := .requestType, port := some port
          ev := Function.update m.ev slot none },
          [.mask e 0, .maskDefault e 0, .counter e 0, .setValue e 0, .notifyCore e false,
            .prgPort port (answerWord core none), .prRdy port true])

/-- `RELEASE_EVENT` (cl_hws.cpp:392): the second word of a 64-bit mask; the first is kept in `mask`. -/
def releaseEvent (m : Machine p) (port : Fin p) (var : Request) : Option (Machine p × List (Write p q)) :=
  match m.evManaging with
  | none => none
  | some e =>
    if var.rw && m.maskType == 2 && decide (m.nsl e ≤ MAX_SLAVES) then
      some ({ m with state := .releaseAcc, port := some port },
        release cfg core e (s.mask e &&& 0xFFFFFFFF ||| var.data.toNat <<< 32) ++ [.prRdy port true])
    else none

/-- The machine of one core at an edge. -/
def machineStep (m : Machine p) : Option (Machine p × List (Write p q)) :=
  match m.state with
  | .requestType => scanPorts prg core (requestType core) (List.finRange p) m
  | .requestAcc => some (acknowledge m m.nextNext)
  | .askEvent =>
    -- this loop stops at the first port with a request of the core
    scanPorts prg core (askEvent core)
      ((List.finRange p).find? fun port => (prg port).any fun var => var.id == core.val).toList m
  | .askAcc => some (acknowledge m .waitEvent)
  | .waitEvent => scanPorts prg core (waitEvent s core) (List.finRange p) m
  | .waitAcc => some (acknowledge m (if !m.gotEvent && m.inQueue then .waitEvent else .requestType))
  | .manageEvent => scanPorts prg core (manageEvent core) (List.finRange p) m
  | .manageAcc => some (acknowledge m .releaseOrFreeEvent)
  | .releaseOrFreeEvent => scanPorts prg core (releaseOrFree cfg core) (List.finRange p) m
  | .releaseOrFreeAcc => some (acknowledge m m.nextNext)
  | .releaseEvent => scanPorts prg core (releaseEvent cfg s core) (List.finRange p) m
  | .releaseAcc => some (acknowledge m .requestType)

/-- The writes of the machine of a core. -/
def machineWrites : List (Write p q) := ((machineStep cfg s prg core (s.prog core)).map Prod.snd).getD []

/-- An `assert` of `programme` fails. -/
def programmeFails : Bool := decide (∃ core, (machineStep cfg s prg core (s.prog core)).isNone)

def programmeWrites : List (Write p q) := (List.finRange MAX_CORES).flatMap (machineWrites cfg s prg)

end Programme

/-! ## `notify` (cl_hws.cpp:462) -/

section Notify

variable (cfg : Config) (s : State p q)

/-- Reserved, run down, and released: the event is reloaded. -/
def reloads (i : Event) : Bool := s.atomicCounters i &&& 0xFF == 0x80 && s.notifyCore i

def notifyWrites : List (Write p q) :=
  (List.finRange N_HWS_EVENTS).flatMap fun i =>
    if reloads s i then
      wakes cfg i (s.mask i) ++ [.counter i (s.atomicCountersSetValue i), .mask i (s.maskDefault i)]
    else []

end Notify

/-! ## `signal` (cl_hws.cpp:501) -/

section Signal

variable (s : State p q) (slv : Fin q → Option Request)

/-- A notification that is taken at this edge. -/
structure Notification (q : Nat) where
  core : Core
  port : Fin q
  var : Request

/-- The notifications that are taken from one core: none in state 1 (cl_hws.cpp:531). -/
def acceptedBy (core : Core) : List (Notification q) :=
  if (s.sig core).isSome then []
  else (List.finRange q).filterMap fun port =>
    (slv port).bind fun var => if var.id = core then some ⟨core, port, var⟩ else none

/-- All of them, in the order of the loop. -/
def accepted : List (Notification q) := (List.finRange MAX_CORES).flatMap (acceptedBy s slv)

/-- The `assert`s on a notification. -/
inductive Assertion | isWrite | event | reserved | positive | core
deriving DecidableEq, Repr

/-- The `assert` that failed, and the event byte of the notification it was about. -/
structure Fired where
  event : Nat
  assertion : Assertion
deriving DecidableEq, Repr

/-- `var_ac[first_byte]` after one notification (cl_hws.cpp:549-552). -/
def decrement (varAc : Nat) : Nat := ((varAc &&& 0x7F) - 1) ||| 0x80

/-- One notification: the `assert`s in their order, and the counters after it. -/
def countOff (varAc : Event → Nat) (x : Notification q) : Except Fired (Event → Nat) :=
  let first := byte x.var.data 0
  if !x.var.rw then .error ⟨first, .isWrite⟩
  else if h : first < N_HWS_EVENTS then
    let e : Event := ⟨first, h⟩
    if varAc e &&& 0x80 = 0 then .error ⟨first, .reserved⟩
    else if varAc e &&& 0x7F = 0 then .error ⟨first, .positive⟩
    else if byte x.var.data 1 ≠ x.core then .error ⟨first, .core⟩
    else .ok (Function.update varAc e (decrement (varAc e)))
  else .error ⟨first, .event⟩

/-- `var_ac` after the notifications of an edge. -/
def countOffAll : (Event → Nat) → List (Notification q) → Except Fired (Event → Nat)
  | varAc, [] => .ok varAc
  | varAc, x :: xs => (countOff varAc x).bind fun varAc' => countOffAll varAc' xs

/-- What a notification writes besides the counters; a third byte asks for the wake bit (cl_hws.cpp:557). -/
def takeWrites (x : Notification q) : List (Write p q) :=
  (if h : byte x.var.data 2 ≠ 0 ∧ byte x.var.data 0 < N_HWS_EVENTS then
    [.mask ⟨byte x.var.data 0, h.2⟩ (s.mask ⟨byte x.var.data 0, h.2⟩ ||| 1 <<< byte x.var.data 1)]
  else []) ++ [.slRdy x.port true]

/-- The writes for one core. In state 1 the ready line falls, and the core is stopped (cl_hws.cpp:579). -/
def coreWrites (core : Core) : List (Write p q) :=
  match s.sig core with
  | some port => [.slRdy port false, .halt core]
  | none => (acceptedBy s slv core).flatMap (takeWrites s)

/-- All writes of the process; the counters last, each of them. -/
def signalWrites (varAc : Event → Nat) : List (Write p q) :=
  (List.finRange MAX_CORES).flatMap (coreWrites s slv) ++
    (List.finRange N_HWS_EVENTS).map fun e => .counter e (varAc e % 256)

/-- The new state of a core: 1 if a notification of it was taken, with the port of the last one. -/
def signalNext (core : Core) : Option (Fin q) := ((acceptedBy s slv core).getLast?).map Notification.port

end Signal

/-! ## A clock edge -/

inductive Process | programme | notify | signal
deriving DecidableEq, Repr

/-- An edge: the order in which the processes run, and the requests on the ports. -/
structure Edge (p q : Nat) where
  order : List Process
  prg : Fin p → Option Request
  slv : Fin q → Option Request

section Step

variable (cfg : Config) (s : State p q) (a : Edge p q)

/-- The writes of a process at the edge, if the counters of `signal` are `varAc`. -/
def processWrites (varAc : Event → Nat) : Process → List (Write p q)
  | .programme => programmeWrites cfg s a.prg
  | .notify => notifyWrites cfg s
  | .signal => signalWrites s a.slv varAc

/-- The machine of a core after the edge. -/
def machineNext (core : Core) : Machine p :=
  ((machineStep (q := q) cfg s a.prg core (s.prog core)).map Prod.fst).getD (s.prog core)

def step : Option (State p q) :=
  if a.order.Perm [.programme, .notify, .signal] && !programmeFails cfg s a.prg then
    match countOffAll s.atomicCounters (accepted s a.slv) with
    | .ok varAc =>
      some (commit { s with prog := machineNext cfg s a, sig := signalNext s a.slv }
        (a.order.flatMap (processWrites cfg s a varAc)))
    | .error _ => none
  else none

end Step

end VirtualSoc.Hws
