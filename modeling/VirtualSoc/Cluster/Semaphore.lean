import Mathlib.Tactic.Common
import VirtualSoc.Lib.Atomic
import VirtualSoc.Cluster.PicInv

/-!
# The semaphores behind the interconnect (cluster/cl_semaphore.cpp, cluster/cl_semaphore.h)

`working` waits for a request, latches its `PINOUT`, lets `mem_in_ws` clock edges pass, and makes the access of each
beat at an edge of its own. Between the beats of a burst `mem_bb_ws` edges pass for a read, and its square for a
write, whose every beat stores the data of the first.

The device sits at the fourth port from the end of `cl_pic`. Its thread resumes at the clock edges, so the edge of
the interconnect (`clock`) is followed by that of the device (`device`), and other masters and slaves may move in
between. A pulse that ends leaves the two delta cycles of `__DELTA_L1`: those in which the fsm of the port withdraws
its request or puts the next one on the port. A request that is high then, or rises later in the edge, is latched.

The masters ask the shared slaves for single beats (the ports to the L3 are private, and there bursts go), the
semaphores for words, which `Semaphore_mem` asserts, and within their window: the offset of an address of the
synchroniser, which the interconnect adds to a port number, has a port there.

* `apply`: the memory as one object, which the masters see of it through `obs`.

-/

namespace VirtualSoc.Semaphore

/-! ## `cl_semaphore::working` -/

/-- The parameters of both constructors; the port of the semaphores is not one of a private L3 port. -/
structure Config (n m : Nat) where
  xbarSched : Crossbar.Sched
  metrics : Fin n → Bool
  mem_in_ws : Nat
  mem_bb_ws : Nat
  room : n + 4 ≤ m

/-- Where the thread waits: for a request, `left` clock edges for the access of beat `i` (or, after the last beat, for
the end of its pulse), or `left` edges between two beats. -/
inductive Phase
  | atRequest
  | waiting (left i : Nat)
  | between (left i : Nat)
deriving DecidableEq, Repr

structure Device where
  phase : Phase
  mast_pinout : Pinout
  addr : Nat
  data : UInt32
  ready : Bool
  mem : MemClass

/-- `addressing` (cl_semaphore.h:32), with `START_ADDRESS` as the platforms give it. -/
def addressing (addr : Nat) : Nat := (addr + 2 ^ 32 - CL_SEM_BASE) % 2 ^ 32

/-- The `switch` over `bw`; a malformed one ends the simulation. -/
def size (bw : Nat) : Option Nat :=
  match bw with
  | 0 => some 4
  | 1 => some 1
  | 2 => some 2
  | _ => none

/-- `Read`, whose memory asserts a word. -/
def read (mem : MemClass) (addr bw : Nat) : Option (UInt32 × MemClass) :=
  if bw = MEM_WORD then SemaphoreMem.read mem (addressing addr) else none

/-- `Write`, with the member `bw`, which is `MEM_WORD`. -/
def write (mem : MemClass) (addr : Nat) (data : UInt32) : Option MemClass :=
  SemaphoreMem.write mem (addressing addr) data

namespace Device

def init (mem : MemClass) : Device := ⟨.atRequest, {}, 0, 0, false, mem⟩

/-- A request is latched. -/
def take (mem_in_ws : Nat) (s : Device) (p : Pinout) : Option Device :=
  (size p.bw).map fun _ => { s with mast_pinout := p, addr := p.address, phase := .waiting (mem_in_ws + 1) 0 }

/-- The end of a beat: its address is stepped and `ready` rises, with the data of a read. -/
def pulse (s : Device) (i : Nat) : Option Device :=
  (size s.mast_pinout.bw).map fun size =>
    { s with
      addr := (s.addr + size) % 2 ^ 32
      mast_pinout := { s.mast_pinout with data := if s.mast_pinout.rw then s.mast_pinout.data else s.data }
      ready := true
      phase := .waiting 1 (i + 1) }

/-- The edges between beat `i` and its pulse. -/
def waits (mem_bb_ws : Nat) (s : Device) (i : Nat) : Nat :=
  if i = 0 then 0 else if s.mast_pinout.rw then mem_bb_ws * mem_bb_ws else mem_bb_ws

/-- The access of beat `i`. -/
def access (s : Device) : Option Device :=
  if s.mast_pinout.rw then
    (write s.mem s.addr s.mast_pinout.data).map fun mem => { s with mem := mem, ready := false }
  else
    (read s.mem s.addr s.mast_pinout.bw).map fun x => { s with data := x.1, mem := x.2, ready := false }

/-- The thread at a clock edge. -/
def edge (mem_bb_ws : Nat) (s : Device) : Option Device :=
  match s.phase with
  | .atRequest => some s
  | .waiting left i =>
    if 1 < left then some { s with phase := .waiting (left - 1) i }
    else if i < s.mast_pinout.burst then
      s.access.bind fun s =>
        if s.waits mem_bb_ws i = 0 then s.pulse i else some { s with phase := .between (s.waits mem_bb_ws i) i }
    else some { s with ready := false, phase := .atRequest }
  | .between left i => if 1 < left then some { s with phase := .between (left - 1) i } else s.pulse i

end Device

/-! ## With the interconnect -/

variable {n m : Nat}

namespace Config

/-- `ID` is 0 on both platforms (cl_platform_prv.h:354, cl_platform_shr.h:357). -/
def pic (c : Config n m) : Pic.Config n := ⟨0, c.xbarSched, c.metrics⟩

/-- `num_slaves-4`. -/
def port (c : Config n m) : Fin m :=
  ⟨m - 4, by
    have := c.room
    omega⟩

/-- What a master may ask for. -/
def Allowed (c : Config n m) (k : Fin n) (p : Pinout) : Prop :=
  (p.burst = 1 ∨ isInL3Space p.address 0 = true) ∧
  (Pic.decode m 0 k p.address = some c.port → isInSemSpace p.address 0 = true ∧ p.bw = MEM_WORD)

instance (c : Config n m) (k : Fin n) (p : Pinout) : Decidable (c.Allowed k p) :=
  inferInstanceAs (Decidable ((_ ∨ _) ∧ (_ → _)))

end Config

/-- `edge`: the device has not seen the last clock edge yet. -/
structure State (n m : Nat) where
  pic : Pic.State n m
  dev : Device
  edge : Bool

inductive Act (n m : Nat)
  | clock (early : Fin n → Bool)
  | device
  | raise (k : Fin n) (p : Pinout)
  | beat (k : Fin n) (d : UInt32)
  | rise (j : Fin m) (d : UInt32)
  | fall (j : Fin m)

section Step

variable (c : Config n m)

def init (mem : MemClass) : State n m := ⟨Pic.init, .init mem, false⟩

/-- What the interconnect sees of the ready line. -/
def drive (pic : Pic.State n m) (old new : Device) : Option (Pic.State n m) :=
  if old.ready = new.ready then some pic
  else Pic.step c.pic pic (if new.ready then .rise c.port new.mast_pinout.data else .fall c.port)

/-- The thread finds a request after its edge. -/
def latch (pic : Pic.State n m) (dev : Device) : Option Device :=
  if dev.phase = .atRequest ∧ pic.requestSlave c.port = true then dev.take c.mem_in_ws (pic.pinoutSlave c.port)
  else some dev

def deviceStep (s : State n m) : Option (State n m) :=
  (s.dev.edge c.mem_bb_ws).bind fun dev =>
    (drive c s.pic s.dev dev).bind fun pic =>
      (latch c pic dev).map fun dev => ⟨pic, dev, false⟩

/-- A step of the interconnect that the device has no part in. -/
def State.picStep (s : State n m) (a : Pic.Action n m) : Option (State n m) :=
  (Pic.step c.pic s.pic a).map fun pic => { s with pic := pic }

def step (s : State n m) : Act n m → Option (State n m)
  | .clock early =>
    if s.edge then none else (Pic.step c.pic s.pic (.clock early)).map fun pic => { s with pic := pic, edge := true }
  | .device => if s.edge then deviceStep c s else none
  | .raise k p => if c.Allowed k p then s.picStep c (.raise k p) else none
  | .beat k d => if Pic.slaveOf c.pic s.pic k = some c.port then none else s.picStep c (.beat k d)
  | .rise j d => if j = c.port then none else s.picStep c (.rise j d)
  | .fall j => if j = c.port then none else s.picStep c (.fall j)

end Step

/-! ## What the masters see of the semaphores -/

/-- An access of a word. -/
inductive Op
  | read (address : Nat)
  | write (address : Nat) (data : UInt32)
deriving DecidableEq, Repr

def Op.of (p : Pinout) : Op := if p.rw then .write p.address p.data else .read p.address

/-- The memory as one object: a read gives the word, a write nothing. -/
def apply (mem : MemClass) : Op → Option (MemClass × Option UInt32)
  | .read address => (read mem address MEM_WORD).map fun x => (x.2, some x.1)
  | .write address data => (write mem address data).map fun mem => (mem, none)

abbrev Event (n : Nat) := Atomic.Event (Fin n) Op (Option UInt32)

abbrev Object (n : Nat) := Atomic.State (Fin n) MemClass Op (Option UInt32)

def result (p : Pinout) : Option UInt32 := if p.rw then none else some p.data

/-- A request to the semaphores, an access of the device for the master that its port serves, and the end of the
pulse that the master was answered with. -/
def obs (c : Config n m) (s : State n m) : Act n m → List (Event n)
  | .raise k p => if Pic.decode m 0 k p.address = some c.port then [.ask k (.of p)] else []
  | .device =>
    match s.dev.edge c.mem_bb_ws with
    | none => []
    | some dev =>
      if dev.ready = s.dev.ready then []
      else if dev.ready then (Pic.pulsed s.pic c.port).map .act
      else (Pic.lowering s.pic c.port).map fun k => .answer k (result (s.pic.pinoutCore k))
  | _ => []

end VirtualSoc.Semaphore
