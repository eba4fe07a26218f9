import VirtualSoc.Core.Bus
import VirtualSoc.Core.Element
import VirtualSoc.Lib.Loop

/-!
# The two memories behind L3 (cluster/cl_memory.cpp, cluster/cl_DRAM-memory-mp.cpp)

`cl_memory` and `DRAM_mem_mp` serve a request in the same loop over the beats, and differ in what they write:
`cl_memory` samples `pinout` in each beat, `DRAM_mem_mp` only when the request comes.

* `clMemory_serve`, `dram_serve`: each of them refines one access of an abstract memory;
* `memories_agree_iff`: the sequences of accesses on which they agree.
-/

namespace VirtualSoc.L3

open MemClass

/-- The wait states between two beats (cl_platform_defs.h:23, 53). -/
def L3_BB_WS : Nat := 1
def DRAM_BB_WS : Nat := 1

/-- A request. The master puts `data k` on `pinout` when it has seen `k` rising edges of `ready`, as `cl_dma` does. -/
structure Access where
  address : UInt32
  rw : Bool
  bw : Nat
  burst : UInt32
  data : Nat → UInt32

/-- `burst = (int)mast_pinout.burst`, for a loop from 0. -/
def Access.beats (a : Access) : Nat := a.burst.toInt32.toInt.toNat

/-- The switch on `bw`; any other value ends the simulation. -/
def widthSize (bw : Nat) : Option Nat :=
  if bw = MEM_WORD then some 4 else if bw = MEM_BYTE then some 1 else if bw = MEM_HWORD then some 2 else none

/-! ## The wires -/

/-- `ready` and what was last written to it, the data that the memory has put on `pinout`, and what the master has
found there at each rising edge of `ready`. -/
structure Wires where
  ready : Bool
  next : Bool
  data : UInt32
  seen : List UInt32

namespace Wires

def init : Wires := ⟨false, false, 0, []⟩

/-- `wait()`: the signals take their new values before the next edge of the clock. -/
def wait (w : Wires) : Wires :=
  { w with ready := w.next, seen := if w.next && !w.ready then w.seen ++ [w.data] else w.seen }

def waits : Nat → Wires → Wires
  | 0, w => w
  | n + 1, w => (waits n w).wait

/-- `ready.write(b)`. -/
def write (w : Wires) (b : Bool) : Wires := { w with next := b }

/-- `pinout.write(mast_pinout)`. -/
def put (w : Wires) (data : UInt32) : Wires := { w with data := data }

/-- `do { wait(); ready.write(false); } while (must_wait)`, with so many repetitions. -/
def waitWhile : Nat → Wires → Wires
  | 0, w => w.wait.write false
  | n + 1, w => (waitWhile n w).wait.write false

/-- The rising edges so far. -/
def edges (w : Wires) : Nat := w.seen.length

end Wires

/-- The variables of `working`: the memory, `addr` and `mast_pinout.data`. -/
structure Thread where
  mem : MemClass
  addr : Nat
  pinout : UInt32
  wires : Wires

/-- When the request comes. -/
def Thread.start (m : MemClass) (a : Access) : Thread := ⟨m, a.address.toNat, a.data Wires.init.edges, Wires.init⟩

/-- `addr - START_ADDRESS`, in both. -/
def addressing (addr : Nat) : Nat := (addr + 2 ^ 32 - CL_L3_BASE) % 2 ^ 32

/-- `addr += size`. -/
def advance (addr size : Nat) : Nat := (addr + size) % 2 ^ 32

/-- The frame that both `working` have around a beat. -/
def serve (beat : Access → Nat → Thread → Nat → Option Thread) (m : MemClass) (a : Access) :
    Option (MemClass × List UInt32) :=
  (widthSize a.bw).bind fun size =>
    ((List.range a.beats).foldlM (beat a size) (Thread.start m a)).map fun t =>
      (t.mem, if a.rw then [] else t.wires.wait.seen)

namespace ClMemory

/-- `must_wait` is false behind the first `Read`. -/
def readBeat (a : Access) (size : Nat) (t : Thread) (i : Nat) : Option Thread :=
  let w := t.wires.wait.write false
  (t.mem.read (addressing t.addr) a.bw).map fun data =>
    let w := w.waits (if i = 0 then 0 else L3_BB_WS)
    { t with addr := advance t.addr size, pinout := data, wires := (w.put data).write true }

/-- Each of the waits between two beats is `wait((int)mem_bb_ws)`. -/
def writeBeat (a : Access) (size : Nat) (t : Thread) (i : Nat) : Option Thread :=
  let w := t.wires.wait
  let pinout := a.data w.edges
  let w := w.write false
  (t.mem.write (addressing t.addr) pinout a.bw).map fun mem =>
    let w := w.waits (if i = 0 then 0 else L3_BB_WS * L3_BB_WS)
    { mem, addr := advance t.addr size, pinout, wires := w.write true }

def beat (a : Access) (size : Nat) (t : Thread) (i : Nat) : Option Thread :=
  if a.rw then writeBeat a size t i else readBeat a size t i

end ClMemory

namespace DramMemMp

/-- `late i`: how often beat `i` finds `must_wait` still true. -/
def readBeat (late : Nat → Nat) (a : Access) (size : Nat) (t : Thread) (i : Nat) : Option Thread :=
  (t.mem.read (addressing t.addr) a.bw).map fun data =>
    let w := t.wires.waitWhile (late i)
    let w := w.waits (if i = 0 then 0 else DRAM_BB_WS)
    { t with addr := advance t.addr size, pinout := data, wires := (w.put data).write true }

def writeBeat (late : Nat → Nat) (a : Access) (size : Nat) (t : Thread) (i : Nat) : Option Thread :=
  (t.mem.write (addressing t.addr) t.pinout a.bw).map fun mem =>
    let w := t.wires.waitWhile (late i)
    let w := w.waits (if i = 0 then 0 else DRAM_BB_WS)
    { t with mem, addr := advance t.addr size, wires := w.write true }

def beat (late : Nat → Nat) (a : Access) (size : Nat) (t : Thread) (i : Nat) : Option Thread :=
  if a.rw then writeBeat late a size t i else readBeat late a size t i

end DramMemMp

/-! ## One access of the abstract memory -/

/-- The address of a beat. -/
def Access.addr (a : Access) (i : Nat) : Nat := a.address.toNat + i * elementSize a.bw

def Access.Inside (a : Access) : Prop := a.bw < 3 ∧ ∀ i < a.beats, a.addr i < CL_L3_SIZE

instance (a : Access) : Decidable a.Inside := inferInstanceAs (Decidable (_ ∧ _))

/-- `val` is what is written, a value for each beat. -/
def Access.effect (val : Nat → UInt32) (m : MemClass) (a : Access) : Option (MemClass × List UInt32) :=
  if a.Inside then
    some (if a.rw then (m.burst a.bw a.address.toNat val a.beats, [])
      else (m, (List.range a.beats).map fun i => (m.read (a.addr i) a.bw).getD 0))
  else none

/-! ## A beat -/

theorem addressing_of_lt {addr : Nat} (h : addr < 2 ^ 32) : addressing addr = addr := by
  unfold addressing CL_L3_BASE
  omega

theorem widthSize_eq {bw : Nat} (hbw : bw < 3) : widthSize bw = some (elementSize bw) := by
  obtain rfl | rfl | rfl := width_cases hbw <;> rfl

theorem widthSize_none {bw : Nat} (hbw : ¬ bw < 3) : widthSize bw = none := by
  unfold widthSize MEM_WORD MEM_BYTE MEM_HWORD
  rw [if_neg (by omega), if_neg (by omega), if_neg (by omega)]

namespace Wires

variable {w : Wires}

@[simp] theorem waitWhile_next (n : Nat) : (w.waitWhile n).next = false := by
  cases n <;> rfl

@[simp] theorem waitWhile_seen (n : Nat) : (w.waitWhile n).seen = w.wait.seen := by
  induction n with
  | zero => rfl
  | succ n ih => simp [waitWhile, write, wait, ih]

theorem waitWhile_ready (hready : w.next = false) (n : Nat) : (w.waitWhile n).ready = false := by
  cases n with
  | zero => exact hready
  | succ n => exact waitWhile_next n

theorem waits_next (hnext : w.next = false) (n : Nat) : (w.waits n).next = false := by
  induction n with
  | zero => exact hnext
  | succ n ih => exact ih

theorem waits_seen (hnext : w.next = false) (n : Nat) : (w.waits n).seen = w.seen := by
  induction n with
  | zero => rfl
  | succ n ih => simp [waits, wait, waits_next hnext n, ih]

/-- A wait state between the beats takes `ready` back. -/
theorem waits_ready (hnext : w.next = false) {n : Nat} (hn : 0 < n) : (w.waits n).ready = false := by
  cases n with
  | zero => exact absurd hn (Nat.lt_irrefl 0)
  | succ n => exact waits_next hnext n

end Wires

/-- At the beginning of beat `i`, whose address is in the address space: the last `ready` is still to rise. -/
structure Before (a : Access) (i : Nat) (t : Thread) : Prop where
  addr : t.addr = a.addr i
  lt : a.addr i < 2 ^ 32
  ready : t.wires.ready = false
  next : t.wires.next = decide (i ≠ 0)
  edges : t.wires.wait.edges = i

variable {a : Access} {m : MemClass} {t : Thread} {i : Nat}

theorem start_before : Before a 0 (Thread.start m a) where
  addr := by simp [Thread.start, Access.addr]
  lt := by simpa [Access.addr] using a.address.toNat_lt
  ready := rfl
  next := rfl
  edges := rfl

theorem Before.addressing (h : Before a i t) : addressing t.addr = a.addr i := by
  rw [h.addr, addressing_of_lt h.lt]

/-- The wires between the beats, in both. -/
theorem Before.wires (h : Before a i t) (late : Nat) {ws : Nat} (hws : 0 < ws) :
    ((t.wires.waitWhile late).waits (if i = 0 then 0 else ws)).ready = false ∧
    ((t.wires.waitWhile late).waits (if i = 0 then 0 else ws)).seen = t.wires.wait.seen := by
  have hnext := Wires.waitWhile_next (w := t.wires) late
  refine ⟨?_, (Wires.waits_seen hnext _).trans (Wires.waitWhile_seen late)⟩
  by_cases hi : i = 0
  · rw [if_pos hi]
    exact Wires.waitWhile_ready (by simp [h.next, hi]) late
  · rw [if_neg hi]
    exact Wires.waits_ready hnext hws

/-- `ready` rises once more behind each beat. -/
theorem Wires.wait_seen {w : Wires} (hready : w.ready = false) : (w.write true).wait.seen = w.seen ++ [w.data] := by
  simp [write, wait, hready]

theorem Before.succ (h : Before a i t) (hin : a.addr i < CL_L3_SIZE) {w : Wires} (hready : w.ready = false)
    (hseen : w.seen = t.wires.wait.seen) {t' : Thread} (haddr : t'.addr = advance t.addr (elementSize a.bw))
    (hwires : t'.wires = w.write true) : Before a (i + 1) t' := by
  have hnext : a.addr (i + 1) = a.addr i + elementSize a.bw := by
    unfold Access.addr
    rw [Nat.succ_mul, Nat.add_assoc]
  have hlt : a.addr (i + 1) < 2 ^ 32 := by
    have := elementSize_cases a.bw
    unfold CL_L3_SIZE at hin
    omega
  constructor
  case addr => rw [haddr, advance, h.addr, ← hnext, Nat.mod_eq_of_lt hlt]
  case lt => exact hlt
  case ready => rw [hwires]; exact hready
  case next => rw [hwires]; rfl
  case edges =>
    have hedges := h.edges
    unfold Wires.edges at *
    rw [hwires, Wires.wait_seen hready, List.length_append, hseen, hedges]
    rfl

/-- What a beat has to do: it serves its element, and the master sees one more edge. -/
structure Step (a : Access) (val : Nat → UInt32) (i : Nat) (t t' : Thread) : Prop where
  before : Before a (i + 1) t'
  write : a.rw = true →
    t'.mem = t.mem.store (elementStart a.bw (a.addr i)) (elementSize a.bw) (truncate a.bw (val i))
  read : a.rw = false → t'.mem = t.mem ∧
    t'.wires.wait.seen = t.wires.wait.seen ++ [(t.mem.read (a.addr i) a.bw).getD 0]

variable {val : Nat → UInt32}

/-- Both memories write so. -/
theorem Before.write_step (h : Before a i t) (hrw : a.rw = true) (hin : a.addr i < CL_L3_SIZE) {w : Wires}
    (hready : w.ready = false) (hseen : w.seen = t.wires.wait.seen) (pinout : UInt32) :
    Step a val i t ⟨t.mem.store (elementStart a.bw (a.addr i)) (elementSize a.bw) (truncate a.bw (val i)),
      advance t.addr (elementSize a.bw), pinout, w.write true⟩ where
  before := h.succ hin hready hseen rfl rfl
  write _ := rfl
  read hread := absurd (hrw.symm.trans hread) Bool.true_eq_false.mp

/-- And both read so. -/
theorem Before.read_step (h : Before a i t) (hrw : a.rw = false) (hin : a.addr i < CL_L3_SIZE) {w : Wires}
    (hready : w.ready = false) (hseen : w.seen = t.wires.wait.seen) {v : UInt32}
    (hv : t.mem.read (a.addr i) a.bw = some v) :
    Step a val i t ⟨t.mem, advance t.addr (elementSize a.bw), v, (w.put v).write true⟩ where
  before := h.succ hin (w := w.put v) hready hseen rfl rfl
  write hwrite := absurd (hwrite.symm.trans hrw) Bool.true_eq_false.mp
  read _ := by
    refine ⟨rfl, ?_⟩
    rw [hv, ← hseen]
    exact Wires.wait_seen (w := w.put v) hready

/-! ## The loop -/

/-- `K` is what a memory relies on in its loop. -/
structure Beats (beat : Access → Nat → Thread → Nat → Option Thread) (a : Access) (val : Nat → UInt32)
    (K : Thread → Prop) : Prop where
  step : ∀ {i t}, a.bw < 3 → a.addr i < CL_L3_SIZE → t.mem.size = CL_L3_SIZE → Before a i t → K t →
    ∃ t', beat a (elementSize a.bw) t i = some t' ∧ Step a val i t t' ∧ K t'
  fail : ∀ {i t}, CL_L3_SIZE ≤ a.addr i → t.mem.size = CL_L3_SIZE → Before a i t →
    beat a (elementSize a.bw) t i = none

/-- The state of the loop behind `i` beats. -/
structure Served (a : Access) (val : Nat → UInt32) (m : MemClass) (i : Nat) (t : Thread) : Prop where
  before : Before a i t
  write : a.rw = true → t.mem = m.burst a.bw a.address.toNat val i
  read : a.rw = false → t.mem = m ∧
    t.wires.wait.seen = (List.range i).map fun i => (m.read (a.addr i) a.bw).getD 0

variable {beat : Access → Nat → Thread → Nat → Option Thread} {K : Thread → Prop}

theorem Served.size (h : Served a val m i t) : t.mem.size = m.size := by
  cases hrw : a.rw with
  | true => rw [h.write hrw, burst_size]
  | false => rw [(h.read hrw).1]

theorem Served.succ (h : Served a val m i t) {t' : Thread} (hstep : Step a val i t t') :
    Served a val m (i + 1) t' where
  before := hstep.before
  write hrw := by rw [hstep.write hrw, h.write hrw]; rfl
  read hrw := by
    obtain ⟨hmem, hseen⟩ := h.read hrw
    obtain ⟨hmem', hseen'⟩ := hstep.read hrw
    refine ⟨hmem'.trans hmem, ?_⟩
    rw [hseen', hseen, hmem, List.range_succ, List.map_append]
    rfl

/-- **The loop**: a memory whose beats do what they have to serves an access as the abstract one does. -/
theorem Beats.serve (hbeat : Beats beat a val K) (hm : m.size = CL_L3_SIZE) (hstart : K (Thread.start m a)) :
    serve beat m a = a.effect val m := by
  have h0 : Served a val m 0 (Thread.start m a) ∧ K (Thread.start m a) :=
    ⟨⟨start_before, fun _ => rfl, fun _ => ⟨rfl, rfl⟩⟩, hstart⟩
  unfold L3.serve Access.effect
  by_cases hbw : a.bw < 3
  · rw [widthSize_eq hbw, Option.bind_some]
    have hstep : ∀ i t, i < a.beats → a.addr i < CL_L3_SIZE → Served a val m i t ∧ K t →
        ∃ t', beat a (elementSize a.bw) t i = some t' ∧ Served a val m (i + 1) t' ∧ K t' := by
      intro i t _ hin ⟨h, hK⟩
      obtain ⟨t', hbeat, hstep, hK'⟩ := hbeat.step hbw hin (h.size.trans hm) h.before hK
      exact ⟨t', hbeat, h.succ hstep, hK'⟩
    by_cases hin : ∀ i < a.beats, a.addr i < CL_L3_SIZE
    · obtain ⟨t, ht, h, -⟩ := Loop.range_some h0 fun i t hi => hstep i t hi (hin i hi)
      rw [if_pos ⟨hbw, hin⟩, ht, Option.map_some]
      cases hrw : a.rw with
      | true => rw [h.write hrw, if_pos rfl, if_pos rfl]
      | false =>
        obtain ⟨hmem, hseen⟩ := h.read hrw
        rw [hmem, hseen, if_neg Bool.false_ne_true, if_neg Bool.false_ne_true]
    · rw [if_neg fun h => hin h.2]
      have hnone := Loop.range_none h0 hstep
        (fun i t _ hout h => hbeat.fail (Nat.le_of_not_lt hout) (h.1.size.trans hm) h.1.before) hin
      rw [hnone]
      rfl
  · rw [widthSize_none hbw, if_neg fun h => hbw h.1]
    rfl

theorem ClMemory.beats (a : Access) : Beats ClMemory.beat a a.data fun _ => True where
  step := by
    intro i t hbw hin hsize h _
    have hlt : a.addr i < t.mem.size := hsize ▸ hin
    unfold ClMemory.beat
    cases hrw : a.rw with
    | true =>
      obtain ⟨hready, hseen⟩ := h.wires 0 (by decide : 0 < L3_BB_WS * L3_BB_WS)
      rw [if_pos rfl, writeBeat, h.addressing, write_inside hbw hlt, h.edges]
      exact ⟨_, rfl, h.write_step hrw hin hready hseen _, trivial⟩
    | false =>
      obtain ⟨hready, hseen⟩ := h.wires 0 (by decide : 0 < L3_BB_WS)
      obtain ⟨v, hv⟩ := read_inside hbw hlt
      rw [if_neg Bool.false_ne_true, readBeat, h.addressing, hv]
      exact ⟨_, rfl, h.read_step hrw hin hready hseen hv, trivial⟩
  fail := by
    intro i t hout hsize h
    have hout' : t.mem.size ≤ a.addr i := hsize ▸ hout
    unfold ClMemory.beat writeBeat readBeat
    dsimp only
    rw [h.addressing, write_outside hout', read_outside hout']
    cases a.rw <;> rfl

/-- `mast_pinout` is that of the request as long as nothing is read. -/
theorem DramMemMp.beats (late : Nat → Nat) (a : Access) :
    Beats (DramMemMp.beat late) a (fun _ => a.data 0) fun t => a.rw = true → t.pinout = a.data 0 where
  step := by
    intro i t hbw hin hsize h hpinout
    have hlt : a.addr i < t.mem.size := hsize ▸ hin
    obtain ⟨hready, hseen⟩ := h.wires (late i) (by decide : 0 < DRAM_BB_WS)
    unfold DramMemMp.beat
    cases hrw : a.rw with
    | true =>
      rw [if_pos rfl, writeBeat, h.addressing, hpinout hrw, write_inside hbw hlt]
      exact ⟨_, rfl, h.write_step hrw hin hready hseen _, fun _ => rfl⟩
    | false =>
      obtain ⟨v, hv⟩ := read_inside hbw hlt
      rw [if_neg Bool.false_ne_true, readBeat, h.addressing, hv]
      exact ⟨_, rfl, h.read_step hrw hin hready hseen hv, fun h => absurd h Bool.false_ne_true⟩
  fail := by
    intro i t hout hsize h
    have hout' : t.mem.size ≤ a.addr i := hsize ▸ hout
    unfold DramMemMp.beat writeBeat readBeat
    rw [h.addressing, write_outside hout', read_outside hout']
    cases a.rw <;> rfl

/-- `cl_memory` writes what the master presents in each beat. -/
theorem clMemory_serve (hm : m.size = CL_L3_SIZE) : serve ClMemory.beat m a = a.effect a.data m :=
  (ClMemory.beats a).serve hm trivial

/-- `DRAM_mem_mp` writes what it presents at first, and how long the controller takes does not matter. -/
theorem dram_serve (late : Nat → Nat) (hm : m.size = CL_L3_SIZE) :
    serve (DramMemMp.beat late) m a = a.effect (fun _ => a.data 0) m :=
  (DramMemMp.beats late a).serve hm fun _ => rfl

/-! ## Sequences of accesses -/

/-- The memory behind the accesses, and what the master has read in each; `serve k` is for access `k`. -/
def run : (Nat → MemClass → Access → Option (MemClass × List UInt32)) → MemClass → List Access →
    Option (MemClass × List (List UInt32))
  | _, m, [] => some (m, [])
  | serve, m, a :: as => (serve 0 m a).bind fun x =>
    (run (fun k => serve (k + 1)) x.1 as).map fun y => (y.1, x.2 :: y.2)

def clMemory (_ : Nat) : MemClass → Access → Option (MemClass × List UInt32) := serve ClMemory.beat

/-- `late k i` is for beat `i` of access `k`. -/
def dram (late : Nat → Nat → Nat) (k : Nat) : MemClass → Access → Option (MemClass × List UInt32) :=
  serve (DramMemMp.beat (late k))

/-- The beats of a burst write are in their elements behind it. -/
def Access.Left (a : Access) (m : MemClass) : Prop :=
  a.rw = true → ∀ i < a.beats, m.element a.bw (a.addr i) = truncate a.bw (a.data i)

/-- From the same memory on: the same memory behind each access, the same beats read, and the beats written left. -/
structure Agree (late : Nat → Nat → Nat) (m : MemClass) (as : List Access) : Prop where
  same : ∀ k, run clMemory m (as.take k) = run (dram late) m (as.take k)
  left : ∀ (k : Nat) (h : k < as.length) x, run clMemory m (as.take (k + 1)) = some x → as[k].Left x.1
  left_dram : ∀ (k : Nat) (h : k < as.length) x, run (dram late) m (as.take (k + 1)) = some x → as[k].Left x.1

/-- As far as the accesses are inside, each burst write writes one value, in so far as its width keeps it. -/
def OneValue : List Access → Prop
  | [] => True
  | a :: as => a.Inside →
    (a.rw = true → ∀ i < a.beats, truncate a.bw (a.data i) = truncate a.bw (a.data 0)) ∧ OneValue as

instance decidableOneValue : DecidablePred OneValue
  | [] => isTrue trivial
  | a :: as =>
    have : Decidable (OneValue as) := decidableOneValue as
    inferInstanceAs (Decidable (a.Inside → (a.rw = true → ∀ i < a.beats, _ = _) ∧ OneValue as))

variable {late : Nat → Nat → Nat} {as : List Access}

theorem effect_size {val : Nat → UInt32} {x : MemClass × List UInt32} (h : a.effect val m = some x) :
    x.1.size = m.size := by
  unfold Access.effect at h
  split at h
  · cases h
    split
    · exact burst_size
    · rfl
  · cases h

theorem effect_element {val : Nat → UInt32} {x : MemClass × List UInt32} (h : a.effect val m = some x)
    (hrw : a.rw = true) {i : Nat} (hi : i < a.beats) : x.1.element a.bw (a.addr i) = truncate a.bw (val i) := by
  unfold Access.effect at h
  rw [if_pos hrw] at h
  split at h
  · cases h
    exact element_burst hi
  · cases h

/-- Values of which the width keeps the same have the same effect. -/
theorem effect_congr {val val' : Nat → UInt32}
    (h : a.rw = true → ∀ i < a.beats, truncate a.bw (val i) = truncate a.bw (val' i)) :
    a.effect val m = a.effect val' m := by
  unfold Access.effect
  cases hrw : a.rw with
  | true => rw [burst_congr (h hrw)]
  | false => rfl

theorem effect_some (m : MemClass) (val : Nat → UInt32) (h : a.Inside) : ∃ x, a.effect val m = some x := ⟨_, if_pos h⟩

theorem effect_none {val : Nat → UInt32} (h : ¬ a.Inside) : a.effect val m = none := if_neg h

section Run

variable {serve : Nat → MemClass → Access → Option (MemClass × List UInt32)} {x : MemClass × List UInt32}

theorem run_nil : run serve m [] = some (m, []) := rfl

theorem run_cons_some (h : serve 0 m a = some x) : run serve m (a :: as) =
    (run (fun k => serve (k + 1)) x.1 as).map fun y => (y.1, x.2 :: y.2) := by
  rw [run, h, Option.bind_some]

theorem run_cons_none (h : serve 0 m a = none) : run serve m (a :: as) = none := by
  rw [run, h, Option.bind_none]

theorem run_single (h : serve 0 m a = some x) : run serve m [a] = some (x.1, [x.2]) := by
  rw [run_cons_some h, run_nil]
  rfl

/-- Along a run each burst write leaves what its memory writes. -/
theorem run_element (val : Access → Nat → UInt32) (hserve : ∀ k m a, m.size = CL_L3_SIZE →
      serve k m a = a.effect (val a) m) (hm : m.size = CL_L3_SIZE) {k : Nat} (hk : k < as.length)
    {y : MemClass × List (List UInt32)} (hr : run serve m (as.take (k + 1)) = some y) (hrw : as[k].rw = true)
    {i : Nat} (hi : i < as[k].beats) : y.1.element as[k].bw (as[k].addr i) = truncate as[k].bw (val as[k] i) := by
  induction as generalizing m k y serve with
  | nil => exact absurd hk (Nat.not_lt_zero k)
  | cons a as ih =>
    rw [List.take_succ_cons] at hr
    cases hx : serve 0 m a with
    | none =>
      rw [run_cons_none hx] at hr
      cases hr
    | some x =>
      have heffect := (hserve 0 m a hm).symm.trans hx
      cases k with
      | zero =>
        rw [List.take_zero, run_single hx] at hr
        cases hr
        exact effect_element heffect hrw hi
      | succ k =>
        rw [run_cons_some hx, Option.map_eq_some_iff] at hr
        obtain ⟨z, hz, rfl⟩ := hr
        have hsize := (effect_size heffect).trans hm
        exact ih (y := z) (fun k => hserve (k + 1)) hsize (Nat.lt_of_succ_lt_succ hk) hz hrw hi

end Run

theorem clMemory_left (hm : m.size = CL_L3_SIZE) {k : Nat} (hk : k < as.length) {x : MemClass × List (List UInt32)}
    (hr : run clMemory m (as.take (k + 1)) = some x) : as[k].Left x.1 := fun hrw _ hi =>
  run_element Access.data (fun _ _ _ hm => clMemory_serve hm) hm hk hr hrw hi

/-- One value a burst: the memories cannot be told apart. -/
theorem OneValue.same (h : OneValue as) (hm : m.size = CL_L3_SIZE) (k : Nat) :
    run clMemory m (as.take k) = run (dram late) m (as.take k) := by
  induction as generalizing m k late with
  | nil => rw [List.take_nil, run_nil, run_nil]
  | cons a as ih =>
    cases k with
    | zero => rw [List.take_zero, run_nil, run_nil]
    | succ k =>
      have hcl : clMemory 0 m a = a.effect a.data m := clMemory_serve hm
      have hdram : dram late 0 m a = a.effect (fun _ => a.data 0) m := dram_serve _ hm
      rw [List.take_succ_cons]
      by_cases hin : a.Inside
      · obtain ⟨x, hx⟩ := effect_some m a.data hin
        obtain ⟨hone, hrest⟩ := h hin
        rw [run_cons_some (hcl.trans hx), run_cons_some ((hdram.trans (effect_congr hone).symm).trans hx)]
        exact congrArg _ (ih hrest ((effect_size hx).trans hm) k)
      · rw [run_cons_none (hcl.trans (effect_none hin)), run_cons_none (hdram.trans (effect_none hin))]

/-- Where the first access is the same in both, the rest of the run is a run of its own. -/
theorem Agree.tail (h : Agree late m (a :: as)) {x : MemClass × List UInt32} (hcl : clMemory 0 m a = some x)
    (hdram : dram late 0 m a = some x) : Agree (fun k => late (k + 1)) x.1 as where
  same := by
    intro k
    have hsame := h.same (k + 1)
    rw [List.take_succ_cons, run_cons_some hcl, run_cons_some hdram] at hsame
    refine Option.map_injective (fun u v huv => ?_) hsame
    simp only [Prod.mk.injEq, List.cons.injEq, true_and] at huv
    exact Prod.ext huv.1 huv.2
  left := by
    intro k hk z hz
    refine h.left (k + 1) (Nat.succ_lt_succ hk) (z.1, x.2 :: z.2) ?_
    rw [List.take_succ_cons, run_cons_some hcl]
    exact congrArg (Option.map _) hz
  left_dram := by
    intro k hk z hz
    refine h.left_dram (k + 1) (Nat.succ_lt_succ hk) (z.1, x.2 :: z.2) ?_
    rw [List.take_succ_cons, run_cons_some hdram]
    exact congrArg (Option.map _) hz

theorem Agree.oneValue (h : Agree late m as) (hm : m.size = CL_L3_SIZE) : OneValue as := by
  induction as generalizing m late with
  | nil => trivial
  | cons a as ih =>
    intro hin
    obtain ⟨x, hx⟩ := effect_some m a.data hin
    obtain ⟨y, hy⟩ := effect_some m (fun _ => a.data 0) hin
    have hcl : clMemory 0 m a = some x := (clMemory_serve hm).trans hx
    have hdram : dram late 0 m a = some y := (dram_serve _ hm).trans hy
    have hxy : x = y := by
      have hsame := h.same 1
      rw [List.take_succ_cons, List.take_zero, run_single hcl, run_single hdram] at hsame
      simp only [Option.some.injEq, Prod.mk.injEq, List.cons.injEq, and_true] at hsame
      exact Prod.ext hsame.1 hsame.2
    subst hxy
    refine ⟨fun hrw i hi => ?_, ih (h.tail hcl hdram) ((effect_size hx).trans hm)⟩
    -- the DRAM has left the first value, and the value of the beat
    have hleft := h.left_dram 0 (Nat.succ_pos _) _ (run_single hdram) hrw i hi
    exact hleft.symm.trans (effect_element hy hrw hi)

/-- **The two memories**, from the same content of the size of L3 on and whatever the controller of the DRAM makes it
wait: they agree on the sequences whose burst writes have one value each. -/
theorem memories_agree_iff (hm : m.size = CL_L3_SIZE) : Agree late m as ↔ OneValue as := by
  constructor
  · exact fun h => h.oneValue hm
  · intro h
    refine ⟨h.same hm, fun k hk x hx => clMemory_left hm hk hx, fun k hk x hx => ?_⟩
    exact clMemory_left hm hk ((h.same hm (k + 1)).trans hx)

/-- Three words that are the same, and a read of the two behind the first. -/
def fill : List Access := [⟨0, true, MEM_WORD, 3, fun _ => 7⟩, ⟨4, false, MEM_WORD, 2, fun _ => 0⟩]

theorem memories_agree_iff_fill : Agree (fun _ i => i) (MemClass.new CL_L3_SIZE) fill :=
  (memories_agree_iff rfl).2 (by decide)

/-- A burst write of 1 and 2, which `DRAM_mem_mp` makes one of 1 and 1. -/
def twoWords : List Access := [⟨0, true, MEM_WORD, 2, fun k => UInt32.ofNat (k + 1)⟩]

theorem not_agree_two : ¬ Agree (fun _ _ => 0) (MemClass.new CL_L3_SIZE) twoWords := by
  intro h
  exact absurd (h.oneValue rfl) (by decide)

end VirtualSoc.L3
