import VirtualSoc.Lib.Loop
import VirtualSoc.Lib.Transition
import VirtualSoc.Cluster.Dma

/-!
# What a transfer of the DMA moves (cluster/cl_dma.cpp, `transfer`)

A job is moved in two phases: its words go to the buffer `IO_data`, and from there to the target. On the
side of the TCDM each word is a request of its own; elsewhere they go in bursts of `MAX_BURST_SIZE` beats and
a shorter last one.

The other side of the port is a memory that is busy with one request at a time and takes or gives one beat at
each pulse of the ready line (cl_memory.cpp:17, `working`): it has taken the data on the line when the line
rises, so the engine puts out the next beat at the pulse before. As the engine waits for each pulse, the
time between them does not matter, and a transfer is a function. It has no outcome if `IO_data` is indexed outside
of its bounds, if the memory is, or if requests and beats do not match (`Engine.request`, `Engine.pulse`).

`dma_copy`: for every size, alignment and side, a transfer copies the source to the target and changes nothing else.
-/

namespace VirtualSoc.Dma

open MemClass

def MAX_BURST_SIZE : Nat := 12

/-- The memory behind the port, with the locals of `working` while it serves a request. -/
structure Port where
  mem : MemClass
  addr : Nat := 0
  bw : Nat := 0
  wr : Bool := false
  beats : Nat := 0

/-- The engine: what is on the line `pin_mst_int_if`, the local `pinout_mst`, and the buffer. -/
structure Engine where
  port : Port
  pin : Pinout := {}
  pinoutMst : Pinout := {}
  ioData : Nat → UInt32

/-- `IsInTcdmSpace` (cl_dma.cpp:13). -/
def isInTcdm (address : Nat) : Bool :=
  decide (CL_TCDM_BASE ≤ address % 2 ^ 28 ∧ address % 2 ^ 28 < CL_TCDM_BASE + CL_TCDM_SIZE)

/-! ## The port -/

namespace Engine

/-- `IO_data[i] = data`. -/
def store (e : Engine) (i : Nat) (data : UInt32) : Option Engine :=
  if i < MAX_TRANSFER_SIZE then some { e with ioData := Function.update e.ioData i data } else none

/-- `IO_data[i]`. -/
def load (e : Engine) (i : Nat) : Option UInt32 := if i < MAX_TRANSFER_SIZE then some (e.ioData i) else none

/-- `pin_mst_int_if.write(pinout_mst)`. -/
def drive (e : Engine) : Engine := { e with pin := e.pinoutMst }

/-- The request rises, or stays high for the next burst: the memory reads the line. -/
def request (e : Engine) : Option Engine :=
  if e.port.beats = 0 then
    some { e with port :=
      { e.port with addr := e.pin.address, bw := e.pin.bw, wr := e.pin.rw, beats := e.pin.burst } }
  else none

/-- `size` (cl_memory.cpp:42). -/
def beatSize (bw : Nat) : Nat := if bw = MEM_WORD then 4 else if bw = MEM_BYTE then 1 else 2

/-- A pulse of the ready line. -/
def pulse (e : Engine) : Option Engine :=
  if e.port.beats = 0 then none
  else
    let next (mem : MemClass) : Port :=
      { e.port with mem := mem, addr := (e.port.addr + beatSize e.port.bw) % 2 ^ 32, beats := e.port.beats - 1 }
    if e.port.wr then
      (e.port.mem.write e.port.addr e.pin.data e.port.bw).map fun mem => { e with port := next mem }
    else
      (e.port.mem.read e.port.addr e.port.bw).map fun data =>
        { e with port := next e.port.mem, pin := { e.pin with data := data } }

end Engine

/-! ## `transfer` (cl_dma.cpp:295) -/

section Transfer

variable (job : Job)

/-- `size_w`. -/
def Job.sizeW : Nat := job.size.toNat / CL_WORD

/-- `num_transfers`. -/
def Job.numTransfers : Nat :=
  if job.sizeW % MAX_BURST_SIZE = 0 then job.sizeW / MAX_BURST_SIZE else job.sizeW / MAX_BURST_SIZE + 1

/-- `burst` of the `j`-th transfer. -/
def Job.burst (j : Nat) : Nat :=
  if j ≠ job.numTransfers - 1 then MAX_BURST_SIZE
  else if job.sizeW % MAX_BURST_SIZE = 0 then MAX_BURST_SIZE
  else job.sizeW % MAX_BURST_SIZE

/-- Where the data come from, and where they go. -/
def Job.sourceAddr : Nat := if job.dir then job.addr1.toNat else job.addr2.toNat

def Job.targetAddr : Nat := if !job.dir then job.addr1.toNat else job.addr2.toNat

/-- One word from the TCDM. -/
def sourceWord (addr : Nat) (e : Engine) (i : Nat) : Option Engine :=
  let e := { e with pinoutMst := { e.pinoutMst with address := (addr + i * CL_WORD) % 2 ^ 32 } }
  e.drive.request.bind fun e => e.pulse.bind fun e => e.store i e.pin.data

def sourceBeat (off : Nat) (e : Engine) (i : Nat) : Option Engine :=
  e.pulse.bind fun e => e.store (i + off) e.pin.data

/-- One burst from elsewhere; beside the engine goes `prev_burst`. -/
def sourceBurst (x : Engine × Nat) (j : Nat) : Option (Engine × Nat) :=
  let e := { x.1 with pinoutMst :=
    { x.1.pinoutMst with
      burst := job.burst j
      address := (x.1.pinoutMst.address + x.2 * CL_WORD) % 2 ^ 32 } }
  e.drive.request.bind fun e =>
    ((List.range (job.burst j)).foldlM (sourceBeat (j * x.2)) e).map fun e => (e, job.burst j)

/-- The SOURCE phase. -/
def source (e : Engine) : Option Engine :=
  let pinout := { e.pinoutMst with address := job.sourceAddr, rw := false }
  if isInTcdm job.sourceAddr then
    (List.range job.sizeW).foldlM (sourceWord job.sourceAddr)
      { e with pinoutMst := { pinout with burst := 1, bw := MEM_WORD } }
  else
    ((List.range job.numTransfers).foldlM (sourceBurst job) ({ e with pinoutMst := pinout }, 0)).map Prod.fst

/-- One word to the TCDM. -/
def targetWord (addr : Nat) (e : Engine) (i : Nat) : Option Engine :=
  (e.load i).bind fun data =>
    let e := { e with pinoutMst := { e.pinoutMst with address := (addr + i * CL_WORD) % 2 ^ 32, data := data } }
    e.drive.request.bind Engine.pulse

/-- One beat to elsewhere: after the pulse the next one is put out. -/
def targetBeat (burst off : Nat) (e : Engine) (i : Nat) : Option Engine :=
  e.pulse.bind fun e =>
    if i ≠ burst - 1 then
      (e.load (off + i + 1)).map fun data => { e with pinoutMst := { e.pinoutMst with data := data } }.drive
    else some e.drive

/-- One burst to elsewhere. -/
def targetBurst (x : Engine × Nat) (j : Nat) : Option (Engine × Nat) :=
  (x.1.load (j * x.2)).bind fun data =>
    let e := { x.1 with pinoutMst := { x.1.pinoutMst with burst := job.burst j, data := data } }
    e.drive.request.bind fun e =>
      ((List.range (job.burst j)).foldlM (targetBeat (job.burst j) (j * x.2)) e).map fun e =>
        ({ e with pinoutMst :=
          { e.pinoutMst with address := (e.pinoutMst.address + job.burst j * CL_WORD) % 2 ^ 32 } }, job.burst j)

/-- The TARGET phase. -/
def target (e : Engine) : Option Engine :=
  let pinout := { e.pinoutMst with address := job.targetAddr, rw := true }
  if isInTcdm job.targetAddr then
    (List.range job.sizeW).foldlM (targetWord job.targetAddr) { e with pinoutMst := { pinout with burst := 1 } }
  else
    ((List.range job.numTransfers).foldlM (targetBurst job) ({ e with pinoutMst := pinout }, 0)).map Prod.fst

def transfer (e : Engine) : Option Engine := (source job e).bind (target job)

end Transfer

/-! ## The pulses -/

variable {mem : MemClass} {e : Engine} {src dst n left : Nat} {io : Nat → UInt32}

/-- `n` words from `src` on are in the buffer, and the memory has `left` beats to give. -/
structure Fetching (mem : MemClass) (src n left : Nat) (e : Engine) : Prop where
  memory : e.port.mem = mem
  beats : e.port.beats = left
  bw : e.pinoutMst.bw = MEM_WORD
  rw : e.pinoutMst.rw = false
  buffer : ∀ k < n, e.ioData k = mem.word (src + 4 * k)
  serving : left ≠ 0 → e.port.wr = false ∧ e.port.bw = MEM_WORD ∧ e.port.addr = (src + 4 * n) % 2 ^ 32

theorem Fetching.request (h : Fetching mem src n 0 e) (ha : e.pinoutMst.address = (src + 4 * n) % 2 ^ 32) :
    ∃ e', e.drive.request = some e' ∧ Fetching mem src n e.pinoutMst.burst e' ∧ e'.pinoutMst = e.pinoutMst := by
  have hbeats : e.drive.port.beats = 0 := h.beats
  rw [Engine.request, if_pos hbeats]
  exact ⟨_, rfl, ⟨h.memory, rfl, h.bw, h.rw, h.buffer, fun _ => ⟨h.rw, h.bw, ha⟩⟩, rfl⟩

/-- A beat of the SOURCE phase. -/
theorem Fetching.beat (h : Fetching mem src n (left + 1) e) (hal : src % 4 = 0) (hlt : src + 4 * n < mem.size)
    (hsize : mem.size ≤ 2 ^ 32) (hn : n < MAX_TRANSFER_SIZE) :
    ∃ e', (e.pulse.bind fun e => e.store n e.pin.data) = some e' ∧ Fetching mem src (n + 1) left e' ∧
      e'.pinoutMst = e.pinoutMst := by
  obtain ⟨hwr, hbw, haddr⟩ := h.serving (Nat.succ_ne_zero left)
  rw [Nat.mod_eq_of_lt (by omega)] at haddr
  have hread : e.port.mem.read e.port.addr e.port.bw = some (mem.word (src + 4 * n)) := by
    rw [h.memory, haddr, hbw]
    exact read_aligned (by omega) hlt
  have hbeats : e.port.beats ≠ 0 := by
    rw [h.beats]
    exact Nat.succ_ne_zero left
  have hwr' : ¬ e.port.wr = true := by
    rw [hwr]
    decide
  unfold Engine.pulse Engine.store
  rw [if_neg hbeats, if_neg hwr', hread, Option.map_some, Option.bind_some, if_pos hn]
  refine ⟨_, rfl, ⟨h.memory, ?_, h.bw, h.rw, fun k hk => ?_, fun _ => ⟨hwr, hbw, ?_⟩⟩, rfl⟩
  · change e.port.beats - 1 = left
    rw [h.beats, Nat.add_sub_cancel]
  · by_cases hkn : k = n
    · subst hkn
      exact Function.update_self k _ e.ioData
    · exact (Function.update_of_ne hkn _ e.ioData).trans (h.buffer k (by omega))
  · change (e.port.addr + Engine.beatSize e.port.bw) % 2 ^ 32 = _
    rw [haddr, hbw, Nat.mul_succ, Nat.add_assoc]
    rfl

/-- `n` words of the buffer are in the memory from `dst` on, and it has `left` beats to take, of which the first is
on the line. -/
structure Storing (mem : MemClass) (dst : Nat) (io : Nat → UInt32) (n left : Nat) (e : Engine) : Prop where
  memory : e.port.mem = stored mem dst io n
  beats : e.port.beats = left
  bw : e.pinoutMst.bw = MEM_WORD
  rw : e.pinoutMst.rw = true
  buffer : e.ioData = io
  serving : left ≠ 0 →
    e.port.wr = true ∧ e.port.bw = MEM_WORD ∧ e.port.addr = (dst + 4 * n) % 2 ^ 32 ∧ e.pin.data = io n

theorem Storing.request (h : Storing mem dst io n 0 e) (ha : e.pinoutMst.address = (dst + 4 * n) % 2 ^ 32)
    (hd : e.pinoutMst.data = io n) :
    ∃ e', e.drive.request = some e' ∧ Storing mem dst io n e.pinoutMst.burst e' ∧ e'.pinoutMst = e.pinoutMst := by
  have hbeats : e.drive.port.beats = 0 := h.beats
  rw [Engine.request, if_pos hbeats]
  exact ⟨_, rfl, ⟨h.memory, rfl, h.bw, h.rw, h.buffer, fun _ => ⟨h.rw, h.bw, ha, hd⟩⟩, rfl⟩

/-- A pulse of the TARGET phase; the next word is still to be put on the line. -/
theorem Storing.pulse (h : Storing mem dst io n (left + 1) e) (hal : dst % 4 = 0) (hlt : dst + 4 * n < mem.size)
    (hsize : mem.size ≤ 2 ^ 32) : ∃ e', e.pulse = some e' ∧ e'.port.mem = stored mem dst io (n + 1) ∧
      e'.port.beats = left ∧ e'.pinoutMst = e.pinoutMst ∧ e'.ioData = io ∧ e'.port.wr = true ∧
        e'.port.bw = MEM_WORD ∧ e'.port.addr = (dst + 4 * (n + 1)) % 2 ^ 32 := by
  obtain ⟨hwr, hbw, haddr, hdata⟩ := h.serving (Nat.succ_ne_zero left)
  rw [Nat.mod_eq_of_lt (by omega)] at haddr
  have hwrite : e.port.mem.write e.port.addr e.pin.data e.port.bw = some (stored mem dst io (n + 1)) := by
    rw [h.memory, haddr, hbw, hdata]
    refine write_aligned (by omega) ?_
    rw [stored_size]
    exact hlt
  have hbeats : e.port.beats ≠ 0 := by
    rw [h.beats]
    exact Nat.succ_ne_zero left
  unfold Engine.pulse
  rw [if_neg hbeats, if_pos hwr, hwrite, Option.map_some]
  refine ⟨_, rfl, rfl, ?_, rfl, h.buffer, hwr, hbw, ?_⟩
  · change e.port.beats - 1 = left
    rw [h.beats, Nat.add_sub_cancel]
  · change (e.port.addr + Engine.beatSize e.port.bw) % 2 ^ 32 = _
    rw [haddr, hbw, Nat.mul_succ, Nat.add_assoc]
    rfl

/-! ## The bursts -/

variable {job : Job} {j : Nat}

/-- The words before the `j`-th transfer. -/
def Job.before (job : Job) (j : Nat) : Nat := min (MAX_BURST_SIZE * j) job.sizeW

theorem numTransfers_spec (job : Job) : job.sizeW % MAX_BURST_SIZE = 0 ∧ job.sizeW = MAX_BURST_SIZE * job.numTransfers ∨
    job.sizeW % MAX_BURST_SIZE ≠ 0 ∧
      job.sizeW + MAX_BURST_SIZE = MAX_BURST_SIZE * job.numTransfers + job.sizeW % MAX_BURST_SIZE := by
  have hdiv := Nat.div_add_mod job.sizeW MAX_BURST_SIZE
  unfold Job.numTransfers
  by_cases hm : job.sizeW % MAX_BURST_SIZE = 0
  · rw [if_pos hm]
    exact Or.inl ⟨hm, by omega⟩
  · rw [if_neg hm, Nat.mul_succ]
    exact Or.inr ⟨hm, by omega⟩

theorem before_last : job.before job.numTransfers = job.sizeW := by
  have hlt := Nat.mod_lt job.sizeW (show 0 < MAX_BURST_SIZE by decide)
  have hnum := numTransfers_spec job
  unfold Job.before
  omega

/-- All transfers but the last are full, and the last has what is left. -/
theorem burst_spec (hj : j < job.numTransfers) :
    job.before j = MAX_BURST_SIZE * j ∧ job.before j + job.burst j = job.before (j + 1) ∧ 0 < job.burst j ∧
      (j + 1 < job.numTransfers → job.burst j = MAX_BURST_SIZE) := by
  have hlt := Nat.mod_lt job.sizeW (show 0 < MAX_BURST_SIZE by decide)
  have hnum := numTransfers_spec job
  have hburst : j + 1 < job.numTransfers ∧ job.burst j = MAX_BURST_SIZE ∨ j + 1 = job.numTransfers ∧
      (job.sizeW % MAX_BURST_SIZE = 0 ∧ job.burst j = MAX_BURST_SIZE ∨
        job.sizeW % MAX_BURST_SIZE ≠ 0 ∧ job.burst j = job.sizeW % MAX_BURST_SIZE) := by
    unfold Job.burst
    split
    · exact Or.inl ⟨by omega, rfl⟩
    · refine Or.inr ⟨by omega, ?_⟩
      split
      · rename_i hm
        exact Or.inl ⟨hm, rfl⟩
      · rename_i hm
        exact Or.inr ⟨hm, rfl⟩
  unfold Job.before
  unfold MAX_BURST_SIZE at *
  omega

/-- The next transfer begins at `j*prev_burst`. -/
theorem burst_offset (hj : j + 1 < job.numTransfers) : (j + 1) * job.burst j = job.before (j + 1) := by
  obtain ⟨hbefore, hnext, -, hfull⟩ := burst_spec (Nat.lt_of_succ_lt hj)
  rw [hfull hj] at hnext ⊢
  rw [Nat.succ_mul, Nat.mul_comm]
  omega

/-! ## The SOURCE phase -/

theorem source_word (h : Fetching mem src n 0 e) (hb : e.pinoutMst.burst = 1) (hal : src % 4 = 0)
    (hlt : src + 4 * n < mem.size) (hsize : mem.size ≤ 2 ^ 32) (hn : n < MAX_TRANSFER_SIZE) :
    ∃ e', sourceWord src e n = some e' ∧ Fetching mem src (n + 1) 0 e' ∧ e'.pinoutMst.burst = 1 := by
  have haddr : (src + n * CL_WORD) % 2 ^ 32 = (src + 4 * n) % 2 ^ 32 := by
    rw [CL_WORD, Nat.mul_comm]
  have h₀ : Fetching mem src n 0
      { e with pinoutMst := { e.pinoutMst with address := (src + n * CL_WORD) % 2 ^ 32 } } :=
    ⟨h.memory, h.beats, h.bw, h.rw, h.buffer, h.serving⟩
  obtain ⟨e₁, he₁, h₁, hp₁⟩ := h₀.request haddr
  rw [show e.pinoutMst.burst = 0 + 1 from hb] at h₁
  obtain ⟨e₂, he₂, h₂, hp₂⟩ := h₁.beat hal hlt hsize hn
  refine ⟨e₂, ?_, h₂, ?_⟩
  · simp only [sourceWord, he₁, Option.bind_some, he₂]
  · rw [hp₂, hp₁]
    exact hb

theorem source_words (h : Fetching mem src 0 0 e) (hb : e.pinoutMst.burst = 1) (hal : src % 4 = 0)
    (hend : src + 4 * n ≤ mem.size) (hsize : mem.size ≤ 2 ^ 32) (hn : n ≤ MAX_TRANSFER_SIZE) :
    ∃ e', (List.range n).foldlM (sourceWord src) e = some e' ∧ Fetching mem src n 0 e' := by
  obtain ⟨e', he', h', -⟩ := Loop.range_some (I := fun i e => Fetching mem src i 0 e ∧ e.pinoutMst.burst = 1) (n := n)
    (f := sourceWord src) ⟨h, hb⟩ fun i e hi hI => source_word hI.1 hI.2 hal (by omega) hsize (by omega)
  exact ⟨e', he', h'⟩

theorem source_beats {b off : Nat} (h : Fetching mem src off b e) (hal : src % 4 = 0)
    (hend : src + 4 * (off + b) ≤ mem.size) (hsize : mem.size ≤ 2 ^ 32) (hn : off + b ≤ MAX_TRANSFER_SIZE) :
    ∃ e', (List.range b).foldlM (sourceBeat off) e = some e' ∧ Fetching mem src (off + b) 0 e' ∧
      e'.pinoutMst = e.pinoutMst := by
  obtain ⟨e', he', h', hp'⟩ := Loop.range_some
    (I := fun i e' => Fetching mem src (off + i) (b - i) e' ∧ e'.pinoutMst = e.pinoutMst) (n := b)
    (f := sourceBeat off) ⟨h, rfl⟩ fun i e₁ hi hI => by
      obtain ⟨h₁, hp₁⟩ := hI
      rw [show b - i = b - (i + 1) + 1 by omega] at h₁
      obtain ⟨e₂, he₂, h₂, hp₂⟩ := h₁.beat hal (by omega) hsize (by omega)
      refine ⟨e₂, ?_, h₂, hp₂.trans hp₁⟩
      rw [sourceBeat, Nat.add_comm i off]
      exact he₂
  rw [Nat.sub_self] at h'
  exact ⟨e', he', h', hp'⟩

/-- Where the next burst of the SOURCE phase begins, in the memory and in the buffer. -/
def SourceAt (job : Job) (src j : Nat) (x : Engine × Nat) : Prop :=
  j < job.numTransfers → x.1.pinoutMst.address + x.2 * CL_WORD = src + 4 * job.before j ∧ j * x.2 = job.before j

theorem source_burst {x : Engine × Nat} (h : Fetching mem src (job.before j) 0 x.1) (hx : SourceAt job src j x)
    (hj : j < job.numTransfers) (hal : src % 4 = 0) (hend : src + 4 * job.sizeW ≤ mem.size)
    (hsize : mem.size ≤ 2 ^ 32) (hn : job.sizeW ≤ MAX_TRANSFER_SIZE) :
    ∃ y, sourceBurst job x j = some y ∧ Fetching mem src (job.before (j + 1)) 0 y.1 ∧ SourceAt job src (j + 1) y := by
  obtain ⟨haddr, hoff⟩ := hx hj
  obtain ⟨hbefore, hnext, hpos, -⟩ := burst_spec hj
  have hle : job.before (j + 1) ≤ job.sizeW := Nat.min_le_right _ _
  have h₀ : Fetching mem src (job.before j) 0
      { x.1 with pinoutMst :=
        { x.1.pinoutMst with
          burst := job.burst j
          address := (x.1.pinoutMst.address + x.2 * CL_WORD) % 2 ^ 32 } } :=
    ⟨h.memory, h.beats, h.bw, h.rw, h.buffer, h.serving⟩
  obtain ⟨e₁, he₁, h₁, hp₁⟩ := h₀.request (by rw [haddr])
  have h₁ : Fetching mem src (job.before j) (job.burst j) e₁ := h₁
  obtain ⟨e₂, he₂, h₂, hp₂⟩ := source_beats h₁ hal (by omega) hsize (by omega)
  refine ⟨(e₂, job.burst j), ?_, ?_, fun hj' => ⟨?_, ?_⟩⟩
  · simp only [sourceBurst, he₁, Option.bind_some, hoff, he₂, Option.map_some]
  · rw [← hnext]
    exact h₂
  · rw [hp₂, hp₁]
    simp only [CL_WORD] at haddr ⊢
    rw [haddr, Nat.mod_eq_of_lt (by omega)]
    omega
  · exact burst_offset hj'

theorem source_bursts (h : Fetching mem src 0 0 e) (ha : e.pinoutMst.address = src) (hal : src % 4 = 0)
    (hend : src + 4 * job.sizeW ≤ mem.size) (hsize : mem.size ≤ 2 ^ 32) (hn : job.sizeW ≤ MAX_TRANSFER_SIZE) :
    ∃ x, (List.range job.numTransfers).foldlM (sourceBurst job) (e, 0) = some x ∧
      Fetching mem src job.sizeW 0 x.1 := by
  have hzero : job.before 0 = 0 := Nat.zero_min _
  obtain ⟨x, hx, h', -⟩ := Loop.range_some
    (I := fun j x => Fetching mem src (job.before j) 0 x.1 ∧ SourceAt job src j x) (n := job.numTransfers)
    (f := sourceBurst job) (s := (e, 0)) ⟨by rw [hzero]; exact h, fun _ => ⟨by rw [hzero, ha]; omega, by omega⟩⟩
    fun j x hj hI => source_burst hI.1 hI.2 hj hal hend hsize hn
  rw [before_last] at h'
  exact ⟨x, hx, h'⟩

/-! ## The TARGET phase -/

theorem target_word (h : Storing mem dst io n 0 e) (hb : e.pinoutMst.burst = 1) (hal : dst % 4 = 0)
    (hlt : dst + 4 * n < mem.size) (hsize : mem.size ≤ 2 ^ 32) (hn : n < MAX_TRANSFER_SIZE) :
    ∃ e', targetWord dst e n = some e' ∧ Storing mem dst io (n + 1) 0 e' ∧ e'.pinoutMst.burst = 1 := by
  have hload : e.load n = some (io n) := by
    rw [Engine.load, if_pos hn, h.buffer]
  have haddr : (dst + n * CL_WORD) % 2 ^ 32 = (dst + 4 * n) % 2 ^ 32 := by
    rw [CL_WORD, Nat.mul_comm]
  have h₀ : Storing mem dst io n 0
      { e with pinoutMst := { e.pinoutMst with address := (dst + n * CL_WORD) % 2 ^ 32, data := io n } } :=
    ⟨h.memory, h.beats, h.bw, h.rw, h.buffer, fun hne => absurd rfl hne⟩
  obtain ⟨e₁, he₁, h₁, hp₁⟩ := h₀.request haddr rfl
  rw [show e.pinoutMst.burst = 0 + 1 from hb] at h₁
  obtain ⟨e₂, he₂, hmem, hbeats, hp₂, hio, -⟩ := h₁.pulse hal hlt hsize
  have hp : e₂.pinoutMst = { e.pinoutMst with address := (dst + n * CL_WORD) % 2 ^ 32, data := io n } := hp₂.trans hp₁
  refine ⟨e₂, ?_, ⟨hmem, hbeats, ?_, ?_, hio, fun hne => absurd rfl hne⟩, ?_⟩
  · simp only [targetWord, hload, Option.bind_some, he₁, he₂]
  · rw [hp]
    exact h.bw
  · rw [hp]
    exact h.rw
  · rw [hp]
    exact hb

theorem target_words (h : Storing mem dst io 0 0 e) (hb : e.pinoutMst.burst = 1) (hal : dst % 4 = 0)
    (hend : dst + 4 * n ≤ mem.size) (hsize : mem.size ≤ 2 ^ 32) (hn : n ≤ MAX_TRANSFER_SIZE) :
    ∃ e', (List.range n).foldlM (targetWord dst) e = some e' ∧ Storing mem dst io n 0 e' := by
  obtain ⟨e', he', h', -⟩ := Loop.range_some (I := fun i e => Storing mem dst io i 0 e ∧ e.pinoutMst.burst = 1) (n := n)
    (f := targetWord dst) ⟨h, hb⟩ fun i e hi hI => target_word hI.1 hI.2 hal (by omega) hsize (by omega)
  exact ⟨e', he', h'⟩

theorem target_beats {b off : Nat} (h : Storing mem dst io off b e) (hal : dst % 4 = 0)
    (hend : dst + 4 * (off + b) ≤ mem.size) (hsize : mem.size ≤ 2 ^ 32) (hn : off + b ≤ MAX_TRANSFER_SIZE) :
    ∃ e', (List.range b).foldlM (targetBeat b off) e = some e' ∧ Storing mem dst io (off + b) 0 e' ∧
      e'.pinoutMst.address = e.pinoutMst.address := by
  obtain ⟨e', he', h', hp'⟩ := Loop.range_some
    (I := fun i e' => Storing mem dst io (off + i) (b - i) e' ∧ e'.pinoutMst.address = e.pinoutMst.address) (n := b)
    (f := targetBeat b off) ⟨h, rfl⟩ fun i e₁ hi hI => by
      obtain ⟨h₁, hp₁⟩ := hI
      rw [show b - i = b - (i + 1) + 1 by omega] at h₁
      obtain ⟨e₂, he₂, hmem, hbeats, hp₂, hio, hwr, hbw, haddr⟩ := h₁.pulse hal (by omega) hsize
      unfold targetBeat
      rw [he₂, Option.bind_some]
      by_cases hlast : i ≠ b - 1
      · -- the next beat goes on the line
        have hload : e₂.load (off + i + 1) = some (io (off + (i + 1))) := by
          rw [Engine.load, if_pos (by omega), hio]
          rfl
        rw [if_pos hlast, hload, Option.map_some]
        refine ⟨_, rfl, ⟨hmem, hbeats, ?_, ?_, hio, fun _ => ⟨hwr, hbw, haddr, rfl⟩⟩, ?_⟩
        · exact (congrArg Pinout.bw hp₂).trans h₁.bw
        · exact (congrArg Pinout.rw hp₂).trans h₁.rw
        · exact (congrArg Pinout.address hp₂).trans hp₁
      · rw [if_neg hlast]
        refine ⟨_, rfl, ⟨hmem, hbeats, ?_, ?_, hio, fun hne => absurd (by omega) hne⟩, ?_⟩
        · exact (congrArg Pinout.bw hp₂).trans h₁.bw
        · exact (congrArg Pinout.rw hp₂).trans h₁.rw
        · exact (congrArg Pinout.address hp₂).trans hp₁
  rw [Nat.sub_self] at h'
  exact ⟨e', he', h', hp'⟩

/-- Where the next burst of the TARGET phase begins. -/
def TargetAt (job : Job) (dst j : Nat) (x : Engine × Nat) : Prop :=
  j < job.numTransfers → x.1.pinoutMst.address = dst + 4 * job.before j ∧ j * x.2 = job.before j

theorem target_burst {x : Engine × Nat} (h : Storing mem dst io (job.before j) 0 x.1) (hx : TargetAt job dst j x)
    (hj : j < job.numTransfers) (hal : dst % 4 = 0) (hend : dst + 4 * job.sizeW ≤ mem.size)
    (hsize : mem.size ≤ 2 ^ 32) (hn : job.sizeW ≤ MAX_TRANSFER_SIZE) :
    ∃ y, targetBurst job x j = some y ∧ Storing mem dst io (job.before (j + 1)) 0 y.1 ∧ TargetAt job dst (j + 1) y := by
  obtain ⟨haddr, hoff⟩ := hx hj
  obtain ⟨hbefore, hnext, hpos, -⟩ := burst_spec hj
  have hle : job.before (j + 1) ≤ job.sizeW := Nat.min_le_right _ _
  have hload : x.1.load (job.before j) = some (io (job.before j)) := by
    rw [Engine.load, if_pos (by omega), h.buffer]
  have h₀ : Storing mem dst io (job.before j) 0
      { x.1 with pinoutMst := { x.1.pinoutMst with burst := job.burst j, data := io (job.before j) } } :=
    ⟨h.memory, h.beats, h.bw, h.rw, h.buffer, fun hne => absurd rfl hne⟩
  obtain ⟨e₁, he₁, h₁, hp₁⟩ := h₀.request (by rw [haddr, Nat.mod_eq_of_lt (by omega)]) rfl
  have h₁ : Storing mem dst io (job.before j) (job.burst j) e₁ := h₁
  obtain ⟨e₂, he₂, h₂, hp₂⟩ := target_beats h₁ hal (by omega) hsize (by omega)
  have hp : e₂.pinoutMst.address = x.1.pinoutMst.address := by
    rw [hp₂, hp₁]
  refine ⟨({ e₂ with pinoutMst :=
    { e₂.pinoutMst with address := (e₂.pinoutMst.address + job.burst j * CL_WORD) % 2 ^ 32 } }, job.burst j),
      ?_, ?_, fun hj' => ⟨?_, ?_⟩⟩
  · simp only [targetBurst, hoff, hload, Option.bind_some, he₁, he₂, Option.map_some]
  · rw [← hnext]
    exact ⟨h₂.memory, h₂.beats, h₂.bw, h₂.rw, h₂.buffer, fun hne => absurd rfl hne⟩
  · -- another burst follows, so the address stays below the end
    obtain ⟨hbefore', hnext', hpos', -⟩ := burst_spec hj'
    have hle' : job.before (j + 1 + 1) ≤ job.sizeW := Nat.min_le_right _ _
    change (e₂.pinoutMst.address + job.burst j * CL_WORD) % 2 ^ 32 = _
    rw [hp, haddr, CL_WORD, Nat.mod_eq_of_lt (by omega)]
    omega
  · exact burst_offset hj'

theorem target_bursts (h : Storing mem dst io 0 0 e) (ha : e.pinoutMst.address = dst) (hal : dst % 4 = 0)
    (hend : dst + 4 * job.sizeW ≤ mem.size) (hsize : mem.size ≤ 2 ^ 32) (hn : job.sizeW ≤ MAX_TRANSFER_SIZE) :
    ∃ x, (List.range job.numTransfers).foldlM (targetBurst job) (e, 0) = some x ∧
      Storing mem dst io job.sizeW 0 x.1 := by
  have hzero : job.before 0 = 0 := Nat.zero_min _
  obtain ⟨x, hx, h', -⟩ := Loop.range_some
    (I := fun j x => Storing mem dst io (job.before j) 0 x.1 ∧ TargetAt job dst j x) (n := job.numTransfers)
    (f := targetBurst job) (s := (e, 0)) ⟨by rw [hzero]; exact h, fun _ => ⟨by rw [hzero, ha]; rfl, by omega⟩⟩
    fun j x hj hI => target_burst hI.1 hI.2 hj hal hend hsize hn
  rw [before_last] at h'
  exact ⟨x, hx, h'⟩

/-! ## The transfer -/

/-- A job of whole words, within the buffer, whose ranges are word-aligned and in the memory. -/
structure Fits (mem : MemClass) (job : Job) : Prop where
  words : job.size.toNat % CL_WORD = 0
  max : job.size.toNat ≤ MAX_TRANSFER_SIZE
  sourceAligned : job.sourceAddr % CL_WORD = 0
  targetAligned : job.targetAddr % CL_WORD = 0
  sourceIn : job.sourceAddr + job.size.toNat ≤ mem.size
  targetIn : job.targetAddr + job.size.toNat ≤ mem.size
  addresses : mem.size ≤ 2 ^ 32

instance (mem : MemClass) (job : Job) : Decidable (Fits mem job) :=
  decidable_of_iff (job.size.toNat % CL_WORD = 0 ∧ job.size.toNat ≤ MAX_TRANSFER_SIZE ∧
      job.sourceAddr % CL_WORD = 0 ∧ job.targetAddr % CL_WORD = 0 ∧
      job.sourceAddr + job.size.toNat ≤ mem.size ∧ job.targetAddr + job.size.toNat ≤ mem.size ∧ mem.size ≤ 2 ^ 32)
    ⟨fun ⟨h₁, h₂, h₃, h₄, h₅, h₆, h₇⟩ => ⟨h₁, h₂, h₃, h₄, h₅, h₆, h₇⟩,
      fun h => ⟨h.words, h.max, h.sourceAligned, h.targetAligned, h.sourceIn, h.targetIn, h.addresses⟩⟩

/-- Between two transfers the port is quiet, and words are transferred. -/
structure Idle (e : Engine) : Prop where
  beats : e.port.beats = 0
  bw : e.pinoutMst.bw = MEM_WORD

theorem Fits.size_eq (hf : Fits mem job) : job.size.toNat = 4 * job.sizeW := by
  have := hf.words
  unfold Job.sizeW
  unfold CL_WORD at *
  omega

/-- The source is in the buffer. -/
theorem source_fetches (hidle : Idle e) (hf : Fits e.port.mem job) :
    ∃ e', source job e = some e' ∧ Fetching e.port.mem job.sourceAddr job.sizeW 0 e' := by
  have hal : job.sourceAddr % 4 = 0 := hf.sourceAligned
  have hend := hf.sourceIn
  have hmax := hf.max
  rw [hf.size_eq] at hend hmax
  unfold source
  split
  · exact source_words ⟨rfl, hidle.beats, rfl, rfl, fun k hk => absurd hk (Nat.not_lt_zero k), fun hne => absurd rfl hne⟩
      rfl hal hend hf.addresses (by omega)
  · obtain ⟨x, hx, h⟩ : ∃ x, (List.range job.numTransfers).foldlM (sourceBurst job)
        ({ e with pinoutMst := { e.pinoutMst with address := job.sourceAddr, rw := false } }, 0) = some x ∧
          Fetching e.port.mem job.sourceAddr job.sizeW 0 x.1 :=
      source_bursts ⟨rfl, hidle.beats, hidle.bw, rfl, fun k hk => absurd hk (Nat.not_lt_zero k),
        fun hne => absurd rfl hne⟩ rfl hal hend hf.addresses (by omega)
    exact ⟨x.1, congrArg (Option.map Prod.fst) hx, h⟩

/-- The buffer is at the target. -/
theorem target_stores (h : Fetching mem src n 0 e) (hf : Fits mem job) :
    ∃ e', target job e = some e' ∧ Storing mem job.targetAddr e.ioData job.sizeW 0 e' := by
  have hal : job.targetAddr % 4 = 0 := hf.targetAligned
  have hend := hf.targetIn
  have hmax := hf.max
  rw [hf.size_eq] at hend hmax
  unfold target
  split
  · exact target_words ⟨h.memory, h.beats, h.bw, rfl, rfl, fun hne => absurd rfl hne⟩ rfl hal hend hf.addresses
      (by omega)
  · obtain ⟨x, hx, h⟩ : ∃ x, (List.range job.numTransfers).foldlM (targetBurst job)
        ({ e with pinoutMst := { e.pinoutMst with address := job.targetAddr, rw := true } }, 0) = some x ∧
          Storing mem job.targetAddr e.ioData job.sizeW 0 x.1 :=
      target_bursts ⟨h.memory, h.beats, h.bw, rfl, rfl, fun hne => absurd rfl hne⟩ rfl hal hend hf.addresses (by omega)
    exact ⟨x.1, congrArg (Option.map Prod.fst) hx, h⟩

/-- The bytes of the source are at the target, and all others are as they were. -/
def Copied (job : Job) (mem mem' : MemClass) : Prop :=
  (∀ k < job.size.toNat, mem'.bytes (job.targetAddr + k) = mem.bytes (job.sourceAddr + k)) ∧
    ∀ a, a < job.targetAddr ∨ job.targetAddr + job.size.toNat ≤ a → mem'.bytes a = mem.bytes a

theorem transfer_copies (hidle : Idle e) (hf : Fits e.port.mem job) :
    ∃ e', transfer job e = some e' ∧ Idle e' ∧ Copied job e.port.mem e'.port.mem := by
  obtain ⟨e₁, he₁, h₁⟩ := source_fetches hidle hf
  obtain ⟨e₂, he₂, h₂⟩ := target_stores h₁ hf
  refine ⟨e₂, ?_, ⟨h₂.beats, h₂.bw⟩, fun k hk => ?_, fun a ha => ?_⟩
  · rw [transfer, he₁, Option.bind_some, he₂]
  · rw [h₂.memory, stored_copies h₁.buffer, if_pos (by rw [← hf.size_eq]; omega), Nat.add_sub_cancel_left]
  · rw [h₂.memory, stored_copies h₁.buffer, if_neg (by rw [← hf.size_eq]; omega)]

/-! ## Runs -/

/-- A transfer, or a change of the memory by others between two transfers. -/
inductive Event
  | transfer (job : Job)
  | memory (mem : MemClass)

def Engine.step (e : Engine) : Event → Option Engine
  | .transfer job => transfer job e
  | .memory mem => some { e with port := { e.port with mem := mem } }

/-- The engine before its first transfer; nobody has written `IO_data`. -/
def Engine.start (mem : MemClass) (io : Nat → UInt32) : Engine := { port := { mem := mem }, ioData := io }

def FitsAt (e : Engine) : Event → Prop
  | .transfer job => Fits e.port.mem job
  | .memory _ => True

def CopiesAt (e : Engine) : Event → Prop
  | .transfer job => ∃ e', transfer job e = some e' ∧ Copied job e.port.mem e'.port.mem
  | .memory _ => True

/-- **A transfer copies its source to its target** and changes no other byte, for every size of whole words, in
either direction, between the TCDM and the outside or within one of them, whatever was transferred before. -/
theorem dma_copy {io : Nat → UInt32} {events : List Event}
    (hf : Trans.Along Engine.step FitsAt (Engine.start mem io) events) :
    Trans.Along Engine.step CopiesAt (Engine.start mem io) events := by
  refine hf.of_inv Idle ⟨rfl, rfl⟩ (fun e event e' hidle hfit hs => ?_) fun e event hidle hfit => ?_
  · cases event with
    | transfer job =>
      obtain ⟨e₁, he₁, h₁, -⟩ := transfer_copies hidle hfit
      cases he₁.symm.trans hs
      exact h₁
    | memory mem =>
      cases hs
      exact ⟨hidle.beats, hidle.bw⟩
  · cases event with
    | transfer job =>
      obtain ⟨e', he', -, hcopied⟩ := transfer_copies hidle hfit
      exact ⟨e', he', hcopied⟩
    | memory mem => trivial

/-- 13 words from the TCDM to the L3 memory: a burst of 12 beats and one of a single beat. -/
def thirteenWords : Job := { addr1 := 0x08000040, addr2 := 0x100, size := 52, dir := true }

theorem dma_copy_thirteenWords : Trans.Along Engine.step CopiesAt
    (Engine.start (MemClass.new 0x08080000) fun _ => 0) [.transfer thirteenWords] :=
  dma_copy ⟨(by decide +kernel : Fits (MemClass.new 0x08080000) thirteenWords), fun _ _ => trivial⟩

end VirtualSoc.Dma
