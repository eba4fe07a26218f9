import Mathlib.Data.Nat.Bitwise
import VirtualSoc.Cluster.DmaCopy
import VirtualSoc.Cluster.DmaEvent

/-!
# What `dma_prog` asks for and what is moved (dmasupport.h, cluster/cl_dma.cpp)

The driver packs the arguments of a job into one word (`dmaSetMode`), and the engine takes it apart with its own
masks (`setMode`). The flags and the priority come through. The mask of the size has 18 bits, so a
size from 256 KB on is cut although `MAX_TRANSFER_SIZE` is 1 MB; the assertion behind it looks at the size after
the mask. The transfer then moves whole words, and the bytes behind the last one stay (`last_chunk_b` is
computed and not used): `dma_mode_iff`.
-/

namespace VirtualSoc.Dma

/-- A flag of `dma_prog`, 0 or 1. -/
def flag (b : Bool) : UInt32 := if b then 1 else 0

/-! ## The beats of a transfer -/

section Beats

variable (job : Job)

/-- How often the body of the SOURCE or the TARGET loop runs, on a side in or outside of the TCDM. -/
def Job.beats (inTcdm : Bool) : Nat := if inTcdm then job.sizeW else ((List.range job.numTransfers).map job.burst).sum

/-- Each beat moves a word. -/
def Job.sourceBytes : Nat := job.beats (isInTcdm job.sourceAddr) * CL_WORD

def Job.targetBytes : Nat := job.beats (isInTcdm job.targetAddr) * CL_WORD

variable {job}

theorem burst_sum {n : Nat} (hn : n ≤ job.numTransfers) : ((List.range n).map job.burst).sum = job.before n := by
  induction n with
  | zero => simp [Job.before]
  | succ n ih =>
    have hlt : n < job.numTransfers := hn
    obtain ⟨-, hnext, -⟩ := burst_spec hlt
    rw [List.range_succ, List.map_append, List.sum_append, ih (Nat.le_of_succ_le hn)]
    simpa using hnext

/-- On either side the loops run once for each whole word of the size. -/
theorem beats_eq (inTcdm : Bool) : job.beats inTcdm = job.sizeW := by
  unfold Job.beats
  split
  · rfl
  · rw [burst_sum (Nat.le_refl _), before_last]

/-- The job with the bytes behind its last whole word cut off. -/
def Job.cut (job : Job) : Job := { job with size := UInt32.ofNat (CL_WORD * job.sizeW) }

theorem sizeW_cut : job.cut.sizeW = job.sizeW := by
  have hlt := job.size.toNat_lt
  unfold Job.cut Job.sizeW
  rw [UInt32.toNat_ofNat']
  unfold CL_WORD
  omega

theorem numTransfers_cut : job.cut.numTransfers = job.numTransfers := by
  unfold Job.numTransfers
  rw [sizeW_cut]

theorem burst_cut : job.cut.burst = job.burst := by
  funext j
  unfold Job.burst
  rw [sizeW_cut, numTransfers_cut]

/-- What is cut off is not moved: `transfer` works on the whole words. -/
theorem transfer_cut (e : Engine) : transfer job.cut e = transfer job e := by
  have hsource : sourceBurst job.cut = sourceBurst job := by
    funext x j
    simp only [sourceBurst, burst_cut]
  have htarget : targetBurst job.cut = targetBurst job := by
    funext x j
    simp only [targetBurst, burst_cut]
  unfold transfer target source
  rw [hsource, htarget, sizeW_cut, numTransfers_cut]
  rfl

/-- Of a job of any size, the whole words are copied and nothing else is changed. -/
theorem transfer_moves {e : Engine} (hidle : Idle e) (hf : Fits e.port.mem job.cut) :
    ∃ e', transfer job e = some e' ∧ Idle e' ∧ Copied job.cut e.port.mem e'.port.mem := by
  rw [← transfer_cut]
  exact transfer_copies hidle hf

end Beats

/-! ## The mode word -/

/-- A field of `k` bits at bit `i`. -/
theorem field_eq (w i k : Nat) : (w &&& (2 ^ k - 1) <<< i) >>> i = w / 2 ^ i % 2 ^ k := by
  rw [Nat.shiftRight_and_distrib, Nat.shiftLeft_shiftRight, Nat.and_two_pow_sub_one_eq_mod, Nat.shiftRight_eq_div_pow]

/-- A value above the bits that are in use. -/
theorem or_shift {a b i : Nat} (h : a < 2 ^ i) : a ||| b <<< i = a + b * 2 ^ i := by
  rw [Nat.lor_comm, ← Nat.shiftLeft_add_eq_or_of_lt h, Nat.shiftLeft_eq, Nat.add_comm]

variable {size : UInt32} {async : UInt8} {dir sleep trig : Bool}

theorem flag_toNat (b : Bool) : (flag b).toNat = b.toNat := by cases b <;> rfl

/-- The word of the driver as a number. -/
theorem dmaSetMode_toNat (dir sleep trig : Bool) (hsize : size.toNat ≤ MAX_TRANSFER_SIZE) (hasync : async.toNat < 8) :
    (dmaSetMode size (flag dir) async.toUInt32 (flag sleep) (flag trig)).toNat =
      trig.toNat + dir.toNat * 2 + async.toNat * 4 + sleep.toNat * 32 + size.toNat * 64 := by
  have ht := trig.toNat_le
  have hd := dir.toNat_le
  have hs := sleep.toNat_le
  unfold MAX_TRANSFER_SIZE at hsize
  have hshift : ∀ (x : UInt32) (i : UInt32), x.toNat * 2 ^ (i.toNat % 32) < 2 ^ 32 →
      (x <<< i).toNat = x.toNat <<< (i.toNat % 32) := by
    intro x i hlt
    rw [UInt32.toNat_shiftLeft, Nat.shiftLeft_eq, Nat.mod_eq_of_lt hlt]
  unfold dmaSetMode
  simp only [UInt32.toNat_or]
  rw [hshift (flag dir) 1 (by rw [flag_toNat]; simp; omega), hshift async.toUInt32 2 (by simp; omega),
    hshift (flag sleep) 5 (by rw [flag_toNat]; simp; omega), hshift size 6 (by simp; omega)]
  simp only [flag_toNat, UInt8.toNat_toUInt32, UInt32.reduceToNat, Nat.reduceMod]
  rw [or_shift (i := 1) (by omega), or_shift (i := 2) (by omega), or_shift (i := 5) (by omega),
    or_shift (i := 6) (by omega)]
  omega

/-- A masked field of the word. -/
theorem toNat_field {w mask : UInt32} {i k : Nat} (hmask : mask.toNat = (2 ^ k - 1) <<< i) (hi : i < 32) :
    ((w &&& mask) >>> UInt32.ofNat i).toNat = w.toNat / 2 ^ i % 2 ^ k := by
  rw [UInt32.toNat_shiftRight, UInt32.toNat_and, hmask, UInt32.toNat_ofNat', ← field_eq]
  congr 1
  omega

theorem bool_of_bit {x : UInt32} {b : Bool} (h : x.toNat = b.toNat) : (x != 0) = b := by
  have hx : x = flag b := UInt32.toNat_inj.1 (by rw [h, flag_toNat])
  subst hx
  cases b <;> rfl

/-- **What the decoder stores**: everything as the driver packed it but the size, of which 18 bits are left. -/
theorem setMode_dmaSetMode (dir sleep trig : Bool) (job : Job) (hsize : size.toNat ≤ MAX_TRANSFER_SIZE) (hasync : async.toNat < 8) :
    setMode (dmaSetMode size (flag dir) async.toUInt32 (flag sleep) (flag trig)) job =
      { job with
        pri := async, dir := dir, sleep := sleep, size := UInt32.ofNat (size.toNat % 2 ^ 18), trigger := trig } := by
  have hw := dmaSetMode_toNat dir sleep trig hsize hasync
  generalize dmaSetMode size (flag dir) async.toUInt32 (flag sleep) (flag trig) = w at hw
  have ht := trig.toNat_le
  have hd := dir.toNat_le
  have hs := sleep.toNat_le
  have hpri : ((w &&& 0x0000001C) >>> 2).toUInt8 = async := by
    apply UInt8.toNat_inj.1
    rw [UInt32.toNat_toUInt8, show (2 : UInt32) = UInt32.ofNat 2 from rfl, toNat_field (k := 3) rfl (by decide), hw]
    omega
  have hdir : ((w &&& 0x00000002) >>> 1 != 0) = dir := by
    refine bool_of_bit ?_
    rw [show (1 : UInt32) = UInt32.ofNat 1 from rfl, toNat_field (k := 1) rfl (by decide), hw]
    omega
  have hsleep : ((w &&& 0x00000020) >>> 5 != 0) = sleep := by
    refine bool_of_bit ?_
    rw [show (5 : UInt32) = UInt32.ofNat 5 from rfl, toNat_field (k := 1) rfl (by decide), hw]
    omega
  have hsz : (w &&& 0x00FFFFC0) >>> 6 = UInt32.ofNat (size.toNat % 2 ^ 18) := by
    apply UInt32.toNat_inj.1
    rw [show (6 : UInt32) = UInt32.ofNat 6 from rfl, toNat_field (k := 18) rfl (by decide), hw, UInt32.toNat_ofNat']
    omega
  have htrig : (w &&& 0x00000001 != 0) = trig := by
    refine bool_of_bit ?_
    rw [UInt32.toNat_and, show (1 : UInt32).toNat = 2 ^ 1 - 1 from rfl, Nat.and_two_pow_sub_one_eq_mod, hw]
    omega
  simp only [setMode, hpri, hdir, hsleep, hsz, htrig]

/-! ## The mode register -/

variable {N : Nat} {s : State N} {core : Fin N} {slot : Slot}

/-- The job of the slot is what was asked for, and so many bytes are moved. -/
structure Asked (job : Job) (size : UInt32) (dir : Bool) (async : UInt8) (sleep trig : Bool) : Prop where
  size_eq : job.size = size
  dir_eq : job.dir = dir
  pri_eq : job.pri = async
  sleep_eq : job.sleep = sleep
  trigger_eq : job.trigger = trig
  source_eq : job.sourceBytes = size.toNat
  target_eq : job.targetBytes = size.toNat

/-- The register takes every mode word of the driver, whatever the size: the assertion is about the masked size. -/
theorem processRequest_mode (hprog : s.jobCurrProg core = some slot) (hsize : size.toNat ≤ MAX_TRANSFER_SIZE)
    (hasync : async.toNat < 8) :
    processRequest s core (CL_DMA_BASE + 8) (dmaSetMode size (flag dir) async.toUInt32 (flag sleep) (flag trig)) =
      some (s.setJob core slot
        { s.jt core slot with
          pri := async, dir := dir, sleep := sleep, size := UInt32.ofNat (size.toNat % 2 ^ 18), trigger := trig },
        dmaSetMode size (flag dir) async.toUInt32 (flag sleep) (flag trig)) := by
  have hset := setMode_dmaSetMode dir sleep trig (s.jt core slot) hsize hasync
  have hmasked := congrArg (fun job => job.size.toNat) hset
  simp only [setMode, UInt32.toNat_ofNat'] at hmasked
  have hassert : ((dmaSetMode size (flag dir) async.toUInt32 (flag sleep) (flag trig) &&& 0x00FFFFC0) >>> 6).toNat ≤
      MAX_TRANSFER_SIZE := by
    rw [hmasked]
    unfold MAX_TRANSFER_SIZE
    omega
  rw [← hset]
  show (if _ then (program s core (setMode _)).map fun t => (t, _) else none) = _
  rw [if_pos hassert, program, hprog]
  rfl

/-- **What `dma_prog` asks for is what is moved** exactly for whole words below 256 KB: for every size up to
`MAX_TRANSFER_SIZE`, every direction, sleep and trigger flag and priority, and whatever is in the table. -/
theorem dma_mode_iff (hprog : s.jobCurrProg core = some slot) (hsize : size.toNat ≤ MAX_TRANSFER_SIZE)
    (hasync : async.toNat < 8) :
    (∃ t, (processRequest s core (CL_DMA_BASE + 8)
          (dmaSetMode size (flag dir) async.toUInt32 (flag sleep) (flag trig))).map Prod.fst = some t ∧
        Asked (t.jt core slot) size dir async sleep trig) ↔
      size.toNat < 2 ^ 18 ∧ size.toNat % CL_WORD = 0 := by
  rw [processRequest_mode hprog hsize hasync, Option.map_some]
  constructor
  · rintro ⟨t, ht, h⟩
    obtain rfl := Option.some.inj ht
    have hsz := congrArg UInt32.toNat h.size_eq
    have hmoved := h.source_eq
    rw [Job.sourceBytes, beats_eq, Job.sizeW, h.size_eq] at hmoved
    simp only [State.setJob, Function.update_self, UInt32.toNat_ofNat'] at hsz
    unfold CL_WORD at hmoved ⊢
    omega
  · rintro ⟨hlt, hwords⟩
    have hsz : UInt32.ofNat (size.toNat % 2 ^ 18) = size := by
      rw [Nat.mod_eq_of_lt hlt]
      exact UInt32.ofNat_toNat
    have hbytes : size.toNat / CL_WORD * CL_WORD = size.toNat := Nat.div_mul_cancel (Nat.dvd_of_mod_eq_zero hwords)
    rw [hsz]
    refine ⟨_, rfl, ?_⟩
    simp only [State.setJob, Function.update_self]
    refine ⟨rfl, rfl, rfl, rfl, rfl, ?_, ?_⟩
    · rw [Job.sourceBytes, beats_eq]
      exact hbytes
    · rw [Job.targetBytes, beats_eq]
      exact hbytes

/-- One core that is programming slot 0. -/
def programming : State 1 := { @init 1 ⟨by decide⟩ with jobCurrProg := fun _ => some slot0 }

/-- Of 6 bytes the transfer moves 4, and a size of 256 KB is stored as 0. -/
theorem not_asked :
    (processRequest programming 0 (CL_DMA_BASE + 8) (dmaSetMode 6 1 0 0 1)).map
        (fun x => ((x.1.jt 0 slot0).size, (x.1.jt 0 slot0).sourceBytes)) = some (6, 4) ∧
      (processRequest programming 0 (CL_DMA_BASE + 8) (dmaSetMode 0x40000 1 0 0 1)).map
        (fun x => ((x.1.jt 0 slot0).size, (x.1.jt 0 slot0).sourceBytes)) = some (0, 0) := by
  decide +kernel

theorem dma_mode_programming : ∃ t, (processRequest programming 0 (CL_DMA_BASE + 8)
      (dmaSetMode 52 (flag true) (3 : UInt8).toUInt32 (flag true) (flag false))).map Prod.fst = some t ∧
    Asked (t.jt 0 slot0) 52 true 3 true false :=
  (dma_mode_iff rfl (by decide) (by decide)).2 (by decide)

end VirtualSoc.Dma
