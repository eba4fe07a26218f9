import Mathlib.Algebra.GroupWithZero.Nat
import Mathlib.Tactic.Common

/-!
# `Mem_class` and `Semaphore_mem` (core/mem_class.h, core/ext_mem.h)

A memory is `size` bytes, little endian as on the simulating host. `Read` and `Write` take
the access width `bw` and end the simulation (`exit(1)`) on an address at or beyond `size`
or on an unknown width; here that is `none`. `Semaphore_mem` overrides both: a read of a
zero word also sets it to one, which is how a semaphore is acquired.
-/

namespace VirtualSoc

def MEM_WORD : Nat := 0
def MEM_BYTE : Nat := 1
def MEM_HWORD : Nat := 2

/-- `addr & 0xFFFFFFFC`. -/
def wordAlign (addr : Nat) : Nat := addr / 4 * 4

/-- `addr & 0xFFFFFFFE`. -/
def hwordAlign (addr : Nat) : Nat := addr / 2 * 2

/-- `myMemory` and `size`. -/
structure MemClass where
  size : Nat
  bytes : Nat → UInt8

namespace MemClass

/-- The constructor: `memset(myMemory, 0, size)`. -/
def new (size : Nat) : MemClass := ⟨size, fun _ => 0⟩

/-- `*((uint32_t *)(myMemory + a))`. -/
def word (m : MemClass) (a : Nat) : UInt32 :=
  UInt32.ofNat ((m.bytes a).toNat + 256 * (m.bytes (a + 1)).toNat +
    65536 * (m.bytes (a + 2)).toNat + 16777216 * (m.bytes (a + 3)).toNat)

/-- Store the `k` low bytes of `v` from `a` on. -/
def store (m : MemClass) (a k : Nat) (v : UInt32) : MemClass :=
  { m with bytes := fun i => if a ≤ i ∧ i < a + k then UInt8.ofNat (v.toNat / 256 ^ (i - a)) else m.bytes i }

/-- `Mem_class::Read` (mem_class.h:50). -/
def read (m : MemClass) (addr bw : Nat) : Option UInt32 :=
  if addr ≥ m.size then none
  else if bw = MEM_WORD then some (m.word (wordAlign addr))
  else if bw = MEM_BYTE then some (m.word addr &&& 0x000000FF)
  else if bw = MEM_HWORD then some (m.word addr &&& 0x0000FFFF)
  else none

/-- `Mem_class::Write` (mem_class.h:92). -/
def write (m : MemClass) (addr : Nat) (data : UInt32) (bw : Nat) : Option MemClass :=
  if addr ≥ m.size then none
  else if bw = MEM_WORD then some (m.store (wordAlign addr) 4 data)
  else if bw = MEM_BYTE then some (m.store addr 1 (data &&& 0x000000FF))
  else if bw = MEM_HWORD then some (m.store (hwordAlign addr) 2 (data &&& 0x0000FFFF))
  else none

theorem bytes_store (m : MemClass) (a k : Nat) (v : UInt32) (i : Nat) :
    (m.store a k v).bytes i =
      if a ≤ i ∧ i < a + k then UInt8.ofNat (v.toNat / 256 ^ (i - a)) else m.bytes i := rfl

@[ext] theorem ext {m m' : MemClass} (hsize : m.size = m'.size) (hbytes : ∀ a, m.bytes a = m'.bytes a) : m = m' := by
  cases m
  cases m'
  obtain rfl := hsize
  congr 1
  exact funext hbytes

/-- A stored word reads back. -/
theorem word_store_self (m : MemClass) (a : Nat) (v : UInt32) : (m.store a 4 v).word a = v := by
  have hv : v.toNat < 4294967296 := v.toNat_lt
  unfold word
  simp only [bytes_store]
  simp only [Nat.le_refl, Nat.le_add_right, Nat.add_sub_cancel_left, Nat.sub_self, true_and,
    show a < a + 4 by omega, show a + 1 < a + 4 by omega, show a + 2 < a + 4 by omega,
    show a + 3 < a + 4 by omega, ↓reduceIte, Nat.pow_zero, Nat.div_one, UInt8.toNat_ofNat']
  apply UInt32.toNat_inj.1
  rw [UInt32.toNat_ofNat']
  simp only [Nat.reducePow]
  omega

/-- A store does not touch a word it does not overlap. -/
theorem word_store_of_disjoint (m : MemClass) {a b k : Nat} (v : UInt32) (h : a + k ≤ b ∨ b + 4 ≤ a) :
    (m.store a k v).word b = m.word b := by
  have hb : ∀ j, j < 4 → (m.store a k v).bytes (b + j) = m.bytes (b + j) := by
    intro j hj
    rw [bytes_store, if_neg (by omega)]
  have h0 := hb 0 (by omega)
  simp only [Nat.add_zero] at h0
  unfold word
  rw [h0, hb 1 (by omega), hb 2 (by omega), hb 3 (by omega)]

@[simp] theorem size_store (m : MemClass) (a k : Nat) (v : UInt32) : (m.store a k v).size = m.size := rfl

theorem read_word {m : MemClass} {addr : Nat} {v : UInt32} (h : m.read addr MEM_WORD = some v) :
    v = m.word (wordAlign addr) := by
  unfold read at h
  split at h
  · cases h
  · simpa using h.symm

theorem write_word {m m' : MemClass} {addr : Nat} {v : UInt32} (h : m.write addr v MEM_WORD = some m') :
    m' = m.store (wordAlign addr) 4 v := by
  unfold write at h
  split at h
  · cases h
  · simpa using h.symm

/-- Whatever the width, a write stays inside the aligned word it addresses. -/
theorem write_frame {m m' : MemClass} {addr bw : Nat} {v : UInt32} (h : m.write addr v bw = some m')
    {b : Nat} (hb : b % 4 = 0) (hne : addr / 4 ≠ b / 4) : m'.word b = m.word b := by
  unfold write at h
  split at h
  · cases h
  · split at h
    · cases h
      exact word_store_of_disjoint m v (by unfold wordAlign; omega)
    · split at h
      · cases h
        exact word_store_of_disjoint m _ (by omega)
      · split at h
        · cases h
          exact word_store_of_disjoint m _ (by unfold hwordAlign; omega)
        · cases h

theorem write_size {m m' : MemClass} {addr bw : Nat} {v : UInt32} (h : m.write addr v bw = some m') :
    m'.size = m.size := by
  unfold write at h
  split at h
  · cases h
  · split at h
    · cases h; rfl
    · split at h
      · cases h; rfl
      · split at h
        · cases h; rfl
        · cases h

/-- What an access of width `bw` keeps of a data word. -/
def truncate (bw : Nat) (v : UInt32) : UInt32 :=
  if bw = MEM_BYTE then v &&& 0x000000FF else if bw = MEM_HWORD then v &&& 0x0000FFFF else v

theorem and_byte (v : UInt32) : (v &&& 0x000000FF).toNat = v.toNat % 256 :=
  (UInt32.toNat_and v _).trans (Nat.and_two_pow_sub_one_eq_mod v.toNat 8)

theorem and_half (v : UInt32) : (v &&& 0x0000FFFF).toNat = v.toNat % 65536 :=
  (UInt32.toNat_and v _).trans (Nat.and_two_pow_sub_one_eq_mod v.toNat 16)

theorem word_toNat (m : MemClass) (a : Nat) : (m.word a).toNat = (m.bytes a).toNat + 256 * (m.bytes (a + 1)).toNat +
    65536 * (m.bytes (a + 2)).toNat + 16777216 * (m.bytes (a + 3)).toNat := by
  have h0 := (m.bytes a).toNat_lt
  have h1 := (m.bytes (a + 1)).toNat_lt
  have h2 := (m.bytes (a + 2)).toNat_lt
  have h3 := (m.bytes (a + 3)).toNat_lt
  unfold word
  rw [UInt32.toNat_ofNat']
  omega

/-- A stored byte reads back. -/
theorem byte_store_self (m : MemClass) (a : Nat) (v : UInt32) :
    (m.store a 1 (v &&& 0x000000FF)).word a &&& 0x000000FF = v &&& 0x000000FF := by
  apply UInt32.toNat_inj.1
  have h0 : ((m.store a 1 (v &&& 0x000000FF)).bytes a).toNat = v.toNat % 256 := by
    rw [bytes_store, if_pos (by omega), and_byte, Nat.sub_self]
    simp
  rw [and_byte, and_byte, word_toNat, h0]
  omega

/-- A stored half word reads back. -/
theorem half_store_self (m : MemClass) (a : Nat) (v : UInt32) :
    (m.store a 2 (v &&& 0x0000FFFF)).word a &&& 0x0000FFFF = v &&& 0x0000FFFF := by
  apply UInt32.toNat_inj.1
  have h0 : ((m.store a 2 (v &&& 0x0000FFFF)).bytes a).toNat = v.toNat % 256 := by
    rw [bytes_store, if_pos (by omega), and_half, Nat.sub_self]
    simp only [Nat.pow_zero, Nat.div_one, UInt8.toNat_ofNat']
    omega
  have h1 : ((m.store a 2 (v &&& 0x0000FFFF)).bytes (a + 1)).toNat = v.toNat % 65536 / 256 := by
    rw [bytes_store, if_pos (by omega), and_half, Nat.add_sub_cancel_left]
    simp only [Nat.pow_one, UInt8.toNat_ofNat']
    omega
  rw [and_half, and_half, word_toNat, h0, h1]
  omega

/-- **Read after write** at one address and width. -/
theorem read_write {m m' : MemClass} {addr bw : Nat} {v : UInt32} (h : m.write addr v bw = some m')
    (hal : bw = MEM_HWORD → addr % 2 = 0) : m'.read addr bw = some (truncate bw v) := by
  have hsize := write_size h
  unfold write at h
  unfold read truncate
  rw [hsize]
  split at h
  · cases h
  · rename_i hlt
    rw [if_neg hlt]
    split at h
    · rename_i hbw
      cases h
      rw [if_pos hbw, word_store_self, hbw]
      rfl
    · rename_i hw
      rw [if_neg hw]
      split at h
      · rename_i hb
        cases h
        rw [if_pos hb, if_pos hb, byte_store_self]
      · rename_i hb
        rw [if_neg hb, if_neg hb]
        split at h
        · rename_i hh
          cases h
          have : hwordAlign addr = addr := by
            have := hal hh
            unfold hwordAlign
            omega
          rw [if_pos hh, if_pos hh, this, half_store_self]
        · cases h

/-! ## Words at aligned addresses, and runs of them -/

theorem wordAlign_self {a : Nat} (h : a % 4 = 0) : wordAlign a = a := by
  unfold wordAlign
  omega

variable {mem : MemClass} {src dst n : Nat} {io : Nat → UInt32}

theorem read_aligned {a : Nat} (ha : a % 4 = 0) (hlt : a < mem.size) : mem.read a MEM_WORD = some (mem.word a) := by
  rw [MemClass.read, if_neg (by omega), if_pos rfl, wordAlign_self ha]

theorem write_aligned {a : Nat} {v : UInt32} (ha : a % 4 = 0) (hlt : a < mem.size) :
    mem.write a v MEM_WORD = some (mem.store a 4 v) := by
  rw [MemClass.write, if_neg (by omega), if_pos rfl, wordAlign_self ha]

theorem word_byte (m : MemClass) (a : Nat) {k : Nat} (hk : k < 4) :
    UInt8.ofNat ((m.word a).toNat / 256 ^ k) = m.bytes (a + k) := by
  have h0 := (m.bytes a).toNat_lt
  have h1 := (m.bytes (a + 1)).toNat_lt
  have h2 := (m.bytes (a + 2)).toNat_lt
  have h3 := (m.bytes (a + 3)).toNat_lt
  apply UInt8.toNat_inj.1
  rw [UInt8.toNat_ofNat', word_toNat]
  obtain rfl | rfl | rfl | rfl : k = 0 ∨ k = 1 ∨ k = 2 ∨ k = 3 := by omega
  · simp only [Nat.pow_zero, Nat.div_one, Nat.add_zero]
    omega
  · simp only [Nat.pow_one]
    omega
  · simp only [Nat.reducePow]
    omega
  · simp only [Nat.reducePow]
    omega

/-- Equal words have equal bytes. -/
theorem bytes_of_word_eq {m m' : MemClass} {a k : Nat} (h : m.word a = m'.word a) (hk : k < 4) :
    m.bytes (a + k) = m'.bytes (a + k) := by
  rw [← word_byte m a hk, h, word_byte m' a hk]

/-- The memory with the words `io 0, .., io (n - 1)` from `dst` on. -/
def stored (mem : MemClass) (dst : Nat) (io : Nat → UInt32) : Nat → MemClass
  | 0 => mem
  | n + 1 => (stored mem dst io n).store (dst + 4 * n) 4 (io n)

@[simp] theorem stored_size : (stored mem dst io n).size = mem.size := by
  induction n with
  | zero => rfl
  | succ n ih => exact ih

theorem stored_bytes (a : Nat) : (stored mem dst io n).bytes a =
    if dst ≤ a ∧ a < dst + 4 * n then UInt8.ofNat ((io ((a - dst) / 4)).toNat / 256 ^ ((a - dst) % 4))
    else mem.bytes a := by
  induction n with
  | zero => rw [if_neg (by omega)]; rfl
  | succ n ih =>
    rw [stored, bytes_store]
    by_cases hin : dst + 4 * n ≤ a ∧ a < dst + 4 * n + 4
    · rw [if_pos hin, if_pos (by omega), show (a - dst) / 4 = n by omega,
        show a - (dst + 4 * n) = (a - dst) % 4 by omega]
    · rw [if_neg hin, ih]
      by_cases hbefore : dst ≤ a ∧ a < dst + 4 * n
      · rw [if_pos hbefore, if_pos (by omega)]
      · rw [if_neg hbefore, if_neg (by omega)]

theorem stored_word {k : Nat} (hk : k < n) : (stored mem dst io n).word (dst + 4 * k) = io k := by
  induction n with
  | zero => exact absurd hk (Nat.not_lt_zero k)
  | succ n ih =>
    rw [stored]
    by_cases hkn : k = n
    · subst hkn
      exact word_store_self _ _ _
    · rw [word_store_of_disjoint _ _ (by omega)]
      exact ih (by omega)

theorem stored_word_before {a : Nat} (h : a + 4 ≤ dst) : (stored mem dst io n).word a = mem.word a := by
  induction n with
  | zero => rfl
  | succ n ih => rw [stored, word_store_of_disjoint _ _ (by omega), ih]

/-- Words that are copied are copied byte for byte. -/
theorem stored_copies (hio : ∀ k < n, io k = mem.word (src + 4 * k)) (a : Nat) : (stored mem dst io n).bytes a =
    if dst ≤ a ∧ a < dst + 4 * n then mem.bytes (src + (a - dst)) else mem.bytes a := by
  rw [stored_bytes]
  split
  · rw [hio _ (by omega), word_byte mem _ (Nat.mod_lt _ (by decide))]
    congr 1
    omega
  · rfl

end MemClass

/-! ## `Semaphore_mem` -/

namespace SemaphoreMem

/-- `Semaphore_mem::Read` (ext_mem.h:54): the word read, and the memory with that word set to
one if it was zero ("If is not zero semaphore aquired"). -/
def read (m : MemClass) (addr : Nat) : Option (UInt32 × MemClass) :=
  if addr ≥ m.size then none
  else
    let data := m.word (wordAlign addr)
    some (data, if data = 0 then m.store (wordAlign addr) 4 1 else m)

/-- `Semaphore_mem::Write` (ext_mem.h:83). -/
def write (m : MemClass) (addr : Nat) (data : UInt32) : Option MemClass :=
  if addr ≥ m.size then none else some (m.store (wordAlign addr) 4 data)

end SemaphoreMem

end VirtualSoc
