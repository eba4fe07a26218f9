import VirtualSoc.Core.Memory

/-!
# Elements and bursts

`Write` cuts the address down to the element it is in, a word, a half word or a byte. Two elements of one width are
the same or apart, so a burst leaves each of its beats in the element of that beat.
-/

namespace VirtualSoc.MemClass

variable {m m' : MemClass} {bw addr n : Nat} {data : Nat → UInt32}

def elementSize (bw : Nat) : Nat := if bw = MEM_BYTE then 1 else if bw = MEM_HWORD then 2 else 4

def elementStart (bw addr : Nat) : Nat :=
  if bw = MEM_BYTE then addr else if bw = MEM_HWORD then hwordAlign addr else wordAlign addr

/-- What is in the element that `Write` changes at the address. -/
def element (m : MemClass) (bw addr : Nat) : UInt32 := truncate bw (m.word (elementStart bw addr))

theorem elementSize_cases (bw : Nat) : elementSize bw = 1 ∨ elementSize bw = 2 ∨ elementSize bw = 4 := by
  unfold elementSize
  split
  · exact Or.inl rfl
  · split
    · exact Or.inr (Or.inl rfl)
    · exact Or.inr (Or.inr rfl)

theorem elementStart_eq (bw addr : Nat) : elementStart bw addr = addr / elementSize bw * elementSize bw := by
  unfold elementStart elementSize
  split
  · omega
  · split <;> rfl

theorem width_cases (hbw : bw < 3) : bw = MEM_WORD ∨ bw = MEM_BYTE ∨ bw = MEM_HWORD := by
  unfold MEM_WORD MEM_BYTE MEM_HWORD
  omega

/-- A known width and an address inside: the two ways out of `Read` and `Write` are not taken. -/
theorem write_inside (hbw : bw < 3) (h : addr < m.size) (v : UInt32) :
    m.write addr v bw = some (m.store (elementStart bw addr) (elementSize bw) (truncate bw v)) := by
  rw [write, if_neg (Nat.not_le_of_lt h)]
  obtain rfl | rfl | rfl := width_cases hbw <;> rfl

theorem read_inside (hbw : bw < 3) (h : addr < m.size) : ∃ v, m.read addr bw = some v := by
  rw [read, if_neg (Nat.not_le_of_lt h)]
  obtain rfl | rfl | rfl := width_cases hbw
  · exact ⟨_, rfl⟩
  · exact ⟨_, rfl⟩
  · exact ⟨_, rfl⟩

theorem write_outside (h : m.size ≤ addr) (v : UInt32) : m.write addr v bw = none := if_pos h

theorem read_outside (h : m.size ≤ addr) : m.read addr bw = none := if_pos h

/-- An element has no more bytes than its size. -/
theorem truncate_word_congr {a : Nat} (h : ∀ k < elementSize bw, m.bytes (a + k) = m'.bytes (a + k)) :
    truncate bw (m.word a) = truncate bw (m'.word a) := by
  have h0 : m.bytes a = m'.bytes a := h 0 (by have := elementSize_cases bw; omega)
  apply UInt32.toNat_inj.1
  unfold truncate
  unfold elementSize at h
  split
  · rw [and_byte, and_byte, word_toNat, word_toNat, h0]
    omega
  · rename_i hb
    rw [if_neg hb] at h
    split
    · rename_i hh
      rw [if_pos hh] at h
      rw [and_half, and_half, word_toNat, word_toNat, h0, h 1 (by decide)]
      omega
    · rename_i hh
      rw [if_neg hh] at h
      rw [word_toNat, word_toNat, h0, h 1 (by decide), h 2 (by decide), h 3 (by decide)]

theorem element_store_self (m : MemClass) (bw addr : Nat) (v : UInt32) :
    (m.store (elementStart bw addr) (elementSize bw) (truncate bw v)).element bw addr = truncate bw v := by
  unfold element elementSize truncate
  split
  · exact byte_store_self _ _ _
  · split
    · exact half_store_self _ _ _
    · exact word_store_self _ _ _

/-- Elements of one width that are not the same are apart. -/
theorem element_store_of_ne {a b : Nat} (m : MemClass) (h : elementStart bw a ≠ elementStart bw b) (v : UInt32) :
    (m.store (elementStart bw a) (elementSize bw) v).element bw b = m.element bw b := by
  refine truncate_word_congr fun k hk => ?_
  rw [bytes_store, if_neg]
  simp only [elementStart_eq] at h ⊢
  obtain hs | hs | hs := elementSize_cases bw <;> rw [hs] at h hk ⊢ <;> omega

/-- The memory after `n` beats of a burst write. -/
def burst (m : MemClass) (bw addr : Nat) (data : Nat → UInt32) : Nat → MemClass
  | 0 => m
  | n + 1 => (burst m bw addr data n).store (elementStart bw (addr + n * elementSize bw)) (elementSize bw)
      (truncate bw (data n))

@[simp] theorem burst_size : (m.burst bw addr data n).size = m.size := by
  induction n with
  | zero => rfl
  | succ n ih => exact ih

/-- The beats of a burst are in different elements. -/
theorem elementStart_inj {i j : Nat}
    (h : elementStart bw (addr + i * elementSize bw) = elementStart bw (addr + j * elementSize bw)) : i = j := by
  rw [elementStart_eq, elementStart_eq] at h
  obtain hs | hs | hs := elementSize_cases bw <;> rw [hs] at h <;> omega

/-- **A burst** leaves each beat in its element. -/
theorem element_burst {i : Nat} (hi : i < n) :
    (m.burst bw addr data n).element bw (addr + i * elementSize bw) = truncate bw (data i) := by
  induction n with
  | zero => exact absurd hi (Nat.not_lt_zero i)
  | succ n ih =>
    rw [burst]
    by_cases hin : i = n
    · rw [hin]
      exact element_store_self _ _ _ _
    · rw [element_store_of_ne _ fun h => hin (elementStart_inj h).symm]
      exact ih (by omega)

/-- What is cut off of the data does not matter. -/
theorem burst_congr {data' : Nat → UInt32} (h : ∀ i < n, truncate bw (data i) = truncate bw (data' i)) :
    m.burst bw addr data n = m.burst bw addr data' n := by
  induction n with
  | zero => rfl
  | succ n ih => rw [burst, burst, ih fun i hi => h i (Nat.lt_succ_of_lt hi), h n (Nat.lt_succ_self n)]

end VirtualSoc.MemClass
