import VirtualSoc.Core.Element

/-!
# A write and the read behind it

`Write` cuts a half-word address down to an even one, `Read` does not; and every `Read` fetches a
whole word, from the address itself where the access is narrow. So the two agree on every address
of a word or a byte, on the even addresses of a half word, and a narrow read of the last bytes
fetches over the end of the memory: `writeRead_iff`.
-/

namespace VirtualSoc.MemClass

variable {m m' : MemClass} {bw addr b : Nat} {data : UInt32}

/-- The bytes of `*(T *)(myMemory + a)` for a type of `k` bytes. -/
def deref (a k : Nat) : List Nat := List.range' a k

theorem mem_deref {a k : Nat} : b ∈ deref a k ↔ a ≤ b ∧ b < a + k := List.mem_range'_1

/-- Where `Read` fetches its `uint32_t`. -/
def fetchStart (bw addr : Nat) : Nat := if bw = MEM_WORD then wordAlign addr else addr

/-- The bytes of the array that `Read` loads. -/
def readBytes (bw addr : Nat) : List Nat := deref (fetchStart bw addr) 4

/-- The bytes of the array that `Write` stores. -/
def writeBytes (bw addr : Nat) : List Nat := deref (elementStart bw addr) (elementSize bw)

theorem read_fetch (hbw : bw < 3) (h : addr < m.size) :
    m.read addr bw = some (truncate bw (m.word (fetchStart bw addr))) := by
  rw [read, if_neg (Nat.not_le_of_lt h)]
  obtain rfl | rfl | rfl := width_cases hbw <;> rfl

/-- `Read` depends on the bytes it loads and on no other. -/
theorem read_congr (hbw : bw < 3) (hsize : m.size = m'.size) (h : ∀ b ∈ readBytes bw addr, m.bytes b = m'.bytes b) :
    m.read addr bw = m'.read addr bw := by
  by_cases hlt : addr < m.size
  · rw [read_fetch hbw hlt, read_fetch hbw (hsize ▸ hlt)]
    congr 1
    refine truncate_word_congr fun k hk => h _ (mem_deref.2 ?_)
    have := elementSize_cases bw
    omega
  · rw [read_outside (Nat.le_of_not_lt hlt), read_outside (hsize ▸ Nat.le_of_not_lt hlt)]

theorem write_width (h : m.write addr data bw = some m') : bw < 3 := by
  by_contra hbw
  have hw : bw ≠ MEM_WORD := by unfold MEM_WORD; omega
  have hb : bw ≠ MEM_BYTE := by unfold MEM_BYTE; omega
  have hh : bw ≠ MEM_HWORD := by unfold MEM_HWORD; omega
  simp [write, hw, hb, hh] at h

/-- `Write` changes the bytes it stores and no other. -/
theorem write_frame_bytes (h : m.write addr data bw = some m') (hb : b ∉ writeBytes bw addr) : m'.bytes b = m.bytes b := by
  have hlt : addr < m.size := by
    by_contra hout
    rw [write_outside (Nat.le_of_not_lt hout)] at h
    cases h
  rw [write_inside (write_width h) hlt] at h
  obtain rfl := Option.some.inj h
  rw [bytes_store, if_neg fun hin => hb (mem_deref.2 hin)]

/-- What a write and the read of the same address and width behind it should do: the data come back cut to the
width, the rest of the memory stays, and no byte behind the end is touched. -/
structure WriteRead (m : MemClass) (addr bw : Nat) (data : UInt32) : Prop where
  back : ∃ m', m.write addr data bw = some m' ∧ m'.read addr bw = some (truncate bw data) ∧
    ∀ b, ¬ (elementStart bw addr ≤ b ∧ b < elementStart bw addr + elementSize bw) → m'.bytes b = m.bytes b
  inside : ∀ b, b ∈ readBytes bw addr ∨ b ∈ writeBytes bw addr → b < m.size

/-- The word that is fetched ends inside the memory. -/
def FetchInside (m : MemClass) (bw addr : Nat) : Prop := fetchStart bw addr + 4 ≤ m.size

/-- A half word is at an even address, or its two bytes and the old byte behind the address are all the same. -/
def HalfAligned (m : MemClass) (addr bw : Nat) (data : UInt32) : Prop :=
  bw = MEM_HWORD → addr % 2 = 0 ∨
    data.toNat / 256 % 256 = data.toNat % 256 ∧ (m.bytes (addr + 1)).toNat = data.toNat % 256

theorem inside_iff (hbw : bw < 3) :
    (∀ b, b ∈ readBytes bw addr ∨ b ∈ writeBytes bw addr → b < m.size) ↔ FetchInside m bw addr := by
  simp only [readBytes, writeBytes, mem_deref, FetchInside]
  constructor
  · intro h
    exact h (fetchStart bw addr + 3) (Or.inl (by omega))
  · rintro h b (hb | hb)
    · omega
    · obtain rfl | rfl | rfl := width_cases hbw <;>
        simp [elementStart, elementSize, fetchStart, MEM_WORD, MEM_BYTE, MEM_HWORD, hwordAlign] at h hb <;> omega

/-- At an odd address the half word that is read is the upper byte of the one that was written and the byte behind it. -/
theorem read_odd (hodd : addr % 2 = 1) :
    (((m.store (hwordAlign addr) 2 (data &&& 0x0000FFFF)).word addr) &&& 0x0000FFFF).toNat =
      data.toNat / 256 % 256 + 256 * (m.bytes (addr + 1)).toNat := by
  have h0 : ((m.store (hwordAlign addr) 2 (data &&& 0x0000FFFF)).bytes addr).toNat = data.toNat / 256 % 256 := by
    rw [bytes_store, if_pos (by unfold hwordAlign; omega), and_half,
      show addr - hwordAlign addr = 1 by unfold hwordAlign; omega]
    simp only [Nat.pow_one, UInt8.toNat_ofNat']
    omega
  have h1 : (m.store (hwordAlign addr) 2 (data &&& 0x0000FFFF)).bytes (addr + 1) = m.bytes (addr + 1) := by
    rw [bytes_store, if_neg (by unfold hwordAlign; omega)]
  have hlt := (m.bytes (addr + 1)).toNat_lt
  rw [and_half, word_toNat, h0, h1]
  omega

/-- The data come back exactly under the condition on half words. -/
theorem back_iff (hbw : bw < 3) (h : addr < m.size) :
    (m.store (elementStart bw addr) (elementSize bw) (truncate bw data)).read addr bw = some (truncate bw data) ↔
      HalfAligned m addr bw data := by
  have hwrite := write_inside (m := m) hbw h data
  by_cases hhalf : bw = MEM_HWORD → addr % 2 = 0
  · exact iff_of_true (read_write hwrite hhalf) fun hh => Or.inl (hhalf hh)
  · rw [Classical.not_imp] at hhalf
    obtain ⟨rfl, hodd⟩ := hhalf
    have hodd : addr % 2 = 1 := by omega
    have hlt := (m.bytes (addr + 1)).toNat_lt
    rw [read_fetch hbw (by simpa using h), Option.some_inj, ← UInt32.toNat_inj]
    show (((m.store (hwordAlign addr) 2 (data &&& 0x0000FFFF)).word addr) &&& 0x0000FFFF).toNat =
      (data &&& 0x0000FFFF).toNat ↔ _
    have hdigits : data.toNat % 65536 = data.toNat % 256 + 256 * (data.toNat / 256 % 256) := by omega
    have hb0 := Nat.mod_lt data.toNat (Nat.zero_lt_succ 255)
    have hb1 := Nat.mod_lt (data.toNat / 256) (Nat.zero_lt_succ 255)
    rw [read_odd hodd, and_half, hdigits]
    constructor
    · intro heq _
      exact Or.inr ⟨by omega, by omega⟩
    · intro hal
      obtain heven | ⟨hb, hold⟩ := hal rfl
      · omega
      · omega

/-- **Read after write**, for every size, address, width and data word. -/
theorem writeRead_iff (hbw : bw < 3) (h : addr < m.size) :
    WriteRead m addr bw data ↔ FetchInside m bw addr ∧ HalfAligned m addr bw data := by
  have hwrite := write_inside (m := m) hbw h data
  constructor
  · rintro ⟨⟨m', hw, hr, -⟩, hin⟩
    rw [hwrite] at hw
    obtain rfl := Option.some.inj hw
    exact ⟨(inside_iff hbw).1 hin, (back_iff hbw h).1 hr⟩
  · rintro ⟨hin, hal⟩
    refine ⟨⟨_, hwrite, (back_iff hbw h).2 hal, fun b hb => ?_⟩, (inside_iff hbw).2 hin⟩
    exact write_frame_bytes hwrite fun hmem => hb (mem_deref.1 hmem)

/-- A memory of eight bytes, all zero. -/
def eight : MemClass := new 8

/-- A half word written at address 1 goes to the bytes 0 and 1 and is read from the bytes 1 and 2; and the
read of the last byte loads the bytes 8, 9 and 10 behind the memory. -/
theorem not_writeRead : ¬ WriteRead eight 1 MEM_HWORD 0x1234 ∧ ¬ WriteRead eight 7 MEM_BYTE 0x12 ∧
    10 ∈ readBytes MEM_BYTE 7 := by
  refine ⟨fun hwr => ?_, fun hwr => ?_, by decide⟩
  · obtain ⟨m', hw, hr, -⟩ := hwr.back
    obtain rfl := Option.some.inj hw
    exact absurd (Option.some.inj hr) (by decide)
  · exact absurd (hwr.inside 8 (Or.inl (by decide))) (by decide)

theorem writeRead_eight : WriteRead eight 2 MEM_HWORD 0x1234 :=
  (writeRead_iff (by decide) (by decide)).2 ⟨by unfold FetchInside; decide, fun _ => Or.inl rfl⟩

end VirtualSoc.MemClass
