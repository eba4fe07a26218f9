import VirtualSoc.Core.Memory

/-!
# `PINOUT` and the address map (core/PINOUT.h, core/config.h, core/address.cpp)

Addresses are `uint32_t`: naturals below `2 ^ 32`, with the wrap written where the source's
arithmetic can reach it. The fields of `PINOUT` that the interconnects neither read nor
write (`fiq`, `irq`, `benable`, `id`) are left out.
-/

namespace VirtualSoc

/-- `PINOUT` with the values its constructor gives (PINOUT.h:17). `rw` is true for a write,
`bw` the access width, `burst` the number of beats. -/
structure Pinout where
  address : Nat := 0xDEADBEEF
  data : UInt32 := 0xDEADBEEF
  rw : Bool := false
  bw : Nat := 0
  burst : Nat := 0
deriving DecidableEq, Repr, Inhabited

/-! ## config.h -/

def TILE_SPACING : Nat := 0x10000000
def CL_WORD : Nat := 4
def CL_TCDM_BASE : Nat := 0x08000000
def CL_TCDM_SIZE : Nat := 0x00080000
def CL_TCDM_TAS_SIZE : Nat := 0x00000200
def CL_L3_BASE : Nat := 0x00000000
def CL_L3_SIZE : Nat := 0x08000000
def CL_SEM_BASE : Nat := 0x09000000
def CL_SEM_SIZE : Nat := 0x00004000
def CL_DMA_BASE : Nat := 0x0A000000
def CL_DMA_SIZE : Nat := 0x00001000
def HWS_BASE : Nat := 0x0B000000
def HWS_SIZE : Nat := 0x00001000
def COUNTER_BASE_ADDR : Nat := 0x0D000000
def COUNTER_MEM_SIZE : Nat := 0x10
def ACCELERATOR_BASE_ADDR : Nat := 0x0C000000
def ACCELERATOR_MEM_SIZE : Nat := 0x00100000

/-! ## `Addresser` -/

/-- `(uint32_t)(tile_id*TILE_SPACING + off)`. -/
def tileAddr (tile off : Nat) : Nat := (tile * TILE_SPACING + off) % 2 ^ 32

/-- The shape of the `IsIn..Space` predicates: `base <= address < base + size` in a tile. -/
def inSpace (base size address tile : Nat) : Bool :=
  decide (tileAddr tile base ≤ address ∧ address < tileAddr tile (base + size))

/-- The test-and-set words are the top of the TCDM (address.cpp:23). -/
def isInTaSSpace : Nat → Nat → Bool :=
  inSpace (CL_TCDM_BASE + CL_TCDM_SIZE - CL_TCDM_TAS_SIZE) CL_TCDM_TAS_SIZE

def isInSemSpace : Nat → Nat → Bool := inSpace CL_SEM_BASE CL_SEM_SIZE
def isInL3Space : Nat → Nat → Bool := inSpace CL_L3_BASE CL_L3_SIZE
def isInHWSSpace : Nat → Nat → Bool := inSpace HWS_BASE HWS_SIZE
def isInCOUNTERSpace : Nat → Nat → Bool := inSpace COUNTER_BASE_ADDR COUNTER_MEM_SIZE
def isInACCELERATORSpace : Nat → Nat → Bool := inSpace ACCELERATOR_BASE_ADDR ACCELERATOR_MEM_SIZE

/-- `IsInDmaSpace` (address.cpp:63) takes the end address in as well, unlike the others. -/
def isInDmaSpace (address tile : Nat) : Bool :=
  decide (tileAddr tile CL_DMA_BASE ≤ address ∧ address ≤ tileAddr tile (CL_DMA_BASE + CL_DMA_SIZE))

/-! ## The word interleaving of the TCDM banks -/

/-- `cl_lic::GetTcdmBankId` (cl_lic.cpp:13). -/
def getTcdmBankId (nBanks address : Nat) : Nat := address / CL_WORD % nBanks

/-- `n_bit_shift = log2(N_CL_BANKS)+2` (cl_memory.h:103). -/
def nBitShift (nBanks : Nat) : Nat := Nat.log2 nBanks + 2

/-- `Mem_class::get_local_bank_addr` (mem_class.h:35). -/
def getLocalBankAddr (addr nBitShift : Nat) : Nat := (addr >>> nBitShift) * CL_WORD + addr % CL_WORD

/-- `cl_memory::addressing` of a shared bank (cl_memory.h:32). -/
def bankAddressing (nBanks address : Nat) : Nat :=
  getLocalBankAddr ((address + 2 ^ 32 - CL_TCDM_BASE) % 2 ^ 32) (nBitShift nBanks)

/-- `cl_1st_stage_demux::IsInTcdmSpace` (cl_1st_stage_demux.cpp:3): what the demux of each
core sends to the local interconnect. -/
def demuxIsInTcdmSpace (address : Nat) : Bool :=
  decide (CL_TCDM_BASE ≤ address ∧ address < CL_TCDM_BASE + CL_TCDM_SIZE)

theorem demux_iff {a : Nat} : demuxIsInTcdmSpace a = true ↔ 0x08000000 ≤ a ∧ a < 0x08080000 :=
  decide_eq_true_iff

theorem bankAddressing_eq {nBanks a : Nat} (ha : demuxIsInTcdmSpace a = true) :
    bankAddressing nBanks a = (a - CL_TCDM_BASE) / 4 / 2 ^ Nat.log2 nBanks * 4 + a % 4 := by
  rw [demux_iff] at ha
  have hsub : (a + 2 ^ 32 - CL_TCDM_BASE) % 2 ^ 32 = a - CL_TCDM_BASE := by
    simp only [CL_TCDM_BASE]; omega
  have hmod : (a - CL_TCDM_BASE) % 4 = a % 4 := by simp only [CL_TCDM_BASE]; omega
  rw [bankAddressing, hsub, getLocalBankAddr, nBitShift, Nat.shiftRight_eq_div_pow, CL_WORD, hmod,
    Nat.pow_add, Nat.mul_comm (2 ^ _), ← Nat.div_div_eq_div_mul]

/-- Two words of one bank never share a local word. -/
theorem local_word_inj {nBanks a b : Nat} (ha : demuxIsInTcdmSpace a = true)
    (hb : demuxIsInTcdmSpace b = true) (hn : 0 < nBanks)
    (hbank : getTcdmBankId nBanks a = getTcdmBankId nBanks b)
    (hloc : bankAddressing nBanks a / 4 = bankAddressing nBanks b / 4) : a / 4 = b / 4 := by
  rw [bankAddressing_eq ha, bankAddressing_eq hb] at hloc
  rw [demux_iff] at ha hb
  have hlog : 2 ^ Nat.log2 nBanks ≤ nBanks := Nat.log2_self_le (by omega)
  have hpos : 0 < 2 ^ Nat.log2 nBanks := Nat.pow_pos (by omega)
  generalize 2 ^ Nat.log2 nBanks = q at hlog hpos hloc
  simp only [CL_TCDM_BASE] at hloc
  -- the local words agree, so the word indices are closer than the bank count
  have hq : (a - 0x08000000) / 4 / q = (b - 0x08000000) / 4 / q := by omega
  have hda := Nat.div_add_mod ((a - 0x08000000) / 4) q
  have hdb := Nat.div_add_mod ((b - 0x08000000) / 4) q
  have hma := Nat.mod_lt ((a - 0x08000000) / 4) hpos
  have hmb := Nat.mod_lt ((b - 0x08000000) / 4) hpos
  rw [hq] at hda
  have hclose : a / 4 < b / 4 + nBanks ∧ b / 4 < a / 4 + nBanks := by omega
  -- and congruent modulo it
  have hmod : a / 4 % nBanks = b / 4 % nBanks := hbank
  have h1 := Nat.sub_mod_eq_zero_of_mod_eq hmod
  have h2 := Nat.sub_mod_eq_zero_of_mod_eq hmod.symm
  rw [Nat.mod_eq_of_lt (by omega)] at h1 h2
  omega

theorem bankAddressing_mod {nBanks a : Nat} (ha : demuxIsInTcdmSpace a = true) :
    bankAddressing nBanks a % 4 = a % 4 := by
  rw [bankAddressing_eq ha]; omega

end VirtualSoc
