import Mathlib.Tactic.Ring
import VirtualSoc.Lib.Loop
import VirtualSoc.Lib.Mask
import VirtualSoc.Lib.Slots
import VirtualSoc.Lib.Transition
import VirtualSoc.Core.Bus

/-!
# The instruction cache (core/cache_module.cpp, core/cache_RPU.cpp, core/cache_storagetypes.cpp)

`cache_module` answers the fetches of one core. Its `RPU` keeps the lines in a storage, which is direct
mapped (`assoc_num` 0), fully associative (1) or set associative (more); a refill reads the four words of
the missed line from the memory and writes each of them with `write_data`.

Addresses, sizes and counters are `uint32_t`, and so they are here; arrays are functions on naturals.
An `int` that can be -1 is an option. The memory is not written, so it is the function from the address of
a word to the word. What only statistics and writes use is left out: dirty bits and locations, `update_data`,
the tables of misses, `usage`.
-/

namespace VirtualSoc.Cache

/-- `Ch_replace_type`, in the order of its numbers. -/
inductive ReplaceType | random | fifo | lru
deriving DecidableEq, Repr

/-! ## cache_address -/

structure CacheAddress where
  offsetMask : UInt32
  indexMask : UInt32
  tagMask : UInt32
  tagOff : UInt32
  cacheLine : UInt32

def cacheAddress (size lineSz associateNum : UInt32) : CacheAddress :=
  if 1 < associateNum then
    { offsetMask := lineSz - 1
      indexMask := (size / associateNum - 1) - (lineSz - 1)
      tagMask := ~~~(size / associateNum - 1)
      tagOff := size / associateNum
      cacheLine := lineSz }
  else if associateNum = 0 then
    { offsetMask := lineSz - 1
      indexMask := (size - 1) - (lineSz - 1)
      tagMask := ~~~(size - 1)
      tagOff := size
      cacheLine := lineSz }
  else
    { offsetMask := lineSz - 1
      indexMask := 0
      tagMask := ~~~(lineSz - 1)
      tagOff := lineSz
      cacheLine := lineSz }

def CacheAddress.getOffset (c : CacheAddress) (addr : UInt32) : UInt32 := addr &&& c.offsetMask
def CacheAddress.getIndex (c : CacheAddress) (addr : UInt32) : UInt32 := (addr &&& c.indexMask) / c.cacheLine
def CacheAddress.getTag (c : CacheAddress) (addr : UInt32) : UInt32 := (addr &&& c.tagMask) / c.tagOff

/-! ## The storages -/

/-- `Cache_record`: `Ch_Tag`, `Ch_Valid` and the words `Ch_Data`. -/
abbrev CacheRecord := Slots.Slot UInt32 (Nat → UInt32)

/-- `storing` of a `direct_storage` or a `full_storage`. -/
abbrev Records := Nat → CacheRecord

def writeTag (st : Records) (addr : Nat) (tag : UInt32) : Records :=
  Function.update st addr { st addr with tag := tag }

def writeCache (st : Records) (addr : Nat) (data : UInt32) (loc : Nat) : Records :=
  Function.update st addr
    { st addr with data := Function.update (st addr).data loc data, valid := true }

/-- `full_storage::return_index`: the first record with the tag, valid or not. -/
def returnIndex (st : Records) (numRecords : Nat) (tag : UInt32) : Option Nat :=
  (List.range numRecords).find? fun i => (st i).tag = tag

/-- `full_storage::read_cache`: without a record with the tag, the last one. -/
def fullReadCache (st : Records) (numRecords : Nat) (tag : UInt32) : CacheRecord :=
  match returnIndex st numRecords tag with
  | some i => st i
  | none => st (numRecords - 1)

/-- `full_storage::write_cache`. -/
def fullWriteCache (st : Records) (numRecords : Nat) (tag data : UInt32) (loc : Nat) : Records :=
  match returnIndex st numRecords tag with
  | some i => writeCache st i data loc
  | none => st

/-! ## RPU -/

/-- What the constructors are given. -/
structure Config where
  size : UInt32
  line : UInt32
  assocNum : UInt32
  replaceType : ReplaceType
  tid : UInt32

namespace Config

variable (c : Config)

def address : CacheAddress := cacheAddress c.size c.line c.assocNum

/-- The first address of the tile of the core. -/
def spacing : UInt32 := c.tid * UInt32.ofNat TILE_SPACING

/-- `num_records` of the full storage. -/
def numRecords : Nat := (c.size / c.line).toNat

def index (addr : UInt32) : Nat := (c.address.getIndex addr).toNat
def tag (addr : UInt32) : UInt32 := c.address.getTag addr
def off (addr : UInt32) : Nat := (c.address.getOffset addr >>> 2).toNat

end Config

/-- `storing` has one array of records for each way, `info` is `Ch_info`, by way and index. The direct and
the full storage are their way 0. -/
structure Rpu where
  storing : Nat → Records
  info : Nat → Nat → UInt32
  nextIp : UInt32

variable (c : Config)

/-- `check_exist`, the way of the hit; the two storages without ways answer 1. -/
def checkExist (s : Rpu) (addr : UInt32) : Option Nat :=
  if c.assocNum = 0 then
    let record := s.storing 0 (c.index addr)
    if c.tag addr = record.tag ∧ record.valid = true then some 1 else none
  else if c.assocNum = 1 then
    let record := fullReadCache (s.storing 0) c.numRecords (c.tag addr)
    if c.tag addr = record.tag ∧ record.valid = true then some 1 else none
  else
    (List.range c.assocNum.toNat).find? fun i =>
      let record := s.storing i (c.index addr)
      c.tag addr = record.tag ∧ record.valid = true

def setInfo (info : Nat → Nat → UInt32) (way i : Nat) (v : UInt32) : Nat → Nat → UInt32 :=
  Function.update info way (Function.update (info way) i v)

/-- The use of a way under LRU: every way of the set grows older but this one. -/
def touch (info : Nat → Nat → UInt32) (index way : Nat) : Nat → Nat → UInt32 :=
  setInfo (fun l x => if l < c.assocNum.toNat ∧ x = index then info l x + 1 else info l x) way index 0

/-- `read_data`; none where the code leaves an array at -1. -/
def readData (s : Rpu) (addr : UInt32) (i : Option Nat) : Option (Rpu × UInt32) :=
  if c.assocNum = 0 then
    some (s, (s.storing 0 (c.index addr)).data (c.off addr))
  else if c.assocNum = 1 then
    let data := (fullReadCache (s.storing 0) c.numRecords (c.tag addr)).data (c.off addr)
    if c.replaceType = .lru then
      (returnIndex (s.storing 0) c.numRecords (c.tag addr)).map fun k =>
        ({ s with
           info := setInfo (fun l x => if l = 0 ∧ x < c.numRecords then s.info l x + 1 else s.info l x) 0 k 0 },
          data)
    else some (s, data)
  else
    i.map fun i =>
      ({ s with info := if c.replaceType = .lru then touch c s.info (c.index addr) i else s.info },
        (s.storing i (c.index addr)).data (c.off addr))

/-- `write_data`. -/
def writeData (s : Rpu) (addr data : UInt32) (loc : Nat) : Rpu :=
  let index := c.index addr
  let tag := c.tag addr
  let off := c.off addr
  if c.assocNum = 0 then
    { s with
      storing := Function.update s.storing 0 (writeCache (writeTag (s.storing 0) index tag) index data off) }
  else if c.assocNum = 1 then
    { storing := Function.update s.storing 0
        (fullWriteCache (writeTag (s.storing 0) loc tag) c.numRecords tag data off)
      info := match c.replaceType with
        | .random => s.info
        | .fifo => setInfo s.info 0 loc s.nextIp
        | .lru => setInfo s.info 0 loc 0
      nextIp := if c.replaceType = .fifo then s.nextIp + 1 else s.nextIp }
  else
    let loc1 := (checkExist c s addr).getD loc
    { storing := Function.update s.storing loc1
        (writeCache (writeTag (s.storing loc1) index tag) index data off)
      info := match c.replaceType with
        | .random => s.info
        | .fifo => setInfo s.info loc1 index s.nextIp
        | .lru => touch c s.info index loc1
      nextIp := if c.replaceType = .fifo then s.nextIp + 1 else s.nextIp }

/-- The scan of `where_to`: a later entry takes the place of one that it beats. -/
def pick (beats : UInt32 → UInt32 → Bool) (info : Nat → UInt32) (n : Nat) : Nat :=
  (List.range' 1 (n - 1)).foldl (fun temp i => if beats (info temp) (info i) then i else temp) 0

/-- `where_to`, with the number that `rand` gives. A direct cache does not ask it. -/
def whereTo (s : Rpu) (indx : Nat) (rnd : UInt32) : Nat :=
  match c.replaceType with
  | .random =>
    if c.assocNum = 1 then (rnd % (c.size / (c.line * c.assocNum))).toNat else (rnd % c.assocNum).toNat
  | .fifo =>
    if c.assocNum = 1 then pick (fun x y => y < x) (s.info 0) c.numRecords
    else pick (fun x y => y < x) (fun i => s.info i indx) c.assocNum.toNat
  | .lru =>
    if c.assocNum = 1 then pick (fun x y => x < y) (s.info 0) c.numRecords
    else pick (fun x y => x < y) (fun i => s.info i indx) c.assocNum.toNat

/-- `reset` of the storages. -/
def resetCache (s : Rpu) : Rpu := { s with storing := fun way => Slots.clear (s.storing way) }

/-! ## cache_module -/

variable (mem : UInt32 → UInt32)

/-- `read_from_mem`: each beat of the burst is written as it comes. -/
def readFromMem (s : Rpu) (missedAddr : UInt32) (missedBurst : Nat) (missLoc : Nat) : Rpu :=
  (List.range missedBurst).foldl (fun s i =>
    let missedAddr := missedAddr + 4 * UInt32.ofNat i
    writeData c s (missedAddr - c.spacing) (mem missedAddr) missLoc) s

/-- The beats that the core is given, from one place of the lookup. -/
def readBeats (s : Rpu) (addr : UInt32) (ind : Option Nat) : Nat → Option (Rpu × List UInt32)
  | 0 => some (s, [])
  | burst + 1 =>
    (readData c s addr ind).bind fun (s', data) =>
      (readBeats s' (addr + 4) ind burst).map fun (s'', rest) => (s'', data :: rest)

/-- Where a miss of `addr` goes. -/
def missLoc (s : Rpu) (addr : UInt32) (rnd : UInt32) : Nat :=
  if c.assocNum ≠ 0 then whereTo c s (c.index addr) rnd else 0

/-- The RPU after the refill of a missed line. -/
def refill (s : Rpu) (addr : UInt32) (rnd : UInt32) : Rpu :=
  readFromMem c mem s ((addr + c.spacing) &&& 0xFFFFFFF0) 4 (missLoc c s addr rnd)

/-- `handle_request` for a read of `burst` words (`bw` 0, `benable` set); none where it calls `exit`. -/
def handleRequest (s : Rpu) (address : UInt32) (burst : Nat) (rnd : UInt32) : Option (Rpu × List UInt32) :=
  let addr := address - c.spacing
  if 0x19000000 ≤ addr then none
  else match checkExist c s addr with
    | some ind => readBeats c s addr (some ind) burst
    | none =>
      let s := refill c mem s addr rnd
      readBeats c s addr (checkExist c s addr) burst

/-- What can happen to the cache. `rnd` is what `rand` gives if the fetch asks for it. -/
inductive Action
  | fetch (address : UInt32) (burst : Nat) (rnd : UInt32)
  | reset
deriving DecidableEq, Repr

def step (s : Rpu) : Action → Option Rpu
  | .fetch address burst rnd => (handleRequest c mem s address burst rnd).map Prod.fst
  | .reset => some (resetCache s)

/-! ## The geometry -/

/-- A power of two of bytes in lines of 16, with no ways or a power of two of them, each of at least one
line. -/
structure Config.Geometry : Prop where
  line : c.line = 16
  size : ∃ k, c.size.toNat = 2 ^ k
  ways : c.assocNum = 0 ∨ ∃ j, c.assocNum.toNat = 2 ^ j
  fits : 16 * max c.assocNum.toNat 1 ≤ c.size.toNat

/-- The lines of one way, or 1 in a full cache. -/
def Config.lines : Nat := c.address.tagOff.toNat / 16

/-- The address, in the tile, of the line that a tag and an index stand for. -/
def Config.lineAddress (tag : UInt32) (i : Nat) : UInt32 := tag * c.address.tagOff + UInt32.ofNat i * c.line

/-- The words of a record are those of the line that its tag and index stand for. -/
def Holds (i : Nat) (tag : UInt32) (data : Nat → UInt32) : Prop :=
  ∀ k, k < 4 → data k = mem (c.lineAddress tag i + c.spacing + 4 * UInt32.ofNat k)

/-- The word that the byte at the address belongs to, and those after it. -/
def words (address : UInt32) (burst : Nat) : List UInt32 :=
  (List.range burst).map fun j => mem (address / 4 * 4 + 4 * UInt32.ofNat j)

variable {c} {mem}

/-- What the masks are for ways of `2 ^ w` bytes. -/
structure CacheAddress.Masks (x : CacheAddress) (w : Nat) : Prop where
  le : 4 ≤ w
  lt : w < 32
  tagOff : x.tagOff.toNat = 2 ^ w
  indexMask : x.indexMask.toNat = 2 ^ w - 16
  tagMask : x.tagMask.toNat = 2 ^ 32 - 2 ^ w
  offsetMask : x.offsetMask = 15
  cacheLine : x.cacheLine = 16

theorem masks_of {t : UInt32} {w : Nat} (ht : t.toNat = 2 ^ w) (hw : 16 ≤ 2 ^ w) :
    CacheAddress.Masks
      { offsetMask := 16 - 1, indexMask := (t - 1) - (16 - 1), tagMask := ~~~(t - 1), tagOff := t, cacheLine := 16 }
      w := by
  have hlt : 2 ^ w < 2 ^ 32 := by rw [← ht]; exact t.toNat_lt
  have h1 : (1 : UInt32).toNat = 1 := rfl
  have h16 : (16 : UInt32).toNat = 16 := rfl
  refine ⟨?_, ?_, ht, ?_, ?_, rfl, rfl⟩
  · by_contra hlt
    have : 2 ^ w ≤ 2 ^ 3 := Nat.pow_le_pow_right (by omega) (by omega)
    omega
  · exact (Nat.pow_lt_pow_iff_right (by omega)).1 hlt
  · rw [UInt32.toNat_sub, UInt32.toNat_sub, UInt32.toNat_sub, ht, h1, h16]
    omega
  · rw [UInt32.toNat_not, UInt32.toNat_sub, ht, h1, UInt32.size]
    omega

theorem Config.Geometry.masks (h : c.Geometry) : ∃ w, c.address.Masks w := by
  obtain ⟨k, hk⟩ := h.size
  have hfits := h.fits
  have hpos : 16 ≤ c.size.toNat := by omega
  unfold Config.address cacheAddress
  rw [h.line]
  rcases h.ways with h0 | ⟨j, hj⟩
  · rw [if_neg (by rw [h0]; decide), if_pos h0]
    exact ⟨k, masks_of hk (hk ▸ hpos)⟩
  · have hne : c.assocNum ≠ 0 := by
      intro h0
      rw [h0] at hj
      exact absurd hj.symm (Nat.two_pow_pos j).ne'
    by_cases h1 : 1 < c.assocNum
    · rw [if_pos h1]
      have hle : 16 * 2 ^ j ≤ 2 ^ k := by rw [← hj, ← hk]; omega
      have hjk : j ≤ k := by
        by_contra hlt
        have : 2 ^ k ≤ 2 ^ j := Nat.pow_le_pow_right (by omega) (by omega)
        have := Nat.two_pow_pos j
        omega
      have hsize : (c.size / c.assocNum).toNat = 2 ^ (k - j) := by
        rw [UInt32.toNat_div, hk, hj, Nat.pow_div hjk (by omega)]
      refine ⟨k - j, masks_of hsize ?_⟩
      rw [← Nat.pow_div hjk (by omega)]
      exact (Nat.le_div_iff_mul_le (Nat.two_pow_pos j)).2 hle
    · rw [if_neg h1, if_neg hne]
      exact ⟨4, by norm_num, by norm_num, rfl, rfl, rfl, rfl, rfl⟩

/-! The fields of an address are the fields of the number of its line. -/

theorem Config.Geometry.tagOff_eq (h : c.Geometry) : c.address.tagOff.toNat = 16 * c.lines := by
  obtain ⟨w, hw⟩ := h.masks
  have : 2 ^ w = 16 * 2 ^ (w - 4) := by
    rw [show (16 : Nat) = 2 ^ 4 from rfl, ← Nat.pow_add, Nat.add_sub_cancel' hw.le]
  have := hw.tagOff
  unfold Config.lines
  omega

theorem Config.Geometry.tag_toNat (h : c.Geometry) (a : UInt32) :
    (c.tag a).toNat = a.toNat / 16 / c.lines := by
  obtain ⟨w, hw⟩ := h.masks
  have hmask : 2 ^ 32 - 2 ^ w = (2 ^ (32 - w) - 1) * 2 ^ w := by
    rw [Nat.sub_mul, ← Nat.pow_add, Nat.sub_add_cancel hw.lt.le, Nat.one_mul]
  have hdiv : a.toNat / 2 ^ w < 2 ^ (32 - w) := by
    rw [Nat.div_lt_iff_lt_mul (Nat.two_pow_pos w), ← Nat.pow_add, Nat.sub_add_cancel hw.lt.le]
    exact a.toNat_lt
  rw [Nat.div_div_eq_div_mul, ← h.tagOff_eq]
  unfold Config.tag CacheAddress.getTag
  rw [UInt32.toNat_div, UInt32.toNat_and, hw.tagMask, hw.tagOff, hmask, Mask.and_field,
    Nat.mod_eq_of_lt hdiv, Nat.mul_div_cancel _ (Nat.two_pow_pos w)]

theorem Config.Geometry.index_eq (h : c.Geometry) (a : UInt32) : c.index a = a.toNat / 16 % c.lines := by
  obtain ⟨w, hw⟩ := h.masks
  have hlines : c.lines = 2 ^ (w - 4) := by
    unfold Config.lines
    rw [hw.tagOff, show (16 : Nat) = 2 ^ 4 from rfl, Nat.pow_div hw.le (by omega)]
  have hmask : 2 ^ w - 16 = (2 ^ (w - 4) - 1) * 2 ^ 4 := by
    rw [Nat.sub_mul, ← Nat.pow_add, Nat.sub_add_cancel hw.le]
    norm_num
  unfold Config.index CacheAddress.getIndex
  rw [UInt32.toNat_div, UInt32.toNat_and, hw.indexMask, hw.cacheLine, hmask, Mask.and_field, hlines]
  exact Nat.mul_div_cancel _ (by omega)

theorem Config.Geometry.off_eq (h : c.Geometry) (a : UInt32) : c.off a = a.toNat % 16 / 4 := by
  obtain ⟨w, hw⟩ := h.masks
  unfold Config.off CacheAddress.getOffset
  rw [hw.offsetMask, UInt32.toNat_shiftRight, UInt32.toNat_and, Nat.shiftRight_eq_div_pow]
  have : a.toNat &&& (15 : UInt32).toNat = a.toNat % 2 ^ 4 := Nat.and_two_pow_sub_one_eq_mod _ 4
  rw [this]
  rfl

theorem Config.Geometry.lines_pos (h : c.Geometry) : 0 < c.lines := by
  obtain ⟨w, hw⟩ := h.masks
  have hpos := Nat.two_pow_pos w
  have := hw.tagOff
  have := h.tagOff_eq
  omega

/-- An index is that of a record of the way. -/
theorem Config.Geometry.index_lt (h : c.Geometry) (a : UInt32) : c.index a < c.lines := by
  rw [h.index_eq]
  exact Nat.mod_lt _ h.lines_pos

theorem Config.Geometry.tag_congr (h : c.Geometry) {a b : UInt32} (hab : a.toNat / 16 = b.toNat / 16) :
    c.tag a = c.tag b := by
  apply UInt32.toNat_inj.1
  rw [h.tag_toNat, h.tag_toNat, hab]

theorem Config.Geometry.index_congr (h : c.Geometry) {a b : UInt32} (hab : a.toNat / 16 = b.toNat / 16) :
    c.index a = c.index b := by
  rw [h.index_eq, h.index_eq, hab]

theorem lineBase_toNat (a : UInt32) : (a / 16 * 16).toNat = a.toNat / 16 * 16 := by
  have h16 : (16 : UInt32).toNat = 16 := rfl
  have := a.toNat_lt
  rw [UInt32.toNat_mul, UInt32.toNat_div, h16]
  omega

/-- The tag and the index of an address stand for its line. -/
theorem Config.Geometry.lineAddress_eq (h : c.Geometry) (a : UInt32) :
    c.lineAddress (c.tag a) (c.index a) = a / 16 * 16 := by
  have hline : c.line.toNat = 16 := by rw [h.line]; rfl
  have hlt := h.index_lt a
  have hle : c.lines ≤ c.address.tagOff.toNat := by have := h.tagOff_eq; omega
  have hindex : (UInt32.ofNat (c.index a)).toNat = c.index a :=
    UInt32.toNat_ofNat_of_lt' (by have := c.address.tagOff.toNat_lt; rw [UInt32.size]; omega)
  have hsum : a.toNat / 16 / c.lines * (16 * c.lines) + a.toNat / 16 % c.lines * 16 = a.toNat / 16 * 16 := by
    have := Nat.div_add_mod (a.toNat / 16) c.lines
    calc a.toNat / 16 / c.lines * (16 * c.lines) + a.toNat / 16 % c.lines * 16
        = (c.lines * (a.toNat / 16 / c.lines) + a.toNat / 16 % c.lines) * 16 := by ring
      _ = a.toNat / 16 * 16 := by rw [this]
  apply UInt32.toNat_inj.1
  unfold Config.lineAddress
  rw [UInt32.toNat_add, UInt32.toNat_mul, UInt32.toNat_mul, hindex, hline, h.tagOff_eq, h.tag_toNat,
    h.index_eq, lineBase_toNat, ← Nat.add_mod, hsum]
  have := a.toNat_lt
  exact Nat.mod_eq_of_lt (by omega)

/-! ## The addresses of a refill -/

theorem Config.spacing_mod (c : Config) : c.spacing.toNat % 16 = 0 := by
  have htile : (UInt32.ofNat TILE_SPACING).toNat = 268435456 := rfl
  unfold Config.spacing
  rw [UInt32.toNat_mul, htile]
  omega

/-- The missed address is the first of the line. -/
theorem missedAddr_eq (c : Config) (a : UInt32) :
    (a + c.spacing) &&& 0xFFFFFFF0 = a / 16 * 16 + c.spacing := by
  have hmask : (0xFFFFFFF0 : UInt32).toNat = (2 ^ 28 - 1) * 2 ^ 4 := rfl
  have hmod := c.spacing_mod
  have := a.toNat_lt
  have := c.spacing.toNat_lt
  apply UInt32.toNat_inj.1
  rw [UInt32.toNat_and, hmask, Mask.and_field, UInt32.toNat_add, UInt32.toNat_add, lineBase_toNat]
  omega

/-- The address, in the tile, of word `i` of the line of `a`. -/
def wordOf (a : UInt32) (i : Nat) : UInt32 := a / 16 * 16 + 4 * UInt32.ofNat i

theorem wordOf_toNat (a : UInt32) {i : Nat} (hi : i < 4) : (wordOf a i).toNat = a.toNat / 16 * 16 + 4 * i := by
  have h4 : (4 : UInt32).toNat = 4 := rfl
  have hofNat : (UInt32.ofNat i).toNat = i := UInt32.toNat_ofNat_of_lt' (by rw [UInt32.size]; omega)
  have := a.toNat_lt
  unfold wordOf
  rw [UInt32.toNat_add, lineBase_toNat, UInt32.toNat_mul, hofNat, h4]
  omega

theorem wordOf_line (a : UInt32) {i : Nat} (hi : i < 4) : (wordOf a i).toNat / 16 = a.toNat / 16 := by
  rw [wordOf_toNat a hi]
  omega

theorem Config.Geometry.off_wordOf (h : c.Geometry) (a : UInt32) {i : Nat} (hi : i < 4) :
    c.off (wordOf a i) = i := by
  rw [h.off_eq, wordOf_toNat a hi]
  omega

theorem add_spacing_div (c : Config) (a : UInt32) :
    (a + c.spacing) / 4 * 4 = a / 4 * 4 + c.spacing := by
  have h4 : (4 : UInt32).toNat = 4 := rfl
  have hmod := c.spacing_mod
  have := a.toNat_lt
  have := c.spacing.toNat_lt
  apply UInt32.toNat_inj.1
  rw [UInt32.toNat_mul, UInt32.toNat_div, UInt32.toNat_add, UInt32.toNat_add, UInt32.toNat_mul,
    UInt32.toNat_div, h4]
  omega

theorem word_eq (a : UInt32) : a / 4 * 4 = wordOf a (a.toNat % 16 / 4) := by
  have h4 : (4 : UInt32).toNat = 4 := rfl
  have := a.toNat_lt
  apply UInt32.toNat_inj.1
  rw [wordOf_toNat a (by omega), UInt32.toNat_mul, UInt32.toNat_div, h4]
  omega

theorem wordOf_missed (c : Config) (a : UInt32) (k : Nat) :
    a / 16 * 16 + c.spacing + 4 * UInt32.ofNat k - c.spacing = wordOf a k := by
  unfold wordOf
  grind

/-- The address of the fetch, word by word, seen from the line. -/
theorem address_word (c : Config) (a : UInt32) (j : Nat) :
    (a + c.spacing) / 4 * 4 + 4 * UInt32.ofNat j
      = a / 16 * 16 + c.spacing + 4 * UInt32.ofNat (a.toNat % 16 / 4 + j) := by
  rw [add_spacing_div, word_eq]
  unfold wordOf
  rw [UInt32.ofNat_add, UInt32.mul_add]
  ac_rfl

/-! ## Victims and reads -/

theorem pick_lt {beats : UInt32 → UInt32 → Bool} {info : Nat → UInt32} {n : Nat} (hn : 0 < n) :
    pick beats info n < n := by
  suffices h : ∀ (l : List Nat) (temp : Nat), temp < n → (∀ i ∈ l, i < n) →
      l.foldl (fun temp i => if beats (info temp) (info i) then i else temp) temp < n by
    refine h _ 0 hn fun i hi => ?_
    have := List.mem_range'_1.1 hi
    omega
  intro l
  induction l with
  | nil => exact fun temp ht _ => ht
  | cons i l ih =>
    intro temp ht hl
    refine ih _ ?_ fun j hj => hl j (List.mem_cons_of_mem i hj)
    change (if _ then _ else _) < n
    split
    · exact hl i List.mem_cons_self
    · exact ht

variable {s t : Rpu} {a address rnd : UInt32} {ind : Option Nat} {burst : Nat} {ws : List UInt32}

theorem readData_storing {d : UInt32} (h : readData c s a ind = some (t, d)) : t.storing = s.storing := by
  unfold readData at h
  split at h
  · cases h
    rfl
  · split at h
    · split at h
      · obtain ⟨k, -, h⟩ := Option.map_eq_some_iff.1 h
        cases h
        rfl
      · cases h
        rfl
    · obtain ⟨k, -, h⟩ := Option.map_eq_some_iff.1 h
      cases h
      rfl

/-- Only the records are looked at. -/
theorem checkExist_congr (h : s.storing = t.storing) : checkExist c s a = checkExist c t a := by
  unfold checkExist
  rw [h]

/-- The beats change no record. -/
theorem readBeats_storing (h : readBeats c s a ind burst = some (t, ws)) : t.storing = s.storing := by
  induction burst generalizing s a ws with
  | zero =>
    cases h
    rfl
  | succ burst ih =>
    obtain ⟨⟨u, d⟩, hu, h⟩ := Option.bind_eq_some_iff.1 h
    obtain ⟨⟨u', ws'⟩, hu', h⟩ := Option.map_eq_some_iff.1 h
    cases h
    exact (ih hu').trans (readData_storing hu)

theorem nextBeat_line (ha : a.toNat % 16 / 4 < 3) :
    (a + 4).toNat / 16 = a.toNat / 16 ∧ (a + 4).toNat % 16 / 4 = a.toNat % 16 / 4 + 1 := by
  have h4 : (4 : UInt32).toNat = 4 := rfl
  have := a.toNat_lt
  rw [UInt32.toNat_add, h4]
  omega

/-- If every read of the line gives its word of `data`, the beats that stay in the line are words of it. -/
theorem readBeats_line {data : Nat → UInt32}
    (hread : ∀ u b, u.storing = s.storing → b.toNat / 16 = a.toNat / 16 →
      ∃ t, readData c u b ind = some (t, data (b.toNat % 16 / 4)))
    (hle : a.toNat % 16 / 4 + burst ≤ 4) :
    ∃ t, readBeats c s a ind burst
      = some (t, (List.range burst).map fun j => data (a.toNat % 16 / 4 + j)) := by
  induction burst generalizing s a with
  | zero => exact ⟨s, rfl⟩
  | succ burst ih =>
    obtain ⟨u, hu⟩ := hread s a rfl rfl
    have hsu := readData_storing hu
    suffices h : ∃ t, readBeats c u (a + 4) ind burst
        = some (t, (List.range burst).map fun j => data (a.toNat % 16 / 4 + (j + 1))) by
      obtain ⟨t, ht⟩ := h
      refine ⟨t, ?_⟩
      simp only [readBeats, hu, Option.bind_some, ht, Option.map_some, List.range_succ_eq_map, List.map_cons,
        List.map_map, Nat.add_zero]
      rfl
    cases burst with
    | zero => exact ⟨u, rfl⟩
    | succ burst =>
      obtain ⟨hline, hoff⟩ := nextBeat_line (a := a) (by omega)
      obtain ⟨t, ht⟩ := ih (s := u) (a := a + 4)
        (fun v b hv hb => hread v b (hv.trans hsu) (hb.trans hline)) (by omega)
      refine ⟨t, ht.trans ?_⟩
      rw [hoff]
      simp only [Nat.add_assoc, Nat.add_comm 1]

/-- **The beats are words of the memory** if they are read from the words of their line. -/
theorem Holds.readBeats (hg : c.Geometry) {data : Nat → UInt32}
    (hholds : Holds c mem (c.index a) (c.tag a) data)
    (hread : ∀ u b, u.storing = s.storing → b.toNat / 16 = a.toNat / 16 →
      ∃ t, readData c u b ind = some (t, data (b.toNat % 16 / 4)))
    (hle : a.toNat % 16 / 4 + burst ≤ 4) :
    ∃ t, readBeats c s a ind burst = some (t, words mem (a + c.spacing) burst) := by
  obtain ⟨t, ht⟩ := readBeats_line hread hle
  have hwords : (List.range burst).map (fun j => data (a.toNat % 16 / 4 + j)) =
      words mem (a + c.spacing) burst := by
    refine List.map_congr_left fun j hj => ?_
    have hj := List.mem_range.1 hj
    rw [address_word, ← hg.lineAddress_eq]
    exact hholds _ (by omega)
  exact ⟨t, by rw [ht, hwords]⟩

/-! ## A request is a lookup and a read -/

/-- The RPU once the line is in it. -/
def fetchLine (c : Config) (mem : UInt32 → UInt32) (s : Rpu) (addr rnd : UInt32) : Rpu :=
  if (checkExist c s addr).isSome then s else refill c mem s addr rnd

theorem handleRequest_eq (haddr : address - c.spacing < 0x19000000) :
    handleRequest c mem s address burst rnd =
      readBeats c (fetchLine c mem s (address - c.spacing) rnd) (address - c.spacing)
        (checkExist c (fetchLine c mem s (address - c.spacing) rnd) (address - c.spacing)) burst := by
  unfold handleRequest fetchLine
  simp only [if_neg (UInt32.not_le.2 haddr)]
  cases h : checkExist c s (address - c.spacing) with
  | some k => simp [h]
  | none => simp

theorem handleRequest_storing (h : handleRequest c mem s address burst rnd = some (t, ws)) :
    t.storing = (fetchLine c mem s (address - c.spacing) rnd).storing := by
  have haddr : address - c.spacing < 0x19000000 := by
    by_contra hge
    have hnone : handleRequest c mem s address burst rnd = none := if_pos (UInt32.not_lt.1 hge)
    rw [hnone] at h
    cases h
  rw [handleRequest_eq haddr] at h
  exact readBeats_storing h

end VirtualSoc.Cache
