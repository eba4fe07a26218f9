import Mathlib.Tactic.Common
import VirtualSoc.Lib.Tally
import VirtualSoc.Lib.Transition
import VirtualSoc.Core.CacheSet

/-!
# The table of missed addresses (core/cache_module.cpp)

With the metrics on, `handle_request` keeps for each miss how often its address has missed. The address is
looked for among the first `num_miss` entries of `miss_addr_tbl`, and a new one goes to the entry
`tbl_index`. The entries from `tbl_index` on still hold 0xFFFFFFFF, which no fetched address is, so the table
tallies the misses. But it has `MAX_MISS_SIZE` entries, and the search for an address that is not in the
table reads as many entries as there were misses, not as there are addresses: `missTable_iff`.

An `int` wraps around. The table goes on behind its end, where the code has other memory.
-/

namespace VirtualSoc.Cache

open Trans Tally

def MAX_MISS_SIZE : Nat := 4000

/-- The counters that a miss changes. -/
structure MissStats where
  numMiss : Int
  coldMiss : Int
  capMiss : Int
  tblIndex : Int
  missAddrTbl : Nat → UInt32 × Int

namespace MissStats

/-- What the constructor and `request_cache` leave. -/
def init : MissStats where
  numMiss := 0
  coldMiss := 0
  capMiss := 0
  tblIndex := 0
  missAddrTbl := fun _ => (0xFFFFFFFF, 0)

/-- `++` of an `int`. -/
def incr (x : Int) : Int := (x + 1).bmod (2 ^ 32)

/-- The search, after `num_miss++`. -/
def search (m : MissStats) (addr : UInt32) : Option Nat :=
  (List.range (incr m.numMiss).toNat).find? fun i => (m.missAddrTbl i).1 = addr

/-- The entry `i` is given the address and counts once more. -/
def countAt (m : MissStats) (i : Nat) (addr : UInt32) : Nat → UInt32 × Int :=
  Function.update m.missAddrTbl i (addr, incr (m.missAddrTbl i).2)

/-- The block of `handle_request` behind `CL_CACHE_METRICS`. -/
def miss (m : MissStats) (addr : UInt32) : MissStats :=
  match m.search addr with
  | some i =>
    { m with
      numMiss := incr m.numMiss
      missAddrTbl := m.countAt i addr
      capMiss := if 1 < incr (m.missAddrTbl i).2 then incr m.capMiss else m.capMiss }
  | none =>
    { m with
      numMiss := incr m.numMiss
      missAddrTbl := m.countAt m.tblIndex.toNat addr
      coldMiss := if incr (m.missAddrTbl m.tblIndex.toNat).2 = 1 then incr m.coldMiss else m.coldMiss
      tblIndex := incr m.tblIndex }

/-- The indices into the table that the block uses. -/
def usedIndices (m : MissStats) (addr : UInt32) : List Int :=
  match m.search addr with
  | some i => (List.range (i + 1)).map Int.ofNat
  | none => (List.range (incr m.numMiss).toNat).map Int.ofNat ++ [m.tblIndex]

end MissStats

open MissStats

variable (c : Config) (mem : UInt32 → UInt32)

/-- The address, in the tile, that an action misses. -/
def missedAddr (s : Rpu) : Action → Option UInt32
  | .fetch address _ _ =>
    let addr := address - c.spacing
    if addr < 0x19000000 ∧ checkExist c s addr = none then some addr else none
  | .reset => none

/-- The counters and, as a history that nothing reads, the addresses that missed, the last one first. -/
def count (s : Rpu) (x : Action) (m : MissStats × List UInt32) : MissStats × List UInt32 :=
  match missedAddr c s x with
  | some addr => (m.1.miss addr, addr :: m.2)
  | none => m

/-- The indices into the table that an action uses. -/
def indices (s : Rpu) (x : Action) (m : MissStats) : List Int :=
  match missedAddr c s x with
  | some addr => m.usedIndices addr
  | none => []

abbrev counted := withHistory (step c mem) (count c)

/-- The counters are right about the misses so far. -/
structure Right (m : MissStats) (misses : List UInt32) : Prop where
  cold : m.coldMiss = misses.toFinset.card
  coldCap : m.coldMiss + m.capMiss = m.numMiss
  table : Tallies m.missAddrTbl m.tblIndex.toNat misses

/-- The indices are those of the table. -/
def InTable (is : List Int) : Prop := ∀ i ∈ is, 0 ≤ i ∧ i < MAX_MISS_SIZE

/-! ## The invariant -/

/-- The counters as long as nothing has overflowed: behind the addresses that missed, the entries of the
table are those of the constructor. -/
structure Tabled (m : MissStats) (misses : List UInt32) : Prop where
  cold : m.coldMiss = misses.toFinset.card
  cap : m.capMiss = misses.length - misses.toFinset.card
  num : m.numMiss = misses.length
  index : m.tblIndex = misses.toFinset.card
  table : Tallies m.missAddrTbl misses.toFinset.card misses
  rest : ∀ i, misses.toFinset.card ≤ i → m.missAddrTbl i = (0xFFFFFFFF, 0)
  few : misses.toFinset.card ≤ MAX_MISS_SIZE
  small : misses.length < 2 ^ 31

variable {c mem} {m : MissStats} {misses : List UInt32} {addr : UInt32} {s : Rpu} {x : Action}

theorem Tabled.init : Tabled .init [] where
  cold := rfl
  cap := rfl
  num := rfl
  index := rfl
  table := Tallies.nil _
  rest _ _ := rfl
  few := Nat.zero_le _
  small := by decide

theorem Tabled.right (h : Tabled m misses) : Right m misses where
  cold := h.cold
  coldCap := by
    rw [h.cold, h.cap, h.num]
    omega
  table := by
    rw [h.index]
    exact h.table

theorem incr_natCast {n : Nat} (h : n + 1 < 2 ^ 31) : incr n = ((n + 1 : Nat) : Int) := by
  unfold incr
  rw [Int.bmod_def]
  omega

theorem missedAddr_lt (h : missedAddr c s x = some addr) : addr < 0x19000000 := by
  cases x with
  | fetch address burst rnd =>
    obtain ⟨⟨hlt, -⟩, hsome⟩ := Option.ite_none_right_eq_some.1 h
    rwa [Option.some.inj hsome] at hlt
  | reset => cases h

/-- Only the entries of `addr` itself hold it. -/
theorem Tabled.lt_of_key (h : Tabled m misses) (ha : addr < 0x19000000) {i : Nat}
    (hi : (m.missAddrTbl i).1 = addr) : i < misses.toFinset.card := by
  by_contra hge
  rw [h.rest i (Nat.not_lt.1 hge)] at hi
  rw [← hi] at ha
  exact absurd ha (by decide)

/-- An address that has missed before is found, and in the table. -/
theorem Tabled.search_mem (h : Tabled m misses) (ha : addr < 0x19000000) (hn : misses.length + 1 < 2 ^ 31)
    (hmem : addr ∈ misses) :
    ∃ i, m.search addr = some i ∧ i < misses.toFinset.card ∧ (m.missAddrTbl i).1 = addr := by
  obtain ⟨j, hj, hja⟩ := h.table.listed addr hmem
  unfold MissStats.search
  rw [h.num, incr_natCast hn, Int.toNat_natCast]
  cases hs : (List.range (misses.length + 1)).find? fun i => (m.missAddrTbl i).1 = addr with
  | some i =>
    have hia : (m.missAddrTbl i).1 = addr := by simpa using List.find?_some hs
    exact ⟨i, rfl, h.lt_of_key ha hia, hia⟩
  | none =>
    have hlt := h.table.le_length
    have hmiss := List.find?_eq_none.1 hs j (List.mem_range.2 (by omega))
    exact absurd (decide_eq_true hja) hmiss

/-- A new address is not found, wherever the search ends. -/
theorem Tabled.search_new (h : Tabled m misses) (ha : addr < 0x19000000) (hnew : addr ∉ misses) :
    m.search addr = none := by
  unfold MissStats.search
  rw [List.find?_eq_none]
  intro i _ hi
  have hia : (m.missAddrTbl i).1 = addr := by simpa using hi
  have hocc := h.table.occurs i (h.lt_of_key ha hia)
  rw [hia] at hocc
  exact hnew hocc

theorem Tabled.count_lt (h : Tabled m misses) (a : UInt32) : misses.count a < 2 ^ 31 :=
  Nat.lt_of_le_of_lt List.count_le_length h.small

/-- A miss of an address that has missed before is one of capacity. -/
theorem Tabled.again (h : Tabled m misses) (ha : addr < 0x19000000) (hn : misses.length + 1 < 2 ^ 31)
    (hmem : addr ∈ misses) : Tabled (m.miss addr) (addr :: misses) ∧ InTable (m.usedIndices addr) := by
  obtain ⟨i, hs, hi, hia⟩ := h.search_mem ha hn hmem
  have hcard : (addr :: misses).toFinset.card = misses.toFinset.card := by
    rw [List.toFinset_cons, Finset.insert_eq_of_mem (List.mem_toFinset.2 hmem)]
  have htimes := h.table.times i hi
  rw [hia] at htimes
  have hpos : 0 < misses.count addr := List.count_pos_iff.2 hmem
  have hle : misses.count addr ≤ misses.length := List.count_le_length
  have hcount : incr (m.missAddrTbl i).2 = (m.missAddrTbl i).2 + 1 := by
    rw [htimes, incr_natCast (by omega)]
    push_cast
    rfl
  have hcardle := h.table.le_length
  have hfew := h.few
  constructor
  · unfold MissStats.miss
    rw [hs]
    constructor
    · exact h.cold.trans (by rw [hcard])
    · rw [hcard]
      show (if 1 < incr (m.missAddrTbl i).2 then incr m.capMiss else m.capMiss) = _
      rw [hcount, if_pos (by omega), h.cap, ← Nat.cast_sub hcardle, incr_natCast (by omega), List.length_cons]
      omega
    · show incr m.numMiss = _
      rw [h.num, incr_natCast hn, List.length_cons]
    · exact h.index.trans (by rw [hcard])
    · rw [hcard]
      show Tallies (m.countAt i addr) _ _
      unfold MissStats.countAt
      rw [hcount, ← hia]
      exact h.table.again hi
    · intro j hj
      rw [hcard] at hj
      show m.countAt i addr j = _
      unfold MissStats.countAt
      rw [Function.update_of_ne (by omega)]
      exact h.rest j hj
    · rw [hcard]
      exact hfew
    · exact hn
  · intro k hk
    unfold MissStats.usedIndices at hk
    rw [hs] at hk
    obtain ⟨j, hj, rfl⟩ := List.mem_map.1 hk
    have hj := List.mem_range.1 hj
    refine ⟨Int.natCast_nonneg j, ?_⟩
    show (j : Int) < MAX_MISS_SIZE
    omega

/-- The first miss of an address is a cold one. -/
theorem Tabled.fresh (h : Tabled m misses) (ha : addr < 0x19000000) (hnew : addr ∉ misses)
    (hn : misses.length < MAX_MISS_SIZE) :
    Tabled (m.miss addr) (addr :: misses) ∧ InTable (m.usedIndices addr) := by
  have hs := h.search_new ha hnew
  have hmax : MAX_MISS_SIZE = 4000 := rfl
  have hcard : (addr :: misses).toFinset.card = misses.toFinset.card + 1 := by
    rw [List.toFinset_cons, Finset.card_insert_of_notMem (fun hmem => hnew (List.mem_toFinset.1 hmem))]
  have hcardle := h.table.le_length
  have hindex : m.tblIndex.toNat = misses.toFinset.card := by
    rw [h.index, Int.toNat_natCast]
  have hentry := h.rest _ (Nat.le_refl _)
  have hcount : incr (m.missAddrTbl m.tblIndex.toNat).2 = 1 := by
    rw [hindex, hentry]
    rfl
  constructor
  · unfold MissStats.miss
    rw [hs]
    constructor
    · show (if incr (m.missAddrTbl m.tblIndex.toNat).2 = 1 then incr m.coldMiss else m.coldMiss) = _
      rw [if_pos hcount, h.cold, incr_natCast (by omega), hcard]
    · rw [hcard]
      refine h.cap.trans ?_
      rw [List.length_cons]
      omega
    · show incr m.numMiss = _
      rw [h.num, incr_natCast (by omega), List.length_cons]
    · show incr m.tblIndex = _
      rw [h.index, incr_natCast (by omega), hcard]
    · rw [hcard]
      show Tallies (m.countAt m.tblIndex.toNat addr) _ _
      unfold MissStats.countAt
      rw [hcount, hindex]
      exact h.table.fresh hnew
    · intro j hj
      rw [hcard] at hj
      show m.countAt m.tblIndex.toNat addr j = _
      unfold MissStats.countAt
      rw [hindex, Function.update_of_ne (by omega)]
      exact h.rest j (by omega)
    · rw [hcard]
      omega
    · rw [List.length_cons]
      omega
  · intro k hk
    unfold MissStats.usedIndices at hk
    rw [hs] at hk
    rcases List.mem_append.1 hk with hk | hk
    · obtain ⟨j, hj, rfl⟩ := List.mem_map.1 hk
      rw [h.num, incr_natCast (by omega), Int.toNat_natCast] at hj
      have hj := List.mem_range.1 hj
      refine ⟨Int.natCast_nonneg j, ?_⟩
      show (j : Int) < MAX_MISS_SIZE
      omega
    · rw [List.mem_singleton.1 hk, h.index]
      omega

/-! ## Exactly when -/

/-- A miss that the table has room for: of an address that it has, or before as many misses as it has
entries. -/
def Room (misses : List UInt32) (addr : UInt32) : Prop :=
  misses.length + 1 < 2 ^ 31 ∧ (addr ∈ misses ∨ misses.length < MAX_MISS_SIZE)

theorem Tabled.miss (h : Tabled m misses) (ha : addr < 0x19000000) (hroom : Room misses addr) :
    Tabled (m.miss addr) (addr :: misses) ∧ InTable (m.usedIndices addr) := by
  obtain ⟨hn, hroom⟩ := hroom
  by_cases hmem : addr ∈ misses
  · exact h.again ha hn hmem
  · exact h.fresh ha hmem (hroom.resolve_left hmem)

/-- The miss that takes `num_miss` beyond an `int` leaves it negative, and the search empty. -/
theorem Tabled.overflow (h : Tabled m misses) (hn : misses.length + 1 = 2 ^ 31) :
    ¬ Right (m.miss addr) (addr :: misses) := by
  intro hr
  have hincr : incr m.numMiss = -2 ^ 31 := by
    unfold incr
    rw [h.num, Int.bmod_def]
    omega
  have hs : m.search addr = none := by
    unfold MissStats.search
    rw [hincr]
    rfl
  have hsum := hr.coldCap
  have hcold := hr.cold
  have hcap : (m.miss addr).capMiss = m.capMiss := by
    unfold MissStats.miss
    rw [hs]
  have hnum : (m.miss addr).numMiss = incr m.numMiss := by
    unfold MissStats.miss
    rw [hs]
  have hle := h.table.le_length
  rw [hcold, hcap, hnum, hincr, h.cap] at hsum
  omega

/-- A new address is compared with as many entries as there were misses. -/
theorem Tabled.beyond (h : Tabled m misses) (ha : addr < 0x19000000) (hn : misses.length + 1 < 2 ^ 31)
    (hnew : addr ∉ misses) (hfull : MAX_MISS_SIZE ≤ misses.length) : ¬ InTable (m.usedIndices addr) := by
  intro hin
  unfold MissStats.usedIndices at hin
  rw [h.search_new ha hnew, h.num, incr_natCast hn, Int.toNat_natCast] at hin
  have hlast := hin misses.length
    (List.mem_append_left _ (List.mem_map_of_mem (List.mem_range.2 (Nat.lt_succ_self _))))
  omega

/-- **One miss**: the counters stay right and the indices in the table if and only if there is room. -/
theorem Tabled.miss_iff (h : Tabled m misses) (ha : addr < 0x19000000) :
    (Right (m.miss addr) (addr :: misses) ∧ InTable (m.usedIndices addr)) ↔ Room misses addr := by
  constructor
  · rintro ⟨hright, hin⟩
    have hsmall := h.small
    have hn : misses.length + 1 < 2 ^ 31 := by
      by_contra hge
      exact h.overflow (by omega) hright
    refine ⟨hn, ?_⟩
    by_contra hno
    obtain ⟨hnew, hfull⟩ := not_or.1 hno
    exact h.beyond ha hn hnew (Nat.not_lt.1 hfull) hin
  · intro hroom
    obtain ⟨htabled, hin⟩ := h.miss ha hroom
    exact ⟨htabled.right, hin⟩

/-- After the action the counters are right, and it used indices of the table only. -/
def StaysRight (c : Config) (y : Rpu × MissStats × List UInt32) (x : Action) : Prop :=
  Right (count c y.1 x y.2).1 (count c y.1 x y.2).2 ∧ InTable (indices c y.1 x y.2.1)

/-- There is room for the address that the action misses. -/
def HasRoom (c : Config) (y : Rpu × MissStats × List UInt32) (x : Action) : Prop :=
  ∀ addr, missedAddr c y.1 x = some addr → Room y.2.2 addr

variable {y y' : Rpu × MissStats × List UInt32}

theorem staysRight_iff (h : Tabled y.2.1 y.2.2) : StaysRight c y x ↔ HasRoom c y x := by
  unfold StaysRight HasRoom count indices
  cases hx : missedAddr c y.1 x with
  | none => exact iff_of_true ⟨h.right, fun i hi => absurd hi List.not_mem_nil⟩ nofun
  | some addr =>
    rw [h.miss_iff (missedAddr_lt hx)]
    exact ⟨fun hroom a ha => Option.some.inj ha ▸ hroom, fun hroom => hroom addr rfl⟩

theorem tabled_step (h : Tabled y.2.1 y.2.2) (hroom : HasRoom c y x) (hs : counted c mem y x = some y') :
    Tabled y'.2.1 y'.2.2 := by
  rw [(withHistory_some.1 hs).2]
  unfold count
  cases hx : missedAddr c y.1 x with
  | none => exact h
  | some addr => exact (h.miss (missedAddr_lt hx) (hroom addr hx)).1

/-- **The table of misses.** In a run of fetches and resets from any state of the cache, the counters are
right after every action and every index into the table is in it, if and only if each miss is of an address
that has missed before or comes when there were less than `MAX_MISS_SIZE` misses, and `num_miss` stays an
`int`. -/
theorem missTable_iff (c : Config) (mem : UInt32 → UInt32) (s : Rpu) (xs : List Action) :
    Along (counted c mem) (StaysRight c) (s, .init, []) xs ↔
      Along (counted c mem) (HasRoom c) (s, .init, []) xs :=
  along_congr (I := fun y => Tabled y.2.1 y.2.2)
    (fun _ _ _ h hright hs => tabled_step h ((staysRight_iff h).1 hright) hs)
    (fun _ _ h => staysRight_iff h) Tabled.init

/-! ## One line more than the table has entries

A cache of one line misses every line that is new. -/

def oneLine : Config where
  size := 16
  line := 16
  assocNum := 0
  replaceType := .lru
  tid := 0

theorem oneLine_geometry : oneLine.Geometry where
  line := rfl
  size := ⟨4, rfl⟩
  ways := .inl rfl
  fits := by decide

/-- The first word of each line in turn. -/
def fetchOf (k : Nat) : Action := .fetch (UInt32.ofNat (16 * k)) 1 0

def fetchesTo (k : Nat) : List Action := (List.range k).map fetchOf

theorem fetchesTo_succ (k : Nat) : fetchesTo (k + 1) = fetchesTo k ++ [fetchOf k] := by
  rw [fetchesTo, List.range_succ, List.map_append]
  rfl

/-- All hits are in one line. -/
theorem oneLine_hit {a b : UInt32} {k l : Nat} (ha : checkExist oneLine s a = some k)
    (hb : checkExist oneLine s b = some l) : a.toNat / 16 = b.toNat / 16 := by
  obtain ⟨w, -, -, hwa⟩ := checkExist_hit (by decide) ha
  obtain ⟨v, -, -, hvb⟩ := checkExist_hit (by decide) hb
  have hlines : oneLine.lines = 1 := by decide
  have hindex : ∀ i, oneLine.index i = 0 := fun i => by
    rw [oneLine_geometry.index_eq, hlines, Nat.mod_one]
  have hways : oneLine.ways = 1 := ways_direct rfl
  have hwv : w = v := Fin.ext (by omega)
  rw [hindex] at hwa hvb
  have htag : oneLine.tag a = oneLine.tag b := by rw [← hwa, ← hvb, hwv]
  have hnat := congrArg UInt32.toNat htag
  rw [oneLine_geometry.tag_toNat, oneLine_geometry.tag_toNat, hlines, Nat.div_one, Nat.div_one] at hnat
  exact hnat

/-- After the first `k` lines: the cache has the last of them, and each has missed once. -/
structure Fetched (mem : UInt32 → UInt32) (k : Nat) (y : Rpu × MissStats × List UInt32) : Prop where
  inv : Inv oneLine mem y.1
  last : ∀ a l, checkExist oneLine y.1 a = some l → a.toNat / 16 < k
  tabled : Tabled y.2.1 y.2.2
  length : y.2.2.length = k
  before : ∀ a ∈ y.2.2, a.toNat / 16 < k

theorem lineStart_toNat {k : Nat} (hk : k ≤ MAX_MISS_SIZE) : (UInt32.ofNat (16 * k)).toNat = 16 * k := by
  have hmax : MAX_MISS_SIZE = 4000 := rfl
  rw [UInt32.toNat_ofNat']
  exact Nat.mod_eq_of_lt (by omega)

theorem lineStart_lt {k : Nat} (hk : k ≤ MAX_MISS_SIZE) : UInt32.ofNat (16 * k) < 0x19000000 := by
  have hmax : MAX_MISS_SIZE = 4000 := rfl
  rw [UInt32.lt_iff_toNat_lt, lineStart_toNat hk]
  show 16 * k < 0x19000000
  omega

theorem spacing_oneLine (a : UInt32) : a - oneLine.spacing = a := UInt32.sub_zero a

/-- The next line is new, and misses. -/
theorem Fetched.missedAddr {k : Nat} (h : Fetched mem k y) (hk : k ≤ MAX_MISS_SIZE) :
    missedAddr oneLine y.1 (fetchOf k) = some (UInt32.ofNat (16 * k)) := by
  have hline := lineStart_toNat hk
  have hmiss : checkExist oneLine y.1 (UInt32.ofNat (16 * k)) = none := by
    rw [Option.eq_none_iff_forall_ne_some]
    intro l hl
    have := h.last _ l hl
    omega
  unfold Cache.missedAddr fetchOf
  simp only [spacing_oneLine]
  exact if_pos ⟨lineStart_lt hk, hmiss⟩

theorem Fetched.notMem {k : Nat} (h : Fetched mem k y) (hk : k ≤ MAX_MISS_SIZE) :
    UInt32.ofNat (16 * k) ∉ y.2.2 := by
  intro hmem
  have := h.before _ hmem
  have := lineStart_toNat hk
  omega

theorem Fetched.next {k : Nat} (h : Fetched mem k y) (hk : k < MAX_MISS_SIZE) :
    ∃ y', counted oneLine mem y (fetchOf k) = some y' ∧ Fetched mem (k + 1) y' := by
  have hmissed := h.missedAddr hk.le
  have hlt := lineStart_lt hk.le
  have hline := lineStart_toNat hk.le
  obtain ⟨hinv, l, hl⟩ := fetchLine_inv oneLine_geometry (by decide) h.inv (UInt32.ofNat (16 * k)) 0
  obtain ⟨t, ht⟩ : ∃ t, readBeats oneLine _ _ (some l) 1 = some (t, _) :=
    readBeats_words oneLine_geometry (by decide) hinv hl (by omega)
  have hstep : step oneLine mem y.1 (fetchOf k) = some t := by
    show (handleRequest oneLine mem y.1 (UInt32.ofNat (16 * k)) 1 0).map Prod.fst = some t
    rw [handleRequest_eq (by rw [spacing_oneLine]; exact hlt), spacing_oneLine, hl, ht]
    rfl
  have hstoring : t.storing = (fetchLine oneLine mem y.1 (UInt32.ofNat (16 * k)) 0).storing := readBeats_storing ht
  have hcount : count oneLine y.1 (fetchOf k) y.2 =
      (y.2.1.miss (UInt32.ofNat (16 * k)), UInt32.ofNat (16 * k) :: y.2.2) := by
    unfold count
    rw [hmissed]
  have hroom : Room y.2.2 (UInt32.ofNat (16 * k)) := by
    have hmax : MAX_MISS_SIZE = 4000 := rfl
    have hlength := h.length
    exact ⟨by omega, .inr (by omega)⟩
  refine ⟨(t, count oneLine y.1 (fetchOf k) y.2), withHistory_some.2 ⟨hstep, rfl⟩, ?_⟩
  rw [hcount]
  refine ⟨hinv.congr hstoring, fun a j hj => ?_, (h.tabled.miss hlt hroom).1, ?_, fun a ha => ?_⟩
  · rw [checkExist_congr hstoring] at hj
    have := oneLine_hit hj hl
    omega
  · rw [List.length_cons, h.length]
  · rcases List.mem_cons.1 ha with rfl | ha
    · omega
    · have := h.before a ha
      omega

theorem fetched_run (mem : UInt32 → UInt32) {k : Nat} (hk : k ≤ MAX_MISS_SIZE) :
    ∃ y, run (counted oneLine mem) (cold, .init, []) (fetchesTo k) = some y ∧ Fetched mem k y := by
  induction k with
  | zero =>
    refine ⟨_, rfl, Inv.of_invalid fun _ _ _ => rfl, fun a l hl => ?_, Tabled.init, rfl, nofun⟩
    obtain ⟨w, -, hvalid, -⟩ := checkExist_hit (by decide) hl
    cases hvalid
  | succ k ih =>
    obtain ⟨y, hrun, hy⟩ := ih (by omega)
    obtain ⟨y', hstep, hy'⟩ := hy.next (by omega)
    rw [fetchesTo_succ]
    exact ⟨y', run_append.2 ⟨y, hrun, run_cons.2 ⟨y', hstep, rfl⟩⟩, hy'⟩

theorem fetched_along {k : Nat} (hk : k ≤ MAX_MISS_SIZE)
    (h : Along (counted oneLine mem) (StaysRight oneLine) (cold, .init, []) (fetchesTo (k + 1))) :
    ∃ y, Fetched mem k y ∧ StaysRight oneLine y (fetchOf k) := by
  obtain ⟨y, hrun, hy⟩ := fetched_run mem hk
  rw [fetchesTo_succ] at h
  exact ⟨y, hy, (along_append hrun h).2.1⟩

/-- The line 4000 uses the entry 4000. -/
theorem not_missTable_lines :
    ¬ Along (counted oneLine backing) (StaysRight oneLine) (cold, .init, []) (fetchesTo (MAX_MISS_SIZE + 1)) := by
  generalize hk : MAX_MISS_SIZE = k
  intro h
  obtain ⟨y, hy, hright⟩ := fetched_along hk.ge h
  obtain ⟨-, hroom⟩ := (staysRight_iff hy.tabled).1 hright _ (hy.missedAddr hk.ge)
  have hlength := hy.length
  rcases hroom with hmem | hlt
  · exact hy.notMem hk.ge hmem
  · omega

end VirtualSoc.Cache
