import VirtualSoc.Core.Cache

/-!
# The fully associative instruction cache and stale tags (core/cache_storagetypes.cpp)

`full_storage` finds a record by its tag alone: the first with the tag, valid or not. A refill writes the
tag in the record that `where_to` picks, and then the words in the first record with the tag
(cache_RPU.cpp:161). If an invalid record before the victim still has the tag (tags are never cleared, not
even by the constructor), the words go there, and the victim has the new tag beside its old words
(`Splits`). That does no harm as long as the victim was invalid. If it was valid, a later fetch can hit it,
once the earlier record has been given away.

Without such a refill every fetch gives the words of the memory (`full_transparent`). The line of the last
refill is found in any case.
-/

namespace VirtualSoc.Cache

/-- The records of a full cache. -/
def full (c : Config) (st : Records) : Fin c.numRecords → CacheRecord := fun i => st i

/-- The first record with the tag of `a`, valid or not. -/
def first (c : Config) (s : Rpu) (a : UInt32) : Option Nat :=
  returnIndex (s.storing 0) c.numRecords (c.tag a)

/-- The refill of `a` gives the tag to a valid victim and the words to an invalid record before it. -/
def Splits (c : Config) (s : Rpu) (a rnd : UInt32) : Prop :=
  ∃ p, first c s a = some p ∧ p < missLoc c s a rnd ∧ (s.storing 0 p).valid = false ∧
    (s.storing 0 (missLoc c s a rnd)).valid = true

instance (c : Config) (s : Rpu) (a rnd : UInt32) : Decidable (Splits c s a rnd) :=
  match h : first c s a with
  | none => isFalse fun ⟨p, hp, _⟩ => by rw [h] at hp; cases hp
  | some p =>
    decidable_of_iff (p < missLoc c s a rnd ∧ (s.storing 0 p).valid = false ∧
        (s.storing 0 (missLoc c s a rnd)).valid = true)
      ⟨fun hp => ⟨p, h, hp⟩, fun ⟨_, hq, hp⟩ => by rw [h] at hq; cases hq; exact hp⟩

/-- The step does not refill a line in that way. -/
def Whole (c : Config) (s : Rpu) : Action → Prop
  | .fetch address _ rnd => ¬ Splits c s (address - c.spacing) rnd
  | .reset => True

instance (c : Config) (s : Rpu) : ∀ x, Decidable (Whole c s x)
  | .fetch .. => inferInstanceAs (Decidable (¬ _))
  | .reset => isTrue trivial

variable {c : Config} {mem : UInt32 → UInt32} {s s' : Rpu} {st : Records} {a rnd t : UInt32} {n p v : Nat}

/-! ## The first record with a tag -/

theorem returnIndex_eq_some :
    returnIndex st n t = some p ↔ (st p).tag = t ∧ p < n ∧ ∀ j, j < p → (st j).tag ≠ t := by
  unfold returnIndex
  rw [List.find?_range_eq_some]
  simp

theorem returnIndex_lt (h : returnIndex st n t = some p) : p < n := (returnIndex_eq_some.1 h).2.1

theorem returnIndex_tag (h : returnIndex st n t = some p) : (st p).tag = t := (returnIndex_eq_some.1 h).1

theorem returnIndex_none (h : returnIndex st n t = none) {j : Nat} (hj : j < n) : (st j).tag ≠ t := by
  unfold returnIndex at h
  simpa using List.find?_eq_none.1 h j (List.mem_range.2 hj)

theorem returnIndex_of_tag (hv : v < n) (ht : (st v).tag = t) : ∃ p, returnIndex st n t = some p ∧ p ≤ v := by
  cases h : returnIndex st n t with
  | none => exact absurd ht (returnIndex_none h hv)
  | some p =>
    refine ⟨p, rfl, ?_⟩
    by_contra hlt
    exact (returnIndex_eq_some.1 h).2.2 v (by omega) ht

/-- Another record in the place of the first with the tag is the first with the tag. -/
theorem returnIndex_update {r : CacheRecord} (h : returnIndex st n t = some p) (hr : r.tag = t) :
    returnIndex (Function.update st p r) n t = some p := by
  obtain ⟨-, hp, hlt⟩ := returnIndex_eq_some.1 h
  refine returnIndex_eq_some.2 ⟨by rw [Function.update_self, hr], hp, fun j hj => ?_⟩
  rw [Function.update_of_ne (by omega)]
  exact hlt j hj

theorem writeTag_self (h : (st v).tag = t) : writeTag st v t = st := by
  unfold writeTag
  rw [← h]
  exact Function.update_eq_self v st

theorem writeTag_tag (st : Records) (v : Nat) (t : UInt32) : (writeTag st v t v).tag = t := by simp [writeTag]

theorem writeTag_of_ne {j : Nat} (h : j ≠ v) : writeTag st v t j = st j := Function.update_of_ne h ..

theorem fullReadCache_first (h : returnIndex st n t = some p) : fullReadCache st n t = st p := by
  unfold fullReadCache
  rw [h]

theorem checkExist_first (h1 : c.assocNum = 1) (hp : first c s a = some p) :
    checkExist c s a = if (s.storing 0 p).valid = true then some 1 else none := by
  have htag := returnIndex_tag hp
  unfold checkExist
  rw [if_neg (by rw [h1]; decide), if_pos h1, fullReadCache_first hp]
  simp [htag]

theorem readData_first (h1 : c.assocNum = 1) (hp : first c s a = some p) (ind : Option Nat) :
    ∃ t, readData c s a ind = some (t, (s.storing 0 p).data (c.off a)) := by
  unfold readData
  rw [if_neg (by rw [h1]; decide), if_pos h1, fullReadCache_first hp, show returnIndex _ _ _ = some p from hp]
  by_cases hlru : c.replaceType = .lru
  · rw [if_pos hlru]
    exact ⟨_, rfl⟩
  · rw [if_neg hlru]
    exact ⟨_, rfl⟩

theorem lines_full (hg : c.Geometry) (h1 : c.assocNum = 1) : c.lines = 1 := by
  unfold Config.lines Config.address cacheAddress
  rw [h1, hg.line, if_neg (by decide), if_neg (by decide)]
  rfl

theorem index_full (hg : c.Geometry) (h1 : c.assocNum = 1) (a : UInt32) : c.index a = 0 := by
  have := hg.index_lt a
  rw [lines_full hg h1] at this
  omega

/-! ## The refill -/

/-- One write: the tag goes to `v`, the word to the first record with the tag after that. -/
theorem writeData_full (h1 : c.assocNum = 1)
    (hp : returnIndex (writeTag (s.storing 0) v (c.tag a)) c.numRecords (c.tag a) = some p) (d : UInt32) :
    (writeData c s a d v).storing 0 = writeCache (writeTag (s.storing 0) v (c.tag a)) p d (c.off a) := by
  unfold writeData fullWriteCache
  rw [if_neg (by rw [h1]; decide), if_pos h1]
  simp only [hp, Function.update_self]

/-- The cache `s` after `k` writes of the refill of `a`, with the tag in `v` and the words in `p`. -/
def Filled (c : Config) (mem : UInt32 → UInt32) (s : Rpu) (a : UInt32) (v p k : Nat) (t : Rpu) : Prop :=
  ∃ r : CacheRecord, r.tag = c.tag a ∧
    writeTag (t.storing 0) v (c.tag a) = Function.update (writeTag (s.storing 0) v (c.tag a)) p r ∧
    (0 < k → r.valid = true ∧ writeTag (t.storing 0) v (c.tag a) = t.storing 0) ∧
    ∀ j, j < k → r.data j = mem (a / 16 * 16 + c.spacing + 4 * UInt32.ofNat j)

theorem Filled.zero (hp : returnIndex (writeTag (s.storing 0) v (c.tag a)) c.numRecords (c.tag a) = some p) :
    Filled c mem s a v p 0 s :=
  ⟨writeTag (s.storing 0) v (c.tag a) p, returnIndex_tag hp, (Function.update_eq_self p _).symm,
    fun h => absurd h (by omega), fun j h => absurd h (by omega)⟩

theorem Filled.write (hg : c.Geometry) (h1 : c.assocNum = 1) {k : Nat} {u : Rpu} (hk : k < 4)
    (hp : returnIndex (writeTag (s.storing 0) v (c.tag a)) c.numRecords (c.tag a) = some p)
    (h : Filled c mem s a v p k u) :
    Filled c mem s a v p (k + 1) (writeData c u (a / 16 * 16 + c.spacing + 4 * UInt32.ofNat k - c.spacing)
      (mem (a / 16 * 16 + c.spacing + 4 * UInt32.ofNat k)) v) := by
  obtain ⟨r, hrtag, hr, -, hdata⟩ := h
  have htag := hg.tag_congr (wordOf_line a hk)
  have hfirst : returnIndex (writeTag (u.storing 0) v (c.tag (wordOf a k))) c.numRecords (c.tag (wordOf a k))
      = some p := by
    rw [htag, hr]
    exact returnIndex_update hp hrtag
  rw [wordOf_missed]
  have hstoring := writeData_full h1 hfirst (mem (a / 16 * 16 + c.spacing + 4 * UInt32.ofNat k))
  rw [htag, hr, writeCache, Function.update_self, Function.update_idem, hg.off_wordOf a hk] at hstoring
  generalize writeData c u (wordOf a k) _ v = u' at hstoring ⊢
  have hself : writeTag (u'.storing 0) v (c.tag a) = u'.storing 0 := by
    apply writeTag_self
    rw [hstoring]
    by_cases hvp : v = p
    · rw [hvp, Function.update_self]
      exact hrtag
    · rw [Function.update_of_ne hvp]
      exact writeTag_tag _ v (c.tag a)
  refine ⟨_, ?_, hself.trans hstoring, fun _ => ⟨rfl, hself⟩, fun j hj => ?_⟩
  · exact hrtag
  · by_cases hjk : j = k
    · subst hjk
      exact Function.update_self ..
    · exact (Function.update_of_ne hjk ..).trans (hdata j (by omega))

/-- **The refill**: the tag is in `v`, and the first record with the tag is valid and has the words. -/
theorem refill_full (mem : UInt32 → UInt32) (hg : c.Geometry) (h1 : c.assocNum = 1) (hv : v = missLoc c s a rnd)
    (hp : returnIndex (writeTag (s.storing 0) v (c.tag a)) c.numRecords (c.tag a) = some p) :
    ∃ r : CacheRecord, (refill c mem s a rnd).storing 0 =
        Function.update (writeTag (s.storing 0) v (c.tag a)) p r ∧
      r.valid = true ∧ r.tag = c.tag a ∧ Holds c mem 0 r.tag r.data := by
  have hloop : Filled c mem s a v p 4 (refill c mem s a rnd) := by
    unfold refill readFromMem
    rw [missedAddr_eq, ← hv]
    exact Loop.range_inv (Filled.zero hp) fun k t hk h => h.write hg h1 hk hp
  obtain ⟨r, htag, hr, hfull, hdata⟩ := hloop
  obtain ⟨hvalid, hself⟩ := hfull (by omega)
  refine ⟨r, hself.symm.trans hr, hvalid, htag, fun k hk => ?_⟩
  rw [htag, ← index_full hg h1 a, hg.lineAddress_eq]
  exact hdata k hk

theorem numRecords_pos (hg : c.Geometry) (h1 : c.assocNum = 1) : 0 < c.numRecords := by
  have hfits := hg.fits
  have h16 : (16 : UInt32).toNat = 16 := rfl
  have hone : (1 : UInt32).toNat = 1 := rfl
  rw [h1, hone] at hfits
  unfold Config.numRecords
  rw [hg.line, UInt32.toNat_div, h16]
  omega

theorem missLoc_full (hg : c.Geometry) (h1 : c.assocNum = 1) (s : Rpu) (a rnd : UInt32) :
    missLoc c s a rnd < c.numRecords := by
  have hpos := numRecords_pos hg h1
  unfold missLoc whereTo
  rw [if_pos (by rw [h1]; decide)]
  cases c.replaceType with
  | random =>
    change (if c.assocNum = 1 then _ else _) < _
    rw [if_pos h1, UInt32.toNat_mod, h1, UInt32.mul_one]
    exact Nat.mod_lt _ hpos
  | fifo =>
    change (if c.assocNum = 1 then _ else _) < _
    rw [if_pos h1]
    exact pick_lt hpos
  | lru =>
    change (if c.assocNum = 1 then _ else _) < _
    rw [if_pos h1]
    exact pick_lt hpos

/-! ## The invariant -/

/-- Valid records hold the lines of their tags. -/
def FullInv (c : Config) (mem : UInt32 → UInt32) (s : Rpu) : Prop :=
  Slots.Sound (Holds c mem 0) (full c (s.storing 0))

theorem full_update (r : CacheRecord) (hp : p < c.numRecords) :
    full c (Function.update st p r) = Function.update (full c st) ⟨p, hp⟩ r := by
  funext i
  unfold full
  by_cases hi : (i : Nat) = p
  · have : i = ⟨p, hp⟩ := Fin.ext hi
    rw [this, Function.update_self, Function.update_self]
  · have : i ≠ ⟨p, hp⟩ := fun h => hi (congrArg Fin.val h)
    rw [Function.update_of_ne hi, Function.update_of_ne this]

theorem FullInv.of_invalid (h : ∀ i, i < c.numRecords → (s.storing 0 i).valid = false) : FullInv c mem s :=
  Slots.Sound.of_invalid fun i => h i i.isLt

theorem FullInv.congr (h : FullInv c mem s) (hs : s'.storing = s.storing) : FullInv c mem s' := by
  unfold FullInv
  rw [hs]
  exact h

/-- A hit is on the first record with the tag. -/
theorem first_of_hit (hg : c.Geometry) (h1 : c.assocNum = 1) {k : Nat} (h : checkExist c s a = some k) :
    ∃ p, first c s a = some p ∧ (s.storing 0 p).valid = true := by
  cases hp : first c s a with
  | none =>
    have hlast : c.numRecords - 1 < c.numRecords := by have := numRecords_pos hg h1; omega
    have hne := returnIndex_none hp hlast
    unfold checkExist fullReadCache at h
    rw [if_neg (by rw [h1]; decide), if_pos h1, show returnIndex _ _ _ = none from hp] at h
    exact absurd (Option.ite_none_right_eq_some.1 h).1.1.symm hne
  | some p =>
    rw [checkExist_first h1 hp] at h
    exact ⟨p, rfl, (Option.ite_none_right_eq_some.1 h).1⟩

/-- A refill that is not split gives the words to the victim, or the tag to an invalid one. -/
theorem whole_refill (h1 : c.assocNum = 1) (hmiss : checkExist c s a = none) (hw : ¬ Splits c s a rnd)
    (hv : v = missLoc c s a rnd)
    (hp : returnIndex (writeTag (s.storing 0) v (c.tag a)) c.numRecords (c.tag a) = some p) (hle : p ≤ v) :
    p = v ∨ (s.storing 0 v).valid = false := by
  by_cases hpv : p = v
  · exact Or.inl hpv
  · obtain ⟨htag, hlt, hbefore⟩ := returnIndex_eq_some.1 hp
    rw [writeTag_of_ne hpv] at htag
    have hfirst : first c s a = some p := by
      refine returnIndex_eq_some.2 ⟨htag, hlt, fun j hj => ?_⟩
      have := hbefore j hj
      rwa [writeTag_of_ne (by omega)] at this
    have hinvalid : (s.storing 0 p).valid = false := by
      rw [checkExist_first h1 hfirst] at hmiss
      simpa using hmiss
    right
    by_contra hvalid
    refine hw ⟨p, hfirst, by omega, hinvalid, ?_⟩
    rw [← hv]
    simpa using hvalid

/-- **A lookup** finds the line in the first record with its tag, and the words of the memory there. -/
theorem fetchLine_found (hg : c.Geometry) (h1 : c.assocNum = 1) (h : FullInv c mem s) (a rnd : UInt32) :
    ∃ p, first c (fetchLine c mem s a rnd) a = some p ∧
      ((fetchLine c mem s a rnd).storing 0 p).valid = true ∧
      Holds c mem 0 (c.tag a) ((fetchLine c mem s a rnd).storing 0 p).data := by
  unfold fetchLine
  cases hc : checkExist c s a with
  | some k =>
    obtain ⟨p, hp, hvalid⟩ := first_of_hit hg h1 hc
    refine ⟨p, hp, hvalid, ?_⟩
    have hholds := h ⟨p, returnIndex_lt hp⟩ hvalid
    rwa [show (full c (s.storing 0) ⟨p, _⟩).tag = c.tag a from returnIndex_tag hp] at hholds
  | none =>
    obtain ⟨p, hp, -⟩ := returnIndex_of_tag (missLoc_full hg h1 s a rnd)
      (writeTag_tag (s.storing 0) _ (c.tag a))
    obtain ⟨r, hr, hvalid, htag, hholds⟩ := refill_full mem hg h1 rfl hp
    change ∃ p, first c (refill c mem s a rnd) a = some p ∧ ((refill c mem s a rnd).storing 0 p).valid = true ∧
      Holds c mem 0 (c.tag a) ((refill c mem s a rnd).storing 0 p).data
    refine ⟨p, ?_, ?_, ?_⟩
    · rw [first, hr]
      exact returnIndex_update hp htag
    · rw [hr, Function.update_self]
      exact hvalid
    · rw [hr, Function.update_self, ← htag]
      exact hholds

/-- **A lookup that splits no refill** keeps the invariant. -/
theorem fetchLine_whole (hg : c.Geometry) (h1 : c.assocNum = 1) (h : FullInv c mem s)
    (hw : ¬ Splits c s a rnd) : FullInv c mem (fetchLine c mem s a rnd) := by
  unfold fetchLine
  cases hc : checkExist c s a with
  | some k => exact h
  | none =>
    change FullInv c mem (refill c mem s a rnd)
    have hlt := missLoc_full hg h1 s a rnd
    obtain ⟨p, hp, hle⟩ := returnIndex_of_tag hlt (writeTag_tag (s.storing 0) _ (c.tag a))
    obtain ⟨r, hr, -, -, hholds⟩ := refill_full mem hg h1 rfl hp
    rcases whole_refill h1 hc hw rfl hp hle with rfl | hinvalid
    · -- tag and words are in the victim
      unfold writeTag at hr
      rw [Function.update_idem] at hr
      unfold FullInv
      rw [hr, full_update r hlt]
      exact Slots.Sound.fill h fun _ => hholds
    · -- the victim has the tag, but stays invalid
      have htagged : Slots.Sound (Holds c mem 0) (full c (writeTag (s.storing 0) (missLoc c s a rnd) (c.tag a))) := by
        unfold writeTag
        rw [full_update _ hlt]
        refine Slots.Sound.fill h fun hvalid => ?_
        rw [hinvalid] at hvalid
        cases hvalid
      unfold FullInv
      rw [hr, full_update r (returnIndex_lt hp)]
      exact htagged.fill fun _ => hholds

theorem step_full (hg : c.Geometry) (h1 : c.assocNum = 1) {x : Action} (h : FullInv c mem s) (hw : Whole c s x)
    (hs : step c mem s x = some s') : FullInv c mem s' := by
  cases x with
  | fetch address burst rnd =>
    obtain ⟨⟨u, ws⟩, hu, rfl⟩ := Option.map_eq_some_iff.1 hs
    exact (fetchLine_whole hg h1 h hw).congr (handleRequest_storing hu)
  | reset =>
    cases hs
    exact FullInv.of_invalid fun i _ => rfl

/-- **The full cache is transparent** as long as no refill is split: the next fetch gives the words of the
memory, and leaves the line where the lookup after it finds it. -/
theorem full_transparent (hg : c.Geometry) (h1 : c.assocNum = 1) (mem : UInt32 → UInt32) {s₀ : Rpu}
    (h₀ : ∀ i, i < c.numRecords → (s₀.storing 0 i).valid = false) {xs : List Action} {s : Rpu}
    (hC : Trans.Along (step c mem) (Whole c) s₀ xs) (hr : Trans.run (step c mem) s₀ xs = some s)
    (address rnd : UInt32) (burst : Nat) (haddr : address - c.spacing < 0x19000000)
    (hle : (address - c.spacing).toNat % 16 / 4 + burst ≤ 4) :
    ∃ t, handleRequest c mem s address burst rnd = some (t, words mem address burst) ∧
      checkExist c t (address - c.spacing) = some 1 := by
  have hI : FullInv c mem s :=
    Trans.run_inv_along (FullInv c mem) (fun s x t h hw hs => step_full hg h1 h hw hs)
      (FullInv.of_invalid h₀) hC hr
  obtain ⟨p, hp, hvalid, hholds⟩ := fetchLine_found hg h1 hI (address - c.spacing) rnd
  have hhit := checkExist_first h1 hp
  rw [if_pos hvalid] at hhit
  have hread : ∀ (u : Rpu) (b : UInt32), u.storing = (fetchLine c mem s (address - c.spacing) rnd).storing →
      b.toNat / 16 = (address - c.spacing).toNat / 16 →
      ∃ t, readData c u b (some 1) = some (t,
        ((fetchLine c mem s (address - c.spacing) rnd).storing 0 p).data (b.toNat % 16 / 4)) := by
    intro u b hu hb
    have hfirst : first c u b = some p := by
      unfold first
      rw [hu, hg.tag_congr hb]
      exact hp
    obtain ⟨t, ht⟩ := readData_first h1 hfirst (some 1)
    rw [hu, hg.off_eq] at ht
    exact ⟨t, ht⟩
  have hline : Holds c mem (c.index (address - c.spacing)) (c.tag (address - c.spacing))
      ((fetchLine c mem s (address - c.spacing) rnd).storing 0 p).data := by
    rw [index_full hg h1]
    exact hholds
  obtain ⟨t, ht⟩ := hline.readBeats hg hread hle
  have hback : address - c.spacing + c.spacing = address := by grind
  rw [hback] at ht
  refine ⟨t, by rw [handleRequest_eq haddr, hhit, ht], ?_⟩
  have hfirst : first c t (address - c.spacing) = some p := by
    unfold first
    rw [readBeats_storing ht]
    exact hp
  rw [checkExist_first h1 hfirst, readBeats_storing ht]
  exact if_pos hvalid

/-! Two records, random replacement, and tags that are zero before anything is stored. -/

def twoRecords : Config where
  size := 32
  line := 16
  assocNum := 1
  replaceType := .random
  tid := 0

def tripled (address : UInt32) : UInt32 := address * 3

def zeroTags : Rpu where
  storing := fun _ _ => { tag := 0, valid := false, data := fun _ => 0 }
  info := fun _ _ => 0
  nextIp := 0

/-- The second record is filled with another line, and then picked for the line of tag 0, whose words go to
the first record; the first record is given away. -/
def staleFetches : List Action :=
  [.fetch 0x100 1 1, .fetch 0x4 1 1, .fetch 0x200 1 0]

/-- The same fetches, with the first record picked for the line of tag 0. -/
def wholeFetches : List Action :=
  [.fetch 0x100 1 1, .fetch 0x4 1 0, .fetch 0x200 1 0]

theorem twoRecords_geometry : twoRecords.Geometry where
  line := rfl
  size := ⟨5, rfl⟩
  ways := .inr ⟨0, rfl⟩
  fits := by decide

theorem wholeFetches_isSome : (Trans.run (step twoRecords tripled) zeroTags wholeFetches).isSome := by
  decide +kernel

theorem full_transparent_whole :
    ∃ t, handleRequest twoRecords tripled
        ((Trans.run (step twoRecords tripled) zeroTags wholeFetches).get wholeFetches_isSome) 0x4 1 0
        = some (t, [0xC]) ∧ checkExist twoRecords t 0x4 = some 1 :=
  full_transparent twoRecords_geometry rfl tripled (fun _ _ => rfl) (by decide +kernel)
    (Option.some_get wholeFetches_isSome).symm 0x4 0 1 (by decide) (by decide)

theorem staleFetches_isSome : (Trans.run (step twoRecords tripled) zeroTags staleFetches).isSome := by
  decide +kernel

/-- The fetch of tag 0 hits the words of 0x100. -/
theorem not_transparent_staleTag :
    ¬ ∀ (xs : List Action) (s : Rpu), Trans.run (step twoRecords tripled) zeroTags xs = some s →
      ∀ address rnd : UInt32, address - twoRecords.spacing < 0x19000000 →
        ∃ t, handleRequest twoRecords tripled s address 1 rnd = some (t, words tripled address 1) := by
  intro h
  obtain ⟨t, ht⟩ := h staleFetches _ (Option.some_get staleFetches_isSome).symm 0x4 0 (by decide)
  have hwrong : (handleRequest twoRecords tripled
      ((Trans.run (step twoRecords tripled) zeroTags staleFetches).get staleFetches_isSome) 0x4 1 0).map Prod.snd
      = some [0x30C] := by decide +kernel
  rw [ht] at hwrong
  change some (words tripled 0x4 1) = some [0x30C] at hwrong
  exact absurd hwrong (by decide)

end VirtualSoc.Cache
