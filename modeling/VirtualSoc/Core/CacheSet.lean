import VirtualSoc.Core.Cache

/-!
# The direct and the set associative instruction cache are transparent (core/cache_RPU.cpp)

With one array of records a way, `check_exist` finds a line by index, tag and valid bit, and the four
writes of a refill all go to the victim: the first finds the line nowhere and puts the tag where the others
find it (`writeData_eq`). So valid records hold the lines of their tags and the tags of a set are distinct
(`Inv`) in every geometry, under every replacement and from reset to reset.
-/

namespace VirtualSoc.Cache

/-- The number of ways; a direct cache has one. -/
def Config.ways (c : Config) : Nat := max c.assocNum.toNat 1

/-- The way that an answer of `check_exist` stands for; a direct cache does not look at it. -/
def Config.wayOf (c : Config) (i : Nat) : Nat := if c.assocNum = 0 then 0 else i

/-- The records of one index. -/
def column (c : Config) (s : Rpu) (i : Nat) : Fin c.ways → CacheRecord := fun w => s.storing w i

/-- `storing` with another record in a place. -/
def put (st : Nat → Records) (w i : Nat) (r : CacheRecord) : Nat → Records :=
  Function.update st w (Function.update (st w) i r)

variable {c : Config} {mem : UInt32 → UInt32} {s s' : Rpu} {a : UInt32} {v : Fin c.ways} {i : Nat}

/-! ## Records and columns -/

@[simp] theorem put_self (st : Nat → Records) (w i : Nat) : put st w i (st w i) = st := by
  simp [put]

@[simp] theorem put_put (st : Nat → Records) (w i : Nat) (r r' : CacheRecord) :
    put (put st w i r) w i r' = put st w i r' := by
  simp [put]

@[simp] theorem put_at (st : Nat → Records) (w i : Nat) (r : CacheRecord) : put st w i r w i = r := by
  simp [put]

theorem column_put_self {r : CacheRecord} (hs : s'.storing = put s.storing v i r) :
    column c s' i = Function.update (column c s i) v r := by
  funext w
  unfold column
  rw [hs]
  by_cases hw : w = v
  · subst hw
    rw [Function.update_self, put_at]
  · have : (w : Nat) ≠ v := fun h => hw (Fin.ext h)
    rw [Function.update_of_ne hw, put, Function.update_of_ne this]

theorem column_put_ne {r : CacheRecord} (hs : s'.storing = put s.storing v i r) {j : Nat} (hj : j ≠ i) :
    column c s' j = column c s j := by
  funext w
  unfold column
  rw [hs, put]
  by_cases hw : (w : Nat) = v
  · rw [hw, Function.update_self, Function.update_of_ne hj]
  · rw [Function.update_of_ne hw]

theorem ways_direct (h : c.assocNum = 0) : c.ways = 1 := by
  unfold Config.ways
  rw [h]
  rfl

theorem ways_set (h0 : c.assocNum ≠ 0) : c.ways = c.assocNum.toNat := by
  have : c.assocNum.toNat ≠ 0 := fun h => h0 (UInt32.toNat_inj.1 h)
  unfold Config.ways
  omega

/-! ## The lookup -/

/-- **A hit** is a valid record of the set with the tag. -/
theorem checkExist_hit (h1 : c.assocNum ≠ 1) {k : Nat} (h : checkExist c s a = some k) :
    ∃ w : Fin c.ways, (w : Nat) = c.wayOf k ∧
      (column c s (c.index a) w).valid = true ∧ (column c s (c.index a) w).tag = c.tag a := by
  unfold checkExist at h
  unfold Config.wayOf column
  by_cases h0 : c.assocNum = 0
  · rw [if_pos h0] at h
    obtain ⟨⟨htag, hvalid⟩, -⟩ := Option.ite_none_right_eq_some.1 h
    refine ⟨⟨0, by rw [ways_direct h0]; exact Nat.one_pos⟩, (if_pos h0).symm, hvalid, htag.symm⟩
  · rw [if_neg h0, if_neg h1] at h
    have hk : k < c.ways := by
      rw [ways_set h0]
      exact List.mem_range.1 (List.mem_of_find?_eq_some h)
    have hrecord := List.find?_some h
    obtain ⟨htag, hvalid⟩ := of_decide_eq_true hrecord
    exact ⟨⟨k, hk⟩, (if_neg h0).symm, hvalid, htag.symm⟩

/-- **A miss**: no valid record of the set has the tag. -/
theorem checkExist_miss (h1 : c.assocNum ≠ 1) (h : checkExist c s a = none) (w : Fin c.ways)
    (hw : (column c s (c.index a) w).valid = true) : (column c s (c.index a) w).tag ≠ c.tag a := by
  unfold checkExist at h
  unfold column at hw ⊢
  intro htag
  by_cases h0 : c.assocNum = 0
  · rw [if_pos h0] at h
    have hw0 : (w : Nat) = 0 := by have := w.isLt; have := ways_direct h0; omega
    rw [hw0] at hw htag
    exact absurd h (by rw [if_pos ⟨htag.symm, hw⟩]; simp)
  · rw [if_neg h0, if_neg h1] at h
    have hmem : (w : Nat) ∈ List.range c.assocNum.toNat := by
      rw [List.mem_range, ← ways_set h0]
      exact w.isLt
    exact absurd (decide_eq_true ⟨htag.symm, hw⟩) (List.find?_eq_none.1 h w hmem)

/-- If only `v` can have the line, the way that a word is written to is `v`. -/
theorem checkExist_getD (h0 : c.assocNum ≠ 0) (h1 : c.assocNum ≠ 1)
    (hm : Slots.Missing (column c s (c.index a)) v (c.tag a)) : (checkExist c s a).getD v = v := by
  cases h : checkExist c s a with
  | none => rfl
  | some k =>
    obtain ⟨w, hwk, hvalid, htag⟩ := checkExist_hit h1 h
    have hwv : w = v := by
      by_contra hne
      exact hm w hne hvalid htag
    rw [Config.wayOf, if_neg h0] at hwk
    rw [Option.getD_some, ← hwk, hwv]

theorem readData_eq (h1 : c.assocNum ≠ 1) (s : Rpu) (a : UInt32) (k : Nat) :
    ∃ t, readData c s a (some k) = some (t, (s.storing (c.wayOf k) (c.index a)).data (c.off a)) := by
  unfold readData Config.wayOf
  by_cases h0 : c.assocNum = 0
  · rw [if_pos h0, if_pos h0]
    exact ⟨s, rfl⟩
  · rw [if_neg h0, if_neg h0, if_neg h1]
    exact ⟨_, rfl⟩

/-! ## The refill -/

/-- **A word goes to the victim**, and its tag with it, if no other way has the line. -/
theorem writeData_eq (h1 : c.assocNum ≠ 1) (hm : Slots.Missing (column c s (c.index a)) v (c.tag a))
    (d : UInt32) :
    (writeData c s a d v).storing = put s.storing v (c.index a)
      { tag := c.tag a, valid := true,
        data := Function.update (s.storing v (c.index a)).data (c.off a) d } := by
  unfold writeData
  by_cases h0 : c.assocNum = 0
  · have hv : (v : Nat) = 0 := by have := v.isLt; have := ways_direct h0; omega
    rw [if_pos h0, hv]
    simp [put, writeCache, writeTag]
  · rw [if_neg h0, if_neg h1]
    simp only [checkExist_getD h0 h1 hm]
    simp [put, writeCache, writeTag]

/-- The victim is a way of the set. -/
theorem missLoc_lt (h1 : c.assocNum ≠ 1) (s : Rpu) (a rnd : UInt32) : missLoc c s a rnd < c.ways := by
  unfold missLoc
  by_cases h0 : c.assocNum = 0
  · rw [if_neg (not_not.2 h0), ways_direct h0]
    exact Nat.one_pos
  · have hpos : 0 < c.assocNum.toNat := by
      have : c.assocNum.toNat ≠ 0 := fun h => h0 (UInt32.toNat_inj.1 h)
      omega
    rw [if_pos h0, ways_set h0]
    unfold whereTo
    cases c.replaceType with
    | random =>
      change (if c.assocNum = 1 then _ else _) < _
      rw [if_neg h1, UInt32.toNat_mod]
      exact Nat.mod_lt _ hpos
    | fifo =>
      change (if c.assocNum = 1 then _ else _) < _
      rw [if_neg h1]
      exact pick_lt hpos
    | lru =>
      change (if c.assocNum = 1 then _ else _) < _
      rw [if_neg h1]
      exact pick_lt hpos

/-- The cache `s` after `k` writes of the refill of `a` to the way `v`. -/
def Refilled (c : Config) (mem : UInt32 → UInt32) (s : Rpu) (a : UInt32) (v : Fin c.ways) (k : Nat) (t : Rpu) :
    Prop :=
  ∃ r : CacheRecord, t.storing = put s.storing v (c.index a) r ∧
    (0 < k → r.valid = true ∧ r.tag = c.tag a) ∧
    ∀ j, j < k → r.data j = mem (a / 16 * 16 + c.spacing + 4 * UInt32.ofNat j)

theorem Refilled.zero : Refilled c mem s a v 0 s :=
  ⟨s.storing v (c.index a), (put_self ..).symm, fun h => absurd h (by omega), fun j h => absurd h (by omega)⟩

/-- One write of the refill: it finds the way of the writes before it. -/
theorem Refilled.write (hg : c.Geometry) (h1 : c.assocNum ≠ 1) {k : Nat} {t : Rpu} (hk : k < 4)
    (hm : Slots.Missing (column c s (c.index a)) v (c.tag a)) (h : Refilled c mem s a v k t) :
    Refilled c mem s a v (k + 1) (writeData c t (a / 16 * 16 + c.spacing + 4 * UInt32.ofNat k - c.spacing)
      (mem (a / 16 * 16 + c.spacing + 4 * UInt32.ofNat k)) v) := by
  obtain ⟨r, hr, -, hdata⟩ := h
  have htag := hg.tag_congr (wordOf_line a hk)
  have hindex := hg.index_congr (wordOf_line a hk)
  have hmt : Slots.Missing (column c t (c.index (wordOf a k))) v (c.tag (wordOf a k)) := by
    rw [hindex, htag, column_put_self hr]
    intro w hw
    rw [Function.update_of_ne hw]
    exact hm w hw
  rw [wordOf_missed]
  refine ⟨{ tag := c.tag a, valid := true,
            data := Function.update r.data k (mem (a / 16 * 16 + c.spacing + 4 * UInt32.ofNat k)) },
    ?_, fun _ => ⟨rfl, rfl⟩, fun j hj => ?_⟩
  · rw [writeData_eq h1 hmt, hindex, htag, hg.off_wordOf a hk, hr, put_put, put_at]
  · by_cases hjk : j = k
    · subst hjk
      exact Function.update_self ..
    · exact (Function.update_of_ne hjk ..).trans (hdata j (by omega))

/-- **The refill**: the victim becomes a valid record of the missed line, and nothing else changes. -/
theorem refill_eq (hg : c.Geometry) (h1 : c.assocNum ≠ 1) {rnd : UInt32} (hv : (v : Nat) = missLoc c s a rnd)
    (hm : Slots.Missing (column c s (c.index a)) v (c.tag a)) :
    ∃ r : CacheRecord, (refill c mem s a rnd).storing = put s.storing v (c.index a) r ∧
      r.valid = true ∧ r.tag = c.tag a ∧ Holds c mem (c.index a) r.tag r.data := by
  have hloop : Refilled c mem s a v 4 (refill c mem s a rnd) := by
    unfold refill readFromMem
    rw [missedAddr_eq, ← hv]
    exact Loop.range_inv Refilled.zero fun k t hk h => h.write hg h1 hk hm
  obtain ⟨r, hr, hfull, hdata⟩ := hloop
  obtain ⟨hvalid, htag⟩ := hfull (by omega)
  refine ⟨r, hr, hvalid, htag, fun k hk => ?_⟩
  rw [htag, hg.lineAddress_eq]
  exact hdata k hk

/-! ## The invariant -/

/-- Valid records hold the lines of their tags, and the tags of a set are distinct. -/
structure Inv (c : Config) (mem : UInt32 → UInt32) (s : Rpu) : Prop where
  sound : ∀ i, i < c.lines → Slots.Sound (Holds c mem i) (column c s i)
  distinct : ∀ i, i < c.lines → Slots.Distinct (column c s i)

theorem Inv.of_invalid (h : ∀ (w : Fin c.ways) i, i < c.lines → (s.storing w i).valid = false) : Inv c mem s where
  sound i hi := Slots.Sound.of_invalid fun w => h w i hi
  distinct i hi := Slots.Distinct.of_invalid fun w => h w i hi

theorem Inv.congr (h : Inv c mem s) (hs : s'.storing = s.storing) : Inv c mem s' := by
  have hcolumn : ∀ i, column c s' i = column c s i := fun i => by unfold column; rw [hs]
  refine ⟨fun i hi => ?_, fun i hi => ?_⟩
  · rw [hcolumn]
    exact h.sound i hi
  · rw [hcolumn]
    exact h.distinct i hi

theorem Inv.put {r : CacheRecord} (h : Inv c mem s) (hs : s'.storing = put s.storing v i r)
    (hr : Holds c mem i r.tag r.data) (hm : Slots.Missing (column c s i) v r.tag) : Inv c mem s' := by
  refine ⟨fun j hj => ?_, fun j hj => ?_⟩
  · by_cases hji : j = i
    · subst hji
      rw [column_put_self hs]
      exact (h.sound j hj).fill fun _ => hr
    · rw [column_put_ne hs hji]
      exact h.sound j hj
  · by_cases hji : j = i
    · subst hji
      rw [column_put_self hs]
      exact (h.distinct j hj).fill hm
    · rw [column_put_ne hs hji]
      exact h.distinct j hj

/-- The beats of a hit are the words of the memory. -/
theorem readBeats_words (hg : c.Geometry) (h1 : c.assocNum ≠ 1) (h : Inv c mem s) {k burst : Nat}
    (hk : checkExist c s a = some k) (hle : a.toNat % 16 / 4 + burst ≤ 4) :
    ∃ t, readBeats c s a (some k) burst = some (t, words mem (a + c.spacing) burst) := by
  obtain ⟨w, hwk, hvalid, htag⟩ := checkExist_hit h1 hk
  have hread : ∀ (u : Rpu) (b : UInt32), u.storing = s.storing → b.toNat / 16 = a.toNat / 16 →
      ∃ t, readData c u b (some k) = some (t, (column c s (c.index a) w).data (b.toNat % 16 / 4)) := by
    intro u b hu hb
    obtain ⟨t, ht⟩ := readData_eq h1 u b k
    rw [hu, ← hwk, hg.index_congr hb, hg.off_eq] at ht
    exact ⟨t, ht⟩
  have hholds := h.sound _ (hg.index_lt a) w hvalid
  rw [htag] at hholds
  exact hholds.readBeats hg hread hle

/-- **A lookup** keeps the invariant, and the line is there after it. -/
theorem fetchLine_inv (hg : c.Geometry) (h1 : c.assocNum ≠ 1) (h : Inv c mem s) (a rnd : UInt32) :
    Inv c mem (fetchLine c mem s a rnd) ∧ ∃ k, checkExist c (fetchLine c mem s a rnd) a = some k := by
  unfold fetchLine
  cases hc : checkExist c s a with
  | some k =>
    exact ⟨h, k, hc⟩
  | none =>
    have hm : Slots.Missing (column c s (c.index a)) ⟨missLoc c s a rnd, missLoc_lt h1 s a rnd⟩ (c.tag a) :=
      fun w _ hw => checkExist_miss h1 hc w hw
    obtain ⟨r, hr, hvalid, htag, hholds⟩ := refill_eq hg h1 rfl hm
    refine ⟨h.put hr hholds (htag ▸ hm), ?_⟩
    change ∃ k, checkExist c (refill c mem s a rnd) a = some k
    cases hn : checkExist c (refill c mem s a rnd) a with
    | some k => exact ⟨k, rfl⟩
    | none =>
      have hself := congrFun (column_put_self hr) ⟨missLoc c s a rnd, missLoc_lt h1 s a rnd⟩
      rw [Function.update_self] at hself
      refine absurd ?_ (checkExist_miss h1 hn ⟨missLoc c s a rnd, missLoc_lt h1 s a rnd⟩ ?_)
      · rw [hself, htag]
      · rw [hself, hvalid]

theorem step_inv (hg : c.Geometry) (h1 : c.assocNum ≠ 1) {x : Action} (h : Inv c mem s)
    (hs : step c mem s x = some s') : Inv c mem s' := by
  cases x with
  | fetch address burst rnd =>
    obtain ⟨⟨t, ws⟩, ht, rfl⟩ := Option.map_eq_some_iff.1 hs
    exact (fetchLine_inv hg h1 h (address - c.spacing) rnd).1.congr (handleRequest_storing ht)
  | reset =>
    cases hs
    exact Inv.of_invalid fun w i _ => rfl

/-- **The cache is transparent.** From a cache without valid records, after any fetches and resets, the
valid records hold the lines of their tags and indices, the tags of a set are distinct, and the next fetch
gives the words of the memory. -/
theorem cache_transparent (hg : c.Geometry) (h1 : c.assocNum ≠ 1) (mem : UInt32 → UInt32) {s₀ : Rpu}
    (h₀ : ∀ (w : Fin c.ways) i, i < c.lines → (s₀.storing w i).valid = false) {xs : List Action} {s : Rpu}
    (hr : Trans.run (step c mem) s₀ xs = some s) :
    (∀ (w : Fin c.ways) i, i < c.lines → (s.storing w i).valid = true → ∀ k, k < 4 →
      (s.storing w i).data k
        = mem (c.lineAddress (s.storing w i).tag i + c.spacing + 4 * UInt32.ofNat k)) ∧
    (∀ (w w' : Fin c.ways) i, i < c.lines → (s.storing w i).valid = true → (s.storing w' i).valid = true →
      (s.storing w i).tag = (s.storing w' i).tag → w = w') ∧
    ∀ address rnd burst, address - c.spacing < 0x19000000 →
      (address - c.spacing).toNat % 16 / 4 + burst ≤ 4 →
      ∃ t, handleRequest c mem s address burst rnd = some (t, words mem address burst) := by
  have hI : Inv c mem s := Trans.run_inv (Inv c mem) (fun s x t h hs => step_inv hg h1 h hs) (Inv.of_invalid h₀) hr
  refine ⟨fun w i hi hw => hI.sound i hi w hw, fun w w' i hi hw hw' => hI.distinct i hi w w' hw hw', ?_⟩
  intro address rnd burst haddr hle
  obtain ⟨hline, k, hk⟩ := fetchLine_inv hg h1 hI (address - c.spacing) rnd
  obtain ⟨t, ht⟩ := readBeats_words hg h1 hline hk hle
  have hback : address - c.spacing + c.spacing = address := by grind
  rw [hback] at ht
  exact ⟨t, by rw [handleRequest_eq haddr, hk, ht]⟩

/-! A cache of two ways of two lines, which throws a line out of the first set, is reset and fetches
again. -/

def twoWays : Config where
  size := 64
  line := 16
  assocNum := 2
  replaceType := .lru
  tid := 1

def backing (address : UInt32) : UInt32 := address * 3

def cold : Rpu where
  storing := fun _ _ => { tag := 7, valid := false, data := fun _ => 9 }
  info := fun _ _ => 99999
  nextIp := 0

def fetches : List Action :=
  [.fetch 0x10000000 1 0, .fetch 0x10000044 1 0, .fetch 0x10000088 2 0, .reset, .fetch 0x10000044 1 0,
   .fetch 0x10000084 1 0]

theorem twoWays_geometry : twoWays.Geometry where
  line := rfl
  size := ⟨6, rfl⟩
  ways := .inr ⟨1, rfl⟩
  fits := by decide

theorem fetches_isSome : (Trans.run (step twoWays backing) cold fetches).isSome := by decide +kernel

theorem cache_transparent_twoWays :
    ∃ t, handleRequest twoWays backing ((Trans.run (step twoWays backing) cold fetches).get fetches_isSome)
      0x10000088 1 0 = some (t, [0x30000198]) :=
  (cache_transparent twoWays_geometry (by decide) backing (fun _ _ _ => rfl)
    (Option.some_get fetches_isSome).symm).2.2 0x10000088 0 1 (by decide) (by decide)

end VirtualSoc.Cache
