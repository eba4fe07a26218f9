import VirtualSoc.Lib.Recency
import VirtualSoc.Core.CacheSet

/-!
# Which way a refill replaces (core/cache_RPU.cpp, `where_to`)

Under LRU every read and every written word makes all ways of the set one older and sets the way in use to zero, from
ages of 99999 at the start; under FIFO every written word stamps its way with the next value of one counter for all sets.
The history kept beside the cache has, for each set, the ways that were used and those that were refilled.
Ages and stamps follow it as long as they do not wrap around, so `where_to` picks a way that was never filled, and else
the one used (or refilled) longest ago: `victim_right`.

The beats of a burst are all read from the way of the first. A beat behind the end of the line marks that way in
another set as used, whether or not it has the line, or any line: `Found` rules that out.
-/

namespace VirtualSoc.Cache

open Recency

/-! ## What a fetch does to ages and stamps -/

/-- The way is used in one set after the other. -/
def touches (c : Config) (way : Nat) (sets : List Nat) (info : Nat → Nat → UInt32) : Nat → Nat → UInt32 :=
  sets.foldl (fun info x => touch c info x way) info

/-- The sets of the beats. -/
def beatSets (c : Config) (a : UInt32) (burst : Nat) : List Nat :=
  (List.range burst).map fun j => c.index (a + 4 * UInt32.ofNat j)

variable {c : Config} {mem : UInt32 → UInt32} {s t : Rpu} {a d rnd : UInt32} {info : Nat → Nat → UInt32}
  {sets : List Nat} {i k v w x n burst : Nat} {ws : List UInt32}

theorem touch_self : touch c info x w w x = 0 := by simp [touch, setInfo]

theorem touch_other (hv : v ≠ w) (hlt : v < c.assocNum.toNat) : touch c info x w v x = info v x + 1 := by
  simp [touch, setInfo, Function.update_of_ne hv, hlt]

theorem touch_set {y : Nat} (hy : y ≠ x) : touch c info x w v y = info v y := by
  unfold touch setInfo
  by_cases hv : v = w
  · subst hv
    simp [hy]
  · simp [Function.update_of_ne hv, hy]

/-- The other ways grow older by one for each use. -/
theorem touches_other (hv : v ≠ w) (hlt : v < c.assocNum.toNat) :
    touches c w sets info v x = info v x + UInt32.ofNat (sets.count x) := by
  induction sets generalizing info with
  | nil => simp [touches]
  | cons y sets ih =>
    change touches c w sets (touch c info y w) v x = _
    rw [ih]
    by_cases hy : x = y
    · subst hy
      rw [touch_other hv hlt, List.count_cons_self, UInt32.ofNat_add, UInt32.add_assoc,
        UInt32.add_comm 1]
      rfl
    · rw [touch_set hy, List.count_cons_of_ne (Ne.symm hy)]

theorem touches_set (hx : x ∉ sets) : touches c w sets info v x = info v x := by
  induction sets generalizing info with
  | nil => rfl
  | cons y sets ih =>
    rw [List.mem_cons, not_or] at hx
    exact (ih hx.2).trans (touch_set hx.1)

theorem touches_self (hx : x ∈ sets) : touches c w sets info w x = 0 := by
  induction sets generalizing info with
  | nil => cases hx
  | cons y sets ih =>
    change touches c w sets (touch c info y w) w x = 0
    by_cases hmem : x ∈ sets
    · exact ih hmem
    · obtain rfl := (List.mem_cons.1 hx).resolve_right hmem
      rw [touches_set hmem, touch_self]

theorem readData_info (h0 : c.assocNum ≠ 0) (h1 : c.assocNum ≠ 1) (h : readData c s a (some w) = some (t, d)) :
    t.info = (if c.replaceType = .lru then touch c s.info (c.index a) w else s.info) ∧ t.nextIp = s.nextIp := by
  unfold readData at h
  rw [if_neg h0, if_neg h1] at h
  obtain rfl := (Prod.mk.inj (Option.some.inj h)).1
  exact ⟨rfl, rfl⟩

/-- The beats use the way in their sets. -/
theorem readBeats_info (h0 : c.assocNum ≠ 0) (h1 : c.assocNum ≠ 1) (h : readBeats c s a (some w) burst = some (t, ws)) :
    t.info = (if c.replaceType = .lru then touches c w (beatSets c a burst) s.info else s.info) ∧
      t.nextIp = s.nextIp := by
  induction burst generalizing s a ws with
  | zero =>
    obtain rfl := (Prod.mk.inj (Option.some.inj h)).1
    simp [touches, beatSets]
  | succ burst ih =>
    obtain ⟨⟨u, d⟩, hu, h⟩ := Option.bind_eq_some_iff.1 h
    obtain ⟨⟨u', ws'⟩, hu', h⟩ := Option.map_eq_some_iff.1 h
    obtain rfl := (Prod.mk.inj h).1
    obtain ⟨hinfo, hnext⟩ := readData_info h0 h1 hu
    obtain ⟨hinfo', hnext'⟩ := ih hu'
    have hsets : beatSets c a (burst + 1) = c.index a :: beatSets c (a + 4) burst := by
      unfold beatSets
      rw [List.range_succ_eq_map, List.map_cons, List.map_map]
      congr 1
      · simp
      · refine List.map_congr_left fun j _ => ?_
        change c.index (a + 4 * UInt32.ofNat (j + 1)) = _
        rw [UInt32.ofNat_add, UInt32.mul_add]
        congr 1
        grind
    refine ⟨?_, hnext'.trans hnext⟩
    rw [hinfo', hinfo, hsets]
    by_cases hlru : c.replaceType = .lru
    · simp only [if_pos hlru]
      rfl
    · simp only [if_neg hlru]

/-- What a written word does to the numbers, if it goes to `w`. -/
theorem writeData_info (h0 : c.assocNum ≠ 0) (h1 : c.assocNum ≠ 1) {v : Fin c.ways}
    (hm : Slots.Missing (column c s (c.index a)) v (c.tag a)) (d : UInt32) :
    (c.replaceType = .lru → (writeData c s a d v).info = touch c s.info (c.index a) v) ∧
      (c.replaceType = .fifo → (writeData c s a d v).info = setInfo s.info v (c.index a) s.nextIp ∧
        (writeData c s a d v).nextIp = s.nextIp + 1) := by
  unfold writeData
  rw [if_neg h0, if_neg h1]
  simp only [checkExist_getD h0 h1 hm]
  exact ⟨fun hlru => by simp only [hlru], fun hfifo => ⟨by simp only [hfifo], by simp only [hfifo, if_true]⟩⟩

theorem setInfo_setInfo (y y' : UInt32) : setInfo (setInfo info w i y) w i y' = setInfo info w i y' := by
  simp [setInfo]

/-- The numbers after `k` words of the refill of a line into `w`. -/
structure Written (c : Config) (s : Rpu) (i w k : Nat) (t : Rpu) : Prop where
  lru : c.replaceType = .lru → t.info = touches c w (List.replicate k i) s.info
  fifo : c.replaceType = .fifo → t.nextIp = s.nextIp + UInt32.ofNat k ∧
    (k = 0 ∧ t.info = s.info ∨ 0 < k ∧ t.info = setInfo s.info w i (s.nextIp + UInt32.ofNat (k - 1)))

theorem Written.zero : Written c s i w 0 s := ⟨fun _ => rfl, fun _ => ⟨(UInt32.add_zero _).symm, Or.inl ⟨rfl, rfl⟩⟩⟩

theorem Written.write {v : Fin c.ways} (h0 : c.assocNum ≠ 0) (h1 : c.assocNum ≠ 1) (h : Written c s (c.index a) v k t)
    (hm : Slots.Missing (column c t (c.index a)) v (c.tag a)) (d : UInt32) :
    Written c s (c.index a) v (k + 1) (writeData c t a d v) := by
  obtain ⟨hlru, hfifo⟩ := writeData_info h0 h1 hm d
  refine ⟨fun hr => ?_, fun hr => ?_⟩
  · rw [hlru hr, h.lru hr, List.replicate_succ', touches, touches, List.foldl_append]
    rfl
  · obtain ⟨hnext, hinfo⟩ := h.fifo hr
    obtain ⟨hinfo', hnext'⟩ := hfifo hr
    refine ⟨by rw [hnext', hnext, UInt32.ofNat_add, UInt32.add_assoc]; rfl, Or.inr ⟨Nat.succ_pos k, ?_⟩⟩
    rw [hinfo', hnext, Nat.add_sub_cancel]
    obtain ⟨-, hinfo⟩ | ⟨-, hinfo⟩ := hinfo
    · rw [hinfo]
    · rw [hinfo, setInfo_setInfo]

/-- **The refill** of a line that no other way of its set has: four words, all into the victim. -/
theorem refill_written {v : Fin c.ways} (hg : c.Geometry) (h0 : c.assocNum ≠ 0) (h1 : c.assocNum ≠ 1)
    (hv : (v : Nat) = missLoc c s a rnd) (hm : Slots.Missing (column c s (c.index a)) v (c.tag a)) :
    Written c s (c.index a) v 4 (refill c mem s a rnd) := by
  have hloop : Refilled c mem s a v 4 (refill c mem s a rnd) ∧ Written c s (c.index a) v 4 (refill c mem s a rnd) := by
    unfold refill readFromMem
    rw [missedAddr_eq, ← hv]
    refine Loop.range_inv (I := fun k t => Refilled c mem s a v k t ∧ Written c s (c.index a) v k t)
      ⟨Refilled.zero, Written.zero⟩ fun k t hk h => ⟨h.1.write hg h1 hk hm, ?_⟩
    have htag := hg.tag_congr (wordOf_line a hk)
    have hindex := hg.index_congr (wordOf_line a hk)
    obtain ⟨r, hr, -⟩ := h.1
    have hmt : Slots.Missing (column c t (c.index (wordOf a k))) v (c.tag (wordOf a k)) := by
      rw [hindex, htag, column_put_self hr]
      intro w hw
      rw [Function.update_of_ne hw]
      exact hm w hw
    show Written c s (c.index a) v (k + 1) (writeData c t (a / 16 * 16 + c.spacing + 4 * UInt32.ofNat k - c.spacing)
      (mem (a / 16 * 16 + c.spacing + 4 * UInt32.ofNat k)) v)
    rw [wordOf_missed]
    have hwritten := h.2
    rw [← hindex] at hwritten ⊢
    exact hwritten.write h0 h1 hmt _
  exact hloop.2

/-! ## The history -/

/-- For each set, the ways that were used and those that were refilled, the last one first. -/
structure History where
  uses : Nat → List Nat
  refills : Nat → List Nat

def History.use (h : History) (x w : Nat) : History := { h with uses := Function.update h.uses x (w :: h.uses x) }

def History.refill (h : History) (x w : Nat) : History :=
  { uses := Function.update h.uses x (w :: h.uses x), refills := Function.update h.refills x (w :: h.refills x) }

/-- A fetch uses the way in which its line is found after the lookup, in the set of each beat; a miss fills it. -/
def record (c : Config) (mem : UInt32 → UInt32) (s : Rpu) (x : Action) (h : History) : History :=
  match x with
  | .reset => h
  | .fetch address burst rnd =>
    match checkExist c (fetchLine c mem s (address - c.spacing) rnd) (address - c.spacing) with
    | none => h
    | some w =>
      (beatSets c (address - c.spacing) burst).foldl (fun h x => h.use x w)
        (if (checkExist c s (address - c.spacing)).isSome then h else h.refill (c.index (address - c.spacing)) w)

/-- The sets in which the numbers change, in turn: four times that of `a` in a refill, then those of the beats. -/
def touched (c : Config) (s : Rpu) (a : UInt32) (burst : Nat) : List Nat :=
  (if (checkExist c s a).isSome then [] else List.replicate 4 (c.index a)) ++ beatSets c a burst

/-- Under LRU each beat finds its line in the way from which it is read. -/
def Found (c : Config) (mem : UInt32 → UInt32) (s : Rpu) : Action → Prop
  | .fetch address burst rnd => c.replaceType = .lru → ∀ j < burst,
      checkExist c (fetchLine c mem s (address - c.spacing) rnd) (address - c.spacing + 4 * UInt32.ofNat j) =
        checkExist c (fetchLine c mem s (address - c.spacing) rnd) (address - c.spacing)
  | .reset => True

/-- No age of another way than the one in use, and no stamp, wraps around in the step. -/
def NoWrap (c : Config) (mem : UInt32 → UInt32) (s : Rpu) : Action → Prop
  | .fetch address burst rnd =>
    (c.replaceType = .lru → ∀ v < c.assocNum.toNat, ∀ x < c.lines,
      checkExist c (fetchLine c mem s (address - c.spacing) rnd) (address - c.spacing) ≠ some v →
        (s.info v x).toNat + (touched c s (address - c.spacing) burst).count x < 2 ^ 32) ∧
    (c.replaceType = .fifo → (checkExist c s (address - c.spacing)).isSome = false → s.nextIp.toNat + 4 < 2 ^ 32)
  | .reset => True

/-- A single beat is in the line that was looked up. -/
theorem found_single (hburst : burst ≤ 1) {address : UInt32} : Found c mem s (.fetch address burst rnd) := by
  intro _ j hj
  obtain rfl : j = 0 := by omega
  rw [show (4 * UInt32.ofNat 0 : UInt32) = 0 from rfl, UInt32.add_zero]

instance (s : Rpu) : ∀ x, Decidable (NoWrap c mem s x)
  | .fetch .. => inferInstanceAs (Decidable (_ ∧ _))
  | .reset => isTrue trivial

theorem mem_refill {h : History} {x : Nat} :
    (v ∈ (h.refill x w).refills i ↔ i = x ∧ v = w ∨ v ∈ h.refills i) ∧
      (v ∈ (h.refill x w).uses i ↔ i = x ∧ v = w ∨ v ∈ h.uses i) := by
  unfold History.refill
  by_cases hi : i = x
  · subst hi
    simp
  · simp [hi]

theorem setInfo_eq (y : UInt32) : setInfo info w i y v x = if v = w ∧ x = i then y else info v x := by
  unfold setInfo
  by_cases hv : v = w
  · subst hv
    by_cases hx : x = i
    · simp [hx]
    · simp [hx]
  · simp [hv]

theorem use_fold (h : History) (sets : List Nat) (w : Nat) :
    (sets.foldl (fun h x => h.use x w) h).refills = h.refills ∧
      ∀ x, (sets.foldl (fun h x => h.use x w) h).uses x = List.replicate (sets.count x) w ++ h.uses x := by
  induction sets generalizing h with
  | nil => exact ⟨rfl, fun x => rfl⟩
  | cons y sets ih =>
    obtain ⟨hrefills, huses⟩ := ih (h.use y w)
    refine ⟨hrefills, fun x => ?_⟩
    rw [List.foldl_cons, huses]
    by_cases hy : y = x
    · subst hy
      rw [List.count_cons_self, List.replicate_succ', List.append_assoc]
      simp [History.use]
    · rw [List.count_cons_of_ne hy]
      simp [History.use, Function.update_of_ne (Ne.symm hy)]

/-! ## A fetch -/

/-- **The lookup**: on a hit nothing changes, on a miss the line is in the victim. -/
theorem fetchLine_way (hg : c.Geometry) (h0 : c.assocNum ≠ 0) (h1 : c.assocNum ≠ 1) (h : Inv c mem s) (a rnd : UInt32) :
    ∃ w : Fin c.ways, checkExist c (fetchLine c mem s a rnd) a = some (w : Nat) ∧
      ((checkExist c s a).isSome = true ∧ fetchLine c mem s a rnd = s ∨
        (checkExist c s a).isSome = false ∧ Written c s (c.index a) w 4 (fetchLine c mem s a rnd) ∧
          ∃ r : CacheRecord, (fetchLine c mem s a rnd).storing = put s.storing w (c.index a) r) := by
  obtain ⟨-, k, hk⟩ := fetchLine_inv hg h1 h a rnd
  obtain ⟨w, hwk, hvalid, htag⟩ := checkExist_hit h1 hk
  rw [Config.wayOf, if_neg h0] at hwk
  rw [← hwk] at hk
  refine ⟨w, hk, ?_⟩
  cases hc : checkExist c s a with
  | some k' => exact Or.inl ⟨rfl, if_pos (by rw [hc]; rfl)⟩
  | none =>
    obtain ⟨v, hv⟩ : ∃ v : Fin c.ways, (v : Nat) = missLoc c s a rnd := ⟨⟨_, missLoc_lt h1 s a rnd⟩, rfl⟩
    have hm : Slots.Missing (column c s (c.index a)) v (c.tag a) := fun w _ hw => checkExist_miss h1 hc w hw
    have hline : fetchLine c mem s a rnd = refill c mem s a rnd := if_neg (by rw [hc]; exact Bool.false_ne_true)
    obtain ⟨r, hr, -⟩ : ∃ r : CacheRecord, (refill c mem s a rnd).storing = put s.storing v (c.index a) r ∧
        r.valid = true ∧ r.tag = c.tag a ∧ Holds c mem (c.index a) r.tag r.data := refill_eq hg h1 hv hm
    have hwv : w = v := by
      by_contra hne
      rw [hline, column_put_self hr, Function.update_of_ne hne] at hvalid htag
      exact hm w hne hvalid htag
    refine Or.inr ⟨rfl, ?_, r, ?_⟩
    · rw [hline, hwv]
      exact refill_written hg h0 h1 hv hm
    · rw [hline, hwv]
      exact hr

/-- What a hit in way `w` does. -/
structure Hit (c : Config) (x : Rpu × History) (a : UInt32) (burst w : Nat) (y : Rpu × History) : Prop where
  hit : (checkExist c x.1 a).isSome = true
  storing : y.1.storing = x.1.storing
  fifo : c.replaceType = .fifo → y.1.info = x.1.info ∧ y.1.nextIp = x.1.nextIp
  refills : y.2.refills = x.2.refills
  uses : ∀ i, y.2.uses i = List.replicate ((beatSets c a burst).count i) w ++ x.2.uses i

/-- What a miss that fills way `w` does. -/
structure Miss (c : Config) (x : Rpu × History) (a : UInt32) (burst w : Nat) (y : Rpu × History) : Prop where
  miss : (checkExist c x.1 a).isSome = false
  storing : ∃ r : CacheRecord, y.1.storing = put x.1.storing w (c.index a) r
  fifo : c.replaceType = .fifo →
    y.1.info = setInfo x.1.info w (c.index a) (x.1.nextIp + 3) ∧ y.1.nextIp = x.1.nextIp + 4
  refills : y.2.refills = (x.2.refill (c.index a) w).refills
  uses : ∀ i, y.2.uses i = List.replicate ((beatSets c a burst).count i) w ++ (x.2.refill (c.index a) w).uses i

/-- **A fetch** is a hit or a miss; either way the ages are touched in one way. -/
theorem fetch_cases {x y : Rpu × History} {address : UInt32} (hg : c.Geometry) (h0 : c.assocNum ≠ 0) (h1 : c.assocNum ≠ 1)
    (h : Inv c mem x.1) (hs : Trans.withHistory (step c mem) (record c mem) x (.fetch address burst rnd) = some y) :
    ∃ w : Fin c.ways,
      checkExist c (fetchLine c mem x.1 (address - c.spacing) rnd) (address - c.spacing) = some (w : Nat) ∧
      (c.replaceType = .lru → y.1.info = touches c w (touched c x.1 (address - c.spacing) burst) x.1.info) ∧
      (Hit c x (address - c.spacing) burst w y ∨ Miss c x (address - c.spacing) burst w y) := by
  obtain ⟨hstep, hhist⟩ := Trans.withHistory_some.1 hs
  obtain ⟨⟨t, ws⟩, ht, rfl⟩ := Option.map_eq_some_iff.1 hstep
  have haddr : address - c.spacing < 0x19000000 := by
    by_contra hge
    have hnone : handleRequest c mem x.1 address burst rnd = none := if_pos (UInt32.not_lt.1 hge)
    rw [hnone] at ht
    cases ht
  obtain ⟨w, hk, hcases⟩ := fetchLine_way hg h0 h1 h (address - c.spacing) rnd
  have hstoring := handleRequest_storing ht
  rw [handleRequest_eq haddr, hk] at ht
  obtain ⟨hinfo, hnext⟩ := readBeats_info h0 h1 ht
  rw [record, hk] at hhist
  simp only at hhist
  have hfold := use_fold (if (checkExist c x.1 (address - c.spacing)).isSome then x.2
    else x.2.refill (c.index (address - c.spacing)) w) (beatSets c (address - c.spacing) burst) w
  rw [← hhist] at hfold
  refine ⟨w, hk, fun hlru => ?_, ?_⟩
  · rw [hinfo, if_pos hlru, touched]
    obtain ⟨hhit, hline⟩ | ⟨hmiss, hwritten, -⟩ := hcases
    · rw [hline, if_pos hhit]
      rfl
    · rw [hwritten.lru hlru, if_neg (by rw [hmiss]; exact Bool.false_ne_true), touches, touches, touches,
        List.foldl_append]
  · obtain ⟨hhit, hline⟩ | ⟨hmiss, hwritten, r, hr⟩ := hcases
    · rw [if_pos hhit] at hfold
      rw [hline] at hinfo hnext hstoring
      exact Or.inl ⟨hhit, hstoring, fun hfifo => ⟨by rw [hinfo, hfifo]; rfl, hnext⟩, hfold.1, hfold.2⟩
    · rw [if_neg (by rw [hmiss]; exact Bool.false_ne_true)] at hfold
      refine Or.inr ⟨hmiss, ⟨r, hstoring.trans hr⟩, fun hfifo => ?_, hfold.1, hfold.2⟩
      obtain ⟨hnext', hinfo'⟩ := hwritten.fifo hfifo
      obtain ⟨hzero, -⟩ | ⟨-, hinfo'⟩ := hinfo'
      · exact absurd hzero (by decide)
      · exact ⟨by rw [hinfo, hfifo, if_neg (by decide), hinfo']; rfl, hnext.trans hnext'⟩

/-- Every valid record was filled. -/
def AllFilled (c : Config) (x : Rpu × History) : Prop :=
  ∀ w < c.assocNum.toNat, ∀ i < c.lines, (x.1.storing w i).valid = true → w ∈ x.2.refills i

/-- Ages and stamps follow the history. -/
structure Follows (c : Config) (mem : UInt32 → UInt32) (x : Rpu × History) : Prop where
  inv : Inv c mem x.1
  filled : AllFilled c x
  used : c.replaceType = .lru → ∀ i < c.lines, ∀ w, w ∈ x.2.uses i ↔ w ∈ x.2.refills i
  ages : c.replaceType = .lru → ∀ i < c.lines, Ranked (· < c.assocNum.toNat)
    (fun w v => (x.1.info w i).toNat < (x.1.info v i).toNat) (x.2.uses i)
  stamps : c.replaceType = .fifo → ∀ i < c.lines, Ranked (· < c.assocNum.toNat)
    (fun w v => (x.1.info v i).toNat < (x.1.info w i).toNat) (x.2.refills i)
  next : c.replaceType = .fifo → ∀ w < c.assocNum.toNat, ∀ i < c.lines, (x.1.info w i).toNat ≤ x.1.nextIp.toNat

/-- What the constructor leaves; nothing is said about the words and tags in the records. -/
structure Constructed (c : Config) (s : Rpu) : Prop where
  invalid : ∀ (w : Fin c.ways) i, i < c.lines → (s.storing w i).valid = false
  info : ∀ w < c.assocNum.toNat, ∀ i < c.lines, s.info w i = if c.replaceType = .lru then 99999 else 0
  nextIp : s.nextIp = 0

def History.empty : History := { uses := fun _ => [], refills := fun _ => [] }

theorem Constructed.follows (h0 : c.assocNum ≠ 0) (h : Constructed c s) : Follows c mem (s, History.empty) where
  inv := Inv.of_invalid h.invalid
  filled w hw i hi hvalid := by
    have := h.invalid ⟨w, by rw [ways_set h0]; exact hw⟩ i hi
    rw [hvalid] at this
    cases this
  used _ i _ w := Iff.rfl
  ages _ _ _ := Ranked.nil
  stamps _ _ _ := Ranked.nil
  next hfifo w hw i hi := by
    rw [h.info w hw i hi, hfifo]
    exact Nat.zero_le _

variable {x y : Rpu × History} {address : UInt32}

/-- **A fetch under LRU**: in each set it touches, the way in use becomes the youngest. -/
theorem Follows.ages_fetch {t : Rpu} {h : History} (hf : Follows c mem x) (hlru : c.replaceType = .lru) (hi : i < c.lines)
    (hinfo : t.info = touches c w sets x.1.info)
    (hwrap : ∀ v < c.assocNum.toNat, v ≠ w → (x.1.info v i).toNat + sets.count i < 2 ^ 32)
    (huses : (i ∉ sets ∧ h.uses i = x.2.uses i) ∨
      i ∈ sets ∧ ∃ n, n ≠ 0 ∧ h.uses i = List.replicate n w ++ x.2.uses i) :
    Ranked (· < c.assocNum.toNat) (fun w v => (t.info w i).toNat < (t.info v i).toNat) (h.uses i) := by
  obtain ⟨hmem, huses⟩ | ⟨hmem, n, hn, huses⟩ := huses
  · rw [huses, hinfo]
    simp only [touches_set hmem]
    exact hf.ages hlru i hi
  · have hother : ∀ v < c.assocNum.toNat, v ≠ w → (t.info v i).toNat = (x.1.info v i).toNat + sets.count i := by
      intro v hv hvw
      have hle := hwrap v hv hvw
      rw [hinfo, touches_other hvw hv, UInt32.toNat_add, UInt32.toNat_ofNat_of_lt' (by rw [UInt32.size]; omega)]
      exact Nat.mod_eq_of_lt hle
    rw [huses]
    refine Ranked.uses hn ((hf.ages hlru i hi).use (fun v hv hvw => ?_) fun v u hv hu hvw huw hlt => ?_)
    · rw [hother v hv hvw, hinfo, touches_self hmem]
      have := List.count_pos_iff.2 hmem
      show 0 < _
      omega
    · rw [hother v hv hvw, hother u hu huw]
      omega

theorem mem_beatSets : i ∈ beatSets c a burst ↔ ∃ j < burst, c.index (a + 4 * UInt32.ofNat j) = i := by
  simp [beatSets]

/-- A way in which a beat is found was filled. -/
theorem AllFilled.of_hit (hf : AllFilled c x) (hg : c.Geometry) (h0 : c.assocNum ≠ 0) (h1 : c.assocNum ≠ 1)
    {b : UInt32} (hb : checkExist c x.1 b = some w) : w ∈ x.2.refills (c.index b) := by
  obtain ⟨v, hvw, hvalid, -⟩ := checkExist_hit h1 hb
  rw [Config.wayOf, if_neg h0] at hvw
  subst hvw
  exact hf v (by rw [← ways_set h0]; exact v.isLt) _ (hg.index_lt b) hvalid

/-- The uses of the beats add no way that was not filled. -/
theorem AllFilled.mem_uses {uses : List Nat} (hf : AllFilled c y) (hg : c.Geometry) (h0 : c.assocNum ≠ 0) (h1 : c.assocNum ≠ 1)
    (hfound : ∀ j < burst, checkExist c y.1 (a + 4 * UInt32.ofNat j) = some w) (hv : v ∈ uses ↔ v ∈ y.2.refills i) :
    v ∈ List.replicate ((beatSets c a burst).count i) w ++ uses ↔ v ∈ y.2.refills i := by
  rw [List.mem_append, List.mem_replicate, hv]
  constructor
  · rintro (⟨hne, rfl⟩ | hv)
    · obtain ⟨j, hj, rfl⟩ := mem_beatSets.1 (List.count_pos_iff.1 (Nat.pos_of_ne_zero hne))
      exact hf.of_hit hg h0 h1 (hfound j hj)
    · exact hv
  · exact Or.inr

/-- Either no beat is in the set, or the way is used there. -/
theorem beats_uses (c : Config) (a : UInt32) (burst i w : Nat) (uses : List Nat) :
    (i ∉ beatSets c a burst ∧ List.replicate ((beatSets c a burst).count i) w ++ uses = uses) ∨
      i ∈ beatSets c a burst ∧ ∃ n, n ≠ 0 ∧
        List.replicate ((beatSets c a burst).count i) w ++ uses = List.replicate n w ++ uses := by
  by_cases hmem : i ∈ beatSets c a burst
  · exact Or.inr ⟨hmem, _, (List.count_pos_iff.2 hmem).ne', rfl⟩
  · have hzero : (beatSets c a burst).count i = 0 := List.count_eq_zero.2 hmem
    exact Or.inl ⟨hmem, by rw [hzero]; rfl⟩

theorem Follows.hit (hf : Follows c mem x) (hi : Inv c mem y.1) (hg : c.Geometry) (h0 : c.assocNum ≠ 0)
    (h1 : c.assocNum ≠ 1)
    (hfound : c.replaceType = .lru → ∀ j < burst, checkExist c y.1 (a + 4 * UInt32.ofNat j) = some w)
    (hwrap : c.replaceType = .lru → ∀ v < c.assocNum.toNat, ∀ i < c.lines, v ≠ w →
      (x.1.info v i).toNat + (touched c x.1 a burst).count i < 2 ^ 32)
    (hinfo : c.replaceType = .lru → y.1.info = touches c w (touched c x.1 a burst) x.1.info)
    (h : Hit c x a burst w y) : Follows c mem y := by
  have hsets : touched c x.1 a burst = beatSets c a burst := by
    rw [touched, if_pos h.hit]
    rfl
  rw [hsets] at hinfo hwrap
  have hfilled : AllFilled c y := by
    intro v hv i hi hvalid
    rw [h.storing] at hvalid
    rw [h.refills]
    exact hf.filled v hv i hi hvalid
  refine ⟨hi, hfilled, fun hlru i hi v => ?_, fun hlru i hi => ?_, fun hfifo i hi => ?_, fun hfifo v hv i hi => ?_⟩
  · rw [h.uses]
    exact hfilled.mem_uses hg h0 h1 (hfound hlru) (by rw [h.refills]; exact hf.used hlru i hi v)
  · refine hf.ages_fetch hlru hi (hinfo hlru) (fun v hv hvw => hwrap hlru v hv i hi hvw) ?_
    rw [h.uses]
    exact beats_uses c a burst i w _
  · rw [(h.fifo hfifo).1, h.refills]
    exact hf.stamps hfifo i hi
  · rw [(h.fifo hfifo).1, (h.fifo hfifo).2]
    exact hf.next hfifo v hv i hi

/-- The last stamp of a refill, and the next one after it. -/
theorem stamps_toNat {stamp : UInt32} (h : stamp.toNat + 4 < 2 ^ 32) :
    (stamp + 3).toNat = stamp.toNat + 3 ∧ (stamp + 4).toNat = stamp.toNat + 4 := by
  rw [UInt32.toNat_add, UInt32.toNat_add, show (3 : UInt32).toNat = 3 from rfl, show (4 : UInt32).toNat = 4 from rfl]
  omega

theorem Follows.miss (hf : Follows c mem x) (hi : Inv c mem y.1) (hg : c.Geometry) (h0 : c.assocNum ≠ 0)
    (h1 : c.assocNum ≠ 1)
    (hfound : c.replaceType = .lru → ∀ j < burst, checkExist c y.1 (a + 4 * UInt32.ofNat j) = some w)
    (hwrap : c.replaceType = .lru → ∀ v < c.assocNum.toNat, ∀ i < c.lines, v ≠ w →
      (x.1.info v i).toNat + (touched c x.1 a burst).count i < 2 ^ 32)
    (hnext : c.replaceType = .fifo → x.1.nextIp.toNat + 4 < 2 ^ 32)
    (hinfo : c.replaceType = .lru → y.1.info = touches c w (touched c x.1 a burst) x.1.info)
    (h : Miss c x a burst w y) : Follows c mem y := by
  have hsets : touched c x.1 a burst = List.replicate 4 (c.index a) ++ beatSets c a burst := by
    rw [touched, if_neg (by rw [h.miss]; exact Bool.false_ne_true)]
  obtain ⟨r, hr⟩ := h.storing
  have hfilled : AllFilled c y := by
    intro v hv i hi hvalid
    rw [h.refills, mem_refill.1]
    by_cases hvi : i = c.index a ∧ v = w
    · exact Or.inl hvi
    · refine Or.inr (hf.filled v hv i hi ?_)
      rw [← hvalid, hr, put]
      by_cases hvw : v = w
      · subst hvw
        rw [Function.update_self, Function.update_of_ne fun he => hvi ⟨he, rfl⟩]
      · rw [Function.update_of_ne hvw]
  refine ⟨hi, hfilled, fun hlru i hi v => ?_, fun hlru i hi => ?_, fun hfifo i hi => ?_, fun hfifo v hv i hi => ?_⟩
  · rw [h.uses]
    refine hfilled.mem_uses hg h0 h1 (hfound hlru) ?_
    rw [mem_refill.2, hf.used hlru i hi, ← mem_refill.1, ← h.refills]
  · refine hf.ages_fetch hlru hi (hinfo hlru) (fun v hv hvw => hwrap hlru v hv i hi hvw) ?_
    rw [hsets, List.mem_append, h.uses]
    by_cases hia : i = c.index a
    · refine Or.inr ⟨Or.inl (by simp [hia]), (beatSets c a burst).count i + 1, Nat.succ_ne_zero _, ?_⟩
      rw [List.replicate_succ', List.append_assoc, hia]
      simp [History.refill]
    · have huses : (x.2.refill (c.index a) w).uses i = x.2.uses i := Function.update_of_ne hia ..
      rw [huses]
      obtain ⟨hmem, hsame⟩ | ⟨hmem, huse⟩ := beats_uses c a burst i w (x.2.uses i)
      · refine Or.inl ⟨?_, hsame⟩
        rintro (hrep | hbeat)
        · exact hia (List.eq_of_mem_replicate hrep)
        · exact hmem hbeat
      · exact Or.inr ⟨Or.inr hmem, huse⟩
  · -- the victim gets a stamp above all others
    obtain ⟨hthree, -⟩ := stamps_toNat (hnext hfifo)
    rw [h.refills, (h.fifo hfifo).1]
    by_cases hia : i = c.index a
    · subst hia
      rw [show (x.2.refill (c.index a) w).refills (c.index a) = w :: x.2.refills (c.index a) from
        Function.update_self ..]
      refine (hf.stamps hfifo _ hi).use (fun v hv hvw => ?_) fun v u hv hu hvw huw hlt => ?_
      · have hle := hf.next hfifo v hv _ hi
        rw [setInfo_eq, setInfo_eq, if_neg fun hand => hvw hand.1, if_pos ⟨rfl, rfl⟩, hthree]
        omega
      · rw [setInfo_eq, setInfo_eq, if_neg fun hand => hvw hand.1, if_neg fun hand => huw hand.1]
        exact hlt
    · rw [show (x.2.refill (c.index a) w).refills i = x.2.refills i from Function.update_of_ne hia ..]
      intro v u hv hu hold
      rw [setInfo_eq, setInfo_eq, if_neg fun hand => hia hand.2, if_neg fun hand => hia hand.2]
      exact hf.stamps hfifo i hi v u hv hu hold
  · obtain ⟨hthree, hfour⟩ := stamps_toNat (hnext hfifo)
    have hle := hf.next hfifo v hv i hi
    rw [(h.fifo hfifo).1, (h.fifo hfifo).2, setInfo_eq, hfour]
    split
    · omega
    · omega

/-- **Every step** whose beats are found and whose numbers do not wrap around keeps the order. -/
theorem Follows.next_step (hf : Follows c mem x) (hg : c.Geometry) (h0 : c.assocNum ≠ 0) (h1 : c.assocNum ≠ 1)
    {act : Action} (hfound : Found c mem x.1 act) (hwrap : NoWrap c mem x.1 act)
    (hs : Trans.withHistory (step c mem) (record c mem) x act = some y) : Follows c mem y := by
  obtain ⟨hstep, hhist⟩ := Trans.withHistory_some.1 hs
  have hinv := step_inv hg h1 hf.inv hstep
  cases act with
  | reset =>
    obtain ⟨s, h⟩ := y
    obtain rfl : resetCache x.1 = s := Option.some.inj hstep
    obtain rfl : h = x.2 := hhist
    exact ⟨hinv, fun w hw i hi hvalid => absurd hvalid Bool.false_ne_true, hf.used, hf.ages, hf.stamps, hf.next⟩
  | fetch address burst rnd =>
    obtain ⟨w, hk, hinfo, hcases⟩ := fetch_cases hg h0 h1 hf.inv hs
    obtain ⟨⟨t, ws⟩, ht, he⟩ := Option.map_eq_some_iff.1 hstep
    have hstoring : y.1.storing = (fetchLine c mem x.1 (address - c.spacing) rnd).storing :=
      (congrArg Rpu.storing he.symm).trans (handleRequest_storing ht)
    have hfound' : c.replaceType = .lru → ∀ j < burst,
        checkExist c y.1 (address - c.spacing + 4 * UInt32.ofNat j) = some (w : Nat) := by
      intro hlru j hj
      rw [checkExist_congr hstoring]
      exact (hfound hlru j hj).trans hk
    have hwrap' : c.replaceType = .lru → ∀ v < c.assocNum.toNat, ∀ i < c.lines, v ≠ w →
        (x.1.info v i).toNat + (touched c x.1 (address - c.spacing) burst).count i < 2 ^ 32 := by
      intro hlru v hv i hi hvw
      refine hwrap.1 hlru v hv i hi fun hkv => hvw ?_
      rw [hk] at hkv
      exact (Option.some.inj hkv).symm
    obtain hhit | hmiss := hcases
    · exact hf.hit hinv hg h0 h1 hfound' hwrap' hinfo hhit
    · exact hf.miss hinv hg h0 h1 hfound' hwrap' (fun hfifo => hwrap.2 hfifo hmiss.miss) hinfo hmiss

/-! ## The victim -/

/-- The scan ends in an entry that no other beats, for a `beats` that compares keys. -/
theorem pick_best {beats : UInt32 → UInt32 → Bool} (key : UInt32 → Int) (f : Nat → UInt32)
    (hbeats : ∀ y z, beats y z = decide (key y < key z)) (hi : i < n) : key (f i) ≤ key (f (pick beats f n)) := by
  have hscan : ∀ (l : List Nat) (temp : Nat),
      key (f temp) ≤ key (f (l.foldl (fun temp i => if beats (f temp) (f i) then i else temp) temp)) ∧
        ∀ j ∈ l, key (f j) ≤ key (f (l.foldl (fun temp i => if beats (f temp) (f i) then i else temp) temp)) := by
    intro l
    induction l with
    | nil => exact fun temp => ⟨Int.le_refl _, fun j hj => absurd hj List.not_mem_nil⟩
    | cons j l ih =>
      intro temp
      obtain ⟨htemp, hl⟩ := ih (if beats (f temp) (f j) then j else temp)
      have hboth : key (f temp) ≤ key (f (if beats (f temp) (f j) then j else temp)) ∧
          key (f j) ≤ key (f (if beats (f temp) (f j) then j else temp)) := by
        rw [hbeats]
        by_cases hlt : key (f temp) < key (f j)
        · simp only [hlt, decide_true, if_true]
          omega
        · simp only [hlt, decide_false]
          simp
          omega
      refine ⟨hboth.1.trans htemp, fun j' hj' => ?_⟩
      obtain rfl | hj' := List.mem_cons.1 hj'
      · exact hboth.2.trans htemp
      · exact hl j' hj'
  obtain ⟨hzero, hrest⟩ := hscan (List.range' 1 (n - 1)) 0
  unfold pick
  by_cases h0 : i = 0
  · rw [h0]
    exact hzero
  · exact hrest i (List.mem_range'_1.2 (by omega))

/-- What a victim of set `i` should be. -/
structure Victim (c : Config) (h : History) (i v : Nat) : Prop where
  way : v < c.assocNum.toNat
  new : (∃ w < c.assocNum.toNat, w ∉ h.refills i) → v ∉ h.refills i
  lru : c.replaceType = .lru → (∀ w < c.assocNum.toNat, w ∈ h.refills i) →
    ∀ w < c.assocNum.toNat, w ≠ v → Older (h.uses i) v w
  fifo : c.replaceType = .fifo → (∀ w < c.assocNum.toNat, w ∈ h.refills i) →
    ∀ w < c.assocNum.toNat, w ≠ v → Older (h.refills i) v w

theorem Follows.victim (hf : Follows c mem x) (h0 : c.assocNum ≠ 0) (h1 : c.assocNum ≠ 1) (htype : c.replaceType ≠ .random)
    (hi : i < c.lines) (rnd : UInt32) : Victim c x.2 i (whereTo c x.1 i rnd) := by
  have hpos : 0 < c.assocNum.toNat := by
    have : c.assocNum.toNat ≠ 0 := fun h => h0 (UInt32.toNat_inj.1 h)
    omega
  cases hr : c.replaceType with
  | random => exact absurd hr htype
  | fifo =>
    have hpick : whereTo c x.1 i rnd = pick (fun y z => z < y) (fun w => x.1.info w i) c.assocNum.toNat := by
      simp only [whereTo, hr, if_neg h1]
    have hlt : pick (fun y z => z < y) (fun w => x.1.info w i) c.assocNum.toNat < c.assocNum.toNat := pick_lt hpos
    have hmin : ∀ w, w < c.assocNum.toNat → ¬ (x.1.info w i).toNat <
        (x.1.info (pick (fun y z => z < y) (fun w => x.1.info w i) c.assocNum.toNat) i).toNat := by
      intro w hw
      have hbest := pick_best (fun y => - (y.toNat : Int)) (fun w => x.1.info w i)
        (fun y z => show decide (z < y) = _ by simp [UInt32.lt_iff_toNat_lt]) hw
      omega
    have hrank := hf.stamps hr i hi
    rw [hpick]
    refine ⟨hlt, fun ⟨w, hw, hnew⟩ => oldest_new hrank hlt hmin hw hnew, fun hlru => ?_, fun _ hall w hw hne => ?_⟩
    · rw [hr] at hlru
      cases hlru
    · exact oldest_last hrank hlt hmin hw hne (hall w hw)
  | lru =>
    have hpick : whereTo c x.1 i rnd = pick (fun y z => y < z) (fun w => x.1.info w i) c.assocNum.toNat := by
      simp only [whereTo, hr, if_neg h1]
    have hlt : pick (fun y z => y < z) (fun w => x.1.info w i) c.assocNum.toNat < c.assocNum.toNat := pick_lt hpos
    have hmax : ∀ w, w < c.assocNum.toNat →
        ¬ (x.1.info (pick (fun y z => y < z) (fun w => x.1.info w i) c.assocNum.toNat) i).toNat <
          (x.1.info w i).toNat := by
      intro w hw
      have hbest := pick_best (fun y => (y.toNat : Int)) (fun w => x.1.info w i)
        (fun y z => show decide (y < z) = _ by simp [UInt32.lt_iff_toNat_lt]) hw
      omega
    have hrank := hf.ages hr i hi
    have hused := hf.used hr i hi
    rw [hpick]
    refine ⟨hlt, fun ⟨w, hw, hnew⟩ => ?_, fun _ hall w hw hne => ?_, fun hfifo => ?_⟩
    · rw [← hused] at hnew ⊢
      exact oldest_new hrank hlt hmax hw hnew
    · exact oldest_last hrank hlt hmax hw hne ((hused w).2 (hall w hw))
    · rw [hr] at hfifo
      cases hfifo

/-- **The victim.** In every set associative geometry under LRU or FIFO, after any fetches and resets since construction
whose beats are found and whose numbers do not wrap around, `where_to` picks a way of the set that was never filled, if there
is one, and else the one whose last use (LRU) or last refill (FIFO) is the oldest. -/
theorem victim_right (hg : c.Geometry) (hways : 1 < c.assocNum) (htype : c.replaceType ≠ .random) {s₀ : Rpu}
    (h₀ : Constructed c s₀) {acts : List Action}
    (hC : Trans.Along (Trans.withHistory (step c mem) (record c mem)) (fun x act => Found c mem x.1 act ∧ NoWrap c mem x.1 act)
      (s₀, History.empty) acts)
    (hr : Trans.run (Trans.withHistory (step c mem) (record c mem)) (s₀, History.empty) acts = some x) :
    ∀ i < c.lines, ∀ rnd, Victim c x.2 i (whereTo c x.1 i rnd) := by
  have h0 : c.assocNum ≠ 0 := by
    rintro he
    rw [he] at hways
    exact absurd hways (by decide)
  have h1 : c.assocNum ≠ 1 := by
    rintro he
    rw [he] at hways
    exact absurd hways (by decide)
  have hf : Follows c mem x := Trans.run_inv_along (Follows c mem)
    (fun x act y hx hc hs => hx.next_step hg h0 h1 hc.1 hc.2 hs) (h₀.follows h0) hC hr
  exact fun i hi rnd => hf.victim h0 h1 htype hi rnd

theorem cold_constructed : Constructed twoWays cold := ⟨fun _ _ _ => rfl, fun _ _ _ _ => rfl, rfl⟩

/-- Both fetches go over the end of their lines. The first fills way 0 of set 1 and marks way 0 of set 0; so the second
fills way 1 of set 0, and marks way 1 of set 1. -/
def overEnd : List Action := [.fetch 0x1000001C 2 0, .fetch 0x1000000C 2 0]

theorem overEnd_isSome : (Trans.run (Trans.withHistory (step twoWays backing) (record twoWays backing))
    (cold, History.empty) overEnd).isSome := by decide +kernel

/-- Way 1 of set 1 was never filled, and way 0 is thrown out. -/
theorem not_victim_overEnd : Constructed twoWays cold ∧ ∃ x,
    Trans.run (Trans.withHistory (step twoWays backing) (record twoWays backing)) (cold, History.empty) overEnd = some x ∧
      x.2.refills 1 = [0] ∧ whereTo twoWays x.1 1 0 = 0 :=
  ⟨cold_constructed, _, (Option.some_get overEnd_isSome).symm, by decide +kernel, by decide +kernel⟩

/-- Both ways of set 0, one after the other. -/
def bothWays : List Action := [.fetch 0x10000000 1 0, .fetch 0x10000024 1 0]

theorem bothWays_isSome : (Trans.run (Trans.withHistory (step twoWays backing) (record twoWays backing))
    (cold, History.empty) bothWays).isSome := by decide +kernel

theorem victim_right_bothWays : ∃ x,
    Trans.run (Trans.withHistory (step twoWays backing) (record twoWays backing)) (cold, History.empty) bothWays = some x ∧
      Victim twoWays x.2 0 (whereTo twoWays x.1 0 0) := by
  obtain ⟨x, hx⟩ := Option.isSome_iff_exists.1 bothWays_isSome
  have hwrap : Trans.Along (Trans.withHistory (step twoWays backing) (record twoWays backing))
      (fun x act => NoWrap twoWays backing x.1 act) (cold, History.empty) bothWays := by decide +kernel
  have hfound : Trans.Along (Trans.withHistory (step twoWays backing) (record twoWays backing))
      (fun x act => Found twoWays backing x.1 act) (cold, History.empty) bothWays :=
    ⟨found_single (Nat.le_refl 1), fun _ _ => ⟨found_single (Nat.le_refl 1), fun _ _ => trivial⟩⟩
  exact ⟨x, hx, victim_right twoWays_geometry (by decide) (by decide) cold_constructed (hfound.and hwrap) hx 0
    (by decide) 0⟩

end VirtualSoc.Cache
