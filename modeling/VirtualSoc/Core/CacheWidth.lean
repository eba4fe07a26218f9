import VirtualSoc.Core.CacheFull
import VirtualSoc.Core.CacheSet

/-!
# Widths and bursts of the instruction cache (core/cache_module.cpp, `handle_request`)

The loop over the beats of a hit and the one behind a miss are written twice. A hit cuts the word down to
the width and steps by the width, but it shifts by the number of the beat, not by where the address is in the
word. A miss hands out the whole word and steps by four whatever the width is. And the line is looked up once, so
the beats behind its end are read from whatever record is there.

`widths_iff`: the requests that are answered with the units of memory in every transparent state, on a hit and on a
miss.
-/

namespace VirtualSoc.Cache

open MemClass

/-- What a hit adds to the address. -/
def beatWidth (bw : Nat) : Nat := if bw = MEM_WORD then 4 else if bw = MEM_BYTE then 1 else 2

/-- What a hit hands out of the word in beat `j`. A shift by 32 or more has no outcome. -/
def narrow (bw j : Nat) (data : UInt32) : Option UInt32 :=
  if bw = MEM_WORD then some data
  else if bw = MEM_BYTE then
    if 8 * j < 32 then some ((data >>> UInt32.ofNat (8 * j)) &&& 0x000000FF) else none
  else if 16 * j < 32 then some ((data >>> UInt32.ofNat (16 * j)) &&& 0x0000FFFF) else none

/-- The beats from `j` on, each with its address: `out` makes the data of a beat from the word, `incr` is added to
the address. -/
def beatLoop (c : Config) (out : Nat → UInt32 → Option UInt32) (incr : Nat) (s : Rpu) (addr : UInt32)
    (ind : Option Nat) (j : Nat) : Nat → Option (Rpu × List (UInt32 × UInt32))
  | 0 => some (s, [])
  | burst + 1 =>
    (readData c s addr ind).bind fun x =>
      (out j x.2).bind fun data =>
        (beatLoop c out incr x.1 (addr + UInt32.ofNat incr) ind (j + 1) burst).map fun y => (y.1, (addr, data) :: y.2)

/-- `handle_request` for a read of any width: the beats with their addresses in the tile. -/
def handleWidth (c : Config) (mem : UInt32 → UInt32) (s : Rpu) (address : UInt32) (bw burst : Nat) (rnd : UInt32) :
    Option (Rpu × List (UInt32 × UInt32)) :=
  let addr := address - c.spacing
  if 0x19000000 ≤ addr then none
  else match checkExist c s addr with
    | some ind => beatLoop c (narrow bw) (beatWidth bw) s addr (some ind) 0 burst
    | none =>
      let s := refill c mem s addr rnd
      beatLoop c (fun _ data => some data) 4 s addr (checkExist c s addr) 0 burst

/-- The unit of width `bw` that the memory holds at the address. -/
def unit (mem : UInt32 → UInt32) (bw : Nat) (x : UInt32) : UInt32 :=
  if bw = MEM_WORD then mem (x / 4 * 4)
  else if bw = MEM_BYTE then (mem (x / 4 * 4) >>> UInt32.ofNat (8 * (x.toNat % 4))) &&& 0x000000FF
  else (mem (x / 4 * 4) >>> UInt32.ofNat (16 * (x.toNat % 4 / 2))) &&& 0x0000FFFF

/-- What the beats of a request should be. -/
def units (c : Config) (mem : UInt32 → UInt32) (bw : Nat) (addr : UInt32) (burst : Nat) : List (UInt32 × UInt32) :=
  (List.range burst).map fun j =>
    (addr + UInt32.ofNat (beatWidth bw * j), unit mem bw (addr + UInt32.ofNat (beatWidth bw * j) + c.spacing))

/-- The invariant of the storage that the configuration has. -/
def Transparent (c : Config) (mem : UInt32 → UInt32) (s : Rpu) : Prop :=
  if c.assocNum = 1 then FullInv c mem s else Inv c mem s

/-- The requests that are right: words in the line, and narrow units of one word from its start that hit. -/
def RightWidth (a : UInt32) (bw burst : Nat) (hit : Bool) : Prop :=
  burst = 0 ∨
    if bw = MEM_WORD then a.toNat % 16 / 4 + burst ≤ 4
    else hit = true ∧ if bw = MEM_BYTE then a.toNat % 4 = 0 ∧ burst ≤ 4 else a.toNat % 4 < 2 ∧ burst ≤ 2

instance (a : UInt32) (bw burst : Nat) (hit : Bool) : Decidable (RightWidth a bw burst hit) :=
  inferInstanceAs (Decidable (_ ∨ _))

variable {c : Config} {mem : UInt32 → UInt32} {s t u : Rpu} {a b address rnd : UInt32} {ind : Option Nat}
  {out : Nat → UInt32 → Option UInt32} {incr j k bw burst : Nat} {l : List (UInt32 × UInt32)}

/-! ## The loop -/

theorem step_address (a : UInt32) (incr k : Nat) :
    a + UInt32.ofNat incr + UInt32.ofNat (incr * k) = a + UInt32.ofNat (incr * (k + 1)) := by
  rw [Nat.mul_succ, UInt32.ofNat_add]
  ac_rfl

/-- If the word of each beat can be read whatever was read before, the beats are these. -/
theorem beatLoop_some {e : Nat → UInt32}
    (hread : ∀ k < burst, ∀ u : Rpu, u.storing = s.storing →
      ∃ t d, readData c u (a + UInt32.ofNat (incr * k)) ind = some (t, d) ∧ out (j + k) d = some (e k)) :
    ∃ t, beatLoop c out incr s a ind j burst
      = some (t, (List.range burst).map fun k => (a + UInt32.ofNat (incr * k), e k)) := by
  induction burst generalizing s a j e with
  | zero => exact ⟨s, rfl⟩
  | succ burst ih =>
    obtain ⟨u, d, hu, hd⟩ := hread 0 (Nat.succ_pos burst) s rfl
    have ha : a + UInt32.ofNat (incr * 0) = a := by simp
    rw [ha] at hu
    obtain ⟨t, ht⟩ := ih (s := u) (a := a + UInt32.ofNat incr) (j := j + 1) (e := fun k => e (k + 1)) <| by
      intro k hk v hv
      rw [step_address, Nat.add_assoc, Nat.add_comm 1 k]
      exact hread (k + 1) (Nat.succ_lt_succ hk) v (hv.trans (readData_storing hu))
    refine ⟨t, ?_⟩
    simp only [beatLoop, hu, Option.bind_some, show out j d = some (e 0) from hd, ht, Option.map_some,
      List.range_succ_eq_map, List.map_cons, List.map_map, ha]
    congr 4
    funext k
    simp only [Function.comp_apply, step_address]

/-- Each beat is what comes out of the word that is read there. -/
theorem beatLoop_get (h : beatLoop c out incr s a ind j burst = some (t, l))
    (hk : k < burst) :
    ∃ u t' d e, u.storing = s.storing ∧ readData c u (a + UInt32.ofNat (incr * k)) ind = some (t', d) ∧
      out (j + k) d = some e ∧ l[k]? = some (a + UInt32.ofNat (incr * k), e) := by
  induction burst generalizing s a j l k with
  | zero => exact absurd hk (Nat.not_lt_zero k)
  | succ burst ih =>
    obtain ⟨⟨u, d⟩, hu, h⟩ := Option.bind_eq_some_iff.1 h
    obtain ⟨e, he, h⟩ := Option.bind_eq_some_iff.1 h
    obtain ⟨⟨t', l'⟩, hl', h⟩ := Option.map_eq_some_iff.1 h
    obtain ⟨rfl, rfl⟩ := Prod.mk.inj h
    cases k with
    | zero =>
      have ha : a + UInt32.ofNat (incr * 0) = a := by simp
      rw [ha]
      exact ⟨s, u, d, e, rfl, hu, he, rfl⟩
    | succ k =>
      obtain ⟨v, v', d', e', hv, hread, hout, hget⟩ := ih hl' (Nat.lt_of_succ_lt_succ hk)
      rw [step_address] at hread hget
      rw [Nat.add_assoc, Nat.add_comm 1 k] at hout
      exact ⟨v, v', d', e', hv.trans (readData_storing hu), hread, hout, hget⟩

theorem beatLoop_word : (beatLoop c (fun _ data => some data) 4 s a ind j burst).map (fun x => (x.1, x.2.map Prod.snd)) =
    readBeats c s a ind burst := by
  induction burst generalizing s a j with
  | zero => rfl
  | succ burst ih =>
    simp only [beatLoop, readBeats, Option.bind_some]
    cases readData c s a ind with
    | none => rfl
    | some x =>
      simp only [Option.bind_some, Option.map_map]
      rw [← show (4 : UInt32) = UInt32.ofNat 4 from rfl, ← ih (s := x.1) (a := a + 4) (j := j + 1), Option.map_map]
      rfl

/-- For words it is `handleRequest`. -/
theorem handleWidth_word : (handleWidth c mem s address MEM_WORD burst rnd).map (fun x => (x.1, x.2.map Prod.snd)) =
    handleRequest c mem s address burst rnd := by
  have hnarrow : narrow MEM_WORD = fun _ data => some data := rfl
  unfold handleWidth handleRequest
  simp only
  split
  · rfl
  · cases checkExist c s (address - c.spacing) with
    | some k =>
      simp only [hnarrow]
      exact beatLoop_word
    | none => exact beatLoop_word

/-! ## What the line serves -/

/-- Every read in the line of `a` gives the word of the memory. -/
def Serves (c : Config) (mem : UInt32 → UInt32) (s : Rpu) (a : UInt32) (ind : Option Nat) : Prop :=
  ∀ u b, u.storing = s.storing → b.toNat / 16 = a.toNat / 16 →
    ∃ t, readData c u b ind = some (t, mem ((b + c.spacing) / 4 * 4))

/-- The words of a record are at their places in the memory. -/
theorem Holds.word (hg : c.Geometry) {data : Nat → UInt32} (h : Holds c mem (c.index a) (c.tag a) data)
    (hb : b.toNat / 16 = a.toNat / 16) : data (b.toNat % 16 / 4) = mem ((b + c.spacing) / 4 * 4) := by
  have hline : b / 16 * 16 = a / 16 * 16 := by
    apply UInt32.toNat_inj.1
    rw [lineBase_toNat, lineBase_toNat, hb]
  have hword := address_word c b 0
  rw [Nat.add_zero, hline] at hword
  rw [h _ (by omega), hg.lineAddress_eq, ← hword]
  congr 1
  exact UInt32.add_zero _

theorem serves_set (hg : c.Geometry) (h1 : c.assocNum ≠ 1) (h : Inv c mem s) (hk : checkExist c s a = some k) :
    Serves c mem s a (some k) := by
  obtain ⟨w, hwk, hvalid, htag⟩ := checkExist_hit h1 hk
  have hholds := h.sound _ (hg.index_lt a) w hvalid
  rw [htag] at hholds
  intro u b hu hb
  obtain ⟨t, ht⟩ := readData_eq h1 u b k
  rw [hu, ← hwk, hg.index_congr hb, hg.off_eq] at ht
  exact ⟨t, ht.trans (by rw [← hholds.word hg hb]; rfl)⟩

theorem serves_full (hg : c.Geometry) (h1 : c.assocNum = 1) (h : FullInv c mem s) (a rnd : UInt32) :
    Serves c mem (fetchLine c mem s a rnd) a (checkExist c (fetchLine c mem s a rnd) a) ∧
      (checkExist c (fetchLine c mem s a rnd) a).isSome := by
  obtain ⟨p, hp, hvalid, hholds⟩ := fetchLine_found hg h1 h a rnd
  have hhit := checkExist_first h1 hp
  rw [if_pos hvalid] at hhit
  have hline : Holds c mem (c.index a) (c.tag a) ((fetchLine c mem s a rnd).storing 0 p).data := by
    rw [index_full hg h1]
    exact hholds
  refine ⟨fun u b hu hb => ?_, by rw [hhit]; rfl⟩
  have hfirst : first c u b = some p := by
    unfold first
    rw [hu, hg.tag_congr hb]
    exact hp
  obtain ⟨t, ht⟩ := readData_first h1 hfirst (checkExist c (fetchLine c mem s a rnd) a)
  rw [hu, hg.off_eq, hline.word hg hb] at ht
  exact ⟨t, ht⟩

/-- **After the lookup**, on a hit or a miss, the line is found and serves the words of the memory. -/
theorem serves_fetch (hg : c.Geometry) (h : Transparent c mem s) (a rnd : UInt32) :
    Serves c mem (fetchLine c mem s a rnd) a (checkExist c (fetchLine c mem s a rnd) a) ∧
      (checkExist c (fetchLine c mem s a rnd) a).isSome := by
  by_cases h1 : c.assocNum = 1
  · exact serves_full hg h1 (by simpa [Transparent, h1] using h) a rnd
  · obtain ⟨hinv, k, hk⟩ := fetchLine_inv hg h1 (by simpa [Transparent, h1] using h) a rnd
    rw [hk]
    exact ⟨serves_set hg h1 hinv hk, rfl⟩

/-- A request is a lookup and one of the two loops. -/
theorem handleWidth_eq (haddr : address - c.spacing < 0x19000000) :
    handleWidth c mem s address bw burst rnd =
      beatLoop c (if (checkExist c s (address - c.spacing)).isSome then narrow bw else fun _ data => some data)
        (if (checkExist c s (address - c.spacing)).isSome then beatWidth bw else 4)
        (fetchLine c mem s (address - c.spacing) rnd) (address - c.spacing)
        (checkExist c (fetchLine c mem s (address - c.spacing) rnd) (address - c.spacing)) 0 burst := by
  unfold handleWidth fetchLine
  simp only [if_neg (UInt32.not_le.2 haddr)]
  cases h : checkExist c s (address - c.spacing) with
  | some k => simp [h]
  | none => simp

/-! ## The requests that are right -/

/-- An address that stays in the line. -/
theorem add_inLine {n : Nat} (h : a.toNat % 16 + n < 16) :
    (a + UInt32.ofNat n).toNat = a.toNat + n ∧ (a + UInt32.ofNat n).toNat / 16 = a.toNat / 16 := by
  have hn : (UInt32.ofNat n).toNat = n := UInt32.toNat_ofNat_of_lt' (by rw [UInt32.size]; omega)
  have hlt := a.toNat_lt
  rw [UInt32.toNat_add, hn]
  omega

theorem add_spacing_mod (c : Config) (b : UInt32) : (b + c.spacing).toNat % 4 = b.toNat % 4 := by
  have := c.spacing_mod
  rw [UInt32.toNat_add]
  omega

/-- In its own word, beat `j` of a hit is the unit at the address if the address is `j` units behind the start. -/
theorem narrow_unit (c : Config) (mem : UInt32 → UInt32)
    (h : if bw = MEM_WORD then True else if bw = MEM_BYTE then b.toNat % 4 = j else b.toNat % 4 / 2 = j) :
    narrow bw j (mem ((b + c.spacing) / 4 * 4)) = some (unit mem bw (b + c.spacing)) := by
  unfold narrow unit
  split at h
  · rename_i hw
    rw [if_pos hw, if_pos hw]
  · rename_i hw
    rw [if_neg hw, if_neg hw, add_spacing_mod]
    split at h
    · rename_i hb
      rw [if_pos hb, if_pos hb, if_pos (by omega), h]
    · rename_i hb
      rw [if_neg hb, if_neg hb, if_pos (by omega), h]

/-- Beats in the line are units of the memory if the loop hands out the units of the words. -/
theorem serves_beats (hserves : Serves c mem s a ind)
    (hline : ∀ k < burst, a.toNat % 16 + beatWidth bw * k < 16)
    (hout : ∀ k < burst, out k (mem ((a + UInt32.ofNat (beatWidth bw * k) + c.spacing) / 4 * 4)) =
      some (unit mem bw (a + UInt32.ofNat (beatWidth bw * k) + c.spacing))) :
    ∃ t, beatLoop c out (beatWidth bw) s a ind 0 burst = some (t, units c mem bw a burst) := by
  refine beatLoop_some fun k hk u hu => ?_
  obtain ⟨t, ht⟩ := hserves u (a + UInt32.ofNat (beatWidth bw * k)) hu (add_inLine (hline k hk)).2
  exact ⟨t, _, ht, by rw [Nat.zero_add]; exact hout k hk⟩

theorem beatWidth_word : beatWidth MEM_WORD = 4 := rfl

/-- Words in the line are right on both paths. -/
theorem words_right (hg : c.Geometry) (h : Transparent c mem s) (haddr : address - c.spacing < 0x19000000)
    (hle : (address - c.spacing).toNat % 16 / 4 + burst ≤ 4) :
    ∃ t, handleWidth c mem s address MEM_WORD burst rnd =
      some (t, units c mem MEM_WORD (address - c.spacing) burst) := by
  have hout : ∀ hit : Bool, (if hit then narrow MEM_WORD else fun _ data => some data) = fun _ data => some data :=
    fun hit => by cases hit <;> rfl
  have hincr : ∀ hit : Bool, (if hit then beatWidth MEM_WORD else 4) = beatWidth MEM_WORD :=
    fun hit => by cases hit <;> rfl
  rw [handleWidth_eq haddr, hout, hincr]
  refine serves_beats (serves_fetch hg h _ _).1 (fun k hk => ?_) fun k hk => rfl
  rw [beatWidth_word]
  omega

/-- Narrow units of one word, from its start, are right on a hit. -/
theorem narrow_right (hg : c.Geometry) (h : Transparent c mem s) (haddr : address - c.spacing < 0x19000000)
    (hhit : (checkExist c s (address - c.spacing)).isSome) (hbw : bw ≠ MEM_WORD)
    (hle : if bw = MEM_BYTE then (address - c.spacing).toNat % 4 = 0 ∧ burst ≤ 4
      else (address - c.spacing).toNat % 4 < 2 ∧ burst ≤ 2) :
    ∃ t, handleWidth c mem s address bw burst rnd = some (t, units c mem bw (address - c.spacing) burst) := by
  rw [handleWidth_eq haddr, if_pos hhit, if_pos hhit]
  have hin : ∀ k < burst, (address - c.spacing).toNat % 4 + beatWidth bw * k < 4 := by
    intro k hk
    unfold beatWidth
    rw [if_neg hbw]
    split at hle
    · rename_i hb
      rw [if_pos hb]
      omega
    · rename_i hb
      rw [if_neg hb]
      omega
  have hline : ∀ k < burst, (address - c.spacing).toNat % 16 + beatWidth bw * k < 16 := by
    intro k hk
    have := hin k hk
    omega
  refine serves_beats (serves_fetch hg h _ _).1 hline fun k hk => narrow_unit c mem ?_
  rw [(add_inLine (hline k hk)).1, if_neg hbw]
  have hk4 := hin k hk
  unfold beatWidth at hk4 ⊢
  rw [if_neg hbw] at hk4 ⊢
  split at hle
  · rename_i hb
    rw [if_pos hb] at hk4 ⊢
    rw [if_pos hb]
    omega
  · rename_i hb
    rw [if_neg hb] at hk4 ⊢
    rw [if_neg hb]
    omega

/-! ## The requests that are wrong -/

/-- A cache without valid records, where every stored word is the address of the line of `a`. -/
def primed (c : Config) (a : UInt32) : Rpu where
  storing := fun _ _ => { tag := c.tag a, valid := false, data := fun _ => a / 16 * 16 + c.spacing }
  info := fun _ _ => 0
  nextIp := 0

/-- The same cache once the line of `a` is fetched. -/
def hot (c : Config) (mem : UInt32 → UInt32) (a : UInt32) : Rpu := refill c mem (primed c a) a 0

theorem primed_transparent (c : Config) (mem : UInt32 → UInt32) (a : UInt32) : Transparent c mem (primed c a) := by
  unfold Transparent
  split
  · exact FullInv.of_invalid fun _ _ => rfl
  · exact Inv.of_invalid fun _ _ _ => rfl

theorem fullReadCache_record (st : Records) (n : Nat) (tag : UInt32) : ∃ i, fullReadCache st n tag = st i := by
  unfold fullReadCache
  cases returnIndex st n tag with
  | none => exact ⟨_, rfl⟩
  | some i => exact ⟨i, rfl⟩

theorem primed_miss : checkExist c (primed c a) b = none := by
  unfold checkExist
  split
  · exact if_neg fun h => Bool.false_ne_true h.2
  · split
    · obtain ⟨i, hi⟩ := fullReadCache_record ((primed c a).storing 0) c.numRecords (c.tag b)
      simp only [hi]
      exact if_neg fun h => Bool.false_ne_true h.2
    · refine List.find?_eq_none.2 fun i _ => ?_
      simp [primed]

theorem fetchLine_primed : fetchLine c mem (primed c a) a 0 = hot c mem a := by
  unfold fetchLine
  rw [primed_miss]
  rfl

theorem not_splits_primed : ¬ Splits c (primed c a) a rnd := fun ⟨_, _, _, _, hvalid⟩ => Bool.false_ne_true hvalid

theorem hot_transparent (hg : c.Geometry) : Transparent c mem (hot c mem a) := by
  have h := primed_transparent c mem a
  unfold Transparent at h ⊢
  rw [← fetchLine_primed]
  split at h
  · rename_i h1
    rw [if_pos h1]
    exact fetchLine_whole hg h1 h not_splits_primed
  · rename_i h1
    rw [if_neg h1]
    exact (fetchLine_inv hg h1 h a 0).1

theorem hot_hits (hg : c.Geometry) (mem : UInt32 → UInt32) (a : UInt32) : (checkExist c (hot c mem a) a).isSome := by
  rw [← fetchLine_primed]
  exact (serves_fetch hg (primed_transparent c mem a) a 0).2

theorem hot_serves (hg : c.Geometry) (mem : UInt32 → UInt32) (a : UInt32) :
    Serves c mem (hot c mem a) a (checkExist c (hot c mem a) a) := by
  rw [← fetchLine_primed]
  exact (serves_fetch hg (primed_transparent c mem a) a 0).1

theorem fetchLine_hot (hg : c.Geometry) : fetchLine c mem (hot c mem a) a 0 = hot c mem a :=
  if_pos (hot_hits hg mem a)

/-- If the memory holds the address of the line in its first word, every record has that in its first word. -/
theorem hot_data (hg : c.Geometry) (hmem : mem (a / 16 * 16 + c.spacing) = a / 16 * 16 + c.spacing) {w : Nat}
    (hw : w < c.ways) (i : Nat) : ((hot c mem a).storing w i).data 0 = a / 16 * 16 + c.spacing := by
  have hfirst : ∀ {data : Nat → UInt32}, Holds c mem (c.index a) (c.tag a) data → data 0 = a / 16 * 16 + c.spacing := by
    intro data h
    have h0 := h 0 (Nat.succ_pos 3)
    rw [hg.lineAddress_eq, show 4 * UInt32.ofNat 0 = 0 from rfl, UInt32.add_zero, hmem] at h0
    exact h0
  by_cases h1 : c.assocNum = 1
  · have hw0 : w = 0 := by
      have hone : (1 : UInt32).toNat = 1 := rfl
      unfold Config.ways at hw
      rw [h1, hone] at hw
      omega
    obtain ⟨p, hp, -⟩ := returnIndex_of_tag (missLoc_full hg h1 (primed c a) a 0)
      (writeTag_tag ((primed c a).storing 0) _ (c.tag a))
    obtain ⟨r, hr, -, htag, hholds⟩ := refill_full mem hg h1 rfl hp
    rw [htag, ← index_full hg h1 a] at hholds
    rw [hw0, hot, hr]
    by_cases hip : i = p
    · rw [hip, Function.update_self]
      exact hfirst hholds
    · rw [Function.update_of_ne hip]
      by_cases hiv : i = missLoc c (primed c a) a 0
      · rw [hiv, writeTag, Function.update_self]
        rfl
      · rw [writeTag_of_ne hiv]
        rfl
  · have hm : Slots.Missing (column c (primed c a) (c.index a))
        ⟨missLoc c (primed c a) a 0, missLoc_lt h1 (primed c a) a 0⟩ (c.tag a) :=
      fun _ _ hvalid => absurd hvalid Bool.false_ne_true
    obtain ⟨r, hr, -, htag, hholds⟩ : ∃ r : CacheRecord, (refill c mem (primed c a) a 0).storing =
          put (primed c a).storing (missLoc c (primed c a) a 0) (c.index a) r ∧
        r.valid = true ∧ r.tag = c.tag a ∧ Holds c mem (c.index a) r.tag r.data := refill_eq hg h1 rfl hm
    rw [htag] at hholds
    rw [hot, hr, put]
    by_cases hwv : w = missLoc c (primed c a) a 0
    · rw [hwv, Function.update_self]
      by_cases hi : i = c.index a
      · rw [hi, Function.update_self]
        exact hfirst hholds
      · rw [Function.update_of_ne hi]
        rfl
    · rw [Function.update_of_ne hwv]
      rfl

/-- So the first word of any line is read as the address of the line of `a`. -/
theorem hot_read {d : UInt32} (hg : c.Geometry) (hmem : mem (a / 16 * 16 + c.spacing) = a / 16 * 16 + c.spacing)
    (hu : u.storing = (hot c mem a).storing) (hoff : c.off b = 0)
    (h : readData c u b (checkExist c (hot c mem a) a) = some (t, d)) : d = a / 16 * 16 + c.spacing := by
  by_cases h1 : c.assocNum = 1
  · obtain ⟨i, hi⟩ := fullReadCache_record (u.storing 0) c.numRecords (c.tag b)
    have hdata : (fullReadCache (u.storing 0) c.numRecords (c.tag b)).data (c.off b) = a / 16 * 16 + c.spacing := by
      rw [hi, hu, hoff]
      exact hot_data hg hmem (by unfold Config.ways; omega) i
    unfold readData at h
    rw [if_neg (by rw [h1]; decide), if_pos h1] at h
    simp only [hdata] at h
    split at h
    · obtain ⟨k, -, he⟩ := Option.map_eq_some_iff.1 h
      exact (Prod.mk.inj he).2.symm
    · exact (Prod.mk.inj (Option.some.inj h)).2.symm
  · obtain ⟨k, hk⟩ := Option.isSome_iff_exists.1 (hot_hits hg mem a)
    obtain ⟨w, hwk, -⟩ := checkExist_hit h1 hk
    obtain ⟨t', ht'⟩ := readData_eq h1 u b k
    rw [hk, ht', hu, hoff, ← hwk, hot_data hg hmem w.isLt] at h
    exact (Prod.mk.inj (Option.some.inj h)).2.symm

/-- Both a miss and a hit that go over the end of the line give its address again. -/
theorem words_inLine (hg : c.Geometry)
    (h : beatLoop c (fun _ data => some data) 4 (hot c id a) a (checkExist c (hot c id a) a) 0 burst = some (t, l))
    (hl : l = units c id MEM_WORD a burst) (hb : 0 < burst) : a.toNat % 16 / 4 + burst ≤ 4 := by
  by_contra hlt
  have hk : 4 - a.toNat % 16 / 4 < burst := by omega
  obtain ⟨u, t', d, e, hu, hread, hout, hget⟩ := beatLoop_get h hk
  obtain rfl := Option.some.inj hout
  generalize hk' : 4 - a.toNat % 16 / 4 = k at hk hread hget
  have hn : (UInt32.ofNat (4 * k)).toNat = 4 * k := UInt32.toNat_ofNat_of_lt' (by rw [UInt32.size]; omega)
  have hoff : c.off (a + UInt32.ofNat (4 * k)) = 0 := by
    rw [hg.off_eq, UInt32.toNat_add, hn]
    omega
  have hd := hot_read hg rfl hu hoff hread
  rw [hl, units, List.getElem?_map, List.getElem?_range hk, Option.map_some] at hget
  have he : (a + UInt32.ofNat (4 * k) + c.spacing) / 4 * 4 = d := (Prod.mk.inj (Option.some.inj hget)).2
  -- what the memory has there is the address of the next line
  rw [hd, add_spacing_div] at he
  have heq := congrArg UInt32.toNat ((UInt32.add_left_inj _).1 he)
  have h4 : (4 : UInt32).toNat = 4 := rfl
  have hlt := a.toNat_lt
  rw [lineBase_toNat, UInt32.toNat_mul, UInt32.toNat_div, UInt32.toNat_add, hn, h4] at heq
  omega

/-- The first beat is the first unit of a word whose bytes are all different. -/
def counting : UInt32 → UInt32 := fun _ => 0x04030201

theorem first_beat (hg : c.Geometry)
    (h : beatLoop c out incr (hot c counting a) a (checkExist c (hot c counting a) a) 0 burst = some (t, l))
    (hl : l = units c counting bw a burst) (hb : 0 < burst) :
    out 0 0x04030201 = some (unit counting bw (a + c.spacing)) := by
  obtain ⟨u, t', d, e, hu, hread, hout, hget⟩ := beatLoop_get h hb
  have ha : ∀ i, a + UInt32.ofNat (i * 0) = a := fun i => by simp
  rw [ha] at hread hget
  obtain ⟨t'', ht''⟩ := hot_serves hg counting a u a hu rfl
  obtain rfl := (Prod.mk.inj (Option.some.inj (hread.symm.trans ht''))).2
  rw [hl, units, List.getElem?_map, List.getElem?_range hb, Option.map_some, ha] at hget
  rw [(Prod.mk.inj (Option.some.inj hget)).2]
  exact hout

theorem last_beat (h : beatLoop c out incr s a ind 0 burst = some (t, l)) (hk : k < burst) : ∃ d, out k d ≠ none := by
  obtain ⟨u, t', d, e, -, -, hout, -⟩ := beatLoop_get h hk
  rw [Nat.zero_add] at hout
  exact ⟨d, by rw [hout]; exact Option.some_ne_none e⟩

theorem counting_byte {x : UInt32} (h : narrow MEM_BYTE 0 0x04030201 = some (unit counting MEM_BYTE x)) :
    x.toNat % 4 = 0 := by
  have hx : narrow MEM_BYTE 0 0x04030201 = some ((0x04030201 >>> UInt32.ofNat (8 * (x.toNat % 4))) &&& 0x000000FF) := h
  obtain hr | hr | hr | hr : x.toNat % 4 = 0 ∨ x.toNat % 4 = 1 ∨ x.toNat % 4 = 2 ∨ x.toNat % 4 = 3 := by omega
  · exact hr
  all_goals
    rw [hr] at hx
    exact absurd hx (by decide)

theorem counting_half {x : UInt32} (hw : bw ≠ MEM_WORD) (hb : bw ≠ MEM_BYTE)
    (h : narrow bw 0 0x04030201 = some (unit counting bw x)) : x.toNat % 4 < 2 := by
  unfold narrow unit counting at h
  rw [if_neg hw, if_neg hw, if_neg hb, if_neg hb] at h
  obtain hr | hr : x.toNat % 4 / 2 = 0 ∨ x.toNat % 4 / 2 = 1 := by omega
  · omega
  · rw [hr] at h
    exact absurd h (by decide)

/-- A narrow unit is never a whole word of four different bytes. -/
theorem counting_whole {x : UInt32} (h : (some 0x04030201 : Option UInt32) = some (unit counting bw x)) : bw = MEM_WORD := by
  by_contra hw
  have he := congrArg UInt32.toNat (Option.some.inj h)
  have hconst : (0x04030201 : UInt32).toNat = 67305985 := rfl
  unfold unit at he
  rw [if_neg hw, hconst] at he
  split at he
  · rw [and_byte] at he
    omega
  · rw [and_half] at he
    omega

/-- **The requests that are right.** In every geometry, a request is answered with the units of the memory from
every transparent state in which it hits (or from every one in which it misses), and with the addresses that are the
width of the unit apart, exactly if it is one of words that stay in their line, or of narrow units of one word, from its
start, and hits. -/
theorem widths_iff (hg : c.Geometry) (haddr : address - c.spacing < 0x19000000) (hit : Bool) :
    (∀ mem s rnd, Transparent c mem s → (checkExist c s (address - c.spacing)).isSome = hit →
      ∃ t, handleWidth c mem s address bw burst rnd = some (t, units c mem bw (address - c.spacing) burst)) ↔
    RightWidth (address - c.spacing) bw burst hit := by
  generalize ha : address - c.spacing = a at haddr
  constructor
  · intro hall
    by_cases hb : burst = 0
    · exact Or.inl hb
    refine Or.inr ?_
    have hpos : 0 < burst := Nat.pos_of_ne_zero hb
    -- the same line is read behind the miss of the one state and on the hit of the other
    have hbeats : ∀ mem, ∃ t, beatLoop c (if hit then narrow bw else fun _ data => some data) (if hit then beatWidth bw else 4)
        (hot c mem a) a (checkExist c (hot c mem a) a) 0 burst = some (t, units c mem bw a burst) := by
      intro mem
      cases hit with
      | false =>
        obtain ⟨t, ht⟩ := hall mem (primed c a) 0 (primed_transparent c mem a) (by rw [primed_miss]; rfl)
        rw [handleWidth_eq (ha ▸ haddr), ha, primed_miss, fetchLine_primed] at ht
        exact ⟨t, ht⟩
      | true =>
        obtain ⟨t, ht⟩ := hall mem (hot c mem a) 0 (hot_transparent hg) (hot_hits hg mem a)
        rw [handleWidth_eq (ha ▸ haddr), ha, hot_hits hg mem a, fetchLine_hot hg] at ht
        exact ⟨t, ht⟩
    obtain ⟨t, ht⟩ := hbeats counting
    have hfirst := first_beat hg ht rfl hpos
    by_cases hw : bw = MEM_WORD
    · rw [if_pos hw]
      obtain ⟨t', ht'⟩ := hbeats id
      rw [hw] at ht'
      cases hit with
      | false => exact words_inLine hg ht' rfl hpos
      | true => exact words_inLine hg ht' rfl hpos
    · rw [if_neg hw]
      cases hit with
      | false => exact absurd (counting_whole hfirst) hw
      | true =>
        refine ⟨rfl, ?_⟩
        split
        · rename_i hbyte
          subst hbyte
          refine ⟨(add_spacing_mod c a).symm.trans (counting_byte hfirst), ?_⟩
          by_contra hlt
          obtain ⟨d, hd⟩ := last_beat (k := 4) ht (by omega)
          exact hd rfl
        · rename_i hbyte
          refine ⟨(add_spacing_mod c a).symm.trans_lt (counting_half hw hbyte hfirst), ?_⟩
          by_contra hlt
          obtain ⟨d, hd⟩ := last_beat (k := 2) ht (by omega)
          simp [narrow, hw, hbyte] at hd
  · rintro hright mem s rnd h hhit
    subst ha
    obtain hb | hright := hright
    · subst hb
      rw [handleWidth_eq haddr]
      exact ⟨_, rfl⟩
    · split at hright
      · rename_i hw
        subst hw
        exact words_right hg h haddr hright
      · rename_i hw
        obtain ⟨hhit', hle⟩ := hright
        exact narrow_right hg h haddr (hhit.trans hhit') hw hle

/-! A byte in the second place of its word, fetched twice. -/

theorem cold_transparent : Transparent twoWays backing cold := by
  rw [Transparent, if_neg (by decide)]
  exact Inv.of_invalid fun _ _ _ => rfl

theorem byteFetch_isSome : (handleWidth twoWays backing cold 0x10000045 MEM_BYTE 1 0).isSome := by decide +kernel

/-- The miss gives the whole word, the hit behind it the first byte; the byte at the address is 0. -/
theorem not_units_byte : Transparent twoWays backing cold ∧
    ((handleWidth twoWays backing cold 0x10000045 MEM_BYTE 1 0).get byteFetch_isSome).2 = [(0x45, 0x300000CC)] ∧
    (handleWidth twoWays backing ((handleWidth twoWays backing cold 0x10000045 MEM_BYTE 1 0).get byteFetch_isSome).1
      0x10000045 MEM_BYTE 1 0).map Prod.snd = some [(0x45, 0xCC)] ∧
    units twoWays backing MEM_BYTE 0x45 1 = [(0x45, 0)] := by
  refine ⟨cold_transparent, ?_, ?_, ?_⟩ <;> decide +kernel

theorem widths_twoWays : ∃ t, handleWidth twoWays backing cold 0x10000088 MEM_WORD 2 0 =
    some (t, units twoWays backing MEM_WORD 0x88 2) :=
  have h : RightWidth (0x10000088 - twoWays.spacing) MEM_WORD 2 false := by decide
  (widths_iff twoWays_geometry (by decide) false).2 h backing cold 0 cold_transparent (by decide +kernel)

end VirtualSoc.Cache
