import VirtualSoc.Cluster.LicInv

/-!
# Test-and-set through the local interconnect (cluster/cl_lic.cpp:412)

A read in the test-and-set space is meant to return the word and leave `1` in it, so that of
all readers between two writes of `0` one at most sees `0`. The fsm does this in the state
`TAS`, with two accesses of the bank. Two paths leave it out:

* the arbiter multicasts a read to every core that asks for the same address, also when it is
  a test-and-set read (cl_lic.cpp:98 and :150): all of the group see the old value;
* a pending request served from `READ` or `WRITE` goes to `READ` whatever its address
  (cl_lic.cpp:322 and :405), while the path through `IDLE` looks at `is_test_and_set`.

`exclusive_of_guarded`: every run in which no step does one of the two while the word holds
`0` is exclusive. `not_exclusive_multicast` is a run with the first.
-/

namespace VirtualSoc.Lic

variable {n m : Nat} {cfg : Config} {s t : State n m} {i b : Fin m} {w : Nat}

/-! ## The abstract cell -/

def isZeroRet (w : Nat) : Event n → Bool
  | .ret _ a d => a == w && d == 0
  | .wr .. => false

def isZeroWrite (w : Nat) : Event n → Bool
  | .wr _ a d => a == w && d == 0
  | .ret .. => false

/-- Wherever no `0` is written to `w`, at most one read of `w` returns `0`. -/
def Exclusive (w : Nat) (es : List (Event n)) : Prop :=
  ∀ pre mid post, es = pre ++ mid ++ post → (∀ e ∈ mid, isZeroWrite w e = false) →
    mid.countP (isZeroRet w) ≤ 1

/-- What a test-and-set cell lets happen: once taken, it shows no `0` until `0` is written. -/
def cell (w : Nat) (taken : Bool) (e : Event n) : Option Bool :=
  if isZeroWrite w e then some false
  else if isZeroRet w e then (if taken then none else some true)
  else some taken

theorem cell_skip {u : Bool} {es : List (Event n)}
    (h : ∀ e ∈ es, isZeroWrite w e = false ∧ isZeroRet w e = false) : Trans.run (cell w) u es = some u := by
  induction es with
  | nil => rfl
  | cons e es ih =>
    obtain ⟨h1, h2⟩ := h e (by simp)
    exact Trans.run_cons.2 ⟨u, by simp [cell, h1, h2], ih fun e' he => h e' (by simp [he])⟩

theorem cell_write {es : List (Event n)} (h : ∀ e ∈ es, isZeroWrite w e = true) (hne : es ≠ []) (u : Bool) :
    Trans.run (cell w) u es = some false := by
  induction es generalizing u with
  | nil => exact absurd rfl hne
  | cons e es ih =>
    refine Trans.run_cons.2 ⟨false, by simp [cell, h e (by simp)], ?_⟩
    by_cases hes : es = []
    · subst hes; rfl
    · exact ih (fun e' he => h e' (by simp [he])) hes false

/-- Without a write of `0` the cell counts the reads of `0`, and it counts to one. -/
theorem cell_count {u v : Bool} {es : List (Event n)} (hr : Trans.run (cell w) u es = some v)
    (hw : ∀ e ∈ es, isZeroWrite w e = false) : u.toNat + es.countP (isZeroRet w) = v.toNat := by
  induction es generalizing u with
  | nil => cases hr; simp
  | cons e es ih =>
    obtain ⟨u', hu, hr⟩ := Trans.run_cons.1 hr
    have ih := ih hr fun e' he => hw e' (by simp [he])
    simp only [cell, hw e (by simp), Bool.false_eq_true, if_false] at hu
    rw [List.countP_cons]
    cases hz : isZeroRet w e with
    | false =>
      simp only [hz, Bool.false_eq_true, if_false] at hu ⊢
      cases hu
      exact ih
    | true =>
      simp only [hz, if_true] at hu ⊢
      cases u with
      | true => cases hu
      | false =>
        cases hu
        simp only [Bool.toNat_false, Bool.toNat_true] at ih ⊢
        omega

theorem exclusive_of_cell {u v : Bool} {es : List (Event n)} (h : Trans.run (cell w) u es = some v) :
    Exclusive w es := by
  rintro pre mid post rfl hmid
  rw [List.append_assoc] at h
  obtain ⟨u1, -, h⟩ := Trans.run_append.1 h
  obtain ⟨u2, h, -⟩ := Trans.run_append.1 h
  have hc := cell_count h hmid
  have hv : u2.toNat ≤ 1 := Bool.toNat_le u2
  omega

/-! ## The invariant for one word -/

/-- The word at address `w`. -/
def tcdmWord (s : State n m) (w : Nat) : UInt32 :=
  if h : getTcdmBankId m w < m then (s.mem ⟨getTcdmBankId m w, h⟩).word (bankAddressing m w) else 0

theorem tcdmWord_eq (hb : getTcdmBankId m w = b) : tcdmWord s w = (s.mem b).word (bankAddressing m w) := by
  have hlt : getTcdmBankId m w < m := by rw [hb]; exact b.isLt
  have he : (⟨getTcdmBankId m w, hlt⟩ : Fin m) = b := Fin.ext hb
  simp [tcdmWord, hlt, he]

/-- The group of bank `i` is one core. -/
def Alone (s : State n m) (i : Fin m) : Prop := ∀ k l, s.idcFsm i k = true → s.idcFsm i l = true → k = l

/-- How far bank `i` is with an access to `w`. -/
def Phase (w : Nat) (s : State n m) (i : Fin m) : Prop :=
  match s.cs i with
  | .readPos => tcdmWord s w ≠ 0
  | .tasPos => tcdmWord s w = 0 → Alone s i
  | .tasNeg old | .tasPos2 old => tcdmWord s w = old ∧ (old = 0 → Alone s i)
  | _ => True

/-- An access that overlaps the word at `w` is a word access at `w`. -/
def OnWord (w : Nat) (p : Pinout) : Prop := p.address / 4 = w / 4 → p.address = w ∧ p.bw = MEM_WORD

structure TasInv (w : Nat) (s : State n m) : Prop where
  core : ∀ k, s.requestCore k = true → OnWord w (s.pinoutCore k)
  slave : ∀ i, s.cs i ≠ .idle → OnWord w (s.pinoutSlave i)
  phase : ∀ i, s.cs i ≠ .idle → (s.pinoutSlave i).address = w → Phase w s i

/-- The steps of the runs of interest: accesses to the word at `w` are word accesses, and while
it holds `0` no test-and-set read of it is multicast or chained to. -/
def Guarded (cfg : Config) (w : Nat) (s : State n m) : Action n m → Prop
  | .clock => tcdmWord s w = 0 → ∀ i k, multicast cfg s i k = true → (s.pinoutCore k).address ≠ w
  | .raise _ p => p.address / 4 = w / 4 → p.bw = MEM_WORD
  | .rise _ => True
  | .fall i =>
    s.cs i = .readNeg ∨ s.cs i = .writeNeg → s.pendingReq i = true → tcdmWord s w = 0 →
      ∀ l, chainPick (finish (bankFall s i) i) i = some l →
        (s.pinoutCore l).address = w → (s.pinoutCore l).rw = true

instance (cfg : Config) (w : Nat) (s : State n m) : ∀ a, Decidable (Guarded cfg w s a)
  | .clock => inferInstanceAs (Decidable (_ → _))
  | .raise .. => inferInstanceAs (Decidable (_ → _))
  | .rise _ => inferInstanceAs (Decidable True)
  | .fall _ => inferInstanceAs (Decidable (_ ∨ _ → _))

/-- What the proof carries along a run: `taken` is the state of the abstract cell. -/
structure Sim (w : Nat) (s : State n m) (taken : Bool) : Prop where
  inv : Inv s
  tas : TasInv w s
  word : taken = true → tcdmWord s w ≠ 0

theorem init_sim (mem : Fin m → MemClass) : Sim w (init mem : State n m) false :=
  ⟨init_inv mem, ⟨fun _ hk => (by cases hk), fun _ hc => absurd rfl hc, fun _ hc => absurd rfl hc⟩,
    fun ht => by cases ht⟩

theorem tcdmWord_congr (h : t.mem = s.mem) : tcdmWord t w = tcdmWord s w := by simp [tcdmWord, h]

theorem Phase.congr (h : Phase w s i) (hcs : t.cs i = s.cs i) (hidc : t.idcFsm i = s.idcFsm i)
    (hword : tcdmWord t w = tcdmWord s w) : Phase w t i := by
  unfold Phase Alone at h ⊢
  rw [hcs, hidc, hword]
  exact h

/-- A busy bank whose pinout shows `w` is the bank of `w`. -/
theorem bank_of_busy (h : Inv s) (hc : s.cs i ≠ .idle) (ha : (s.pinoutSlave i).address = w) :
    getTcdmBankId m w = i := by
  have hB := h.busy i hc
  obtain ⟨k, hk⟩ := hB.row
  rw [← ha, ← hB.addr k hk]
  exact (h.table i k (h.idc i k hk).1).2

/-! ### The clock -/

theorem clock_tas (hw : isInTaSSpace w cfg.ID = true) (h : Inv s) (hT : TasInv w s)
    (hG : Guarded cfg w s .clock) : TasInv w (idleWake s (arbiter cfg s)) := by
  have hword : tcdmWord (idleWake s (arbiter cfg s)) w = tcdmWord s w := tcdmWord_congr rfl
  have hkeep : ∀ j, wakes s (arbiter cfg s) j = false → (idleWake s (arbiter cfg s)).cs j ≠ .idle →
      s.cs j ≠ .idle ∧ (idleWake s (arbiter cfg s)).cs j = s.cs j ∧
        (idleWake s (arbiter cfg s)).pinoutSlave j = s.pinoutSlave j := by
    intro j hj hc
    have hcs : (idleWake s (arbiter cfg s)).cs j = s.cs j := cs_idleWake_of_not hj
    rw [hcs] at hc
    exact ⟨hc, hcs, pinoutSlave_idleWake_of_not hj⟩
  refine ⟨hT.core, fun j hc => ?_, fun j hc ha => ?_⟩
  · by_cases hj : wakes s (arbiter cfg s) j = true
    · obtain ⟨g, l, -, hl, hlead, -, -⟩ := leaderPinout_spec h hj
      have hps : (idleWake s (arbiter cfg s)).pinoutSlave j = s.pinoutCore l := by simp [idleWake, hj, hlead]
      rw [hps]
      exact hT.core l (tableAfter_spec h (idcAfter_spec h hl).1).1
    · obtain ⟨hc', -, hps⟩ := hkeep j (by simpa using hj) hc
      rw [hps]
      exact hT.slave j hc'
  · by_cases hj : wakes s (arbiter cfg s) j = true
    · obtain ⟨g, l, hg, hl, hlead, hal, -⟩ := leaderPinout_spec h hj
      have hidle := ((wakes_iff h).1 hj).1
      have hps : (idleWake s (arbiter cfg s)).pinoutSlave j = s.pinoutCore l := by simp [idleWake, hj, hlead]
      rw [hps] at ha
      have hcs := cs_idleWake_of_wakes hj
      rw [hlead] at hcs
      unfold Phase
      rw [hcs, hword]
      cases hrw : (s.pinoutCore l).rw with
      | true => exact trivial
      | false =>
        -- a read of `w` raises the flag of its bank in this very scan
        have ht := (idcAfter_spec h hl).1
        obtain ⟨hreq, hserved, -⟩ := tableAfter_idle h hidle ht
        have hbank := (tableAfter_spec h ht).2
        have htas : (arbiter cfg s).isTestAndSet j = true := by
          rw [ha] at hbank
          exact decide_eq_true ⟨l, by simp [requests, hreq, hserved, hbank, ha, hw, hrw]⟩
        simp only [htas, if_true, Bool.false_eq_true, if_false]
        intro hz
        -- nobody joined the winner
        have hone : ∀ k, idcAfter cfg s j k = true → k = g := by
          intro k hk
          obtain ⟨g', hg', -, -, hka, -⟩ := idcAfter_idle h hidle hk
          rw [hg] at hg'
          cases hg'
          simp only [idcAfter, (h.idle j hidle).row k, Bool.false_or, Bool.or_eq_true, beq_iff_eq] at hk
          rcases hk with hk | hk
          · rw [hg] at hk; cases hk; rfl
          · exact absurd (hka.trans (hal.symm.trans ha)) (hG hz j k hk)
        exact fun k k' hk hk' => (hone k hk).trans (hone k' hk').symm
    · obtain ⟨hc', hcs, hps⟩ := hkeep j (by simpa using hj) hc
      rw [hps] at ha
      have hidc : (idleWake s (arbiter cfg s)).idcFsm j = s.idcFsm j :=
        funext fun k => idcAfter_of_busy h (h.busy j hc').busy
      exact (hT.phase j hc' ha).congr hcs hidc hword

/-! ### Requests -/

theorem raise_tas {k : Fin n} {p : Pinout} (hT : TasInv w s)
    (hp : validRequest p = true) (hw4 : w % 4 = 0) (hG : Guarded cfg w s (.raise k p)) :
    TasInv w (raiseRequest s k p) := by
  have hon : OnWord w p := by
    intro ha
    have hbw := hG ha
    refine ⟨?_, hbw⟩
    simp only [validRequest, hbw, Bool.and_eq_true, Bool.or_eq_true, beq_iff_eq, MEM_WORD, MEM_BYTE, MEM_HWORD] at hp
    omega
  refine ⟨fun l hl => ?_, hT.slave, fun j hc ha => (hT.phase j hc ha).congr rfl rfl rfl⟩
  by_cases hlk : l = k
  · subst hlk; simpa [raiseRequest] using hon
  · simp only [raiseRequest, Function.update_of_ne hlk] at hl ⊢
    exact hT.core l hl

/-! ### The accesses of the banks -/

/-- The word at `w` after an access of bank `i`. -/
theorem rise_word {mem : MemClass} {p : Pinout} (h : Inv s) (hT : TasInv w s) (hc : s.cs i ≠ .idle)
    (hw4 : w % 4 = 0) (hd : demuxIsInTcdmSpace w = true) (hb : bankAccess s i = some (mem, p)) :
    tcdmWord (bankRise s i mem p) w =
      if (s.pinoutSlave i).rw = true ∧ (s.pinoutSlave i).address = w then (s.pinoutSlave i).data
      else tcdmWord s w := by
  obtain ⟨-, -, hpw, hpr⟩ := bankAccess_spec hb
  have hB := h.busy i hc
  cases hrw : (s.pinoutSlave i).rw with
  | false =>
    simp only [Bool.false_eq_true, false_and, if_false]
    refine tcdmWord_congr ?_
    simp [bankRise, (hpr hrw).1]
  | true =>
    obtain ⟨rfl, hwrite⟩ := hpw hrw
    by_cases ha : (s.pinoutSlave i).address = w
    · have hbank := bank_of_busy h hc ha
      have hbw := (hT.slave i hc (by rw [ha])).2
      have hal : wordAlign (bankAddressing m w) = bankAddressing m w := by
        have : bankAddressing m w % 4 = w % 4 := bankAddressing_mod hd
        unfold wordAlign
        omega
      rw [hbw, ha] at hwrite
      have hmem := MemClass.write_word hwrite
      simp only [ha, and_self, if_true]
      rw [tcdmWord_eq hbank, show (bankRise s i mem (s.pinoutSlave i)).mem i = mem by simp [bankRise], hmem, hal,
        MemClass.word_store_self]
    · simp only [ha, and_false, if_false]
      by_cases hm : getTcdmBankId m w = i
      · -- the same bank, another word of it
        obtain ⟨k, hk⟩ := hB.row
        obtain ⟨hreq, hbank⟩ := h.table i k (h.idc i k hk).1
        have hda := h.demux k hreq
        rw [hB.addr k hk] at hbank hda
        have hne : bankAddressing m (s.pinoutSlave i).address / 4 ≠ bankAddressing m w / 4 := by
          intro hloc
          have := local_word_inj hda hd i.pos (hbank.trans hm.symm) hloc
          exact ha (hT.slave i hc this).1
        have hal : bankAddressing m w % 4 = 0 := by rw [bankAddressing_mod hd, hw4]
        rw [tcdmWord_eq hm, tcdmWord_eq hm, show (bankRise s i mem (s.pinoutSlave i)).mem i = mem by simp [bankRise]]
        exact MemClass.write_frame hwrite hal hne
      · by_cases hlt : getTcdmBankId m w < m
        · rw [tcdmWord_eq (b := ⟨_, hlt⟩) rfl, tcdmWord_eq (b := ⟨_, hlt⟩) rfl]
          have hne : (⟨getTcdmBankId m w, hlt⟩ : Fin m) ≠ i := fun he => hm (congrArg Fin.val he)
          simp [bankRise, hne]
        · simp [tcdmWord, hlt]

/-- What a bank reads at `w` is the word at `w`. -/
theorem rise_data {mem : MemClass} {p : Pinout} (h : Inv s) (hT : TasInv w s) (hc : s.cs i ≠ .idle)
    (hd : demuxIsInTcdmSpace w = true) (hw4 : w % 4 = 0) (hb : bankAccess s i = some (mem, p))
    (hrw : (s.pinoutSlave i).rw = false) (ha : (s.pinoutSlave i).address = w) : p.data = tcdmWord s w := by
  obtain ⟨hpa, hpbw, -, hpr⟩ := bankAccess_spec hb
  obtain ⟨-, hread⟩ := hpr hrw
  have hbw := (hT.slave i hc (by rw [ha])).2
  rw [hpbw, hbw, hpa, ha] at hread
  have hal : wordAlign (bankAddressing m w) = bankAddressing m w := by
    have : bankAddressing m w % 4 = w % 4 := bankAddressing_mod hd
    unfold wordAlign
    omega
  rw [MemClass.read_word hread, hal, tcdmWord_eq (bank_of_busy h hc ha)]

theorem rise_tas {mem : MemClass} {p : Pinout} (h : Inv s) (hT : TasInv w s) (hreq : s.requestSlave i = true)
    (hready : s.readySlave i = false) (hw4 : w % 4 = 0) (hd : demuxIsInTcdmSpace w = true)
    (hb : bankAccess s i = some (mem, p)) : TasInv w (fsmPos (bankRise s i mem p) i) := by
  obtain ⟨hc, hB⟩ := rise_busy h hreq
  obtain ⟨hpa, hpbw, -, -⟩ := bankAccess_spec hb
  have hword := rise_word h hT hc hw4 hd hb
  have hmode := hB.mode
  have hneg : (s.cs i).atNeg = false := by rw [← hB.ready]; exact hready
  set u := bankRise s i mem p with hu
  have hbk := fsmPos_books u i
  have hwordt : tcdmWord (fsmPos u i) w = tcdmWord u w := tcdmWord_congr hbk.mem
  have hon : OnWord w p := by unfold OnWord; rw [hpa, hpbw]; exact hT.slave i hc
  have hus : u.pinoutSlave i = p := by simp [hu, bankRise]
  refine ⟨fun k hk => ?_, fun j hj => ?_, fun j hj ha => ?_⟩
  · rw [hbk.requestCore] at hk
    rcases fsmPos_pinout u i k with hk' | ⟨-, ha, hbw⟩
    · rw [hk']; exact hT.core k hk
    · unfold OnWord
      rw [ha, hbw, hus]
      exact hon
  · rw [hbk.pinoutSlave]
    by_cases hji : j = i
    · subst hji; rw [hus]; exact hon
    · rw [fsmPos_cs hji] at hj
      simpa [hu, bankRise, hji] using hT.slave j hj
  · by_cases hji : j = i
    · subst hji
      rw [hbk.pinoutSlave, hus, hpa] at ha
      unfold Mode at hmode
      unfold Phase
      rw [hwordt, hword]
      have hcu : u.cs j = s.cs j := rfl
      cases hcs : s.cs j with
      | tasPos =>
        -- the old value is sampled
        rw [hcs] at hmode
        have hphase := hT.phase j hc ha
        unfold Phase at hphase
        rw [hcs] at hphase
        have hcs' : (fsmPos u j).cs j = .tasNeg p.data := by simp [fsmPos, hcu, hcs, hus]
        have hdata := rise_data h hT hc hd hw4 hb hmode.1 ha
        rw [hcs']
        simp only [hmode.1, Bool.false_eq_true, false_and, if_false]
        refine ⟨hdata.symm, fun h0 => ?_⟩
        unfold Alone
        rw [hbk.idcFsm]
        exact hphase (by rw [← hdata]; exact h0)
      | readPos => simp [fsmPos, hcu, hcs]
      | writePos => simp [fsmPos, hcu, hcs]
      | tasPos2 old => simp [fsmPos, hcu, hcs]
      | idle => exact absurd hcs hc
      | _ => rw [hcs] at hneg; cases hneg
    · -- bank `i` does not hold the word
      have hcsj := fsmPos_cs (s := u) hji
      rw [hcsj] at hj
      have haj : (s.pinoutSlave j).address = w := by
        rw [hbk.pinoutSlave] at ha
        simpa [hu, bankRise, hji] using ha
      have hne : (s.pinoutSlave i).address ≠ w := by
        intro hi
        exact hji (Fin.ext ((bank_of_busy h hj haj).symm.trans (bank_of_busy h hc hi)))
      refine (hT.phase j hj haj).congr hcsj (by rw [hbk.idcFsm]; rfl) ?_
      rw [hwordt, hword, if_neg (by simp [hne])]

/-- The cell follows what a ready pulse completes. -/
theorem rise_cell {mem : MemClass} {p : Pinout} {u : Bool} (hS : Sim w s u) (hreq : s.requestSlave i = true)
    (hready : s.readySlave i = false) (hw4 : w % 4 = 0) (hd : demuxIsInTcdmSpace w = true)
    (hb : bankAccess s i = some (mem, p)) :
    ∃ v, Trans.run (cell w) u (completes s i p) = some v ∧
      (v = true → tcdmWord (bankRise s i mem p) w ≠ 0) := by
  obtain ⟨h, hT, htaken⟩ := hS
  obtain ⟨hc, hB⟩ := rise_busy h hreq
  have hword := rise_word h hT hc hw4 hd hb
  have hmode := hB.mode
  obtain ⟨k, hk⟩ := hB.row
  have haddr : ∀ l ∈ group s i, (s.pinoutCore l).address = (s.pinoutSlave i).address := by
    intro l hl
    exact hB.addr l (List.mem_filter.1 hl).2
  unfold Mode at hmode
  by_cases ha : (s.pinoutSlave i).address = w
  · have hphase := hT.phase i hc ha
    unfold Phase at hphase
    cases hcs : s.cs i with
    | readPos =>
      rw [hcs] at hmode hphase
      have hdata := rise_data h hT hc hd hw4 hb hmode.1 ha
      refine ⟨u, cell_skip ?_, fun _ => ?_⟩
      · intro e he
        simp only [completes, hcs, List.mem_map] at he
        obtain ⟨l, -, rfl⟩ := he
        have : p.data ≠ 0 := by rw [hdata]; exact hphase
        simp [isZeroWrite, isZeroRet, this]
      · rw [hword, if_neg (by simp [hmode.1])]
        exact hphase
    | writePos =>
      rw [hcs] at hmode
      rw [if_pos ⟨hmode.1, ha⟩] at hword
      rw [hword]
      by_cases hz : (s.pinoutSlave i).data = 0
      · refine ⟨false, cell_write (fun e he => ?_) ?_ u, fun hv => by cases hv⟩
        · simp only [completes, hcs, List.mem_map] at he
          obtain ⟨l, hl, rfl⟩ := he
          rw [hmode.2 l (List.mem_filter.1 hl).2]
          simp [isZeroWrite, ha, hz]
        · have : k ∈ group s i := List.mem_filter.2 ⟨List.mem_finRange k, hk⟩
          simp only [completes, hcs]
          intro hnil
          rw [List.map_eq_nil_iff.1 hnil] at this
          cases this
      · refine ⟨u, cell_skip fun e he => ?_, fun _ => hz⟩
        simp only [completes, hcs, List.mem_map] at he
        obtain ⟨l, hl, rfl⟩ := he
        rw [hmode.2 l (List.mem_filter.1 hl).2]
        simp [isZeroWrite, isZeroRet, hz]
    | tasPos2 old =>
      rw [hcs] at hmode hphase
      rw [if_pos ⟨hmode.1, ha⟩, hmode.2] at hword
      rw [hword]
      by_cases hz : old = 0
      · -- the only core that sees `0`, in a cell that was free
        subst hz
        have hfree : u = false := by
          by_contra hu
          exact htaken (by simpa using hu) hphase.1
        have hgroup : group s i = [k] :=
          Scan.filter_finRange fun l => ⟨fun hl => hphase.2 rfl l k hl hk, fun hl => by rw [hl]; exact hk⟩
        refine ⟨true, ?_, fun _ => by decide⟩
        have hak : (s.pinoutCore k).address = w := by rw [hB.addr k hk]; exact ha
        simp [completes, hcs, hgroup, Trans.run, cell, isZeroWrite, isZeroRet, hak, hfree]
      · refine ⟨u, cell_skip fun e he => ?_, fun _ => by decide⟩
        simp only [completes, hcs, List.mem_map] at he
        obtain ⟨l, -, rfl⟩ := he
        simp [isZeroWrite, isZeroRet, hz]
    | tasPos =>
      rw [hcs] at hmode
      rw [hword, if_neg (by simp [hmode.1])]
      exact ⟨u, by simp [completes, hcs], htaken⟩
    | idle => exact absurd hcs hc
    | _ => rw [hB.ready, hcs] at hready; cases hready
  · refine ⟨u, cell_skip ?_, fun hv => ?_⟩
    · intro e he
      unfold completes at he
      split at he
      · obtain ⟨l, hl, rfl⟩ := List.mem_map.1 he
        simp [isZeroWrite, isZeroRet, haddr l hl, ha]
      · obtain ⟨l, hl, rfl⟩ := List.mem_map.1 he
        simp [isZeroWrite, isZeroRet, haddr l hl, ha]
      · obtain ⟨l, hl, rfl⟩ := List.mem_map.1 he
        simp [isZeroWrite, isZeroRet, haddr l hl, ha]
      · cases he
    · rw [hword, if_neg (by simp [ha])]
      exact htaken hv

/-! ### The end of a pulse -/

theorem fall_tas (h : Inv s) (hT : TasInv w s) (hready : s.readySlave i = true) (hseen : s.seen i = true)
    (hG : Guarded cfg w s (.fall i)) (hf : fsmNeg (bankFall s i) i = some t) : TasInv w t := by
  obtain ⟨hB, hcases⟩ := fall_cases h hready hf
  -- the other banks, whatever bank `i` does
  have hother : ∀ v : State n m, (∀ j, j ≠ i → SameRow s v j) → v.mem = s.mem →
      ∀ j, j ≠ i → v.cs j ≠ .idle → OnWord w (v.pinoutSlave j) ∧
        ((v.pinoutSlave j).address = w → Phase w v j) := by
    intro v hrow hmem j hj hc
    have hR := hrow j hj
    rw [hR.cs] at hc
    rw [hR.slave]
    exact ⟨hT.slave j hc, fun ha => (hT.phase j hc ha).congr hR.cs hR.idc (tcdmWord_congr hmem)⟩
  have hcore : ∀ k, (finish (bankFall s i) i).requestCore k = true → OnWord w (s.pinoutCore k) := by
    intro k hk
    simp only [finish, bankFall, Bool.and_eq_true] at hk
    exact hT.core k hk.2
  rcases hcases with ⟨hcs, hp, l, hl, rfl⟩ | ⟨-, rfl⟩ | ⟨old, hcs, rfl⟩
  · have hrow : ∀ j, j ≠ i → SameRow s (chain (finish (bankFall s i) i) i l) j :=
      fun j hj => (finish_sameRow s hj).trans (chain_sameRow _ l hj)
    have hps : (chain (finish (bankFall s i) i) i l).pinoutSlave i = s.pinoutCore l := by
      simp [chain, finish, bankFall]
    have hon : OnWord w (s.pinoutCore l) :=
      hT.core l (h.table i l (chainPick_spec hB hseen hp hl).2.1).1
    refine ⟨hcore, fun j hc => ?_, fun j hc ha => ?_⟩
    · by_cases hj : j = i
      · subst hj; rw [hps]; exact hon
      · exact (hother _ hrow rfl j hj hc).1
    · by_cases hj : j = i
      · subst hj
        rw [hps] at ha
        unfold Phase
        have hcs' : (chain (finish (bankFall s j) j) j l).cs j =
            if (s.pinoutCore l).rw then .writePos else .readPos := by
          simp [chain, finish, bankFall]
        rw [hcs']
        cases hrw : (s.pinoutCore l).rw with
        | true => exact trivial
        | false =>
          -- the guard: a plain read of a test-and-set word only while it is taken
          intro hz
          have := hG hcs hp hz l hl ha
          rw [hrw] at this
          cases this
      · exact (hother _ hrow rfl j hj hc).2 ha
  · have hrow : ∀ j, j ≠ i → SameRow s (release (finish (bankFall s i) i) i) j :=
      fun j hj => (finish_sameRow s hj).trans (release_sameRow _ hj)
    refine ⟨hcore, fun j hc => ?_, fun j hc => ?_⟩
    · by_cases hj : j = i
      · subst hj; simp [release] at hc
      · exact (hother _ hrow rfl j hj hc).1
    · by_cases hj : j = i
      · subst hj; simp [release] at hc
      · exact (hother _ hrow rfl j hj hc).2
  · have hc : s.cs i ≠ .idle := by rw [hcs]; exact fun hf => by cases hf
    have hrow : ∀ j, j ≠ i → SameRow s (tasSet (bankFall s i) i old) j := by
      intro j hj
      constructor <;> simp [tasSet, bankFall, hj]
    refine ⟨hT.core, fun j hc' => ?_, fun j hc' ha => ?_⟩
    · by_cases hj : j = i
      · subst hj
        simpa [OnWord, tasSet, bankFall] using hT.slave j hc
      · exact (hother _ hrow rfl j hj hc').1
    · by_cases hj : j = i
      · subst hj
        have ha' : (s.pinoutSlave j).address = w := by simpa [tasSet, bankFall] using ha
        have hphase := hT.phase j hc ha'
        unfold Phase at hphase ⊢
        rw [hcs] at hphase
        have hcs' : (tasSet (bankFall s j) j old).cs j = .tasPos2 old := by simp [tasSet]
        rw [hcs']
        exact hphase
      · exact (hother _ hrow rfl j hj hc').2 ha

theorem fsmNeg_mem (hf : fsmNeg s i = some t) : t.mem = s.mem := by
  have hend : (if (finish s i).pendingReq i = true then (chainPick (finish s i) i).map (chain (finish s i) i)
      else some (release (finish s i) i)) = some t → t.mem = s.mem := by
    intro hf
    split at hf
    · obtain ⟨l, -, rfl⟩ := Option.map_eq_some_iff.1 hf
      rfl
    · cases hf
      rfl
  unfold fsmNeg at hf
  cases hc : s.cs i <;> simp only [hc] at hf
  case readNeg => exact hend hf
  case writeNeg => exact hend hf
  all_goals
    cases hf
    rfl

/-! ## Every run -/

/-- **One action**: the abstract cell can follow it, unless it is one of the two that break it. -/
theorem step_sim {a : Action n m} {u : Bool} (hw : isInTaSSpace w cfg.ID = true) (hw4 : w % 4 = 0)
    (hd : demuxIsInTcdmSpace w = true) (hS : Sim w s u) (hG : Guarded cfg w s a)
    (hs : step cfg s a = some t) : ∃ v, Trans.run (cell w) u (obs s a) = some v ∧ Sim w t v := by
  have hinv := step_inv hS.inv hs
  obtain ⟨rfl, rfl⟩ | ⟨k, p, rfl, hk, hp, rfl⟩ | ⟨i, mem, p, rfl, hreq, hready, hb, rfl⟩ |
      ⟨i, rfl, hready, hseen, hf⟩ :=
    step_cases hs
  · exact ⟨u, rfl, hinv, clock_tas hw hS.inv hS.tas hG, hS.word⟩
  · exact ⟨u, rfl, hinv, raise_tas hS.tas hp hw4 hG, hS.word⟩
  · obtain ⟨v, hv, hword⟩ := rise_cell hS hreq hready hw4 hd hb
    have hmem : (fsmPos (bankRise s i mem p) i).mem = (bankRise s i mem p).mem := (fsmPos_books _ i).mem
    refine ⟨v, ?_, hinv, rise_tas hS.inv hS.tas hreq hready hw4 hd hb, ?_⟩
    · simpa [obs, hb] using hv
    · rw [tcdmWord_congr hmem]; exact hword
  · refine ⟨u, rfl, hinv, fall_tas hS.inv hS.tas hready hseen hG hf, ?_⟩
    rw [tcdmWord_congr (fsmNeg_mem hf)]
    exact hS.word

/-- **Test-and-set is exclusive** in every run whose steps are guarded: between two writes of
`0` to the word at `w`, at most one read of it returns `0`. -/
theorem exclusive_of_guarded (mem : Fin m → MemClass) (hw : isInTaSSpace w cfg.ID = true) (hw4 : w % 4 = 0)
    (hd : demuxIsInTcdmSpace w = true) {as : List (Action n m)}
    (hr : Trans.run (step cfg) (init mem) as = some t)
    (hG : Trans.Along (step cfg) (Guarded cfg w) (init mem : State n m) as) :
    Exclusive w (Trans.trace (step cfg) obs (init mem : State n m) as) := by
  have hsim : ∀ (s : State n m) a t u, Sim w s u → Guarded cfg w s a → step cfg s a = some t →
      ∃ v, Trans.run (cell w) u (obs s a) = some v ∧ Sim w t v :=
    fun _ _ _ _ hS hG hs => step_sim hw hw4 hd hS hG hs
  obtain ⟨v, hv, -⟩ := Trans.accepts_of_sim (Sim w) hsim (init_sim mem) hG hr
  exact exclusive_of_cell hv

/-! ## Runs on the first test-and-set word -/

/-- The lowest word of the test-and-set space. -/
def TAS_WORD : Nat := 0x0807FE00

def core0 : Fin 2 := (Fin.last 0).castSucc
def core1 : Fin 2 := Fin.last 1
def bank0 : Fin 1 := Fin.last 0

def tasRead : Pinout := { address := TAS_WORD, burst := 1 }

def writeZero : Pinout := { address := TAS_WORD, data := 0, rw := true, burst := 1 }

/-- One bank over an empty memory. -/
def oneBank : State 2 1 := init fun _ => MemClass.new CL_TCDM_SIZE

/-- Core 0 clears the word, takes it, and core 1 finds it taken. -/
def takeTurns : List (Action 2 1) :=
  [.raise core0 writeZero, .clock, .rise bank0, .clock, .fall bank0,
   .raise core0 tasRead, .clock, .rise bank0, .clock, .fall bank0, .rise bank0, .clock, .fall bank0,
   .raise core1 tasRead, .clock, .rise bank0, .clock, .fall bank0, .rise bank0]

theorem exclusive_takeTurns :
    Exclusive TAS_WORD (Trans.trace (step ⟨0, .roundRobin⟩) obs oneBank takeTurns) :=
  have hsome : (Trans.run (step ⟨0, .roundRobin⟩) oneBank takeTurns).isSome = true := by decide +kernel
  exclusive_of_guarded (fun _ => MemClass.new CL_TCDM_SIZE) (by decide) (by decide) (by decide)
    (Option.some_get hsome).symm (by decide +kernel)

/-- Core 0 clears the word, both cores test-and-set it in one clock, core 0 clears it again. -/
def readTogether : List (Action 2 1) :=
  [.raise core0 writeZero, .clock, .rise bank0, .clock, .fall bank0,
   .raise core0 tasRead, .raise core1 tasRead, .clock, .rise bank0, .clock, .fall bank0, .rise bank0, .clock,
   .fall bank0,
   .raise core0 writeZero, .clock, .rise bank0]

/-- **The multicast**: both cores get the `0` between two writes of `0`. -/
theorem not_exclusive_multicast :
    Trans.trace (step ⟨0, .roundRobin⟩) obs oneBank readTogether =
      [.wr 0 TAS_WORD 0, .ret 0 TAS_WORD 0, .ret 1 TAS_WORD 0, .wr 0 TAS_WORD 0] ∧
    ¬ Exclusive TAS_WORD (Trans.trace (step ⟨0, .roundRobin⟩) obs oneBank readTogether) := by
  have htrace : Trans.trace (step ⟨0, .roundRobin⟩) obs oneBank readTogether =
      [.wr 0 TAS_WORD 0, .ret 0 TAS_WORD 0, .ret 1 TAS_WORD 0, .wr 0 TAS_WORD 0] := by decide +kernel
  refine ⟨htrace, fun h => ?_⟩
  have := h [.wr 0 TAS_WORD 0] [.ret 0 TAS_WORD 0, .ret 1 TAS_WORD 0] [.wr 0 TAS_WORD 0] htrace (by decide)
  exact absurd this (by decide)

/-- Core 1 asks while core 0 clears the word; core 0 asks after it. -/
def readPending : List (Action 2 1) :=
  [.raise core0 writeZero, .clock, .raise core1 tasRead, .rise bank0, .clock, .fall bank0, .rise bank0, .clock,
   .fall bank0,
   .raise core0 tasRead, .clock, .rise bank0, .clock, .fall bank0, .rise bank0]

-- The chained read: core 1 is served from `WRITE`, sees `0` and leaves it there.
example :
    Trans.trace (step ⟨0, .roundRobin⟩) obs oneBank readPending =
      [.wr 0 TAS_WORD 0, .ret 1 TAS_WORD 0, .ret 0 TAS_WORD 0] := by decide +kernel

end VirtualSoc.Lic
