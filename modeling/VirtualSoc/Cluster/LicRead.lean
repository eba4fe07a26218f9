import VirtualSoc.Cluster.LicService

/-!
# What a read returns and what it leaves behind (cluster/cl_lic.cpp)

One access of a bank answers a whole group, and whether it is a test-and-set is a flag of the bank.
Three slips follow:

* the arbiter joins requests with the same address and direction, and does not look at their widths
  `bw` (cl_lic.cpp:98 and :150): the group gets what the width of its first core reads;
* `is_test_and_set` is set by any scanned request of the bank (cl_lic.cpp:52), and the fsm uses it for
  the one that is granted (cl_lic.cpp:257): a plain read can run through the state `TAS`, which
  overwrites its word with 1;
* a pending request is served from `READ` or `WRITE` without a look at the flag (cl_lic.cpp:322 and
  :405): a test-and-set read can run through the state `READ`, which leaves its word as it is.

`readsOwn_of_sameWidth`: where no group mixes widths, each read returns what its own request reads.
`sideEffect_of_paired`: where flag and request stay paired, a memory changes only for a write or a
test-and-set read, and that leaves 1.
-/

namespace VirtualSoc.Lic

variable {n m : Nat} {cfg : Config} {s t : State n m} {i j : Fin m} {k : Fin n}

/-! ## Groups of one width -/

/-- The accesses under way to addresses in `Q` have the width that each core of their group asked for. -/
def Widths (Q : Nat → Prop) (s : State n m) : Prop :=
  ∀ i k, s.idcFsm i k = true → Q (s.pinoutSlave i).address → (s.pinoutCore k).bw = (s.pinoutSlave i).bw

/-- At a clock edge nobody joins a request of another width. -/
def SameWidth (Q : Nat → Prop) (cfg : Config) (s : State n m) : Action n m → Prop
  | .clock => ∀ i g k, grant cfg s i = some g → multicast cfg s i k = true → Q (s.pinoutCore g).address →
      (s.pinoutCore k).bw = (s.pinoutCore g).bw
  | _ => True

instance (Q : Nat → Prop) [DecidablePred Q] (cfg : Config) (s : State n m) : ∀ a, Decidable (SameWidth Q cfg s a)
  | .clock => inferInstanceAs (Decidable (∀ _ g _, _ → _ → Q (s.pinoutCore g).address → _ = _))
  | .raise .. => inferInstanceAs (Decidable True)
  | .rise _ => inferInstanceAs (Decidable True)
  | .fall _ => inferInstanceAs (Decidable True)

theorem init_widths {Q : Nat → Prop} (mem : Fin m → MemClass) : Widths Q (init mem : State n m) :=
  fun _ _ hk => by cases hk

theorem clock_widths {Q : Nat → Prop} (h : Inv s) (hW : Widths Q s) (hG : SameWidth Q cfg s .clock) :
    Widths Q (idleWake s (arbiter cfg s)) := by
  intro i k hk hQ
  have hidc : idcAfter cfg s i k = true := hk
  rcases clock_group h hidc with ⟨hk', hc, hw⟩ | ⟨hc, hw, -⟩
  · rw [pinoutSlave_idleWake_of_not hw] at hQ ⊢
    exact hW i k hk' hQ
  · obtain ⟨g, l, hg, hl, hlead, hal, -⟩ := leaderPinout_spec h hw
    have hps : (idleWake s (arbiter cfg s)).pinoutSlave i = s.pinoutCore l := by simp [idleWake, hw, hlead]
    rw [hps] at hQ ⊢
    rw [hal] at hQ
    -- everybody in the group has the width of the winner
    have hg' : ∀ q, idcAfter cfg s i q = true → (s.pinoutCore q).bw = (s.pinoutCore g).bw := by
      intro q hq
      simp only [idcAfter, (h.idle i hc).row q, Bool.false_or, Bool.or_eq_true, beq_iff_eq] at hq
      rcases hq with hq | hq
      · rw [hg] at hq; cases hq; rfl
      · exact hG i g q hg hq hQ
    exact (hg' k hidc).trans (hg' l hl).symm

theorem rise_widths {Q : Nat → Prop} {mem : MemClass} {p : Pinout} (h : Inv s) (hW : Widths Q s)
    (hb : bankAccess s i = some (mem, p)) :
    Widths Q (fsmPos (bankRise s i mem p) i) := by
  obtain ⟨hpa, hpbw, -, -⟩ := bankAccess_spec hb
  have hbk := fsmPos_books (bankRise s i mem p) i
  intro j k hk hQ
  rw [hbk.idcFsm] at hk
  rw [hbk.pinoutSlave] at hQ ⊢
  by_cases hj : j = i
  · subst hj
    have hps : (bankRise s j mem p).pinoutSlave j = p := by simp [bankRise]
    rw [hps] at hQ ⊢
    rw [hpa] at hQ
    rcases fsmPos_pinout (bankRise s j mem p) j k with hp | ⟨-, -, hp⟩
    · rw [hp, hpbw]
      exact hW j k hk hQ
    · rw [hp, hps]
  · have hps : (bankRise s i mem p).pinoutSlave j = s.pinoutSlave j := by simp [bankRise, hj]
    rw [hps] at hQ ⊢
    rcases fsmPos_pinout (bankRise s i mem p) i k with hp | ⟨hik, -⟩
    · rw [hp]
      exact hW j k hk hQ
    · exact absurd (h.idc_inj hk hik) hj

theorem fall_widths {Q : Nat → Prop} (h : Inv s) (hW : Widths Q s) (hready : s.readySlave i = true)
    (hf : fsmNeg (bankFall s i) i = some t) : Widths Q t := by
  have hkeep : ∀ (v : State n m) j, SameRow s v j → v.pinoutCore = s.pinoutCore → ∀ k, v.idcFsm j k = true →
      Q (v.pinoutSlave j).address → (v.pinoutCore k).bw = (v.pinoutSlave j).bw := by
    intro v j hrow hv k hk hQ
    rw [hrow.idc] at hk
    rw [hrow.slave] at hQ ⊢
    rw [hv]
    exact hW j k hk hQ
  obtain ⟨-, ⟨-, -, l, -, rfl⟩ | ⟨-, rfl⟩ | ⟨old, -, rfl⟩⟩ := fall_cases h hready hf
  · intro j k hk hQ
    by_cases hj : j = i
    · subst hj
      have hkl : k = l := by
        by_contra hkl
        simp [chain, finish, hkl] at hk
      subst hkl
      simp [chain]
    · exact hkeep _ j ((finish_sameRow s hj).trans (chain_sameRow _ l hj)) rfl k hk hQ
  · intro j k hk hQ
    by_cases hj : j = i
    · subst hj; simp [release, finish] at hk
    · exact hkeep _ j ((finish_sameRow s hj).trans (release_sameRow _ hj)) rfl k hk hQ
  · intro j k hk hQ
    by_cases hj : j = i
    · subst hj
      simp only [tasSet, bankFall, Function.update_self] at hQ ⊢
      exact hW j k hk hQ
    · simp only [tasSet, bankFall, Function.update_of_ne hj] at hQ ⊢
      exact hW j k hk hQ

theorem step_widths {Q : Nat → Prop} {a : Action n m} (h : Inv s) (hW : Widths Q s) (hG : SameWidth Q cfg s a)
    (hs : step cfg s a = some t) : Widths Q t := by
  obtain ⟨rfl, rfl⟩ | ⟨k, p, rfl, hk, hp, rfl⟩ | ⟨i, mem, p, rfl, hreq, hready, hb, rfl⟩ |
      ⟨i, rfl, hready, hseen, hf⟩ :=
    step_cases hs
  · exact clock_widths h hW hG
  · intro i l hl hQ
    have hlk : l ≠ k := by
      rintro rfl
      rw [(h.table i l (h.idc i l hl).1).1] at hk
      cases hk
    rw [show (raiseRequest s k p).pinoutCore l = s.pinoutCore l by simp [raiseRequest, hlk]]
    exact hW i l hl hQ
  · exact rise_widths h hW hb
  · exact fall_widths h hW hready hf

/-! ## What a read returns -/

/-- The old value that a test-and-set carries is still in the memory of its bank. -/
def Sampled (s : State n m) : Prop :=
  ∀ i old, s.cs i = .tasNeg old ∨ s.cs i = .tasPos2 old →
    (s.mem i).read (bankAddressing m (s.pinoutSlave i).address) (s.pinoutSlave i).bw = some old

theorem step_sampled {a : Action n m} (h : Inv s) (hS : Sampled s) (hs : step cfg s a = some t) : Sampled t := by
  obtain ⟨rfl, rfl⟩ | ⟨k, p, rfl, hk, hp, rfl⟩ | ⟨i, mem, p, rfl, hreq, hready, hb, rfl⟩ |
      ⟨i, rfl, hready, hseen, hf⟩ :=
    step_cases hs
  · intro i old hc
    have hw : wakes s (arbiter cfg s) i = false := by
      by_contra hw
      rw [Bool.not_eq_false] at hw
      rw [cs_idleWake_of_wakes hw] at hc
      split at hc
      · rcases hc with hc | hc <;> cases hc
      · split at hc <;> rcases hc with hc | hc <;> cases hc
    rw [cs_idleWake_of_not hw] at hc
    rw [pinoutSlave_idleWake_of_not hw]
    exact hS i old hc
  · exact hS
  · obtain ⟨hc, hB⟩ := rise_busy h hreq
    have hmode := hB.mode
    have hbk := fsmPos_books (bankRise s i mem p) i
    obtain ⟨hpa, hpbw, -, hpr⟩ := bankAccess_spec hb
    intro j old hcj
    rw [hbk.mem, hbk.pinoutSlave]
    by_cases hj : j = i
    · subst hj
      have hcu : (bankRise s j mem p).cs j = s.cs j := rfl
      unfold Mode at hmode
      cases hcs : s.cs j with
      | tasPos =>
        -- the access has just read the value that the fsm samples
        rw [hcs] at hmode
        obtain ⟨rfl, hread⟩ := hpr hmode.1
        have hold : p.data = old := by simpa [fsmPos, hcs, bankRise] using hcj
        rw [← hold]
        simpa [bankRise] using hread
      | readPos => simp [fsmPos, hcu, hcs] at hcj
      | writePos => simp [fsmPos, hcu, hcs] at hcj
      | tasPos2 old' => simp [fsmPos, hcu, hcs] at hcj
      | idle => exact absurd hcs hc
      | _ => rw [hB.ready, hcs] at hready; cases hready
    · rw [fsmPos_cs hj] at hcj
      simpa [bankRise, hj] using hS j old hcj
  · rw [Sampled, fsmNeg_mem hf]
    have hkeep : ∀ v : State n m, ∀ j, SameRow s v j → ∀ old, v.cs j = .tasNeg old ∨ v.cs j = .tasPos2 old →
        (s.mem j).read (bankAddressing m (v.pinoutSlave j).address) (v.pinoutSlave j).bw = some old := by
      intro v j hrow old hcj
      rw [hrow.cs] at hcj
      rw [hrow.slave]
      exact hS j old hcj
    obtain ⟨-, ⟨-, -, l, -, rfl⟩ | ⟨-, rfl⟩ | ⟨old', hcs, rfl⟩⟩ := fall_cases h hready hf
    · intro j old hcj
      by_cases hj : j = i
      · subst hj
        simp only [chain, Function.update_self] at hcj
        split at hcj <;> rcases hcj with hcj | hcj <;> cases hcj
      · exact hkeep _ j ((finish_sameRow s hj).trans (chain_sameRow _ l hj)) old hcj
    · intro j old hcj
      by_cases hj : j = i
      · subst hj
        simp [release] at hcj
      · exact hkeep _ j ((finish_sameRow s hj).trans (release_sameRow _ hj)) old hcj
    · intro j old hcj
      by_cases hj : j = i
      · subst hj
        have hold : old' = old := by simpa [tasSet] using hcj
        subst hold
        simpa [tasSet, bankFall] using hS j old' (Or.inl hcs)
      · simp only [tasSet, bankFall, Function.update_of_ne hj] at hcj ⊢
        exact hS j old hcj

/-- A core that waits for a read goes on waiting with its request as it is, or it gets its ready with
what its own address and width read from its bank. -/
def ReadsOwn (s t : State n m) : Prop :=
  ∀ k, s.requestCore k = true → (s.pinoutCore k).rw = false → s.readyCore k = false →
    t.readyCore k = false ∧ t.pinoutCore k = s.pinoutCore k ∨
      t.readyCore k = true ∧ ∃ i : Fin m, getTcdmBankId m (s.pinoutCore k).address = i ∧
        (s.mem i).read (bankAddressing m (s.pinoutCore k).address) (s.pinoutCore k).bw = some (t.pinoutCore k).data

/-- What a rising ready edge brings to a core whose ready line was low. -/
theorem rise_answer {mem : MemClass} {p : Pinout} (h : Inv s) (hreq : s.requestSlave i = true)
    (hready : s.readySlave i = false) (hk : s.readyCore k = false) :
    ((fsmPos (bankRise s i mem p) i).readyCore k = false ∧
      (fsmPos (bankRise s i mem p) i).pinoutCore k = s.pinoutCore k) ∨
    (s.idcFsm i k = true ∧ (fsmPos (bankRise s i mem p) i).readyCore k = true ∧
      (s.cs i = .readPos ∧ (fsmPos (bankRise s i mem p) i).pinoutCore k = p ∨ s.cs i = .writePos ∨
        ∃ old, s.cs i = .tasPos2 old ∧
          (fsmPos (bankRise s i mem p) i).pinoutCore k = { p with data := old, rw := false })) := by
  obtain ⟨hc, hB⟩ := rise_busy h hreq
  have hcu : (bankRise s i mem p).cs i = s.cs i := rfl
  by_cases hidc : s.idcFsm i k = true
  · have hu : (bankRise s i mem p).idcFsm i k = true := hidc
    unfold fsmPos
    rw [hcu]
    cases hcs : s.cs i with
    | idle => exact absurd hcs hc
    | readPos => exact Or.inr ⟨hidc, by simp [answer, hu], Or.inl ⟨rfl, by simp [answer, hu]; simp [bankRise]⟩⟩
    | writePos => exact Or.inr ⟨hidc, by simp [hu], Or.inr (Or.inl rfl)⟩
    | tasPos => exact Or.inl ⟨hk, rfl⟩
    | tasPos2 old =>
      exact Or.inr ⟨hidc, by simp [answer, hu], Or.inr (Or.inr ⟨old, rfl, by simp [answer, hu]; simp [bankRise]⟩)⟩
    | _ => rw [hB.ready, hcs] at hready; cases hready
  · have hu : (bankRise s i mem p).idcFsm i k = false := by simpa [bankRise] using hidc
    have hneg : ((bankRise s i mem p).cs i).atNeg = false := by rw [hcu, ← hB.ready]; exact hready
    obtain ⟨-, -, hrdy⟩ := fsmPos_lines (bankRise s i mem p) i hc hneg
    refine Or.inl ⟨?_, ?_⟩
    · rw [hrdy, hu, Bool.false_and, Bool.false_or]
      exact hk
    · rcases fsmPos_pinout (bankRise s i mem p) i k with hp | ⟨hf, -⟩
      · exact hp
      · rw [hu] at hf; cases hf

theorem step_readsOwn {a : Action n m} (h : Inv s) (hW : Widths (fun _ => True) s) (hS : Sampled s)
    (hs : step cfg s a = some t) : ReadsOwn s t := by
  intro k hreq hrw hk
  obtain ⟨rfl, rfl⟩ | ⟨l, p, rfl, hl, hp, rfl⟩ | ⟨i, mem, p, rfl, hreqS, hready, hb, rfl⟩ |
      ⟨i, rfl, hready, hseen, hf⟩ :=
    step_cases hs
  · exact Or.inl ⟨hk, rfl⟩
  · have hkl : k ≠ l := by
      rintro rfl
      rw [hreq] at hl
      cases hl
    exact Or.inl ⟨hk, by simp [raiseRequest, hkl]⟩
  · obtain ⟨hc, hB⟩ := rise_busy h hreqS
    obtain ⟨hpa, hpbw, -, hpr⟩ := bankAccess_spec hb
    have hmode := hB.mode
    unfold Mode at hmode
    refine (rise_answer h hreqS hready hk).imp id ?_
    rintro ⟨hidc, hrdy, hcase⟩
    refine ⟨hrdy, i, (h.table i k (h.idc i k hidc).1).2, ?_⟩
    rw [hB.addr k hidc, hW i k hidc trivial]
    obtain ⟨hcs, hpin⟩ | hcs | ⟨old, hcs, hpin⟩ := hcase
    · rw [hcs] at hmode
      rw [hpin, ← hpa, ← hpbw]
      exact (hpr hmode.1).2
    · rw [hcs] at hmode
      rw [hmode.2 k hidc, hmode.1] at hrw
      cases hrw
    · rw [hpin]
      exact hS i old (Or.inr hcs)
  · refine Or.inl ⟨?_, ?_⟩
    · obtain ⟨-, ⟨-, -, l, -, rfl⟩ | ⟨-, rfl⟩ | ⟨old, -, rfl⟩⟩ := fall_cases h hready hf
      · simp [chain, finish, bankFall, hk]
      · simp [release, finish, bankFall, hk]
      · exact hk
    · obtain ⟨-, ⟨-, -, l, -, rfl⟩ | ⟨-, rfl⟩ | ⟨old, -, rfl⟩⟩ := fall_cases h hready hf
      · rfl
      · rfl
      · rfl

/-- **A read returns its own value** in every run in which nobody joins a request of another width: a
core that waits for a read keeps its request until its ready, and gets with it what that request
reads from its bank at this point. -/
theorem readsOwn_of_sameWidth (mem : Fin m → MemClass) (as : List (Action n m))
    (hG : Trans.Along (step cfg) (SameWidth (fun _ => True) cfg) (init mem : State n m) as) :
    Trans.Along (step cfg) (fun s a => ∀ t, step cfg s a = some t → ReadsOwn s t) (init mem : State n m) as := by
  have h0 : Inv (init mem : State n m) ∧ Widths (fun _ => True) (init mem : State n m) ∧
      Sampled (init mem : State n m) :=
    ⟨init_inv mem, init_widths mem, fun i old hc => by rcases hc with hc | hc <;> cases hc⟩
  refine Trans.Along.of_inv (fun s => Inv s ∧ Widths (fun _ => True) s ∧ Sampled s) hG h0 (fun s a t hI hg hs => ?_)
    fun s a hI _ t hs => ?_
  · exact ⟨step_inv hI.1 hs, step_widths hI.1 hI.2.1 hg hs, step_sampled hI.1 hI.2.2 hs⟩
  · exact step_readsOwn hI.1 hI.2.1 hI.2.2 hs

/-! ## What a read leaves behind -/

/-- The fsms that test and set are those that serve a test-and-set address. -/
structure Spaces (cfg : Config) (s : State n m) : Prop where
  read : ∀ i, s.cs i = .readPos → isInTaSSpace (s.pinoutSlave i).address cfg.ID = false
  testing : ∀ i, (s.cs i).testing = true → isInTaSSpace (s.pinoutSlave i).address cfg.ID = true

/-- Flag and request stay paired: no plain read is granted while a test-and-set read of its bank is
scanned, no test-and-set read joins one of another width, and none is chained. -/
def Paired (cfg : Config) (s : State n m) : Action n m → Prop
  | .clock =>
    (∀ i g, grant cfg s i = some g → (s.pinoutCore g).rw = false →
      isInTaSSpace (s.pinoutCore g).address cfg.ID = false → ∀ k, requests s i k = true →
      isInTaSSpace (s.pinoutCore k).address cfg.ID = true → (s.pinoutCore k).rw = true) ∧
    SameWidth (fun a => isInTaSSpace a cfg.ID = true) cfg s .clock
  | .fall i =>
    s.cs i = .readNeg ∨ s.cs i = .writeNeg → s.pendingReq i = true →
      ∀ l, chainPick (finish (bankFall s i) i) i = some l →
        isInTaSSpace (s.pinoutCore l).address cfg.ID = true → (s.pinoutCore l).rw = true
  | _ => True

instance (cfg : Config) (s : State n m) : ∀ a, Decidable (Paired cfg s a)
  | .clock => inferInstanceAs (Decidable (_ ∧ _))
  | .raise .. => inferInstanceAs (Decidable True)
  | .rise _ => inferInstanceAs (Decidable True)
  | .fall _ => inferInstanceAs (Decidable (_ ∨ _ → _))

theorem Paired.sameWidth {a : Action n m} (hG : Paired cfg s a) :
    SameWidth (fun a => isInTaSSpace a cfg.ID = true) cfg s a := by
  cases a with
  | clock => exact hG.2
  | _ => trivial

theorem clock_spaces (h : Inv s) (hT : Spaces cfg s) (hG : Paired cfg s .clock) :
    Spaces cfg (idleWake s (arbiter cfg s)) := by
  -- where a bank wakes up for a read, its flag tells of the address it reads
  have hflag : ∀ i, wakes s (arbiter cfg s) i = true →
      ((idleWake s (arbiter cfg s)).pinoutSlave i).rw = false →
      (arbiter cfg s).isTestAndSet i = isInTaSSpace ((idleWake s (arbiter cfg s)).pinoutSlave i).address cfg.ID := by
    intro i hw hrw
    have hc := ((wakes_iff h).1 hw).1
    obtain ⟨g, l, hg, hl, hlead, hal, hor⟩ := leaderPinout_spec h hw
    have hps : (idleWake s (arbiter cfg s)).pinoutSlave i = s.pinoutCore l := by simp [idleWake, hw, hlead]
    rw [hps] at hrw ⊢
    obtain ⟨g', hg', ht, -, -, hor'⟩ := idcAfter_idle h hc hl
    rw [hg] at hg'
    cases hg'
    have hgrw : (s.pinoutCore g).rw = false := by
      rcases hor' with rfl | ⟨-, hr⟩
      · exact hrw
      · exact hr
    obtain ⟨hreq, hserved, -⟩ := tableAfter_idle h hc ht
    have hbank := (tableAfter_spec h ht).2
    cases hsp : isInTaSSpace (s.pinoutCore l).address cfg.ID with
    | true => exact decide_eq_true ⟨l, by simp [requests, hreq, hserved, hbank, hsp, hrw]⟩
    | false =>
      refine decide_eq_false ?_
      rintro ⟨k, hk⟩
      simp only [Bool.and_eq_true, Bool.not_eq_true'] at hk
      have := hG.1 i g hg hgrw (by rw [← hal]; exact hsp) k hk.1.1 hk.1.2
      rw [hk.2] at this
      cases this
  have hkeep : ∀ i, wakes s (arbiter cfg s) i = false → (idleWake s (arbiter cfg s)).cs i = s.cs i ∧
      (idleWake s (arbiter cfg s)).pinoutSlave i = s.pinoutSlave i :=
    fun i hw => ⟨cs_idleWake_of_not hw, pinoutSlave_idleWake_of_not hw⟩
  constructor
  · intro i hc
    cases hw : wakes s (arbiter cfg s) i with
    | false =>
      rw [(hkeep i hw).1] at hc
      rw [(hkeep i hw).2]
      exact hT.read i hc
    | true =>
      rw [cs_idleWake_of_wakes hw] at hc
      split at hc
      · cases hc
      · rename_i hrw
        split at hc
        · cases hc
        · rename_i hf
          rw [← hflag i hw (by simpa [idleWake, hw] using hrw)]
          simpa using hf
  · intro i hc
    cases hw : wakes s (arbiter cfg s) i with
    | false =>
      rw [(hkeep i hw).1] at hc
      rw [(hkeep i hw).2]
      exact hT.testing i hc
    | true =>
      rw [cs_idleWake_of_wakes hw] at hc
      split at hc
      · cases hc
      · rename_i hrw
        split at hc
        · rename_i hf
          rw [← hflag i hw (by simpa [idleWake, hw] using hrw)]
          exact hf
        · cases hc

theorem rise_spaces {mem : MemClass} {p : Pinout} (h : Inv s) (hT : Spaces cfg s) (hreq : s.requestSlave i = true)
    (hready : s.readySlave i = false) (hb : bankAccess s i = some (mem, p)) :
    Spaces cfg (fsmPos (bankRise s i mem p) i) := by
  obtain ⟨hc, hB⟩ := rise_busy h hreq
  have hneg : (s.cs i).atNeg = false := by rw [← hB.ready]; exact hready
  have hbk := fsmPos_books (bankRise s i mem p) i
  have hpa := (bankAccess_spec hb).1
  obtain ⟨hneg', htest, -⟩ := fsmPos_lines (bankRise s i mem p) i hc hneg
  have hother : ∀ j, j ≠ i → (fsmPos (bankRise s i mem p) i).cs j = s.cs j ∧
      (fsmPos (bankRise s i mem p) i).pinoutSlave j = s.pinoutSlave j := by
    intro j hj
    refine ⟨fsmPos_cs hj, ?_⟩
    rw [hbk.pinoutSlave]
    simp [bankRise, hj]
  constructor
  · intro j hcj
    by_cases hj : j = i
    · subst hj
      rw [hcj] at hneg'
      cases hneg'
    · rw [(hother j hj).1] at hcj
      rw [(hother j hj).2]
      exact hT.read j hcj
  · intro j hcj
    by_cases hj : j = i
    · subst hj
      rw [hbk.pinoutSlave, show (bankRise s j mem p).pinoutSlave j = p by simp [bankRise], hpa]
      exact hT.testing j (htest hcj).1
    · rw [(hother j hj).1] at hcj
      rw [(hother j hj).2]
      exact hT.testing j hcj

theorem fall_spaces (h : Inv s) (hT : Spaces cfg s) (hready : s.readySlave i = true)
    (hG : Paired cfg s (.fall i)) (hf : fsmNeg (bankFall s i) i = some t) : Spaces cfg t := by
  have hkeep : ∀ (v : State n m) j, SameRow s v j →
      (v.cs j = .readPos → isInTaSSpace (v.pinoutSlave j).address cfg.ID = false) ∧
      ((v.cs j).testing = true → isInTaSSpace (v.pinoutSlave j).address cfg.ID = true) := by
    intro v j hrow
    rw [hrow.cs, hrow.slave]
    exact ⟨hT.read j, hT.testing j⟩
  -- the other banks look the same, so only bank `i` is left
  have hall : ∀ v : State n m, (∀ j, j ≠ i → SameRow s v j) →
      (v.cs i = .readPos → isInTaSSpace (v.pinoutSlave i).address cfg.ID = false) →
      ((v.cs i).testing = true → isInTaSSpace (v.pinoutSlave i).address cfg.ID = true) → Spaces cfg v := by
    intro v hrow hr ht
    constructor
    · intro j
      by_cases hj : j = i
      · subst hj; exact hr
      · exact (hkeep v j (hrow j hj)).1
    · intro j
      by_cases hj : j = i
      · subst hj; exact ht
      · exact (hkeep v j (hrow j hj)).2
  obtain ⟨-, ⟨hcs, hp, l, hl, rfl⟩ | ⟨-, rfl⟩ | ⟨old, hcs, rfl⟩⟩ := fall_cases h hready hf
  · have hcs' : (chain (finish (bankFall s i) i) i l).cs i = if (s.pinoutCore l).rw then .writePos else .readPos := by
      simp [chain, finish, bankFall]
    have hps : (chain (finish (bankFall s i) i) i l).pinoutSlave i = s.pinoutCore l := by
      simp [chain, finish, bankFall]
    refine hall _ (fun j hj => (finish_sameRow s hj).trans (chain_sameRow _ l hj)) (fun hc => ?_) fun hc => ?_
    · rw [hps]
      by_contra hsp
      have hrw := hG hcs hp l hl (by simpa using hsp)
      rw [hcs', hrw] at hc
      cases hc
    · rw [hcs'] at hc
      split at hc <;> cases hc
  · refine hall _ (fun j hj => (finish_sameRow s hj).trans (release_sameRow _ hj)) (fun hc => ?_) fun hc => ?_
    · simp [release] at hc
    · simp [release, CtrlState.testing] at hc
  · refine hall _ (fun j hj => ?_) (fun hc => ?_) fun _ => ?_
    · constructor <;> simp [tasSet, bankFall, hj]
    · simp [tasSet] at hc
    · have := hT.testing i (by rw [hcs]; rfl)
      simpa [tasSet, bankFall] using this

/-- What the proof carries along a run whose steps are `Paired`. -/
structure PairedInv (cfg : Config) (s : State n m) : Prop where
  inv : Inv s
  lines : Lines s
  sized : Sized s
  spaces : Spaces cfg s
  widths : Widths (fun a => isInTaSSpace a cfg.ID = true) s

theorem step_paired {a : Action n m} (h : PairedInv cfg s) (hG : Paired cfg s a) (hs : step cfg s a = some t) :
    PairedInv cfg t := by
  refine ⟨step_inv h.inv hs, step_lines h.inv h.lines hs, step_sized h.inv h.sized hs, ?_,
    step_widths h.inv h.widths hG.sameWidth hs⟩
  obtain ⟨rfl, rfl⟩ | ⟨k, p, rfl, -, -, rfl⟩ | ⟨i, mem, p, rfl, hreq, hready, hb, rfl⟩ | ⟨i, rfl, hready, -, hf⟩ :=
    step_cases hs
  · exact clock_spaces h.inv h.spaces hG
  · exact ⟨h.spaces.read, h.spaces.testing⟩
  · exact rise_spaces h.inv h.spaces hreq hready hb
  · exact fall_spaces h.inv h.spaces hready hG hf

/-- The ready line of core `k` rises. -/
def Returns (s t : State n m) (k : Fin n) : Prop :=
  s.requestCore k = true ∧ s.readyCore k = false ∧ t.readyCore k = true

/-- Only a write or a test-and-set read that returns changes a memory; a plain read that returns
leaves every memory as it is; and a test-and-set read leaves 1. -/
structure SideEffect (cfg : Config) (s t : State n m) : Prop where
  changes : ∀ i, t.mem i ≠ s.mem i → ∃ k, Returns s t k ∧ getTcdmBankId m (s.pinoutCore k).address = i ∧
    ((s.pinoutCore k).rw = true ∨ isInTaSSpace (s.pinoutCore k).address cfg.ID = true)
  plain : ∀ k, Returns s t k → (s.pinoutCore k).rw = false →
    isInTaSSpace (s.pinoutCore k).address cfg.ID = false → t.mem = s.mem
  tas : ∀ k, Returns s t k → (s.pinoutCore k).rw = false → isInTaSSpace (s.pinoutCore k).address cfg.ID = true →
    ∃ i : Fin m, getTcdmBankId m (s.pinoutCore k).address = i ∧
      (t.mem i).read (bankAddressing m (s.pinoutCore k).address) (s.pinoutCore k).bw = some 1

theorem truncate_one (bw : Nat) : MemClass.truncate bw 1 = 1 := by
  unfold MemClass.truncate
  split
  · rfl
  · split <;> rfl

/-- A step at which no ready line rises and no memory changes. -/
theorem sideEffect_of_same (hmem : t.mem = s.mem) (hready : ∀ k, t.readyCore k = true → s.readyCore k = true) :
    SideEffect cfg s t := by
  have hno : ∀ k, ¬ Returns s t k := by
    rintro k ⟨-, hs, ht⟩
    rw [hready k ht] at hs
    cases hs
  refine ⟨fun i hi => absurd (congrFun hmem i) hi, fun k hk => absurd hk (hno k), fun k hk => absurd hk (hno k)⟩

theorem rise_sideEffect {mem : MemClass} {p : Pinout} (h : PairedInv cfg s) (hreq : s.requestSlave i = true)
    (hready : s.readySlave i = false) (hb : bankAccess s i = some (mem, p)) :
    SideEffect cfg s (fsmPos (bankRise s i mem p) i) := by
  obtain ⟨hc, hB⟩ := rise_busy h.inv hreq
  obtain ⟨hpa, hpbw, hpw, hpr⟩ := bankAccess_spec hb
  have hbk := fsmPos_books (bankRise s i mem p) i
  have hmode := hB.mode
  unfold Mode at hmode
  have hneg : (s.cs i).atNeg = false := by rw [← hB.ready]; exact hready
  obtain ⟨-, -, hrdy⟩ := fsmPos_lines (bankRise s i mem p) i hc hneg
  have hsame : (s.pinoutSlave i).rw = false → (fsmPos (bankRise s i mem p) i).mem = s.mem := by
    intro hrw
    rw [hbk.mem]
    simp [bankRise, (hpr hrw).1]
  -- the group of an access that answers has its ready lines low before and high after it
  have hreturn : ∀ k, s.idcFsm i k = true → (s.cs i).acks = false →
      ((fsmPos (bankRise s i mem p) i).cs i).acks = true → Returns s (fsmPos (bankRise s i mem p) i) k := by
    intro k hk hack hack'
    have hu : (bankRise s i mem p).idcFsm i k = true := hk
    refine ⟨(h.inv.table i k (h.inv.idc i k hk).1).1, (h.lines.ack i k hk).trans hack, ?_⟩
    rw [hrdy, hu, hack']
    rfl
  have hcu : (bankRise s i mem p).cs i = s.cs i := rfl
  constructor
  · intro j hj
    have hji : j = i := by
      by_contra hji
      rw [hbk.mem] at hj
      exact hj (by simp [bankRise, hji])
    subst hji
    obtain ⟨k, hk⟩ := hB.row
    have hbank := (h.inv.table j k (h.inv.idc j k hk).1).2
    cases hcs : s.cs j with
    | readPos => rw [hcs] at hmode; exact absurd (congrFun (hsame hmode.1) j) hj
    | tasPos => rw [hcs] at hmode; exact absurd (congrFun (hsame hmode.1) j) hj
    | writePos =>
      rw [hcs] at hmode
      refine ⟨k, hreturn k hk (by rw [hcs]; rfl) (by simp [fsmPos, hcu, hcs, CtrlState.acks]), hbank, Or.inl ?_⟩
      rw [hmode.2 k hk, hmode.1]
    | tasPos2 old =>
      refine ⟨k, hreturn k hk (by rw [hcs]; rfl) (by simp [fsmPos, hcu, hcs, CtrlState.acks]), hbank, Or.inr ?_⟩
      rw [hB.addr k hk]
      exact h.spaces.testing j (by rw [hcs]; rfl)
    | idle => exact absurd hcs hc
    | _ => rw [hcs] at hneg; cases hneg
  · rintro k ⟨hk, hlow, hhigh⟩ hrw hsp
    obtain ⟨hf, -⟩ | ⟨hidc, -, ⟨hcs, -⟩ | hcs | ⟨old, hcs, -⟩⟩ := rise_answer h.inv hreq hready hlow (i := i)
    · rw [hf] at hhigh; cases hhigh
    · rw [hcs] at hmode
      exact hsame hmode.1
    · rw [hcs] at hmode
      rw [hmode.2 k hidc, hmode.1] at hrw
      cases hrw
    · have := h.spaces.testing i (by rw [hcs]; rfl)
      rw [← hB.addr k hidc, hsp] at this
      cases this
  · rintro k ⟨hk, hlow, hhigh⟩ hrw hsp
    obtain ⟨hf, -⟩ | ⟨hidc, -, ⟨hcs, -⟩ | hcs | ⟨old, hcs, -⟩⟩ := rise_answer h.inv hreq hready hlow (i := i)
    · rw [hf] at hhigh; cases hhigh
    · have := h.spaces.read i hcs
      rw [← hB.addr k hidc, hsp] at this
      cases this
    · rw [hcs] at hmode
      rw [hmode.2 k hidc, hmode.1] at hrw
      cases hrw
    · -- the access has written 1
      rw [hcs] at hmode
      obtain ⟨rfl, hwrite⟩ := hpw hmode.1
      have hsp' := hsp
      rw [hB.addr k hidc] at hsp'
      refine ⟨i, (h.inv.table i k (h.inv.idc i k hidc).1).2, ?_⟩
      rw [hB.addr k hidc, h.widths i k hidc hsp', hbk.mem]
      have hd := h.inv.demux k hk
      rw [hB.addr k hidc] at hd
      have hal : (s.pinoutSlave i).bw = MEM_HWORD → bankAddressing m (s.pinoutSlave i).address % 2 = 0 := by
        intro hbw
        have hsz := h.sized.slave i hc
        simp only [Lic.sized, hbw, Bool.or_eq_true, Bool.and_eq_true, beq_iff_eq, MEM_HWORD, MEM_WORD,
          MEM_BYTE] at hsz
        have hmod : bankAddressing m (s.pinoutSlave i).address % 4 = (s.pinoutSlave i).address % 4 :=
          bankAddressing_mod hd
        omega
      have := MemClass.read_write hwrite hal
      rw [hmode.2, truncate_one] at this
      simpa [bankRise] using this

theorem step_sideEffect {a : Action n m} (h : PairedInv cfg s) (hs : step cfg s a = some t) :
    SideEffect cfg s t := by
  obtain ⟨rfl, rfl⟩ | ⟨k, p, rfl, -, -, rfl⟩ | ⟨i, mem, p, rfl, hreq, hready, hb, rfl⟩ | ⟨i, rfl, hready, -, hf⟩ :=
    step_cases hs
  · exact sideEffect_of_same rfl fun _ hk => hk
  · exact sideEffect_of_same rfl fun _ hk => hk
  · exact rise_sideEffect h hreq hready hb
  · refine sideEffect_of_same (fsmNeg_mem (s := bankFall s i) hf) fun k hk => ?_
    obtain ⟨-, ⟨-, -, l, -, rfl⟩ | ⟨-, rfl⟩ | ⟨old, -, rfl⟩⟩ := fall_cases h.inv hready hf
    · simp only [chain, finish, bankFall, Bool.and_eq_true] at hk
      exact hk.2
    · simp only [release, finish, bankFall, Bool.and_eq_true] at hk
      exact hk.2
    · exact hk

/-- **Side effects** in every run in which flag and request stay paired: a memory changes only for a
write or a test-and-set read that returns, never for a plain read, and a test-and-set read that
returns leaves 1. -/
theorem sideEffect_of_paired (mem : Fin m → MemClass) (as : List (Action n m))
    (hG : Trans.Along (step cfg) (Paired cfg) (init mem : State n m) as) :
    Trans.Along (step cfg) (fun s a => ∀ t, step cfg s a = some t → SideEffect cfg s t)
      (init mem : State n m) as := by
  have h0 : PairedInv cfg (init mem : State n m) := by
    refine ⟨init_inv mem, init_lines mem, init_sized mem, ⟨fun i hc => ?_, fun i hc => ?_⟩, init_widths mem⟩
    · cases hc
    · cases hc
  exact Trans.Along.of_inv (PairedInv cfg) hG h0 (fun s a t hI hg hs => step_paired hI hg hs)
    fun s a hI _ t hs => step_sideEffect hI hs

/-! ## Runs on one bank -/

/-- The first word of the TCDM. -/
def PLAIN_WORD : Nat := CL_TCDM_BASE

def plainRead : Pinout := { address := PLAIN_WORD, burst := 1 }

def byteRead : Pinout := { address := PLAIN_WORD, bw := MEM_BYTE, burst := 1 }

def writeWord : Pinout := { address := PLAIN_WORD, data := 0x01020304, rw := true, burst := 1 }

/-- One access of the bank from its grant to the end of its ready pulse. -/
def access : List (Action 2 1) := [.clock, .rise bank0, .clock, .fall bank0]

/-- Core 0 writes a word, then both cores read it together. -/
def readShared : List (Action 2 1) :=
  .raise core0 writeWord :: access ++ .raise core0 plainRead :: .raise core1 plainRead :: access

theorem readsOwn_readShared : Trans.Along (step ⟨0, .roundRobin⟩)
    (fun s a => ∀ t, step ⟨0, .roundRobin⟩ s a = some t → ReadsOwn s t) oneBank readShared :=
  readsOwn_of_sameWidth (fun _ => MemClass.new CL_TCDM_SIZE) readShared (by decide +kernel)

/-- Core 0 writes a word; in one clock core 0 asks for its low byte and core 1 for the word. -/
def readWidths : List (Action 2 1) :=
  .raise core0 writeWord :: access ++ [.raise core0 byteRead, .raise core1 plainRead, .clock]

/-- **The widths**: core 1 gets the byte that core 0 asked for, not its word. -/
theorem not_readsOwn_readWidths : ¬ Trans.Along (step ⟨0, .roundRobin⟩)
    (fun s a => ∀ t, step ⟨0, .roundRobin⟩ s a = some t → ReadsOwn s t) oneBank (readWidths ++ [.rise bank0]) := by
  intro h
  have hsome : (Trans.run (step ⟨0, .roundRobin⟩) oneBank readWidths).isSome = true := by decide +kernel
  obtain ⟨s, hs⟩ := Option.isSome_iff_exists.1 hsome
  have hlast := (Trans.along_append hs h).2.1
  have hview : (Trans.run (step ⟨0, .roundRobin⟩) oneBank readWidths).bind (fun s => (step ⟨0, .roundRobin⟩ s
      (.rise bank0)).map fun t => (s.requestCore core1, s.readyCore core1, t.readyCore core1, s.pinoutCore core1,
        (t.pinoutCore core1).data, (s.mem bank0).read (bankAddressing 1 PLAIN_WORD) MEM_WORD == some 0x01020304)) =
      some (true, false, true, plainRead, 0x04, true) := by decide +kernel
  rw [hs, Option.bind_some, Option.map_eq_some_iff] at hview
  obtain ⟨t, ht, hview⟩ := hview
  simp only [Prod.mk.injEq] at hview
  obtain ⟨hreq, hlow, hhigh, hpin, hdata, hread⟩ := hview
  rcases hlast t ht core1 hreq (by rw [hpin]; rfl) hlow with ⟨hf, -⟩ | ⟨-, i, -, hown⟩
  · rw [hhigh] at hf
    cases hf
  · have hi : i = bank0 := Subsingleton.elim _ _
    rw [hi, hpin, hdata] at hown
    exact absurd ((beq_iff_eq.1 hread).symm.trans hown) (by decide)

/-- Core 0 reads a plain word, and after it core 1 test-and-sets its word. -/
def readThenTas : List (Action 2 1) :=
  .raise core0 plainRead :: access ++ .raise core1 tasRead :: access ++ [.rise bank0]

theorem sideEffect_readThenTas : Trans.Along (step ⟨0, .roundRobin⟩)
    (fun s a => ∀ t, step ⟨0, .roundRobin⟩ s a = some t → SideEffect ⟨0, .roundRobin⟩ s t) oneBank readThenTas :=
  sideEffect_of_paired (fun _ => MemClass.new CL_TCDM_SIZE) readThenTas (by decide +kernel)

/-- Core 0 asks for a plain word and core 1 for a test-and-set word in one clock. -/
def readBeside : List (Action 2 1) := [.raise core0 plainRead, .raise core1 tasRead] ++ access

/-- **The flag**: the plain read of core 0 leaves 1 in its word. -/
theorem not_sideEffect_readBeside : ¬ Trans.Along (step ⟨0, .roundRobin⟩)
    (fun s a => ∀ t, step ⟨0, .roundRobin⟩ s a = some t → SideEffect ⟨0, .roundRobin⟩ s t) oneBank
    (readBeside ++ [.rise bank0]) := by
  intro h
  have hsome : (Trans.run (step ⟨0, .roundRobin⟩) oneBank readBeside).isSome = true := by decide +kernel
  obtain ⟨s, hs⟩ := Option.isSome_iff_exists.1 hsome
  have hlast := (Trans.along_append hs h).2.1
  have hview : (Trans.run (step ⟨0, .roundRobin⟩) oneBank readBeside).bind (fun s => (step ⟨0, .roundRobin⟩ s
      (.rise bank0)).map fun t => (s.requestCore core0, s.readyCore core0, t.readyCore core0, s.pinoutCore core0,
        tcdmWord s PLAIN_WORD, tcdmWord t PLAIN_WORD)) =
      some (true, false, true, plainRead, 0, 1) := by decide +kernel
  rw [hs, Option.bind_some, Option.map_eq_some_iff] at hview
  obtain ⟨t, ht, hview⟩ := hview
  simp only [Prod.mk.injEq] at hview
  obtain ⟨hreq, hlow, hhigh, hpin, hbefore, hafter⟩ := hview
  have hmem := (hlast t ht).plain core0 ⟨hreq, hlow, hhigh⟩ (by rw [hpin]; rfl) (by rw [hpin]; decide)
  have hsame := (tcdmWord_congr hmem (w := PLAIN_WORD)).symm.trans hafter
  rw [hbefore] at hsame
  exact absurd hsame (by decide)

/-- Core 1 asks for a test-and-set word while core 0 is served. -/
def tasPending : List (Action 2 1) :=
  [.raise core0 plainRead, .clock, .raise core1 tasRead, .rise bank0, .clock, .fall bank0]

-- The chained read: the test-and-set read of core 1 leaves its word at 0.
example :
    (Trans.run (step ⟨0, .roundRobin⟩) oneBank (tasPending ++ [.rise bank0])).map
      (fun t => (t.readyCore core1, (t.pinoutCore core1).data, tcdmWord t TAS_WORD)) = some (true, 0, 0) := by
  decide +kernel

end VirtualSoc.Lic
