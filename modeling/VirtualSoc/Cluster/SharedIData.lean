import VirtualSoc.Cluster.SharedI

/-!
# What a fetch returns (cluster/cl_xbar_sharedI.cpp)

A multicast joins the reads of one address to one access of the bank. It compares with `hp_addr`, which
the arbiter resets to 0 at each clock edge and sets only for a bank that it grants: for a busy bank the
comparison is with address 0 and with core 0 (cl_xbar_sharedI.cpp:106 and :219). So a fetch of address 0
by any other core joins the access its bank is busy with, whatever its address, and gets its data. Widths
are not compared either.

`delivers_of_joinsOwn`: where no core joins a running access of another address, or an access of another
width, each core gets what it asked for.
-/

namespace VirtualSoc.SharedI

variable {n m : Nat} {cfg : Config} {s t : State n m} {i j : Fin m} {k l : Fin n}

/-! ## The invariant -/

/-- A bank at rest. -/
structure Idle (s : State n m) (i : Fin m) : Prop where
  busy : s.busyFsm i = false
  go : s.goFsm i = false
  request : s.requestCache i = false
  ready : s.readyCache i = false
  pending : s.pendingReq i = false
  row : ∀ k, s.idcFsm i k = false

/-- A bank that serves the group in its row of `idc_fsm`. Before its data arrives, the group has asked for
what is on its pinout; later, cores may have joined that asked for something else. -/
structure Busy (s : State n m) (i : Fin m) : Prop where
  read : s.cs i = .readPos ∨ s.cs i = .readNeg
  busy : s.busyFsm i = true
  go : s.goFsm i = true
  request : s.requestCache i = true
  ready : s.readyCache i = true ↔ s.cs i = .readNeg
  row : ∃ k, s.idcFsm i k = true
  rw : (s.pinoutCache i).rw = false
  own : s.cs i = .readPos → ∀ k, s.idcFsm i k = true →
    (s.pinoutCore k).address = (s.pinoutCache i).address ∧ (s.pinoutCore k).bw = (s.pinoutCache i).bw
  pending : s.seen i = true → s.pendingReq i = true → ∃ k, s.reqTable i k = true ∧ s.idcFsm i k = false

/-- The bank that the fetch of a core goes to. -/
def route (s : State n m) (k : Fin n) (i : Fin m) : Prop := getCacheId m (s.pinoutCore k).address = i

/-- The requests are sampled, they are reads, and the request table, `idc_fsm` and `served` fit together. -/
structure Tables (s : State n m) : Prop where
  req : ∀ k, s.req k = s.requestCore k
  poll : ∀ k, s.requestCore k = false → s.poll k = .waitRequest
  fetch : ∀ k, s.requestCore k = true → (s.pinoutCore k).rw = false
  books : Crossbar.Books (route s) s.req s.served s.reqTable s.idcFsm

/-- A core whose ready line is high has asked, is being answered, and has its data on its pinout. -/
def Answered (cfg : Config) (s : State n m) : Prop :=
  ∀ k, s.readyCore k = true → s.requestCore k = true ∧
    cfg.holds (s.pinoutCore k).address (s.pinoutCore k).bw (s.pinoutCore k).data = true ∧
    ∃ i, s.cs i = .readNeg ∧ s.idcFsm i k = true

structure Inv (cfg : Config) (s : State n m) : Prop extends Tables s where
  idle : ∀ i, s.cs i = .idle → Idle s i
  busy : ∀ i, s.cs i ≠ .idle → Busy s i
  answered : Answered cfg s

theorem route_inj (s : State n m) (k : Fin n) (i j : Fin m) (hi : route s k i) (hj : route s k j) : i = j :=
  Fin.ext (Eq.trans (Eq.symm hi) hj)

theorem Tables.table (h : Tables s) (i : Fin m) (k : Fin n) (hk : s.reqTable i k = true) :
    s.requestCore k = true ∧ getCacheId m (s.pinoutCore k).address = i := by
  rw [← h.req]; exact h.books.table i k hk

theorem Tables.idc (h : Tables s) : ∀ i k, s.idcFsm i k = true → s.reqTable i k = true ∧ s.served k = true :=
  h.books.grp

theorem init_inv : Inv cfg (init : State n m) := by
  refine ⟨⟨?_, ?_, ?_, ?_⟩, ?_, ?_, ?_⟩
  · exact fun _ => rfl
  · exact fun _ _ => rfl
  · exact fun _ hk => by cases hk
  · exact ⟨route_inj _, fun _ _ hk => (by cases hk), fun _ _ hk => (by cases hk), fun _ hk => by cases hk⟩
  · exact fun _ _ => ⟨rfl, rfl, rfl, rfl, rfl, fun _ => rfl⟩
  · exact fun _ hc => absurd rfl hc
  · exact fun _ hk => by cases hk

/-! ## Who may join -/

/-- Core `k` waits for bank `i` and is not served yet. -/
def asks (s : State n m) (i : Fin m) (k : Fin n) : Bool :=
  s.requestCore k && !s.served k && getCacheId m (s.pinoutCore k).address == i

/-- Who a free bank goes to: the first that asks, in the order of the scheduling. -/
def winner (cfg : Config) (s : State n m) (i : Fin m) : Option (Fin n) :=
  cfg.sched.pick (s.nextToServe i) (asks s i)

/-- No core other than core 0 asks for address 0 while its bank waits, with nothing pending, for the data
of another address or width. -/
def NoStranger (s : State n m) : Prop :=
  ∀ (i : Fin m) (k : Fin n), s.cs i = .readPos → s.pendingReq i = false → asks s i k = true →
    (s.pinoutCore k).address = 0 → k.val ≠ 0 →
      (s.pinoutCache i).address = 0 ∧ (s.pinoutCache i).bw = (s.pinoutCore k).bw

/-- Nobody asks, in another width, for the address that a free bank is about to serve. -/
def OneWidth (cfg : Config) (s : State n m) : Prop :=
  ∀ i g k, s.cs i = .idle → winner cfg s i = some g → asks s i k = true →
    (s.pinoutCore k).address = (s.pinoutCore g).address → (s.pinoutCore k).bw = (s.pinoutCore g).bw

/-- What the arbiter has to find, for a core to join accesses of its own address and width only. -/
def JoinsOwn (cfg : Config) (s : State n m) : Action n m → Prop
  | .clock => NoStranger s ∧ OneWidth cfg s
  | _ => True

instance (s : State n m) : Decidable (NoStranger s) :=
  inferInstanceAs (Decidable (∀ _ _, _ → _ → _ → _ → _ → _))

instance (cfg : Config) (s : State n m) : Decidable (OneWidth cfg s) :=
  inferInstanceAs (Decidable (∀ _ _ _, _ → _ → _ → _ → _))

instance (cfg : Config) (s : State n m) : ∀ a, Decidable (JoinsOwn cfg s a)
  | .clock => inferInstanceAs (Decidable (_ ∧ _))
  | .raise .. => inferInstanceAs (Decidable True)
  | .rise .. => inferInstanceAs (Decidable True)
  | .fall _ => inferInstanceAs (Decidable True)

/-! ## The arbiter in a state of the invariant -/

theorem tableAfter_spec (h : Inv cfg s) (ht : tableAfter s i k = true) :
    s.requestCore k = true ∧ getCacheId m (s.pinoutCore k).address = i := by
  simp only [tableAfter, requests, Bool.or_eq_true, Bool.and_eq_true, beq_iff_eq] at ht
  rcases ht with ht | ⟨⟨hr, -⟩, ha⟩
  · exact h.table i k ht
  · exact ⟨by rw [← h.req]; exact hr, ha⟩

/-- The table of a bank at rest holds exactly those who ask for it. -/
theorem tableAfter_idle (h : Inv cfg s) (hc : s.cs i = .idle) : tableAfter s i k = asks s i k := by
  rw [Bool.eq_iff_iff]
  constructor
  · intro ht
    obtain ⟨hr, ha⟩ := tableAfter_spec h ht
    have hs : s.served k = false := h.books.not_served ha ((h.idle i hc).row k)
    simp [asks, hr, hs, ha]
  · intro ha
    have hr : requests s i k = true := by
      unfold requests
      rw [h.req]
      exact ha
    simp [tableAfter, hr]

theorem rowPinout_asks (h : Inv cfg s) (ha : asks s i k = true) : rowPinout s k = s.pinoutCore k := by
  simp only [asks, Bool.and_eq_true, Bool.not_eq_true'] at ha
  simp [rowPinout, h.req, ha.1.1, ha.1.2]

theorem grant_of_busy (hb : s.busyFsm i = true) : grant cfg s i = none := by simp [grant, hb]

theorem grant_idle (h : Inv cfg s) (hc : s.cs i = .idle) : grant cfg s i = winner cfg s i := by
  have hT : tableAfter s i = asks s i := funext fun k => tableAfter_idle h hc
  unfold grant winner Crossbar.Sched.pick
  rw [(h.idle i hc).busy, (h.idle i hc).pending, hT]
  cases cfg.sched <;> rfl

theorem winner_asks (hw : winner cfg s i = some k) : asks s i k = true := Crossbar.Sched.pick_some hw

/-- A companion at a free bank asks for the address of the winner. -/
theorem multicast_idle (h : Inv cfg s) (hc : s.cs i = .idle) (hm : multicast cfg s i k = true) :
    asks s i k = true ∧ ∃ g, winner cfg s i = some g ∧ (s.pinoutCore k).address = (s.pinoutCore g).address := by
  simp only [multicast, hp, grant_idle h hc, tableAfter_idle h hc, Bool.and_eq_true, beq_iff_eq] at hm
  obtain ⟨⟨⟨⟨⟨ha, haddr⟩, -⟩, -⟩, hne⟩, -⟩ := hm
  refine ⟨ha, ?_⟩
  cases hw : winner cfg s i with
  | none =>
    have := Crossbar.Sched.pick_none.1 hw k
    rw [ha] at this
    cases this
  | some g =>
    rw [hw, rowPinout_asks h ha] at haddr
    refine ⟨g, rfl, ?_⟩
    rw [haddr]
    exact congrArg Pinout.address (rowPinout_asks h (winner_asks hw))

/-- A core that joins a busy bank asks for address 0, and is not core 0. -/
theorem multicast_of_busy (h : Inv cfg s) (hb : s.busyFsm i = true) (hm : multicast cfg s i k = true) :
    asks s i k = true ∧ (s.pinoutCore k).address = 0 ∧ k.val ≠ 0 ∧ s.pendingReq i = false := by
  simp only [multicast, hp, grant_of_busy hb, Bool.and_eq_true, beq_iff_eq, bne_iff_ne, Bool.not_eq_true'] at hm
  obtain ⟨⟨⟨⟨⟨ht, haddr⟩, -⟩, -⟩, hne⟩, hpend⟩ := hm
  obtain ⟨hr, ha⟩ := tableAfter_spec h ht
  -- a core that is not scanned has the address of a new pinout, which is not 0
  unfold rowPinout at haddr
  split at haddr
  · rename_i hscan
    simp only [Bool.and_eq_true, Bool.not_eq_true'] at hscan
    exact ⟨by simp [asks, hr, hscan.2, ha], haddr, hne, hpend⟩
  · cases haddr

/-- The group of a bank that was at rest. -/
theorem idcAfter_idle (h : Inv cfg s) (hJ : JoinsOwn cfg s .clock) (hc : s.cs i = .idle)
    (hk : idcAfter cfg s i k = true) :
    asks s i k = true ∧ ∃ g, winner cfg s i = some g ∧ (s.pinoutCore k).address = (s.pinoutCore g).address ∧
      (s.pinoutCore k).bw = (s.pinoutCore g).bw := by
  simp only [idcAfter, (h.idle i hc).row k, Bool.false_or, Bool.or_eq_true, beq_iff_eq] at hk
  rcases hk with hg | hm
  · rw [grant_idle h hc] at hg
    exact ⟨winner_asks hg, k, hg, rfl, rfl⟩
  · obtain ⟨ha, g, hg, haddr⟩ := multicast_idle h hc hm
    exact ⟨ha, g, hg, haddr, hJ.2 i g k hc hg ha haddr⟩

/-- Who is added to the group of a busy bank. -/
theorem idcAfter_busy (h : Inv cfg s) (hc : s.cs i ≠ .idle) (hk : idcAfter cfg s i k = true) :
    s.idcFsm i k = true ∨
      asks s i k = true ∧ (s.pinoutCore k).address = 0 ∧ k.val ≠ 0 ∧ s.pendingReq i = false := by
  have hb := (h.busy i hc).busy
  simp only [idcAfter, grant_of_busy hb, Bool.or_eq_true, beq_iff_eq] at hk
  rcases hk with (hk | hk) | hk
  · exact Or.inl hk
  · cases hk
  · exact Or.inr (multicast_of_busy h hb hk)

theorem asks_table (h : Inv cfg s) (ha : asks s i k = true) : tableAfter s i k = true := by
  have hr : requests s i k = true := by
    unfold requests
    rw [h.req]
    exact ha
  simp [tableAfter, hr]

theorem idcAfter_spec (h : Inv cfg s) (hJ : JoinsOwn cfg s .clock) (hk : idcAfter cfg s i k = true) :
    tableAfter s i k = true ∧ servedAfter cfg s k = true := by
  have hserved : servedAfter cfg s k = true := by
    simp only [idcAfter, Bool.or_eq_true, beq_iff_eq] at hk
    simp only [servedAfter, Bool.or_eq_true, beq_iff_eq, decide_eq_true_eq]
    rcases hk with (hk | hk) | hk
    · exact Or.inl (h.idc i k hk).2
    · exact Or.inr ⟨i, Or.inl hk⟩
    · exact Or.inr ⟨i, Or.inr hk⟩
  refine ⟨?_, hserved⟩
  by_cases hc : s.cs i = .idle
  · exact asks_table h (idcAfter_idle h hJ hc hk).1
  · rcases idcAfter_busy h hc hk with hk | ⟨ha, -⟩
    · simp [tableAfter, (h.idc i k hk).1]
    · exact asks_table h ha

theorem wakes_iff (h : Inv cfg s) :
    wakes s (arbiter cfg s) i = true ↔ s.cs i = .idle ∧ ∃ k, tableAfter s i k = true := by
  simp only [wakes, arbiter, requested, Bool.and_eq_true, Bool.not_eq_true', beq_iff_eq, decide_eq_true_eq]
  constructor
  · rintro ⟨⟨-, hk⟩, hc⟩
    exact ⟨hc, hk⟩
  · rintro ⟨hc, hk⟩
    exact ⟨⟨(h.idle i hc).go, hk⟩, hc⟩

/-- What is busy is not woken. -/
theorem wakes_of_busy (h : Inv cfg s) (hs : s.cs i ≠ .idle) : wakes s (arbiter cfg s) i = false := by
  by_contra hw
  exact hs ((wakes_iff h).1 (by simpa using hw)).1

/-- Nobody asks for a bank that sleeps on. -/
theorem row_of_asleep (h : Inv cfg s) (hs : s.cs i = .idle) (hw : wakes s (arbiter cfg s) i = false) (k : Fin n) :
    tableAfter s i k = false := by
  by_contra hk
  have hk' : wakes s (arbiter cfg s) i = true := (wakes_iff h).2 ⟨hs, k, by simpa using hk⟩
  rw [hw] at hk'
  cases hk'

/-- What a woken bank puts on its pinout: the fetch of a core of its group. -/
theorem leaderPinout_spec (h : Inv cfg s) (hw : wakes s (arbiter cfg s) i = true) :
    ∃ k, idcAfter cfg s i k = true ∧ leaderPinout (arbiter cfg s) i = s.pinoutCore k := by
  obtain ⟨hc, k, hk⟩ := (wakes_iff h).1 hw
  rw [tableAfter_idle h hc] at hk
  unfold leaderPinout
  split
  · rename_i l hl
    exact ⟨l, Scan.first_some hl, rfl⟩
  · rename_i hl
    -- somebody asks, so there is a winner
    cases hg : winner cfg s i with
    | none =>
      have := Crossbar.Sched.pick_none.1 hg k
      rw [hk] at this
      cases this
    | some g =>
      have hidc : idcAfter cfg s i g = true := by simp [idcAfter, grant_idle h hc, hg]
      have := Scan.first_none.1 hl g
      simp only [arbiter] at this
      rw [hidc] at this
      cases this

/-! ## The clock -/

theorem cs_idleWake_of_not (hw : wakes s t i = false) : (idleWake s t).cs i = t.cs i := by
  simp [idleWake, hw]

theorem pinoutCache_idleWake_of_not (hw : wakes s t i = false) :
    (idleWake s t).pinoutCache i = t.pinoutCache i := by
  simp [idleWake, hw]

theorem clock_idle (h : Inv cfg s) (hJ : JoinsOwn cfg s .clock)
    (hc : (idleWake s (arbiter cfg s)).cs i = .idle) : Idle (idleWake s (arbiter cfg s)) i := by
  have hw : wakes s (arbiter cfg s) i = false := by
    by_contra hw
    rw [Bool.not_eq_false] at hw
    simp only [idleWake, hw, if_true] at hc
    split at hc <;> cases hc
  have hs : s.cs i = .idle := by rw [cs_idleWake_of_not hw] at hc; exact hc
  have hI := h.idle i hs
  -- nobody asks, so there is nothing to lock, nobody to grant and nothing pending
  have hno := row_of_asleep h hs hw
  constructor
  · simp [idleWake, arbiter, requested, hI.busy, hno]
  · simp [idleWake, arbiter, requested, hno]
  · simp only [idleWake, hw, Bool.false_or]; exact hI.request
  · exact hI.ready
  · simp [idleWake, arbiter, queued, hno]
  · intro k
    by_contra hk
    have hidc : idcAfter cfg s i k = true := by rw [Bool.not_eq_false] at hk; exact hk
    have := (idcAfter_spec h hJ hidc).1
    rw [hno k] at this
    cases this

/-- What `pending_req` says right after the arbiter. -/
theorem clock_pending (hp : (idleWake s (arbiter cfg s)).pendingReq i = true) :
    ∃ k, (idleWake s (arbiter cfg s)).reqTable i k = true ∧ (idleWake s (arbiter cfg s)).idcFsm i k = false := by
  simp only [idleWake, arbiter, queued, decide_eq_true_eq, Bool.and_eq_true, Bool.not_eq_true'] at hp
  exact hp

/-- A bank that was busy stays with its group and those who join it. -/
theorem clock_busy_keep (h : Inv cfg s) (hJ : JoinsOwn cfg s .clock) (hs : s.cs i ≠ .idle) :
    Busy (idleWake s (arbiter cfg s)) i := by
  have hB := h.busy i hs
  have hw : wakes s (arbiter cfg s) i = false := wakes_of_busy h hs
  have hcs : (idleWake s (arbiter cfg s)).cs i = s.cs i := cs_idleWake_of_not hw
  have hps : (idleWake s (arbiter cfg s)).pinoutCache i = s.pinoutCache i := pinoutCache_idleWake_of_not hw
  obtain ⟨k, hk⟩ := hB.row
  constructor
  · rw [hcs]; exact hB.read
  · simp [idleWake, arbiter, hB.busy]
  · simp only [idleWake, arbiter, requested, decide_eq_true_eq]
    exact ⟨k, by simp [tableAfter, (h.idc i k hk).1]⟩
  · simp [idleWake, arbiter, hB.request]
  · rw [hcs]; exact hB.ready
  · exact ⟨k, by simp [idleWake, arbiter, idcAfter, hk]⟩
  · rw [hps]; exact hB.rw
  · intro hc k hk
    rw [hcs] at hc
    rw [hps]
    rcases idcAfter_busy h hs hk with hk | ⟨ha, haddr, hne, hpend⟩
    · exact hB.own hc k hk
    · obtain ⟨h0, hbw⟩ := hJ.1 i k hc hpend ha haddr hne
      exact ⟨haddr.trans h0.symm, hbw.symm⟩
  · exact fun _ hp => clock_pending hp

/-- A bank that leaves `IDLE` serves the winner of this edge and its companions. -/
theorem clock_busy_wake (h : Inv cfg s) (hJ : JoinsOwn cfg s .clock) (hw : wakes s (arbiter cfg s) i = true) :
    Busy (idleWake s (arbiter cfg s)) i := by
  obtain ⟨hc, k, hk⟩ := (wakes_iff h).1 hw
  obtain ⟨l, hl, hlead⟩ := leaderPinout_spec h hw
  obtain ⟨hla, g, hg, hlg, hlbw⟩ := idcAfter_idle h hJ hc hl
  have hrw : (s.pinoutCore l).rw = false := by
    simp only [asks, Bool.and_eq_true] at hla
    exact h.fetch l hla.1.1
  have hps : (idleWake s (arbiter cfg s)).pinoutCache i = s.pinoutCore l := by simp [idleWake, hw, hlead]
  have hcs : (idleWake s (arbiter cfg s)).cs i = .readPos := by simp [idleWake, hw, hlead, hrw]
  have hreq : requested s i = true := by simp only [requested, decide_eq_true_eq]; exact ⟨k, hk⟩
  constructor
  · exact Or.inl hcs
  · simp [idleWake, arbiter, hreq]
  · exact hreq
  · simp [idleWake, hw]
  · have hr : (idleWake s (arbiter cfg s)).readyCache i = false := (h.idle i hc).ready
    simp [hr, hcs]
  · exact ⟨l, hl⟩
  · rw [hps]; exact hrw
  · intro _ k' hk'
    obtain ⟨-, g', hg', ha, hbw⟩ := idcAfter_idle h hJ hc hk'
    rw [hg] at hg'
    cases hg'
    rw [hps]
    exact ⟨ha.trans hlg.symm, hbw.trans hlbw.symm⟩
  · exact fun _ hp => clock_pending hp

theorem clock_tables (h : Inv cfg s) (hJ : JoinsOwn cfg s .clock) : Tables (idleWake s (arbiter cfg s)) := by
  refine ⟨h.req, h.poll, h.fetch, ?_⟩
  refine (h.books.scan (fun i k hk => ?_) fun i k hk => ?_).grant (fun i k hk => idcAfter_spec h hJ hk) fun k hk => ?_
  · simp [idleWake, arbiter, tableAfter, hk]
  · simp only [idleWake, arbiter, tableAfter, requests, Bool.or_eq_true, Bool.and_eq_true, beq_iff_eq] at hk
    exact hk.imp_right fun hk => ⟨hk.1.1, hk.2⟩
  · simp only [idleWake, arbiter, servedAfter, Bool.or_eq_true, decide_eq_true_eq] at hk
    rcases hk with hk | ⟨i, hk⟩
    · obtain ⟨i, hi⟩ := h.books.served k hk
      exact ⟨i, by simp [idleWake, arbiter, idcAfter, hi]⟩
    · exact ⟨i, by simpa [idleWake, arbiter, idcAfter, or_assoc] using Or.inr hk⟩

theorem clock_inv (h : Inv cfg s) (hJ : JoinsOwn cfg s .clock) : Inv cfg (idleWake s (arbiter cfg s)) := by
  refine ⟨clock_tables h hJ, fun _ hc => clock_idle h hJ hc, fun i hc => ?_, fun k hk => ?_⟩
  · by_cases hw : wakes s (arbiter cfg s) i = true
    · exact clock_busy_wake h hJ hw
    · rw [cs_idleWake_of_not (by simpa using hw)] at hc
      exact clock_busy_keep h hJ hc
  · obtain ⟨hr, hd, i, hi, hidc⟩ := h.answered k hk
    have hw : wakes s (arbiter cfg s) i = false := wakes_of_busy h (by rw [hi]; decide)
    refine ⟨hr, hd, i, ?_, ?_⟩
    · rw [cs_idleWake_of_not hw]; exact hi
    · simp [idleWake, arbiter, idcAfter, hidc]

/-! ## The other actions -/

/-- Bank `j` and the cores it answers look the same. -/
structure SameRow (s t : State n m) (j : Fin m) : Prop where
  cs : t.cs j = s.cs j
  busy : t.busyFsm j = s.busyFsm j
  go : t.goFsm j = s.goFsm j
  request : t.requestCache j = s.requestCache j
  ready : t.readyCache j = s.readyCache j
  cache : t.pinoutCache j = s.pinoutCache j
  pending : t.pendingReq j = s.pendingReq j
  seen : t.seen j = s.seen j
  table : t.reqTable j = s.reqTable j
  idc : t.idcFsm j = s.idcFsm j
  core : ∀ k, s.idcFsm j k = true → t.pinoutCore k = s.pinoutCore k

theorem SameRow.toIdle (h : SameRow s t j) (hI : Idle s j) : Idle t j :=
  ⟨by rw [h.busy]; exact hI.busy, by rw [h.go]; exact hI.go, by rw [h.request]; exact hI.request,
    by rw [h.ready]; exact hI.ready, by rw [h.pending]; exact hI.pending, by rw [h.idc]; exact hI.row⟩

theorem SameRow.toBusy (h : SameRow s t j) (hB : Busy s j) : Busy t j := by
  constructor
  · rw [h.cs]; exact hB.read
  · rw [h.busy]; exact hB.busy
  · rw [h.go]; exact hB.go
  · rw [h.request]; exact hB.request
  · rw [h.ready, h.cs]; exact hB.ready
  · rw [h.idc]; exact hB.row
  · rw [h.cache]; exact hB.rw
  · intro hc k hk
    rw [h.cs] at hc
    rw [h.idc] at hk
    rw [h.core k hk, h.cache]
    exact hB.own hc k hk
  · rw [h.seen, h.pending, h.table, h.idc]; exact hB.pending

/-- An action of bank `i` or of a core: the other banks are as before. -/
theorem inv_of_sameRow (i : Fin m) (h : Inv cfg s) (hT : Tables t) (hr : ∀ j, j ≠ i → SameRow s t j)
    (hidle : t.cs i = .idle → Idle t i) (hbusy : t.cs i ≠ .idle → Busy t i) (hA : Answered cfg t) : Inv cfg t := by
  refine ⟨hT, fun j hc => ?_, fun j hc => ?_, hA⟩
  · by_cases hj : j = i
    · subst hj; exact hidle hc
    · have hR := hr j hj
      rw [hR.cs] at hc
      exact hR.toIdle (h.idle j hc)
  · by_cases hj : j = i
    · subst hj; exact hbusy hc
    · have hR := hr j hj
      rw [hR.cs] at hc
      exact hR.toBusy (h.busy j hc)

theorem raise_inv {p : Pinout} (h : Inv cfg s) (hk : s.requestCore k = false) (hp : validFetch cfg p = true) :
    Inv cfg (raiseRequest s k p) := by
  have hpoll := h.poll k hk
  have hrw : p.rw = false := by
    simp only [validFetch, Bool.and_eq_true, Bool.not_eq_true'] at hp
    exact hp.1.1.2
  have hne : ∀ i l, s.reqTable i l = true → l ≠ k := by
    rintro i l hl rfl
    rw [(h.table i l hl).1] at hk
    cases hk
  have hrow : ∀ j, SameRow s (raiseRequest s k p) j := by
    intro j
    refine ⟨rfl, rfl, rfl, rfl, rfl, rfl, rfl, rfl, rfl, rfl, fun l hl => ?_⟩
    simp [raiseRequest, hne j l (h.idc j l hl).1]
  have hT : Tables (raiseRequest s k p) := by
    constructor
    · intro l
      by_cases hl : l = k
      · subst hl; simp [raiseRequest, hpoll]
      · simp [raiseRequest, hpoll, hl, h.req l]
    · intro l
      by_cases hl : l = k
      · subst hl; simp [raiseRequest]
      · simpa [raiseRequest, hl] using h.poll l
    · intro l
      by_cases hl : l = k
      · subst hl; simp [raiseRequest, hrw]
      · simpa [raiseRequest, hl] using h.fetch l
    · refine h.books.reroute (route_inj _) fun i l hl => ?_
      have hlk := hne i l hl
      simpa [raiseRequest, route, hpoll, hlk] using h.books.table i l hl
  refine ⟨hT, fun j hc => (hrow j).toIdle (h.idle j hc), fun j hc => (hrow j).toBusy (h.busy j hc), fun l hl => ?_⟩
  obtain ⟨hr, hd⟩ := h.answered l hl
  have hlk : l ≠ k := by
    rintro rfl
    rw [hr] at hk
    cases hk
  simpa [raiseRequest, hlk, hr] using hd

/-! ### A ready pulse begins -/

theorem handleRequest_spec {p q : Pinout} {d : UInt32} (hb : handleRequest cfg p d = some q) :
    q.address = p.address ∧ q.bw = p.bw ∧ q.rw = p.rw ∧ cfg.holds q.address q.bw q.data = true := by
  unfold handleRequest at hb
  split at hb
  · cases hb
  · split at hb
    · cases hb
    · split at hb
      · rename_i hd
        cases hb
        exact ⟨rfl, rfl, rfl, hd⟩
      · cases hb

/-- The answer of a bank in a state of the invariant. -/
theorem fsmPos_eq {p : Pinout} (hc : s.cs i = .readPos) :
    fsmPos (bankRise s i p) i =
      { bankRise s i p with
        pinoutCore := fun k => if s.idcFsm i k then p else s.pinoutCore k
        readyCore := fun k => s.idcFsm i k || s.readyCore k
        cs := Function.update s.cs i .readNeg } := by
  have hcu : (bankRise s i p).cs i = .readPos := hc
  simp only [fsmPos, hcu]
  simp [bankRise]

theorem rise_readPos (h : Inv cfg s) (hreq : s.requestCache i = true) (hready : s.readyCache i = false) :
    s.cs i = .readPos ∧ Busy s i := by
  have hc : s.cs i ≠ .idle := by
    intro hc
    rw [(h.idle i hc).request] at hreq
    cases hreq
  have hB := h.busy i hc
  refine ⟨hB.read.resolve_right fun hn => ?_, hB⟩
  rw [hB.ready.2 hn] at hready
  cases hready

/-- The cores of the group go on to have the address and the width on their pinouts. -/
theorem rise_pinout {p : Pinout} {d : UInt32} (hB : Busy s i) (hc : s.cs i = .readPos)
    (hb : handleRequest cfg (s.pinoutCache i) d = some p) (k : Fin n) :
    ((fsmPos (bankRise s i p) i).pinoutCore k).address = (s.pinoutCore k).address ∧
      ((fsmPos (bankRise s i p) i).pinoutCore k).bw = (s.pinoutCore k).bw := by
  obtain ⟨hpa, hpbw, -, -⟩ := handleRequest_spec hb
  rw [fsmPos_eq hc]
  by_cases hk : s.idcFsm i k = true
  · obtain ⟨ha, hbw⟩ := hB.own hc k hk
    simp [hk, hpa, hpbw, ha, hbw]
  · simp [hk]

theorem rise_inv {p : Pinout} {d : UInt32} (h : Inv cfg s) (hreq : s.requestCache i = true)
    (hready : s.readyCache i = false) (hb : handleRequest cfg (s.pinoutCache i) d = some p) :
    Inv cfg (fsmPos (bankRise s i p) i) := by
  obtain ⟨hc, hB⟩ := rise_readPos h hreq hready
  have hpin := rise_pinout hB hc hb
  obtain ⟨hpa, hpbw, hprw, hpd⟩ := handleRequest_spec hb
  rw [fsmPos_eq hc] at hpin ⊢
  have hT : Tables { bankRise s i p with
      pinoutCore := fun k => if s.idcFsm i k then p else s.pinoutCore k
      readyCore := fun k => s.idcFsm i k || s.readyCore k
      cs := Function.update s.cs i .readNeg } := by
    refine ⟨h.req, h.poll, fun k hk => ?_, h.books.reroute (route_inj _) fun j k hk => ?_⟩
    · by_cases hi : s.idcFsm i k = true
      · simp [hi, hprw, hB.rw]
      · simpa [hi] using h.fetch k hk
    · rw [route, (hpin k).1]
      exact h.books.table j k hk
  refine inv_of_sameRow i h hT (fun j hj => ?_) (fun hi => ?_) (fun _ => ?_) fun k hk => ?_
  · refine ⟨by simp [hj], rfl, rfl, rfl, by simp [bankRise, hj], by simp [bankRise, hj], rfl, rfl, rfl, rfl,
      fun k hk => ?_⟩
    have hki : s.idcFsm i k ≠ true := fun hi => hj (h.books.grp_inj hk hi)
    simp [hki]
  · simp at hi
  · refine ⟨Or.inr (by simp), hB.busy, hB.go, hB.request, by simp [bankRise], hB.row, ?_, fun hi => ?_, hB.pending⟩
    · simp [bankRise, hprw, hB.rw]
    · simp at hi
  · by_cases hi : s.idcFsm i k = true
    · refine ⟨(h.table i k (h.idc i k hi).1).1, by simpa [hi] using hpd, i, by simp, hi⟩
    · have hk' : s.readyCore k = true := by simpa [hi] using hk
      obtain ⟨hr, hd, j, hcj, hidc⟩ := h.answered k hk'
      have hji : j ≠ i := by
        rintro rfl
        exact hi hidc
      exact ⟨hr, by simpa [hi] using hd, j, by simpa [hji] using hcj, hidc⟩

/-! ### A ready pulse ends -/

/-- The tables when bank `i` lets its group go. -/
theorem finish_tables (h : Tables s) : Tables (finish (bankFall s i) i) := by
  constructor
  · intro k
    by_cases hi : s.idcFsm i k = true
    · simp [finish, bankFall, requestAfter, hi, (h.idc i k hi).2]
    · simp [finish, bankFall, requestAfter, hi, h.req]
  · intro k hk
    by_cases hi : s.idcFsm i k = true
    · have hk' : requestAfter (bankFall s i) i k = false := hk
      have hi' : (bankFall s i).idcFsm i k = true := hi
      have hs : (bankFall s i).served k = true := (h.idc i k hi).2
      simp [finish, hk', hi', hs]
    · simp only [finish, bankFall, requestAfter, hi, Bool.false_and, Bool.not_false, Bool.true_and] at hk
      simp [finish, bankFall, hi, h.poll k hk]
  · intro k hk
    simp only [finish, requestAfter, bankFall, Bool.and_eq_true] at hk
    exact h.fetch k hk.2
  · refine (h.books.finish i).reroute (route_inj _) fun j k hk => ?_
    obtain ⟨hr, hroute⟩ := (h.books.finish i).table j k hk
    simp only [Bool.and_eq_true, Bool.not_eq_true'] at hr
    exact ⟨by simp [finish, bankFall, hr.1, hr.2], hroute⟩

theorem finish_sameRow (s : State n m) (hj : j ≠ i) : SameRow s (finish (bankFall s i) i) j := by
  constructor <;> simp [finish, bankFall, hj]

theorem release_sameRow (s : State n m) (hj : j ≠ i) : SameRow s (release s i) j := by
  constructor <;> simp [release, hj]

theorem chain_sameRow (s : State n m) (l : Fin n) (hj : j ≠ i) : SameRow s (chain s i l) j := by
  constructor <;> simp [chain, hj]

theorem SameRow.trans {u : State n m} (h1 : SameRow s t j) (h2 : SameRow t u j) : SameRow s u j where
  cs := h2.cs.trans h1.cs
  busy := h2.busy.trans h1.busy
  go := h2.go.trans h1.go
  request := h2.request.trans h1.request
  ready := h2.ready.trans h1.ready
  cache := h2.cache.trans h1.cache
  pending := h2.pending.trans h1.pending
  seen := h2.seen.trans h1.seen
  table := h2.table.trans h1.table
  idc := h2.idc.trans h1.idc
  core k hk := (h2.core k (by rw [h1.idc]; exact hk)).trans (h1.core k hk)

/-- The cores that still see a ready after bank `i` let its group go are answered by another bank. -/
theorem finish_answered (h : Inv cfg s) (hready : t.readyCore = (finish (bankFall s i) i).readyCore)
    (hreq : t.requestCore = (finish (bankFall s i) i).requestCore) (hpin : t.pinoutCore = s.pinoutCore)
    (hrow : ∀ j, j ≠ i → SameRow s t j) : Answered cfg t := by
  intro k hk
  rw [hready] at hk
  simp only [finish, bankFall, Bool.and_eq_true, Bool.not_eq_true'] at hk
  obtain ⟨hr, hd, j, hcj, hidc⟩ := h.answered k hk.2
  have hji : j ≠ i := by
    rintro rfl
    rw [hk.1] at hidc
    cases hidc
  refine ⟨?_, by rw [hpin]; exact hd, j, by rw [(hrow j hji).cs]; exact hcj, by rw [(hrow j hji).idc]; exact hidc⟩
  rw [hreq]
  simp [finish, bankFall, requestAfter, hk.1, hr]

theorem release_inv (h : Inv cfg s) (hp : s.pendingReq i = false) :
    Inv cfg (release (finish (bankFall s i) i) i) := by
  have hT := finish_tables (i := i) h.toTables
  have hrow : ∀ j, j ≠ i → SameRow s (release (finish (bankFall s i) i) i) j :=
    fun j hj => (finish_sameRow s hj).trans (release_sameRow _ hj)
  refine inv_of_sameRow i h ⟨hT.req, hT.poll, hT.fetch, hT.books⟩ hrow (fun _ => ?_) (fun hc => ?_)
    (finish_answered h rfl rfl rfl hrow)
  · constructor <;> simp [release, finish, bankFall, hp]
  · simp [release] at hc

/-- The chained core is in the table of the bank and was not in the group. -/
theorem chainPick_spec (hB : Busy s i) (hseen : s.seen i = true) (hp : s.pendingReq i = true)
    (hl : chainPick (finish (bankFall s i) i) i = some l) : (finish (bankFall s i) i).reqTable i l = true := by
  obtain ⟨k, hk, hki⟩ := hB.pending hseen hp
  unfold chainPick at hl
  cases hf : Scan.firstFrom ((finish (bankFall s i) i).next i + 1) ((finish (bankFall s i) i).reqTable i) with
  | none =>
    have := Scan.firstFrom_none.1 hf k
    simp [finish, bankFall, hk, hki] at this
  | some l' =>
    rw [hf, Option.some_or] at hl
    cases hl
    exact Scan.firstFrom_some hf

theorem chain_inv (h : Inv cfg s) (hB : Busy s i) (hseen : s.seen i = true) (hp : s.pendingReq i = true)
    (hl : chainPick (finish (bankFall s i) i) i = some l) : Inv cfg (chain (finish (bankFall s i) i) i l) := by
  have htab := chainPick_spec hB hseen hp hl
  have hT : Tables (finish (bankFall s i) i) := finish_tables h.toTables
  have hrw : ((finish (bankFall s i) i).pinoutCore l).rw = false := hT.fetch l (hT.table i l htab).1
  have hrow : ∀ j, j ≠ i → SameRow s (chain (finish (bankFall s i) i) i l) j :=
    fun j hj => (finish_sameRow s hj).trans (chain_sameRow _ l hj)
  have hcs : (chain (finish (bankFall s i) i) i l).cs i = .readPos := by simp [chain, hrw]
  have hidc : ∀ k, (chain (finish (bankFall s i) i) i l).idcFsm i k = true ↔ k = l := by
    intro k
    by_cases hk : k = l
    · simp [chain, hk]
    · simp [chain, hk, finish]
  refine inv_of_sameRow i h ⟨hT.req, hT.poll, hT.fetch, hT.books.serve htab⟩ hrow (fun hc => ?_) (fun _ => ?_)
    (finish_answered h rfl rfl rfl hrow)
  · rw [hcs] at hc
    cases hc
  · constructor
    · exact Or.inl hcs
    · simp [chain, finish, bankFall, hB.busy]
    · simp [chain, finish, bankFall, hB.go]
    · simp [chain]
    · rw [hcs]; simp [chain, finish, bankFall]
    · exact ⟨l, (hidc l).2 rfl⟩
    · simpa [chain] using hrw
    · intro _ k hk
      obtain rfl := (hidc k).1 hk
      simp [chain]
    · intro hs
      simp [chain] at hs

/-- What a falling ready edge does in a state of the invariant. -/
theorem fall_cases (h : Inv cfg s) (hready : s.readyCache i = true) (hf : fsmNeg (bankFall s i) i = some t) :
    Busy s i ∧
    ((s.pendingReq i = true ∧
      ∃ l, chainPick (finish (bankFall s i) i) i = some l ∧ t = chain (finish (bankFall s i) i) i l) ∨
    (s.pendingReq i = false ∧ t = release (finish (bankFall s i) i) i)) := by
  have hc : s.cs i ≠ .idle := by
    intro hc
    rw [(h.idle i hc).ready] at hready
    cases hready
  have hB := h.busy i hc
  have hcu : (bankFall s i).cs i = .readNeg := hB.ready.1 hready
  have hpu : (finish (bankFall s i) i).pendingReq i = s.pendingReq i := rfl
  refine ⟨hB, ?_⟩
  simp only [fsmNeg, hcu, hpu] at hf
  split at hf
  · rename_i hp
    simp only [Option.map_eq_some_iff] at hf
    obtain ⟨l, hl, rfl⟩ := hf
    exact Or.inl ⟨hp, l, hl, rfl⟩
  · rename_i hp
    cases hf
    exact Or.inr ⟨by simpa using hp, rfl⟩

/-- What an action can be, its guard included. -/
theorem step_cases {a : Action n m} (hs : step cfg s a = some t) :
    (a = .clock ∧ t = idleWake s (arbiter cfg s)) ∨
    (∃ k p, a = .raise k p ∧ s.requestCore k = false ∧ validFetch cfg p = true ∧ t = raiseRequest s k p) ∨
    (∃ i d p, a = .rise i d ∧ s.requestCache i = true ∧ s.readyCache i = false ∧
      handleRequest cfg (s.pinoutCache i) d = some p ∧ t = fsmPos (bankRise s i p) i) ∨
    (∃ i, a = .fall i ∧ s.readyCache i = true ∧ s.seen i = true ∧ fsmNeg (bankFall s i) i = some t) := by
  cases a with
  | clock => exact Or.inl ⟨rfl, by simpa [step] using hs.symm⟩
  | raise k p =>
    simp only [step] at hs
    split at hs
    · rename_i hg
      simp only [Bool.and_eq_true, Bool.not_eq_true'] at hg
      exact Or.inr (Or.inl ⟨k, p, rfl, hg.1, hg.2, by simpa using hs.symm⟩)
    · cases hs
  | rise i d =>
    simp only [step] at hs
    split at hs
    · rename_i hg
      simp only [Bool.and_eq_true, Bool.not_eq_true'] at hg
      simp only [Option.map_eq_some_iff] at hs
      obtain ⟨p, hb, rfl⟩ := hs
      exact Or.inr (Or.inr (Or.inl ⟨i, d, p, rfl, hg.1, hg.2, hb, rfl⟩))
    · cases hs
  | fall i =>
    simp only [step] at hs
    split at hs
    · rename_i hg
      simp only [Bool.and_eq_true] at hg
      exact Or.inr (Or.inr (Or.inr ⟨i, rfl, hg.1, hg.2, hs⟩))
    · cases hs

/-- **Every action that meets `JoinsOwn` keeps the invariant.** -/
theorem step_inv {a : Action n m} (h : Inv cfg s) (hJ : JoinsOwn cfg s a) (hs : step cfg s a = some t) :
    Inv cfg t := by
  obtain ⟨rfl, rfl⟩ | ⟨k, p, rfl, hk, hp, rfl⟩ | ⟨i, d, p, rfl, hreq, hready, hb, rfl⟩ |
      ⟨i, rfl, hready, hseen, hf⟩ :=
    step_cases hs
  · exact clock_inv h hJ
  · exact raise_inv h hk hp
  · exact rise_inv h hreq hready hb
  · obtain ⟨hB, ⟨hp, l, hl, rfl⟩ | ⟨hp, rfl⟩⟩ := fall_cases h hready hf
    · exact chain_inv h hB hseen hp hl
    · exact release_inv h hp

/-! ## What a fetch returns -/

/-- A core that asks keeps its address and width on its pinout, and whenever a ready line is high, its core
has asked and finds on its pinout the content of the address that it asked for. -/
def Delivers (cfg : Config) (s t : State n m) : Prop :=
  ∀ k, (s.requestCore k = true → (t.pinoutCore k).address = (s.pinoutCore k).address ∧
      (t.pinoutCore k).bw = (s.pinoutCore k).bw) ∧
    (t.readyCore k = true → s.requestCore k = true ∧
      cfg.holds (s.pinoutCore k).address (s.pinoutCore k).bw (t.pinoutCore k).data = true)

/-- A step that raises no ready line and changes no pinout of a core that asks. -/
theorem delivers_of_same (h : Inv cfg s) (hpin : ∀ k, s.requestCore k = true → t.pinoutCore k = s.pinoutCore k)
    (hready : ∀ k, t.readyCore k = true → s.readyCore k = true) : Delivers cfg s t := by
  intro k
  refine ⟨fun hk => ?_, fun hk => ?_⟩
  · rw [hpin k hk]
    exact ⟨rfl, rfl⟩
  · obtain ⟨hr, hd, -⟩ := h.answered k (hready k hk)
    rw [hpin k hr]
    exact ⟨hr, hd⟩

theorem step_delivers {a : Action n m} (h : Inv cfg s) (hJ : JoinsOwn cfg s a) (hs : step cfg s a = some t) :
    Delivers cfg s t := by
  have ht := step_inv h hJ hs
  obtain ⟨rfl, rfl⟩ | ⟨l, p, rfl, hl, -, rfl⟩ | ⟨i, d, p, rfl, hreq, hready, hb, rfl⟩ | ⟨i, rfl, hready, hseen, hf⟩ :=
    step_cases hs
  · exact delivers_of_same h (fun _ _ => rfl) fun _ hk => hk
  · refine delivers_of_same h (fun k hk => ?_) fun _ hk => hk
    have hkl : k ≠ l := by
      rintro rfl
      rw [hk] at hl
      cases hl
    simp [raiseRequest, hkl]
  · obtain ⟨hc, hB⟩ := rise_readPos h hreq hready
    intro k
    have hpin := rise_pinout hB hc hb k
    refine ⟨fun _ => hpin, fun hk => ?_⟩
    obtain ⟨hr, hd, -⟩ := ht.answered k hk
    rw [hpin.1, hpin.2] at hd
    rw [fsmPos_eq hc] at hr
    exact ⟨hr, hd⟩
  · refine delivers_of_same h (fun k _ => ?_) fun k hk => ?_
    · obtain ⟨-, ⟨-, l, -, rfl⟩ | ⟨-, rfl⟩⟩ := fall_cases h hready hf
      · rfl
      · rfl
    · obtain ⟨-, ⟨-, l, -, rfl⟩ | ⟨-, rfl⟩⟩ := fall_cases h hready hf
      · simp only [chain, finish, bankFall, Bool.and_eq_true] at hk
        exact hk.2
      · simp only [release, finish, bankFall, Bool.and_eq_true] at hk
        exact hk.2

/-- **A fetch returns its own content** in every run in which no core joins an access that is not its own. -/
theorem delivers_of_joinsOwn (cfg : Config) (as : List (Action n m))
    (hJ : Trans.Along (step cfg) (JoinsOwn cfg) (init : State n m) as) :
    Trans.Along (step cfg) (fun s a => ∀ t, step cfg s a = some t → Delivers cfg s t) (init : State n m) as :=
  Trans.Along.of_inv (Inv cfg) hJ init_inv (fun _ _ _ hI hj hs => step_inv hI hj hs)
    fun _ _ hI hj _ hs => step_delivers hI hj hs

/-! ## Runs on one bank -/

/-- A cache whose words are their own addresses. -/
def identity : Config := ⟨0, .roundRobin, fun a _ d => d == UInt32.ofNat a⟩

def core0 : Fin 2 := (Fin.last 0).castSucc

def core1 : Fin 2 := Fin.last 1

def bank0 : Fin 1 := Fin.last 0

def fetch (a : Nat) : Pinout := { address := a, burst := 1 }

/-- Both cores fetch one address and are answered together, then core 1 fetches address 0. -/
def fetchShared : List (Action 2 1) :=
  [.raise core0 (fetch 0x40), .raise core1 (fetch 0x40), .clock, .rise bank0 0x40, .clock, .fall bank0,
    .raise core1 (fetch 0), .clock, .rise bank0 0]

theorem delivers_fetchShared : Trans.Along (step identity)
    (fun s a => ∀ t, step identity s a = some t → Delivers identity s t) init fetchShared :=
  delivers_of_joinsOwn identity fetchShared (by decide +kernel)

/-- Core 1 fetches address 0 while the bank is busy with the fetch of core 0. -/
def fetchReset : List (Action 2 1) :=
  [.raise core0 (fetch 0x40), .clock, .raise core1 (fetch 0), .clock]

/-- **The default address**: core 1 gets the content of the address that core 0 asked for. -/
theorem not_delivers_fetchReset : ¬ Trans.Along (step identity)
    (fun s a => ∀ t, step identity s a = some t → Delivers identity s t) init (fetchReset ++ [.rise bank0 0x40]) := by
  intro h
  have hsome : (Trans.run (step identity) init fetchReset).isSome = true := by decide +kernel
  obtain ⟨s, hs⟩ := Option.isSome_iff_exists.1 hsome
  have hlast := (Trans.along_append hs h).2.1
  have hview : (Trans.run (step identity) init fetchReset).bind (fun s => (step identity s (.rise bank0 0x40)).map
      fun t => (s.pinoutCore core1, t.readyCore core1, (t.pinoutCore core1).data)) =
      some (fetch 0, true, 0x40) := by decide +kernel
  rw [hs, Option.bind_some, Option.map_eq_some_iff] at hview
  obtain ⟨t, ht, hview⟩ := hview
  simp only [Prod.mk.injEq] at hview
  obtain ⟨hpin, hhigh, hdata⟩ := hview
  have hown := ((hlast t ht core1).2 hhigh).2
  rw [hpin, hdata] at hown
  exact absurd hown (by decide)

end VirtualSoc.SharedI
