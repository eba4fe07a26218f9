import VirtualSoc.Cluster.Lic

/-!
# The invariant of the local interconnect (cluster/cl_lic.cpp)

What holds between the actions of `Lic.step`: the request table holds only raised requests of
its own bank, `idc_fsm` is a part of it, `served` is exactly membership in some `idc_fsm` row,
and each fsm is either at rest with an empty row (`Idle`) or serves the cores of its row, all
of which asked for the address on its pinout (`Busy`).

* `step_inv`, `run_inv`: every reachable state has it;
* `grant_of_busy`, `multicast_spec`: what the arbiter can do in such a state.
-/

namespace VirtualSoc.Lic

variable {n m : Nat} {cfg : Config} {s t : State n m} {i j : Fin m} {k : Fin n}

/-- The fsm waits for the end of a ready pulse. -/
def CtrlState.atNeg : CtrlState → Bool
  | .readNeg | .writeNeg | .tasNeg _ | .tasNeg2 => true
  | .idle | .readPos | .writePos | .tasPos | .tasPos2 _ => false

/-- A bank at rest. -/
structure Idle (s : State n m) (i : Fin m) : Prop where
  busy : s.busyFsm i = false
  go : s.goFsm i = false
  request : s.requestSlave i = false
  ready : s.readySlave i = false
  row : ∀ k, s.idcFsm i k = false

/-- What the control state says about the pinout of the bank and of its group. -/
def Mode (s : State n m) (i : Fin m) : Prop :=
  match s.cs i with
  | .readPos | .tasPos => (s.pinoutSlave i).rw = false ∧ ∀ k, s.idcFsm i k = true → (s.pinoutCore k).rw = false
  | .writePos => (s.pinoutSlave i).rw = true ∧ ∀ k, s.idcFsm i k = true → s.pinoutCore k = s.pinoutSlave i
  | .tasPos2 _ => (s.pinoutSlave i).rw = true ∧ (s.pinoutSlave i).data = 1
  | _ => True

/-- A bank that serves the group in its row of `idc_fsm`. -/
structure Busy (s : State n m) (i : Fin m) : Prop where
  busy : s.busyFsm i = true
  go : s.goFsm i = true
  request : s.requestSlave i = true
  ready : s.readySlave i = (s.cs i).atNeg
  row : ∃ k, s.idcFsm i k = true
  addr : ∀ k, s.idcFsm i k = true → (s.pinoutCore k).address = (s.pinoutSlave i).address
  pending : s.seen i = true → s.pendingReq i = true → ∃ k, s.reqTable i k = true ∧ s.idcFsm i k = false
  mode : Mode s i

/-- The bank that the request of a core goes to. -/
def route (s : State n m) (k : Fin n) (i : Fin m) : Prop := getTcdmBankId m (s.pinoutCore k).address = i

/-- The requests are sampled, and the request table, `idc_fsm` and `served` fit together. -/
structure Tables (s : State n m) : Prop where
  req : ∀ k, s.req k = s.requestCore k
  poll : ∀ k, s.requestCore k = false → s.poll k = .waitRequest
  demux : ∀ k, s.requestCore k = true → demuxIsInTcdmSpace (s.pinoutCore k).address = true
  books : Crossbar.Books (route s) s.req s.served s.reqTable s.idcFsm

structure Inv (s : State n m) : Prop extends Tables s where
  idle : ∀ i, s.cs i = .idle → Idle s i
  busy : ∀ i, s.cs i ≠ .idle → Busy s i

theorem route_inj (s : State n m) (k : Fin n) (i j : Fin m) (hi : route s k i) (hj : route s k j) : i = j :=
  Fin.ext (Eq.trans (Eq.symm hi) hj)

theorem Tables.table (h : Tables s) (i : Fin m) (k : Fin n) (hk : s.reqTable i k = true) :
    s.requestCore k = true ∧ getTcdmBankId m (s.pinoutCore k).address = i := by
  rw [← h.req]; exact h.books.table i k hk

theorem Tables.idc (h : Tables s) : ∀ i k, s.idcFsm i k = true → s.reqTable i k = true ∧ s.served k = true :=
  h.books.grp

theorem Tables.served (h : Tables s) : ∀ k, s.served k = true → ∃ i, s.idcFsm i k = true := h.books.served

theorem init_inv (mem : Fin m → MemClass) : Inv (init mem : State n m) := by
  refine ⟨?_, ?_, ?_⟩
  · exact ⟨by simp [init], by simp [init], by simp [init], route_inj _, by simp [init], by simp [init],
      by simp [init]⟩
  · exact fun _ _ => ⟨rfl, rfl, rfl, rfl, fun _ => rfl⟩
  · exact fun _ hc => absurd rfl hc

/-- A core is answered by one bank only: the one its address maps to. -/
theorem Tables.idc_inj (h : Tables s) (hi : s.idcFsm i k = true) (hj : s.idcFsm j k = true) : i = j :=
  h.books.grp_inj hi hj

theorem Inv.not_idle (h : Inv s) (hi : s.idcFsm i k = true) : s.cs i ≠ .idle := by
  intro hc
  have := (h.idle i hc).row k
  simp [hi] at this

/-! ## The arbiter in a state of the invariant -/

theorem Inv.addr_ne_zero (h : Inv s) (hr : s.req k = true) : (s.pinoutCore k).address ≠ 0 := by
  have := demux_iff.1 (h.demux k (by rw [← h.req]; exact hr))
  omega

theorem Inv.rowPinout_ne_zero (h : Inv s) : (rowPinout s k).address ≠ 0 := by
  unfold rowPinout
  split
  · rename_i hr
    simp only [Bool.and_eq_true] at hr
    exact h.addr_ne_zero hr.1
  · simp

/-- A busy bank grants nothing and takes no companion: no address is the default `0`. -/
theorem grant_of_busy (h : s.busyFsm i = true) : grant cfg s i = none := by simp [grant, h]

theorem multicast_of_busy (h : Inv s) (hb : s.busyFsm i = true) : multicast cfg s i k = false := by
  simp [multicast, hp, grant_of_busy hb, h.rowPinout_ne_zero]

theorem tableAfter_spec (h : Inv s) (ht : tableAfter s i k = true) :
    s.requestCore k = true ∧ getTcdmBankId m (s.pinoutCore k).address = i := by
  simp only [tableAfter, requests, Bool.or_eq_true, Bool.and_eq_true, beq_iff_eq] at ht
  rcases ht with ht | ⟨⟨hr, -⟩, ha⟩
  · exact h.table i k ht
  · exact ⟨by rw [← h.req]; exact hr, ha⟩

/-- Whoever is in the table of a bank at rest has not been served. -/
theorem tableAfter_idle (h : Inv s) (hc : s.cs i = .idle) (ht : tableAfter s i k = true) :
    s.req k = true ∧ s.served k = false ∧ rowPinout s k = s.pinoutCore k := by
  obtain ⟨hr, ha⟩ := tableAfter_spec h ht
  have hs : s.served k = false := h.books.not_served ha ((h.idle i hc).row k)
  refine ⟨by rw [h.req]; exact hr, hs, ?_⟩
  simp [rowPinout, h.req, hr, hs]

theorem grant_spec (hg : grant cfg s i = some k) : s.busyFsm i = false ∧ tableAfter s i k = true := by
  unfold grant at hg
  split at hg
  · cases hg
  · rename_i hb
    exact ⟨by simpa using hb, Crossbar.Sched.pick_some hg⟩

theorem grant_none (hb : s.busyFsm i = false) : grant cfg s i = none ↔ ∀ k, tableAfter s i k = false := by
  simp only [grant, hb, Bool.false_eq_true, if_false]
  exact Crossbar.Sched.pick_none

/-- A companion reads, with the winner of its bank, the address the winner asked for. -/
theorem multicast_spec (h : Inv s) (hm : multicast cfg s i k = true) :
    ∃ g, grant cfg s i = some g ∧ g ≠ k ∧ tableAfter s i k = true ∧
      (rowPinout s k).address = (rowPinout s g).address ∧ (rowPinout s k).rw = false ∧
      (rowPinout s g).rw = false := by
  simp only [multicast, hp, Bool.and_eq_true, beq_iff_eq, Bool.not_eq_true', bne_iff_ne] at hm
  obtain ⟨⟨⟨⟨⟨ht, ha⟩, hrw⟩, hr⟩, hne⟩, -⟩ := hm
  cases hg : grant cfg s i with
  | none =>
    rw [hg] at ha
    exact absurd ha h.rowPinout_ne_zero
  | some g =>
    rw [hg] at ha hrw hne
    have hrw : (rowPinout s k).rw = (rowPinout s g).rw := hrw
    refine ⟨g, rfl, fun he => hne (by rw [he]), ht, ha, hr, ?_⟩
    rw [← hrw]; exact hr

theorem idcAfter_of_busy (h : Inv s) (hb : s.busyFsm i = true) : idcAfter cfg s i k = s.idcFsm i k := by
  simp [idcAfter, grant_of_busy hb, multicast_of_busy h hb]

/-- The group of a bank that was at rest: the winner and its companions. -/
theorem idcAfter_idle (h : Inv s) (hc : s.cs i = .idle) (hk : idcAfter cfg s i k = true) :
    ∃ g, grant cfg s i = some g ∧ tableAfter s i k = true ∧ s.served k = false ∧
      (s.pinoutCore k).address = (s.pinoutCore g).address ∧
      (k = g ∨ (s.pinoutCore k).rw = false ∧ (s.pinoutCore g).rw = false) := by
  simp only [idcAfter, (h.idle i hc).row k, Bool.false_or, Bool.or_eq_true, beq_iff_eq] at hk
  rcases hk with hg | hm
  · have ht := (grant_spec hg).2
    exact ⟨k, hg, ht, (tableAfter_idle h hc ht).2.1, rfl, Or.inl rfl⟩
  · obtain ⟨g, hg, -, ht, ha, hr, hr'⟩ := multicast_spec h hm
    obtain ⟨-, hs, hp⟩ := tableAfter_idle h hc ht
    have hpg := (tableAfter_idle h hc (grant_spec hg).2).2.2
    rw [hp, hpg] at ha
    rw [hp] at hr
    rw [hpg] at hr'
    exact ⟨g, hg, ht, hs, ha, Or.inr ⟨hr, hr'⟩⟩

theorem idcAfter_spec (h : Inv s) (hk : idcAfter cfg s i k = true) :
    tableAfter s i k = true ∧ servedAfter cfg s k = true := by
  have hserved : servedAfter cfg s k = true := by
    simp only [idcAfter, Bool.or_eq_true, beq_iff_eq] at hk
    simp only [servedAfter, Bool.or_eq_true, beq_iff_eq, decide_eq_true_eq]
    rcases hk with (hk | hk) | hk
    · exact Or.inl (h.idc i k hk).2
    · exact Or.inr ⟨i, Or.inl hk⟩
    · exact Or.inr ⟨i, Or.inr hk⟩
  refine ⟨?_, hserved⟩
  by_cases hc : s.cs i = .idle
  · exact (idcAfter_idle h hc hk).choose_spec.2.1
  · rw [idcAfter_of_busy h (h.busy i hc).busy] at hk
    simp [tableAfter, (h.idc i k hk).1]

/-- A bank is woken exactly when it is at rest and somebody asks for it. -/
theorem wakes_iff (h : Inv s) :
    wakes s (arbiter cfg s) i = true ↔ s.cs i = .idle ∧ ∃ k, tableAfter s i k = true := by
  simp only [wakes, arbiter, requested, Bool.and_eq_true, Bool.not_eq_true', beq_iff_eq, decide_eq_true_eq]
  constructor
  · rintro ⟨⟨-, hk⟩, hc⟩
    exact ⟨hc, hk⟩
  · rintro ⟨hc, hk⟩
    exact ⟨⟨(h.idle i hc).go, hk⟩, hc⟩

/-- What is busy is not woken. -/
theorem wakes_of_busy (h : Inv s) (hs : s.cs i ≠ .idle) : wakes s (arbiter cfg s) i = false := by
  by_contra hw
  exact hs ((wakes_iff h).1 (by simpa using hw)).1

/-- Nobody asks for a bank that sleeps on. -/
theorem row_of_asleep (h : Inv s) (hs : s.cs i = .idle) (hw : wakes s (arbiter cfg s) i = false) (k : Fin n) :
    tableAfter s i k = false := by
  by_contra hk
  have hk' : wakes s (arbiter cfg s) i = true := (wakes_iff h).2 ⟨hs, k, by simpa using hk⟩
  rw [hw] at hk'
  cases hk'

/-- What a woken bank puts on its pinout: the request of a core of its group. -/
theorem leaderPinout_spec (h : Inv s) (hw : wakes s (arbiter cfg s) i = true) :
    ∃ g k, grant cfg s i = some g ∧ idcAfter cfg s i k = true ∧
      leaderPinout (arbiter cfg s) i = s.pinoutCore k ∧
      (s.pinoutCore k).address = (s.pinoutCore g).address ∧ (k = g ∨ (s.pinoutCore k).rw = false) := by
  obtain ⟨hc, k, hk⟩ := (wakes_iff h).1 hw
  have hb := (h.idle i hc).busy
  cases hg : grant cfg s i with
  | none => rw [grant_none hb] at hg; simp [hg k] at hk
  | some g =>
    have hidc : idcAfter cfg s i g = true := by simp [idcAfter, hg]
    unfold leaderPinout
    split
    · rename_i l hl
      have hl' : idcAfter cfg s i l = true := Scan.first_some hl
      obtain ⟨g', hg', -, -, ha, hr⟩ := idcAfter_idle h hc hl'
      rw [hg] at hg'
      cases hg'
      exact ⟨g, l, rfl, hl', rfl, ha, hr.imp_right And.left⟩
    · rename_i hl
      have := Scan.first_none.1 hl g
      simp only [arbiter] at this
      simp [hidc] at this

/-! ## The clock -/

theorem cs_idleWake_of_not (hw : wakes s t i = false) : (idleWake s t).cs i = t.cs i := by
  simp [idleWake, hw]

theorem pinoutSlave_idleWake_of_not (hw : wakes s t i = false) :
    (idleWake s t).pinoutSlave i = t.pinoutSlave i := by
  simp [idleWake, hw]

/-- The state a woken fsm goes to. -/
theorem cs_idleWake_of_wakes (hw : wakes s t i = true) : (idleWake s t).cs i =
    if (leaderPinout t i).rw then .writePos else if t.isTestAndSet i then .tasPos else .readPos := by
  simp [idleWake, hw]

theorem clock_idle (h : Inv s) (hc : (idleWake s (arbiter cfg s)).cs i = .idle) :
    Idle (idleWake s (arbiter cfg s)) i := by
  have hw : wakes s (arbiter cfg s) i = false := by
    by_contra hw
    rw [cs_idleWake_of_wakes (by simpa using hw)] at hc
    split at hc
    · cases hc
    · split at hc <;> cases hc
  have hs : s.cs i = .idle := by rw [cs_idleWake_of_not hw] at hc; exact hc
  have hI := h.idle i hs
  -- nobody asks, so there is nothing to lock and nobody to grant
  have hno := row_of_asleep h hs hw
  constructor
  · simp [idleWake, arbiter, requested, hI.busy, hno]
  · simp [idleWake, arbiter, requested, hno]
  · simp only [idleWake, hw, Bool.false_or]; exact hI.request
  · exact hI.ready
  · intro k
    by_contra hk
    have hidc : idcAfter cfg s i k = true := by rw [Bool.not_eq_false] at hk; exact hk
    have := (idcAfter_spec h hidc).1
    rw [hno k] at this
    cases this

/-- A bank that was busy stays with its group. -/
theorem clock_busy_keep (h : Inv s) (hs : s.cs i ≠ .idle) : Busy (idleWake s (arbiter cfg s)) i := by
  have hB := h.busy i hs
  have hw : wakes s (arbiter cfg s) i = false := wakes_of_busy h hs
  have hidc : ∀ k, (idleWake s (arbiter cfg s)).idcFsm i k = s.idcFsm i k :=
    fun k => idcAfter_of_busy h hB.busy
  have hcs : (idleWake s (arbiter cfg s)).cs i = s.cs i := cs_idleWake_of_not hw
  have hps : (idleWake s (arbiter cfg s)).pinoutSlave i = s.pinoutSlave i :=
    pinoutSlave_idleWake_of_not hw
  constructor
  · simp [idleWake, arbiter, hB.busy]
  · obtain ⟨k, hk⟩ := hB.row
    simp only [idleWake, arbiter, requested, decide_eq_true_eq]
    exact ⟨k, by simp [tableAfter, (h.idc i k hk).1]⟩
  · simp [idleWake, arbiter, hB.request]
  · rw [hcs]; exact hB.ready
  · obtain ⟨k, hk⟩ := hB.row
    exact ⟨k, by rw [hidc]; exact hk⟩
  · intro k hk
    rw [hidc] at hk
    rw [hps]; exact hB.addr k hk
  · intro _ hp
    simp only [idleWake, arbiter, queued, decide_eq_true_eq, Bool.and_eq_true, Bool.not_eq_true'] at hp
    obtain ⟨k, ⟨ht, hs'⟩, -⟩ := hp
    refine ⟨k, ht, ?_⟩
    rw [hidc]
    by_contra hk
    rw [(h.idc i k (by simpa using hk)).2] at hs'
    cases hs'
  · have hm := hB.mode
    unfold Mode at hm ⊢
    rw [hcs, hps]
    simp only [hidc]
    exact hm

/-- A bank that leaves `IDLE` serves the winner of this edge and its companions. -/
theorem clock_busy_wake (h : Inv s) (hw : wakes s (arbiter cfg s) i = true) :
    Busy (idleWake s (arbiter cfg s)) i := by
  obtain ⟨hc, k, hk⟩ := (wakes_iff h).1 hw
  obtain ⟨g, l, hg, hl, hlead, hal, hrl⟩ := leaderPinout_spec h hw
  have hps : (idleWake s (arbiter cfg s)).pinoutSlave i = s.pinoutCore l := by simp [idleWake, hw, hlead]
  have hcs := cs_idleWake_of_wakes hw
  rw [hlead] at hcs
  have hreq : requested s i = true := by simp only [requested, decide_eq_true_eq]; exact ⟨k, hk⟩
  constructor
  · simp [idleWake, arbiter, hreq]
  · exact hreq
  · simp [idleWake, hw]
  · have hr : (idleWake s (arbiter cfg s)).readySlave i = false := (h.idle i hc).ready
    rw [hr, hcs]
    split
    · rfl
    · split <;> rfl
  · exact ⟨l, hl⟩
  · intro k' hk'
    obtain ⟨g', hg', -, -, ha, -⟩ := idcAfter_idle h hc hk'
    rw [hg] at hg'
    cases hg'
    rw [hps, hal]
    exact ha
  · intro hseen
    simp [idleWake, hw] at hseen
  · -- a read has only readers in its group, a write is alone
    unfold Mode
    rw [hcs, hps]
    by_cases hrw : (s.pinoutCore l).rw = true
    · simp only [hrw, if_true, true_and]
      have hlg : l = g := hrl.resolve_right (by simp [hrw])
      intro k' hk'
      obtain ⟨g', hg', -, -, -, hor⟩ := idcAfter_idle h hc hk'
      rw [hg] at hg'
      cases hg'
      rcases hor with rfl | ⟨-, hgr⟩
      · rw [hlg]; rfl
      · rw [← hlg, hrw] at hgr
        cases hgr
    · have hread : ∀ k', idcAfter cfg s i k' = true → (s.pinoutCore k').rw = false := by
        intro k' hk'
        obtain ⟨g', hg', -, -, -, hor⟩ := idcAfter_idle h hc hk'
        rw [hg] at hg'
        cases hg'
        have hgr : (s.pinoutCore g).rw = false := by
          obtain ⟨g'', hg'', -, -, -, hor'⟩ := idcAfter_idle h hc hl
          rw [hg] at hg''
          cases hg''
          rcases hor' with rfl | ⟨-, hgr⟩
          · simpa using hrw
          · exact hgr
        rcases hor with rfl | ⟨hr, -⟩
        · exact hgr
        · exact hr
      have hrw' : (s.pinoutCore l).rw = false := by simpa using hrw
      simp only [hrw', Bool.false_eq_true, if_false]
      cases (arbiter cfg s).isTestAndSet i <;> exact ⟨trivial, hread⟩

theorem clock_busy (h : Inv s) (hc : (idleWake s (arbiter cfg s)).cs i ≠ .idle) :
    Busy (idleWake s (arbiter cfg s)) i := by
  by_cases hw : wakes s (arbiter cfg s) i = true
  · exact clock_busy_wake h hw
  · rw [cs_idleWake_of_not (by simpa using hw)] at hc
    exact clock_busy_keep h hc

theorem clock_books (h : Inv s) :
    Crossbar.Books (route s) s.req (servedAfter cfg s) (tableAfter s) (idcAfter cfg s) := by
  refine (h.books.scan (fun i k hk => ?_) fun i k hk => ?_).grant (fun i k hk => idcAfter_spec h hk) fun k hk => ?_
  · simp [tableAfter, hk]
  · simp only [tableAfter, requests, Bool.or_eq_true, Bool.and_eq_true, beq_iff_eq] at hk
    exact hk.imp_right fun hk => ⟨hk.1.1, hk.2⟩
  · simp only [servedAfter, Bool.or_eq_true, decide_eq_true_eq] at hk
    rcases hk with hk | ⟨i, hk⟩
    · obtain ⟨i, hi⟩ := h.served k hk
      exact ⟨i, by simp [idcAfter, hi]⟩
    · exact ⟨i, by simpa [idcAfter, or_assoc] using Or.inr hk⟩

theorem clock_inv (h : Inv s) : Inv (idleWake s (arbiter cfg s)) :=
  ⟨⟨h.req, h.poll, h.demux, clock_books h⟩, fun _ hc => clock_idle h hc, fun _ hc => clock_busy h hc⟩

/-! ## The other actions -/

/-- Bank `j` and the cores it answers look the same. -/
structure SameRow (s t : State n m) (j : Fin m) : Prop where
  cs : t.cs j = s.cs j
  busy : t.busyFsm j = s.busyFsm j
  go : t.goFsm j = s.goFsm j
  request : t.requestSlave j = s.requestSlave j
  ready : t.readySlave j = s.readySlave j
  slave : t.pinoutSlave j = s.pinoutSlave j
  pending : t.pendingReq j = s.pendingReq j
  seen : t.seen j = s.seen j
  table : t.reqTable j = s.reqTable j
  idc : t.idcFsm j = s.idcFsm j
  core : ∀ k, s.idcFsm j k = true → t.pinoutCore k = s.pinoutCore k

theorem SameRow.idle (h : SameRow s t j) (hI : Idle s j) : Idle t j :=
  ⟨by rw [h.busy]; exact hI.busy, by rw [h.go]; exact hI.go, by rw [h.request]; exact hI.request,
    by rw [h.ready]; exact hI.ready, by rw [h.idc]; exact hI.row⟩

theorem SameRow.mode (h : SameRow s t j) (hm : Mode s j) : Mode t j := by
  unfold Mode at hm ⊢
  rw [h.cs, h.slave, h.idc]
  split
  · exact ⟨by simp_all, fun k hk => by rw [h.core k hk]; simp_all⟩
  · exact ⟨by simp_all, fun k hk => by rw [h.core k hk]; simp_all⟩
  · exact ⟨by simp_all, fun k hk => by rw [h.core k hk]; simp_all⟩
  · simp_all
  · trivial

theorem SameRow.toBusy (h : SameRow s t j) (hB : Busy s j) : Busy t j := by
  constructor
  · rw [h.busy]; exact hB.busy
  · rw [h.go]; exact hB.go
  · rw [h.request]; exact hB.request
  · rw [h.ready, h.cs]; exact hB.ready
  · rw [h.idc]; exact hB.row
  · intro k hk
    rw [h.idc] at hk
    rw [h.core k hk, h.slave]
    exact hB.addr k hk
  · rw [h.seen, h.pending, h.table, h.idc]; exact hB.pending
  · exact h.mode hB.mode

/-- An action of bank `i` or of a core: the other banks are as before. -/
theorem inv_of_sameRow (i : Fin m) (h : Inv s) (hT : Tables t) (hr : ∀ j, j ≠ i → SameRow s t j)
    (hidle : t.cs i = .idle → Idle t i) (hbusy : t.cs i ≠ .idle → Busy t i) : Inv t := by
  refine ⟨hT, fun j hc => ?_, fun j hc => ?_⟩
  · by_cases hj : j = i
    · subst hj; exact hidle hc
    · have hR := hr j hj
      rw [hR.cs] at hc
      exact hR.idle (h.idle j hc)
  · by_cases hj : j = i
    · subst hj; exact hbusy hc
    · have hR := hr j hj
      rw [hR.cs] at hc
      exact hR.toBusy (h.busy j hc)

theorem raise_inv {p : Pinout} (h : Inv s) (hk : s.requestCore k = false) (hp : validRequest p = true) :
    Inv (raiseRequest s k p) := by
  have hpoll := h.poll k hk
  have hd : demuxIsInTcdmSpace p.address = true := by
    simp only [validRequest, Bool.and_eq_true] at hp
    exact hp.1.1
  have hne : ∀ i l, s.reqTable i l = true → l ≠ k := by
    rintro i l hl rfl
    rw [(h.table i l hl).1] at hk
    cases hk
  have hrow : ∀ j, SameRow s (raiseRequest s k p) j := by
    intro j
    refine ⟨rfl, rfl, rfl, rfl, rfl, rfl, rfl, rfl, rfl, rfl, fun l hl => ?_⟩
    simp [raiseRequest, hne j l (h.idc j l hl).1]
  have hT : Tables (raiseRequest s k p) := by
    constructor
    · intro l
      by_cases hl : l = k
      · subst hl; simp [raiseRequest, hpoll]
      · simp [raiseRequest, hpoll, hl, h.req l]
    · intro l
      by_cases hl : l = k
      · subst hl; simp [raiseRequest]
      · simpa [raiseRequest, hl] using h.poll l
    · intro l
      by_cases hl : l = k
      · subst hl; simp [raiseRequest, hd]
      · simpa [raiseRequest, hl] using h.demux l
    · refine h.books.reroute (route_inj _) fun i l hl => ?_
      have hlk := hne i l hl
      simpa [raiseRequest, route, hpoll, hlk] using h.books.table i l hl
  exact ⟨hT, fun j hc => (hrow j).idle (h.idle j hc), fun j hc => (hrow j).toBusy (h.busy j hc)⟩

/-! ### A ready pulse begins -/

theorem bankAccess_spec {mem : MemClass} {p : Pinout} (hb : bankAccess s i = some (mem, p)) :
    p.address = (s.pinoutSlave i).address ∧ p.bw = (s.pinoutSlave i).bw ∧
      ((s.pinoutSlave i).rw = true → p = s.pinoutSlave i ∧
        (s.mem i).write (bankAddressing m p.address) p.data p.bw = some mem) ∧
      ((s.pinoutSlave i).rw = false → mem = s.mem i ∧
        (s.mem i).read (bankAddressing m p.address) p.bw = some p.data) := by
  unfold bankAccess at hb
  cases hrw : (s.pinoutSlave i).rw with
  | true =>
    simp only [hrw, if_true, Option.map_eq_some_iff, Prod.mk.injEq] at hb
    obtain ⟨mem', hw, rfl, rfl⟩ := hb
    exact ⟨rfl, rfl, fun _ => ⟨rfl, hw⟩, fun hf => by cases hf⟩
  | false =>
    simp only [hrw, Bool.false_eq_true, if_false, Option.map_eq_some_iff, Prod.mk.injEq] at hb
    obtain ⟨d, hr, rfl, rfl⟩ := hb
    exact ⟨rfl, rfl, fun hf => (by cases hf), fun _ => ⟨rfl, hr⟩⟩

/-- What a rising ready edge leaves alone. -/
structure SameBooks (s t : State n m) : Prop where
  requestCore : t.requestCore = s.requestCore
  poll : t.poll = s.poll
  req : t.req = s.req
  served : t.served = s.served
  requestSlave : t.requestSlave = s.requestSlave
  readySlave : t.readySlave = s.readySlave
  pinoutSlave : t.pinoutSlave = s.pinoutSlave
  mem : t.mem = s.mem
  seen : t.seen = s.seen
  reqTable : t.reqTable = s.reqTable
  idcFsm : t.idcFsm = s.idcFsm
  busyFsm : t.busyFsm = s.busyFsm
  goFsm : t.goFsm = s.goFsm
  pendingReq : t.pendingReq = s.pendingReq

theorem fsmPos_books (s : State n m) (i : Fin m) : SameBooks s (fsmPos s i) := by
  unfold fsmPos
  split <;> constructor <;> rfl

theorem fsmPos_cs (hj : j ≠ i) : (fsmPos s i).cs j = s.cs j := by
  unfold fsmPos
  split <;> simp [hj]

/-- The cores outside the group keep their pinout, the others get the one of the bank. -/
theorem fsmPos_pinout (s : State n m) (i : Fin m) (k : Fin n) :
    (fsmPos s i).pinoutCore k = s.pinoutCore k ∨
      s.idcFsm i k = true ∧ ((fsmPos s i).pinoutCore k).address = (s.pinoutSlave i).address ∧
        ((fsmPos s i).pinoutCore k).bw = (s.pinoutSlave i).bw := by
  have hans : ∀ p : Pinout, p.address = (s.pinoutSlave i).address → p.bw = (s.pinoutSlave i).bw →
      (answer s i p).pinoutCore k = s.pinoutCore k ∨
        s.idcFsm i k = true ∧ ((answer s i p).pinoutCore k).address = (s.pinoutSlave i).address ∧
          ((answer s i p).pinoutCore k).bw = (s.pinoutSlave i).bw := by
    intro p hp hbw
    by_cases hk : s.idcFsm i k = true
    · exact Or.inr ⟨hk, by simp [answer, hk, hp], by simp [answer, hk, hbw]⟩
    · exact Or.inl (by simp [answer, hk])
  unfold fsmPos
  split
  · exact hans _ rfl rfl
  · exact Or.inl rfl
  · exact Or.inl rfl
  · exact hans _ rfl rfl
  · exact Or.inl rfl

theorem rise_busy (h : Inv s) (hreq : s.requestSlave i = true) : s.cs i ≠ .idle ∧ Busy s i := by
  have hc : s.cs i ≠ .idle := by
    intro hc
    rw [(h.idle i hc).request] at hreq
    cases hreq
  exact ⟨hc, h.busy i hc⟩

theorem rise_inv {mem : MemClass} {p : Pinout} (h : Inv s) (hreq : s.requestSlave i = true)
    (hready : s.readySlave i = false) (hb : bankAccess s i = some (mem, p)) :
    Inv (fsmPos (bankRise s i mem p) i) := by
  obtain ⟨hc, hB⟩ := rise_busy h hreq
  obtain ⟨hpa, -, hpw, hpr⟩ := bankAccess_spec hb
  set u := bankRise s i mem p with hu
  have hbk := fsmPos_books u i
  have hsl : (fsmPos u i).pinoutSlave i = p := by rw [hbk.pinoutSlave]; simp [hu, bankRise]
  have haddr : ∀ k, ((fsmPos u i).pinoutCore k).address = (s.pinoutCore k).address := by
    intro k
    rcases fsmPos_pinout u i k with hk | ⟨hk, ha, -⟩
    · rw [hk]; rfl
    · rw [ha, hB.addr k hk]
      simp [hu, bankRise, hpa]
  have hT : Tables (fsmPos u i) := by
    constructor
    · rw [hbk.req, hbk.requestCore]; exact h.req
    · rw [hbk.poll, hbk.requestCore]; exact h.poll
    · rw [hbk.requestCore]; intro k; rw [haddr]; exact h.demux k
    · rw [hbk.req, hbk.served, hbk.reqTable, hbk.idcFsm]
      refine h.books.reroute (route_inj _) fun j k hk => ?_
      rw [route, haddr]
      exact h.books.table j k hk
  have hrow : ∀ j, j ≠ i → SameRow s (fsmPos u i) j := by
    intro j hj
    refine ⟨fsmPos_cs hj, by rw [hbk.busyFsm]; rfl, by rw [hbk.goFsm]; rfl, by rw [hbk.requestSlave]; rfl,
      ?_, ?_, by rw [hbk.pendingReq]; rfl, by rw [hbk.seen]; rfl, by rw [hbk.reqTable]; rfl,
      by rw [hbk.idcFsm]; rfl, ?_⟩
    · rw [hbk.readySlave]; simp [hu, bankRise, hj]
    · rw [hbk.pinoutSlave]; simp [hu, bankRise, hj]
    · intro k hk
      rcases fsmPos_pinout u i k with hk' | ⟨hk', -⟩
      · rw [hk']; rfl
      · exact absurd (h.idc_inj hk hk') hj
  -- the new control state of bank `i` waits for the end of the pulse
  have hneg : (s.cs i).atNeg = false := by rw [← hB.ready]; exact hready
  have hcs : ((fsmPos u i).cs i).atNeg = true ∧ Mode (fsmPos u i) i := by
    have hcu : u.cs i = s.cs i := rfl
    unfold Mode fsmPos
    cases hi : s.cs i <;> simp only [hcu, hi]
    case idle => exact absurd hi hc
    case readNeg => rw [hi] at hneg; cases hneg
    case writeNeg => rw [hi] at hneg; cases hneg
    case tasNeg => rw [hi] at hneg; cases hneg
    case tasNeg2 => rw [hi] at hneg; cases hneg
    all_goals simp [CtrlState.atNeg]
  refine inv_of_sameRow i h hT hrow (fun hi => ?_) fun _ => ?_
  · rw [hi] at hcs
    cases hcs.1
  · constructor
    · rw [hbk.busyFsm]; exact hB.busy
    · rw [hbk.goFsm]; exact hB.go
    · rw [hbk.requestSlave]; exact hB.request
    · rw [hcs.1, hbk.readySlave]; simp [hu, bankRise]
    · rw [hbk.idcFsm]; exact hB.row
    · intro k hk
      rw [hbk.idcFsm] at hk
      rw [haddr, hsl, hpa]
      exact hB.addr k hk
    · rw [hbk.seen, hbk.pendingReq, hbk.reqTable, hbk.idcFsm]; exact hB.pending
    · exact hcs.2

/-! ### A ready pulse ends -/

/-- The tables when bank `i` lets its group go. -/
theorem finish_tables (h : Tables s) : Tables (finish (bankFall s i) i) := by
  constructor
  · intro k; simp [finish, bankFall, h.req]
  · intro k hk
    by_cases hi : s.idcFsm i k = true
    · simp [finish, bankFall, hi, (h.idc i k hi).2]
    · simp only [finish, bankFall, hi, Bool.false_and, Bool.false_eq_true, if_false]
      exact h.poll k (by simpa [finish, bankFall, hi] using hk)
  · intro k hk
    simp only [finish, bankFall, Bool.and_eq_true] at hk
    exact h.demux k hk.2
  · exact h.books.finish i

theorem finish_sameRow (s : State n m) (hj : j ≠ i) : SameRow s (finish (bankFall s i) i) j := by
  constructor <;> simp [finish, bankFall, hj]

theorem release_sameRow (s : State n m) (hj : j ≠ i) : SameRow s (release s i) j := by
  constructor <;> simp [release, hj]

theorem chain_sameRow (s : State n m) (l : Fin n) (hj : j ≠ i) : SameRow s (chain s i l) j := by
  constructor <;> simp [chain, hj]

theorem SameRow.trans {v : State n m} (h1 : SameRow s t j) (h2 : SameRow t v j) : SameRow s v j where
  cs := h2.cs.trans h1.cs
  busy := h2.busy.trans h1.busy
  go := h2.go.trans h1.go
  request := h2.request.trans h1.request
  ready := h2.ready.trans h1.ready
  slave := h2.slave.trans h1.slave
  pending := h2.pending.trans h1.pending
  seen := h2.seen.trans h1.seen
  table := h2.table.trans h1.table
  idc := h2.idc.trans h1.idc
  core k hk := (h2.core k (by rw [h1.idc]; exact hk)).trans (h1.core k hk)

theorem release_inv (h : Inv s) : Inv (release (finish (bankFall s i) i) i) := by
  have hT := finish_tables (i := i) h.toTables
  refine inv_of_sameRow i h ⟨hT.req, hT.poll, hT.demux, hT.books⟩
    (fun j hj => (finish_sameRow s hj).trans (release_sameRow _ hj)) (fun _ => ?_) fun hc => ?_
  · constructor <;> simp [release, finish, bankFall]
  · simp [release] at hc

/-- The chained core is in the table of the bank and was not in the group. -/
theorem chainPick_spec (hB : Busy s i) (hseen : s.seen i = true) (hp : s.pendingReq i = true) {l : Fin n}
    (hl : chainPick (finish (bankFall s i) i) i = some l) :
    (finish (bankFall s i) i).reqTable i l = true ∧ s.reqTable i l = true ∧ s.idcFsm i l = false := by
  obtain ⟨k, hk, hki⟩ := hB.pending hseen hp
  have htab : (finish (bankFall s i) i).reqTable i l = true := by
    unfold chainPick at hl
    cases hf : Scan.firstFrom ((finish (bankFall s i) i).next i + 1) ((finish (bankFall s i) i).reqTable i) with
    | none =>
      have := Scan.firstFrom_none.1 hf k
      simp [finish, bankFall, hk, hki] at this
    | some l' =>
      rw [hf, Option.some_or] at hl
      cases hl
      exact Scan.firstFrom_some hf
  refine ⟨htab, ?_⟩
  simp only [finish, bankFall, Function.update_self, Bool.and_eq_true, Bool.not_eq_true'] at htab
  exact htab.symm

theorem chain_inv (h : Inv s) (hB : Busy s i) (hseen : s.seen i = true) (hp : s.pendingReq i = true)
    {l : Fin n} (hl : chainPick (finish (bankFall s i) i) i = some l) :
    Inv (chain (finish (bankFall s i) i) i l) := by
  obtain ⟨htab, htabs, hidcl⟩ := chainPick_spec hB hseen hp hl
  set u := finish (bankFall s i) i with hu
  have hT : Tables u := finish_tables h.toTables
  have hidc : ∀ k, (chain u i l).idcFsm i k = true ↔ k = l := by
    intro k
    by_cases hk : k = l
    · simp [chain, hk]
    · simp [chain, hk, hu, finish]
  refine inv_of_sameRow i h ⟨hT.req, hT.poll, hT.demux, hT.books.serve htab⟩
    (fun j hj => (finish_sameRow s hj).trans (chain_sameRow u l hj)) (fun hc => ?_) fun _ => ?_
  · simp only [chain, Function.update_self] at hc
    split at hc <;> cases hc
  · constructor
    · simp [chain, hu, finish, bankFall, hB.busy]
    · simp [chain, hu, finish, bankFall, hB.go]
    · simp [chain]
    · cases hrw : (u.pinoutCore l).rw <;> simp [chain, hu, finish, bankFall, CtrlState.atNeg] at hrw ⊢ <;> simp [hrw]
    · exact ⟨l, (hidc l).2 rfl⟩
    · intro k hk
      obtain rfl := (hidc k).1 hk
      simp [chain]
    · intro hs'
      simp [chain] at hs'
    · unfold Mode
      cases hrw : (u.pinoutCore l).rw
      · have hcs : (chain u i l).cs i = .readPos := by simp [chain, hrw]
        rw [hcs]
        refine ⟨by simp [chain, hrw], fun k hk => ?_⟩
        obtain rfl := (hidc k).1 hk
        exact hrw
      · have hcs : (chain u i l).cs i = .writePos := by simp [chain, hrw]
        rw [hcs]
        refine ⟨by simp [chain, hrw], fun k hk => ?_⟩
        obtain rfl := (hidc k).1 hk
        simp [chain]

/-- The second access of a test-and-set. -/
theorem tasSet_inv {old : UInt32} (h : Inv s) (hB : Busy s i) : Inv (tasSet (bankFall s i) i old) := by
  refine inv_of_sameRow i h ⟨h.req, h.poll, h.demux, h.books⟩ (fun j hj => ?_) (fun hc => ?_)
    fun _ => ?_
  · constructor <;> simp [tasSet, bankFall, hj]
  · simp [tasSet] at hc
  · refine ⟨hB.busy, hB.go, hB.request, ?_, hB.row, ?_, ?_, ?_⟩
    · simp [tasSet, bankFall, CtrlState.atNeg]
    · intro k hk
      simpa [tasSet, bankFall] using hB.addr k hk
    · simp [tasSet]
    · simp [Mode, tasSet]

/-- What a falling ready edge does in a state of the invariant. -/
theorem fall_cases (h : Inv s) (hready : s.readySlave i = true) (hf : fsmNeg (bankFall s i) i = some t) :
    Busy s i ∧
    ((s.cs i = .readNeg ∨ s.cs i = .writeNeg) ∧ s.pendingReq i = true ∧
      (∃ l, chainPick (finish (bankFall s i) i) i = some l ∧ t = chain (finish (bankFall s i) i) i l) ∨
    (s.cs i = .readNeg ∨ s.cs i = .writeNeg ∨ s.cs i = .tasNeg2) ∧ t = release (finish (bankFall s i) i) i ∨
    (∃ old, s.cs i = .tasNeg old ∧ t = tasSet (bankFall s i) i old)) := by
  have hc : s.cs i ≠ .idle := by
    intro hc
    rw [(h.idle i hc).ready] at hready
    cases hready
  have hB := h.busy i hc
  have hneg : (s.cs i).atNeg = true := by rw [← hB.ready]; exact hready
  have hcu : (bankFall s i).cs i = s.cs i := rfl
  have hpu : (finish (bankFall s i) i).pendingReq i = s.pendingReq i := rfl
  refine ⟨hB, ?_⟩
  unfold fsmNeg at hf
  rw [hcu] at hf
  cases hi : s.cs i with
  | readNeg =>
    simp only [hi, hpu] at hf
    split at hf
    · rename_i hp
      simp only [Option.map_eq_some_iff] at hf
      obtain ⟨l, hl, rfl⟩ := hf
      exact Or.inl ⟨Or.inl rfl, hp, l, hl, rfl⟩
    · cases hf
      exact Or.inr (Or.inl ⟨Or.inl rfl, rfl⟩)
  | writeNeg =>
    simp only [hi, hpu] at hf
    split at hf
    · rename_i hp
      simp only [Option.map_eq_some_iff] at hf
      obtain ⟨l, hl, rfl⟩ := hf
      exact Or.inl ⟨Or.inr rfl, hp, l, hl, rfl⟩
    · cases hf
      exact Or.inr (Or.inl ⟨Or.inr (Or.inl rfl), rfl⟩)
  | tasNeg old =>
    simp only [hi] at hf
    cases hf
    exact Or.inr (Or.inr ⟨old, rfl, rfl⟩)
  | tasNeg2 =>
    simp only [hi] at hf
    cases hf
    exact Or.inr (Or.inl ⟨Or.inr (Or.inr rfl), rfl⟩)
  | _ => rw [hi] at hneg; cases hneg

theorem fall_inv (h : Inv s) (hready : s.readySlave i = true) (hseen : s.seen i = true)
    (hf : fsmNeg (bankFall s i) i = some t) : Inv t := by
  obtain ⟨hB, ⟨-, hp, l, hl, rfl⟩ | ⟨-, rfl⟩ | ⟨old, -, rfl⟩⟩ := fall_cases h hready hf
  · exact chain_inv h hB hseen hp hl
  · exact release_inv h
  · exact tasSet_inv h hB

/-- What an action can be, its guard included. -/
theorem step_cases {a : Action n m} (hs : step cfg s a = some t) :
    (a = .clock ∧ t = idleWake s (arbiter cfg s)) ∨
    (∃ k p, a = .raise k p ∧ s.requestCore k = false ∧ validRequest p = true ∧ t = raiseRequest s k p) ∨
    (∃ i mem p, a = .rise i ∧ s.requestSlave i = true ∧ s.readySlave i = false ∧
      bankAccess s i = some (mem, p) ∧ t = fsmPos (bankRise s i mem p) i) ∨
    (∃ i, a = .fall i ∧ s.readySlave i = true ∧ s.seen i = true ∧ fsmNeg (bankFall s i) i = some t) := by
  cases a with
  | clock => exact Or.inl ⟨rfl, by simpa [step] using hs.symm⟩
  | raise k p =>
    simp only [step] at hs
    split at hs
    · rename_i hg
      simp only [Bool.and_eq_true, Bool.not_eq_true'] at hg
      exact Or.inr (Or.inl ⟨k, p, rfl, hg.1, hg.2, by simpa using hs.symm⟩)
    · cases hs
  | rise i =>
    simp only [step] at hs
    split at hs
    · rename_i hg
      simp only [Bool.and_eq_true, Bool.not_eq_true'] at hg
      simp only [Option.map_eq_some_iff] at hs
      obtain ⟨⟨mem, p⟩, hb, rfl⟩ := hs
      exact Or.inr (Or.inr (Or.inl ⟨i, mem, p, rfl, hg.1, hg.2, hb, rfl⟩))
    · cases hs
  | fall i =>
    simp only [step] at hs
    split at hs
    · rename_i hg
      simp only [Bool.and_eq_true] at hg
      exact Or.inr (Or.inr (Or.inr ⟨i, rfl, hg.1, hg.2, hs⟩))
    · cases hs

/-- **Every action keeps the invariant.** -/
theorem step_inv {a : Action n m} (h : Inv s) (hs : step cfg s a = some t) : Inv t := by
  obtain ⟨-, rfl⟩ | ⟨k, p, -, hk, hp, rfl⟩ | ⟨i, mem, p, -, hreq, hready, hb, rfl⟩ | ⟨i, -, hready, hseen, hf⟩ :=
    step_cases hs
  · exact clock_inv h
  · exact raise_inv h hk hp
  · exact rise_inv h hreq hready hb
  · exact fall_inv h hready hseen hf

theorem run_inv {mem : Fin m → MemClass} {as : List (Action n m)}
    (hr : Trans.run (step cfg) (init mem) as = some t) : Inv t :=
  Trans.run_inv Inv (fun _ _ _ h hs => step_inv h hs) (init_inv mem) hr

end VirtualSoc.Lic
