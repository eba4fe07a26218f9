import VirtualSoc.Cluster.Pic

/-!
# The invariant of the peripheral interconnect (cluster/cl_pic.cpp)

Each slave is at rest (`Idle`) or serves exactly one master (`Busy s i k`), and then the beat
counter of the fsm, the pulses the slave still owes and the pulses the master still waits for
agree. They agree only as long as the fsm's local `burst` is the burst of the request it
serves, and a chained request keeps the local of the request before it: `Guarded` asks of the
step that chains that the two bursts are equal.

* `step_inv`, `run_inv`: every state reached by guarded steps has the invariant.
-/

namespace VirtualSoc.Pic

variable {n m : Nat} {cfg : Config n} {s t : State n m} {i j : Fin m} {k l : Fin n}

/-- The fsm waits for the end of a ready pulse. -/
def CtrlState.atNeg : CtrlState n → Bool
  | .readNeg | .writeNeg _ => true
  | _ => false

/-- The slave that the request of a master goes to. -/
def route (cfg : Config n) (s : State n m) (k : Fin n) (i : Fin m) : Prop := slaveOf cfg s k = some i

theorem route_inj (cfg : Config n) (s : State n m) (k : Fin n) (i j : Fin m) (hi : route cfg s k i)
    (hj : route cfg s k j) : i = j :=
  Option.some.inj (Eq.trans (Eq.symm hi) hj)

/-- `req_polling` has sampled the request, or will at the next edge it waits for. -/
def Polled (s : State n m) (k : Fin n) : Prop :=
  match s.poll k with
  | .waitRequest => s.requestCore k = false ∧ s.req k = false
  | .waitServed => s.requestCore k = true ∧ s.req k = true
  | .waitClock => s.req k = false

/-- A slave at rest. -/
structure Idle (s : State n m) (i : Fin m) : Prop where
  busy : s.busyFsm i = false
  go : s.goFsm i = false
  request : s.requestSlave i = false
  ready : s.readySlave i = false
  owed : s.owed i = 0
  row : ∀ k, s.idcFsm i k = false

/-- A slave that serves master `k`. -/
structure Busy (s : State n m) (i : Fin m) (k : Fin n) : Prop where
  busy : s.busyFsm i = true
  go : s.goFsm i = true
  request : s.requestSlave i = true
  ready : s.readySlave i = (s.cs i).atNeg
  row : ∀ l, s.idcFsm i l = true ↔ l = k
  addr : (s.pinoutCore k).address = (s.pinoutSlave i).address
  burst : (s.pinoutCore k).burst = s.burst i
  latch : (s.pinoutSlave i).burst = s.burst i
  count : s.burstCnt i < s.burst i
  beats : s.beats k + s.burstCnt i = s.burst i
  owed : s.owed i + s.burstCnt i = s.burst i ∨ (s.cs i).atNeg = false ∧ s.owed i = 0 ∧ s.burstCnt i = 0
  core : s.readyCore k = (s.cs i).atNeg
  mode : ∀ l, s.cs i = .writeNeg l → l = k
  pending : s.seen i = true → s.pendingReq i = true → ∃ l, s.reqTable i l = true ∧ s.idcFsm i l = false

structure Masters (cfg : Config n) (s : State n m) : Prop where
  poll : ∀ k, Polled s k
  mapped : ∀ k, s.requestCore k = true → (slaveOf cfg s k).isSome = true ∧ 1 ≤ (s.pinoutCore k).burst
  fresh : ∀ k, s.requestCore k = true → s.served k = false → s.beats k = (s.pinoutCore k).burst
  quiet : ∀ k, s.served k = false → s.readyCore k = false
  books : Crossbar.Books (route cfg s) s.req s.served s.reqTable s.idcFsm

structure Inv (cfg : Config n) (s : State n m) : Prop extends Masters cfg s where
  idle : ∀ i, s.cs i = .idle → Idle s i
  busy : ∀ i, s.cs i ≠ .idle → ∃ k, Busy s i k

theorem init_inv : Inv cfg (init : State n m) := by
  refine ⟨⟨fun _ => ⟨rfl, rfl⟩, by simp [init], by simp [init], by simp [init], route_inj _ _, by simp [init],
    by simp [init], by simp [init]⟩, fun _ _ => ⟨rfl, rfl, rfl, rfl, rfl, fun _ => rfl⟩, fun _ hc => absurd rfl hc⟩

theorem Masters.requested (h : Masters cfg s) (hr : s.req k = true) :
    s.requestCore k = true ∧ s.poll k = .waitServed := by
  have hp := h.poll k
  unfold Polled at hp
  cases hk : s.poll k with
  | waitRequest => rw [hk, hr] at hp; cases hp.2
  | waitServed => rw [hk] at hp; exact ⟨hp.1, rfl⟩
  | waitClock => rw [hk, hr] at hp; cases hp

theorem Masters.table (h : Masters cfg s) (ht : s.reqTable i k = true) :
    s.requestCore k = true ∧ s.req k = true ∧ slaveOf cfg s k = some i := by
  obtain ⟨hr, ha⟩ := h.books.table i k ht
  exact ⟨(h.requested hr).1, hr, ha⟩

theorem Inv.not_idle (h : Inv cfg s) (hi : s.idcFsm i k = true) : s.cs i ≠ .idle := by
  intro hc
  have := (h.idle i hc).row k
  rw [hi] at this
  cases this

/-! ## The clock: `req_polling` -/

theorem pollClock_req_of_req (h : Masters cfg s) (who : Fin n → Bool) (hr : s.req k = true) :
    (pollClock s who).req k = true := by
  simp [pollClock, (h.requested hr).2, hr]

theorem pollClock_inv (h : Inv cfg s) (who : Fin n → Bool) : Inv cfg (pollClock s who) := by
  refine ⟨⟨fun k => ?_, h.mapped, h.fresh, h.quiet, ?_⟩, fun i hc => ?_, fun i hc => ?_⟩
  · have hp := h.poll k
    unfold Polled at hp ⊢
    cases hw : who k && s.poll k == .waitClock with
    | false =>
      simp only [pollClock, hw, Bool.false_eq_true, if_false]
      exact hp
    | true =>
      cases hr : s.requestCore k <;> simp only [pollClock, hw, hr, if_true, Bool.false_eq_true, if_false]
      · exact ⟨trivial, trivial⟩
      · exact ⟨trivial, trivial⟩
  · refine h.books.reroute (route_inj _ _) fun i k hk => ?_
    exact ⟨pollClock_req_of_req h.toMasters who (h.table hk).2.1, (h.table hk).2.2⟩
  · have hI := h.idle i hc
    exact ⟨hI.busy, hI.go, hI.request, hI.ready, hI.owed, hI.row⟩
  · obtain ⟨k, hB⟩ := h.busy i hc
    exact ⟨k, hB.busy, hB.go, hB.request, hB.ready, hB.row, hB.addr, hB.burst, hB.latch, hB.count, hB.beats,
      hB.owed, hB.core, hB.mode, hB.pending⟩

/-! ## The clock: the arbiter -/

theorem grant_of_busy (h : s.busyFsm i = true) : grant cfg s i = none := by simp [grant, h]

theorem grant_spec (hg : grant cfg s i = some k) : s.busyFsm i = false ∧ tableAfter cfg s i k = true := by
  unfold grant at hg
  split at hg
  · cases hg
  · rename_i hb
    exact ⟨by simpa using hb, Crossbar.Sched.pick_some hg⟩

theorem grant_none (hb : s.busyFsm i = false) :
    grant cfg s i = none ↔ ∀ k, tableAfter cfg s i k = false := by
  simp only [grant, hb, Bool.false_eq_true, if_false]
  exact Crossbar.Sched.pick_none

theorem tableAfter_spec (h : Masters cfg s) (ht : tableAfter cfg s i k = true) :
    s.req k = true ∧ slaveOf cfg s k = some i := by
  simp only [tableAfter, requests, Bool.or_eq_true, Bool.and_eq_true, beq_iff_eq] at ht
  rcases ht with ht | ⟨⟨hr, -⟩, ha⟩
  · exact (h.table ht).2
  · exact ⟨hr, ha⟩

theorem idcAfter_of_busy (hb : s.busyFsm i = true) : idcAfter cfg s i k = s.idcFsm i k := by
  simp [idcAfter, grant_of_busy hb]

/-- The row of a slave that was at rest holds the winner only. -/
theorem idcAfter_idle (h : Inv cfg s) (hc : s.cs i = .idle) (k : Fin n) :
    idcAfter cfg s i k = true ↔ grant cfg s i = some k := by
  simp [idcAfter, (h.idle i hc).row k]

theorem idcAfter_spec (h : Inv cfg s) (hk : idcAfter cfg s i k = true) :
    tableAfter cfg s i k = true ∧ servedAfter cfg s k = true := by
  simp only [idcAfter, Bool.or_eq_true, beq_iff_eq] at hk
  rcases hk with hk | hk
  · obtain ⟨ht, hs⟩ := h.books.grp i k hk
    exact ⟨by simp [tableAfter, ht], by simp [servedAfter, hs]⟩
  · refine ⟨(grant_spec hk).2, ?_⟩
    simp only [servedAfter, Bool.or_eq_true, beq_iff_eq, decide_eq_true_eq]
    exact Or.inr ⟨i, hk⟩

theorem arbiter_books (h : Inv cfg s) :
    Crossbar.Books (route cfg s) s.req (servedAfter cfg s) (tableAfter cfg s) (idcAfter cfg s) := by
  refine (h.books.scan (fun i k hk => ?_) fun i k hk => ?_).grant (fun i k hk => idcAfter_spec h hk) fun k hk => ?_
  · simp [tableAfter, hk]
  · simp only [tableAfter, requests, Bool.or_eq_true, Bool.and_eq_true, beq_iff_eq] at hk
    exact hk.imp_right fun hk => ⟨hk.1.1, hk.2⟩
  · simp only [servedAfter, Bool.or_eq_true, decide_eq_true_eq, beq_iff_eq] at hk
    rcases hk with hk | ⟨i, hk⟩
    · obtain ⟨i, hi⟩ := h.books.served k hk
      exact ⟨i, by simp [idcAfter, hi]⟩
    · exact ⟨i, by simp [idcAfter, hk]⟩

theorem wakes_iff (h : Inv cfg s) :
    wakes s (arbiter cfg s) i = true ↔ s.cs i = .idle ∧ ∃ k, tableAfter cfg s i k = true := by
  simp only [wakes, arbiter, requested, Bool.and_eq_true, Bool.not_eq_true', beq_iff_eq, decide_eq_true_eq]
  constructor
  · rintro ⟨⟨-, hk⟩, hc⟩
    exact ⟨hc, hk⟩
  · rintro ⟨hc, hk⟩
    exact ⟨⟨(h.idle i hc).go, hk⟩, hc⟩

/-- What is busy is not woken. -/
theorem wakes_of_busy (h : Inv cfg s) (hs : s.cs i ≠ .idle) : wakes s (arbiter cfg s) i = false := by
  by_contra hw
  exact hs ((wakes_iff h).1 (by simpa using hw)).1

/-- Nobody asks for a slave that sleeps on. -/
theorem row_of_asleep (h : Inv cfg s) (hs : s.cs i = .idle) (hw : wakes s (arbiter cfg s) i = false) (k : Fin n) :
    tableAfter cfg s i k = false := by
  by_contra hk
  have hk' : wakes s (arbiter cfg s) i = true := (wakes_iff h).2 ⟨hs, k, by simpa using hk⟩
  rw [hw] at hk'
  cases hk'

/-- A woken fsm finds the winner in its row. -/
theorem leaderPinout_spec (h : Inv cfg s) (hw : wakes s (arbiter cfg s) i = true) :
    ∃ g, grant cfg s i = some g ∧ leaderPinout (arbiter cfg s) i = s.pinoutCore g := by
  obtain ⟨hc, k, hk⟩ := (wakes_iff h).1 hw
  cases hg : grant cfg s i with
  | none =>
    rw [grant_none (h.idle i hc).busy] at hg
    rw [hg k] at hk
    cases hk
  | some g =>
    refine ⟨g, rfl, ?_⟩
    have hidc : idcAfter cfg s i g = true := (idcAfter_idle h hc g).2 hg
    unfold leaderPinout
    split
    · rename_i l hl
      have hl' := (idcAfter_idle h hc l).1 (Scan.first_some hl)
      rw [hg] at hl'
      cases hl'
      rfl
    · rename_i hl
      have := Scan.first_none.1 hl g
      simp only [arbiter] at this
      rw [hidc] at this
      cases this

theorem cs_idleWake_of_not (hw : wakes s t i = false) : (idleWake s t).cs i = t.cs i := by
  simp [idleWake, hw]

theorem wake_idle (h : Inv cfg s) (hc : (idleWake s (arbiter cfg s)).cs i = .idle) :
    Idle (idleWake s (arbiter cfg s)) i := by
  have hw : wakes s (arbiter cfg s) i = false := by
    by_contra hw
    simp only [Bool.not_eq_false] at hw
    simp only [idleWake, hw, if_true] at hc
    split at hc <;> cases hc
  have hs : s.cs i = .idle := by rw [cs_idleWake_of_not hw] at hc; exact hc
  have hI := h.idle i hs
  have hno := row_of_asleep h hs hw
  constructor
  · simp [idleWake, arbiter, requested, hI.busy, hno]
  · simp [idleWake, arbiter, requested, hno]
  · simp only [idleWake, hw, Bool.false_or]; exact hI.request
  · exact hI.ready
  · exact hI.owed
  · intro k
    by_contra hk
    have hidc : idcAfter cfg s i k = true := by rw [Bool.not_eq_false] at hk; exact hk
    have := (idcAfter_spec h hidc).1
    rw [hno k] at this
    cases this

/-- A slave that was busy goes on with its master. -/
theorem wake_busy_keep (h : Inv cfg s) (hB : Busy s i k) (hs : s.cs i ≠ .idle) :
    Busy (idleWake s (arbiter cfg s)) i k := by
  have hw : wakes s (arbiter cfg s) i = false := wakes_of_busy h hs
  have hidc : ∀ l, (idleWake s (arbiter cfg s)).idcFsm i l = s.idcFsm i l := fun l => idcAfter_of_busy hB.busy
  have hcs : (idleWake s (arbiter cfg s)).cs i = s.cs i := cs_idleWake_of_not hw
  have hps : (idleWake s (arbiter cfg s)).pinoutSlave i = s.pinoutSlave i := by simp only [idleWake, hw]; rfl
  have hbu : (idleWake s (arbiter cfg s)).burst i = s.burst i := by simp only [idleWake, hw]; rfl
  have hbc : (idleWake s (arbiter cfg s)).burstCnt i = s.burstCnt i := by simp only [idleWake, hw]; rfl
  constructor
  · simp [idleWake, arbiter, hB.busy]
  · simp only [idleWake, arbiter, requested, decide_eq_true_eq]
    exact ⟨k, by simp [tableAfter, (h.books.grp i k ((hB.row k).2 rfl)).1]⟩
  · simp [idleWake, arbiter, hB.request]
  · rw [hcs]; exact hB.ready
  · intro l; rw [hidc]; exact hB.row l
  · rw [hps]; exact hB.addr
  · rw [hbu]; exact hB.burst
  · rw [hbu, hps]; exact hB.latch
  · rw [hbu, hbc]; exact hB.count
  · rw [hbu, hbc]; exact hB.beats
  · rw [hbu, hbc, hcs]; exact hB.owed
  · rw [hcs]; exact hB.core
  · rw [hcs]; exact hB.mode
  · intro _ hp
    simp only [idleWake, arbiter, queued, decide_eq_true_eq, Bool.and_eq_true, Bool.not_eq_true'] at hp
    obtain ⟨l, ⟨ht, hs'⟩, -⟩ := hp
    refine ⟨l, ht, ?_⟩
    rw [hidc]
    by_contra hl
    rw [(h.books.grp i l (by simpa using hl)).2] at hs'
    cases hs'

/-- A slave that leaves `IDLE` serves the winner, with the winner's burst. -/
theorem wake_busy_new (h : Inv cfg s) (hw : wakes s (arbiter cfg s) i = true) :
    ∃ k, Busy (idleWake s (arbiter cfg s)) i k := by
  obtain ⟨hc, -⟩ := (wakes_iff h).1 hw
  obtain ⟨g, hg, hlead⟩ := leaderPinout_spec h hw
  have hI := h.idle i hc
  have ht := (grant_spec hg).2
  obtain ⟨hreq, hroute⟩ := tableAfter_spec h.toMasters ht
  have hcore := (h.requested hreq).1
  have hserved : s.served g = false := h.books.not_served hroute (hI.row g)
  have hps : (idleWake s (arbiter cfg s)).pinoutSlave i = s.pinoutCore g := by simp [idleWake, hw, hlead]
  have hbu : (idleWake s (arbiter cfg s)).burst i = (s.pinoutCore g).burst := by simp [idleWake, hw, hlead]
  have hbc : (idleWake s (arbiter cfg s)).burstCnt i = 0 := by simp [idleWake, hw]
  have hcs : (idleWake s (arbiter cfg s)).cs i = if (s.pinoutCore g).rw then .writePos else .readPos := by
    simp [idleWake, hw, hlead]
  have hneg : ((idleWake s (arbiter cfg s)).cs i).atNeg = false := by
    rw [hcs]; cases (s.pinoutCore g).rw <;> rfl
  have hreqd : requested cfg s i = true := by simp only [requested, decide_eq_true_eq]; exact ⟨g, ht⟩
  refine ⟨g, ?_⟩
  constructor
  · simp [idleWake, arbiter, hreqd]
  · exact hreqd
  · simp [idleWake, hw]
  · rw [hneg]; exact hI.ready
  · intro l
    refine (idcAfter_idle h hc l).trans ?_
    rw [hg, Option.some_inj]
    exact eq_comm
  · rw [hps]; rfl
  · rw [hbu]; rfl
  · rw [hbu, hps]
  · rw [hbu, hbc]; exact (h.mapped g hcore).2
  · rw [hbu, hbc]; exact h.fresh g hcore hserved
  · exact Or.inr ⟨hneg, hI.owed, hbc⟩
  · rw [hneg]; exact h.quiet g hserved
  · intro l hl
    rw [hl] at hneg
    cases hneg
  · intro hseen
    simp [idleWake, hw] at hseen

theorem wake_inv (h : Inv cfg s) : Inv cfg (idleWake s (arbiter cfg s)) := by
  have hserved : ∀ k, servedAfter cfg s k = false → s.served k = false := by
    intro k hk
    simp only [servedAfter, Bool.or_eq_false_iff] at hk
    exact hk.1
  refine ⟨⟨h.poll, h.mapped, fun k hr hs => h.fresh k hr (hserved k hs), fun k hs => h.quiet k (hserved k hs),
    arbiter_books h⟩, fun i hc => wake_idle h hc, fun i hc => ?_⟩
  by_cases hw : wakes s (arbiter cfg s) i = true
  · exact wake_busy_new h hw
  · have hcs : s.cs i ≠ .idle := by
      rw [cs_idleWake_of_not (by simpa using hw)] at hc
      exact hc
    obtain ⟨k, hB⟩ := h.busy i hcs
    exact ⟨k, wake_busy_keep h hB hcs⟩

/-- The clock edge: early threads, the arbiter and the fsms it wakes, late threads. -/
theorem clock_inv (h : Inv cfg s) (early : Fin n → Bool) :
    Inv cfg (idleWake (pollClock s early) (pollClock (arbiter cfg (pollClock s early)) fun k => !early k)) :=
  pollClock_inv (wake_inv (pollClock_inv h early)) fun k => !early k

/-! ## The masters -/

/-- Slave `j` and what counts of the master it serves look the same. -/
structure SameRow (s t : State n m) (j : Fin m) : Prop where
  cs : t.cs j = s.cs j
  busy : t.busyFsm j = s.busyFsm j
  go : t.goFsm j = s.goFsm j
  request : t.requestSlave j = s.requestSlave j
  ready : t.readySlave j = s.readySlave j
  slave : t.pinoutSlave j = s.pinoutSlave j
  owed : t.owed j = s.owed j
  seen : t.seen j = s.seen j
  burst : t.burst j = s.burst j
  burstCnt : t.burstCnt j = s.burstCnt j
  pending : t.pendingReq j = s.pendingReq j
  table : t.reqTable j = s.reqTable j
  idc : t.idcFsm j = s.idcFsm j
  core : ∀ k, s.idcFsm j k = true → (t.pinoutCore k).address = (s.pinoutCore k).address ∧
    (t.pinoutCore k).burst = (s.pinoutCore k).burst ∧ t.beats k = s.beats k ∧ t.readyCore k = s.readyCore k

theorem SameRow.idle (h : SameRow s t j) (hI : Idle s j) : Idle t j :=
  ⟨by rw [h.busy]; exact hI.busy, by rw [h.go]; exact hI.go, by rw [h.request]; exact hI.request,
    by rw [h.ready]; exact hI.ready, by rw [h.owed]; exact hI.owed, by rw [h.idc]; exact hI.row⟩

theorem SameRow.toBusy (h : SameRow s t j) (hB : Busy s j k) : Busy t j k := by
  obtain ⟨hca, hcb, hcbe, hcr⟩ := h.core k ((hB.row k).2 rfl)
  constructor
  · rw [h.busy]; exact hB.busy
  · rw [h.go]; exact hB.go
  · rw [h.request]; exact hB.request
  · rw [h.ready, h.cs]; exact hB.ready
  · rw [h.idc]; exact hB.row
  · rw [hca, h.slave]; exact hB.addr
  · rw [hcb, h.burst]; exact hB.burst
  · rw [h.slave, h.burst]; exact hB.latch
  · rw [h.burstCnt, h.burst]; exact hB.count
  · rw [hcbe, h.burstCnt, h.burst]; exact hB.beats
  · rw [h.owed, h.burstCnt, h.burst, h.cs]; exact hB.owed
  · rw [hcr, h.cs]; exact hB.core
  · rw [h.cs]; exact hB.mode
  · rw [h.seen, h.pending, h.table, h.idc]; exact hB.pending

theorem SameRow.trans {v : State n m} (h1 : SameRow s t j) (h2 : SameRow t v j) : SameRow s v j where
  cs := h2.cs.trans h1.cs
  busy := h2.busy.trans h1.busy
  go := h2.go.trans h1.go
  request := h2.request.trans h1.request
  ready := h2.ready.trans h1.ready
  slave := h2.slave.trans h1.slave
  owed := h2.owed.trans h1.owed
  seen := h2.seen.trans h1.seen
  burst := h2.burst.trans h1.burst
  burstCnt := h2.burstCnt.trans h1.burstCnt
  pending := h2.pending.trans h1.pending
  table := h2.table.trans h1.table
  idc := h2.idc.trans h1.idc
  core k hk := by
    obtain ⟨a1, a2, a3, a4⟩ := h1.core k hk
    obtain ⟨b1, b2, b3, b4⟩ := h2.core k (by rw [h1.idc]; exact hk)
    exact ⟨b1.trans a1, b2.trans a2, b3.trans a3, b4.trans a4⟩

/-- An action of slave `i`: the other slaves are as before. -/
theorem inv_of_sameRow (i : Fin m) (h : Inv cfg s) (hM : Masters cfg t) (hr : ∀ j, j ≠ i → SameRow s t j)
    (hidle : t.cs i = .idle → Idle t i) (hbusy : t.cs i ≠ .idle → ∃ k, Busy t i k) : Inv cfg t := by
  refine ⟨hM, fun j hc => ?_, fun j hc => ?_⟩
  · by_cases hj : j = i
    · subst hj; exact hidle hc
    · have hR := hr j hj
      rw [hR.cs] at hc
      exact hR.idle (h.idle j hc)
  · by_cases hj : j = i
    · subst hj; exact hbusy hc
    · have hR := hr j hj
      rw [hR.cs] at hc
      obtain ⟨k, hB⟩ := h.busy j hc
      exact ⟨k, hR.toBusy hB⟩

theorem raise_inv {p : Pinout} (h : Inv cfg s) (hk : s.requestCore k = false)
    (hp : (decode m cfg.ID k p.address).isSome = true) (hb : 1 ≤ p.burst) : Inv cfg (raiseRequest s k p) := by
  have hne : ∀ i l, s.reqTable i l = true → l ≠ k := by
    rintro i l hl rfl
    rw [(h.table hl).1] at hk
    cases hk
  have hserved : s.served k = false := by
    by_contra hs
    obtain ⟨i, hi⟩ := h.books.served k (by simpa using hs)
    exact hne i k (h.books.grp i k hi).1 rfl
  have hrow : ∀ j, SameRow s (raiseRequest s k p) j := by
    intro j
    refine ⟨rfl, rfl, rfl, rfl, rfl, rfl, rfl, rfl, rfl, rfl, rfl, rfl, rfl, fun l hl => ?_⟩
    have hlk := hne j l (h.books.grp j l hl).1
    simp [raiseRequest, hlk]
  have hroute : ∀ l, l ≠ k → slaveOf cfg (raiseRequest s k p) l = slaveOf cfg s l := by
    intro l hl
    simp [slaveOf, raiseRequest, hl]
  have hM : Masters cfg (raiseRequest s k p) := by
    refine ⟨fun l => ?_, fun l hl => ?_, fun l hl hs => ?_, h.quiet, ?_⟩
    · have hpl := h.poll l
      by_cases hlk : l = k
      · subst hlk
        unfold Polled at hpl ⊢
        cases hpk : s.poll l with
        | waitRequest => simp [raiseRequest, hpk]
        | waitServed => rw [hpk] at hpl; rw [hk] at hpl; cases hpl.1
        | waitClock => rw [hpk] at hpl; simpa [raiseRequest, hpk] using hpl
      · unfold Polled at hpl ⊢
        cases hpk : s.poll k <;> simpa [raiseRequest, hpk, hlk] using hpl
    · by_cases hlk : l = k
      · subst hlk
        simpa [slaveOf, raiseRequest] using ⟨hp, hb⟩
      · rw [hroute l hlk]
        simpa [raiseRequest, hlk] using h.mapped l (by simpa [raiseRequest, hlk] using hl)
    · by_cases hlk : l = k
      · subst hlk; simp [raiseRequest]
      · simpa [raiseRequest, hlk] using h.fresh l (by simpa [raiseRequest, hlk] using hl) hs
    · refine h.books.reroute (route_inj _ _) fun i l hl => ?_
      have hlk := hne i l hl
      obtain ⟨-, hr, ha⟩ := h.table hl
      refine ⟨?_, by rw [route, hroute l hlk]; exact ha⟩
      cases hpk : s.poll k <;> simp [raiseRequest, hpk, hlk, hr]
  refine ⟨hM, fun j hc => (hrow j).idle (h.idle j hc), fun j hc => ?_⟩
  obtain ⟨l, hB⟩ := h.busy j hc
  exact ⟨l, (hrow j).toBusy hB⟩

/-- Another data word on a pinout changes nothing that counts. -/
theorem beat_inv {d : UInt32} (h : Inv cfg s) :
    Inv cfg { s with pinoutCore := Function.update s.pinoutCore k { s.pinoutCore k with data := d } } := by
  set t : State n m := { s with pinoutCore := Function.update s.pinoutCore k { s.pinoutCore k with data := d } }
    with ht
  have hp : ∀ l, (t.pinoutCore l).address = (s.pinoutCore l).address ∧
      (t.pinoutCore l).burst = (s.pinoutCore l).burst := by
    intro l
    by_cases hl : l = k
    · subst hl; simp [ht]
    · simp [ht, hl]
  have hroute : ∀ l, slaveOf cfg t l = slaveOf cfg s l := fun l => by simp only [slaveOf, (hp l).1]
  have hrow : ∀ j, SameRow s t j := fun j =>
    ⟨rfl, rfl, rfl, rfl, rfl, rfl, rfl, rfl, rfl, rfl, rfl, rfl, rfl, fun l _ => ⟨(hp l).1, (hp l).2, rfl, rfl⟩⟩
  refine ⟨⟨h.poll, fun l hl => ?_, fun l hl hs => ?_, h.quiet, ?_⟩, fun j hc => (hrow j).idle (h.idle j hc),
    fun j hc => ?_⟩
  · rw [hroute, (hp l).2]; exact h.mapped l hl
  · rw [(hp l).2]; exact h.fresh l hl hs
  · refine h.books.reroute (route_inj _ _) fun i l hl => ⟨(h.table hl).2.1, ?_⟩
    rw [route, hroute]
    exact (h.table hl).2.2
  · obtain ⟨l, hB⟩ := h.busy j hc
    exact ⟨l, (hrow j).toBusy hB⟩

/-! ## A ready pulse begins -/

/-- Only a slave that serves somebody starts a pulse. -/
theorem rise_busy (h : Inv cfg s) (hready : s.readySlave i = false)
    (hg : s.requestSlave i = true ∨ 0 < s.owed i) :
    ∃ k, Busy s i k ∧ (s.cs i = .readPos ∨ s.cs i = .writePos) := by
  have hc : s.cs i ≠ .idle := by
    intro hc
    have hI := h.idle i hc
    rcases hg with hg | hg
    · rw [hI.request] at hg; cases hg
    · rw [hI.owed] at hg; omega
  obtain ⟨k, hB⟩ := h.busy i hc
  refine ⟨k, hB, ?_⟩
  have hneg : (s.cs i).atNeg = false := by rw [← hB.ready]; exact hready
  cases hcs : s.cs i with
  | readPos => exact Or.inl rfl
  | writePos => exact Or.inr rfl
  | idle => exact absurd hcs hc
  | _ => rw [hcs] at hneg; cases hneg

/-- The state after a pulse has begun: master `k`, and only it, sees it. -/
theorem rise_spec {d : UInt32} (hB : Busy s i k) (hc : s.cs i = .readPos ∨ s.cs i = .writePos)
    (hs : fsmPos (slaveRise s i d) i = some t) :
    ∃ (c : CtrlState n) (pc : Pinout) (ps : Pinout),
      c.atNeg = true ∧ (∀ l, c = .writeNeg l → l = k) ∧
      pc.address = (s.pinoutCore k).address ∧ pc.burst = (s.pinoutCore k).burst ∧
      ps.address = (s.pinoutCore k).address ∧ ps.burst = s.burst i ∧
      t = { slaveRise s i d with
        pinoutCore := Function.update s.pinoutCore k pc
        readyCore := Function.update s.readyCore k true
        pinoutSlave := Function.update s.pinoutSlave i ps
        cs := Function.update s.cs i c } := by
  have hrow : s.idcFsm i = fun l => decide (l = k) := by
    funext l
    rw [Bool.eq_iff_iff, hB.row l, decide_eq_true_eq]
  have hps : ∀ j, j ≠ i → (slaveRise s i d).pinoutSlave j = s.pinoutSlave j := by
    intro j hj
    cases hrw : (s.pinoutSlave i).rw <;> simp [slaveRise, hrw, hj]
  have hpa : ((slaveRise s i d).pinoutSlave i).address = (s.pinoutSlave i).address ∧
      ((slaveRise s i d).pinoutSlave i).burst = (s.pinoutSlave i).burst := by
    cases hrw : (s.pinoutSlave i).rw <;> simp [slaveRise, hrw]
  have hpsu : (slaveRise s i d).pinoutSlave =
      Function.update s.pinoutSlave i ((slaveRise s i d).pinoutSlave i) := by
    funext j
    by_cases hj : j = i
    · subst hj; simp
    · rw [hps j hj, Function.update_of_ne hj]
  rcases hc with hc | hc
  · refine ⟨.readNeg, (slaveRise s i d).pinoutSlave i, (slaveRise s i d).pinoutSlave i, rfl,
      fun l hl => (by cases hl),
      hpa.1.trans hB.addr.symm, (hpa.2.trans hB.latch).trans hB.burst.symm, hpa.1.trans hB.addr.symm,
      hpa.2.trans hB.latch, ?_⟩
    have hcs : (slaveRise s i d).cs i = .readPos := hc
    unfold fsmPos at hs
    simp only [hcs] at hs
    cases hs
    have h1 : (fun l => if (slaveRise s i d).idcFsm i l then (slaveRise s i d).pinoutSlave i
        else (slaveRise s i d).pinoutCore l) =
        Function.update s.pinoutCore k ((slaveRise s i d).pinoutSlave i) := by
      funext l
      by_cases hl : l = k
      · subst hl; simp [slaveRise, hrow]
      · simp [slaveRise, hrow, hl]
    have h2 : (fun l => (slaveRise s i d).idcFsm i l || (slaveRise s i d).readyCore l) =
        Function.update s.readyCore k true := by
      funext l
      by_cases hl : l = k
      · subst hl; simp [slaveRise, hrow]
      · simp [slaveRise, hrow, hl]
    rw [h1, h2, ← hpsu]
    rfl
  · have hcs : (slaveRise s i d).cs i = .writePos := hc
    have hfirst : Scan.first ((slaveRise s i d).idcFsm i) = some k := Scan.first_unique hB.row
    unfold fsmPos at hs
    simp only [hcs, hfirst, Option.map_some, Option.some_inj] at hs
    refine ⟨.writeNeg k, s.pinoutCore k, s.pinoutCore k, rfl, fun l hl => by cases hl; rfl, rfl, rfl, rfl,
      hB.burst, ?_⟩
    rw [← hs, Function.update_eq_self, hpsu, Function.update_idem]
    rfl

theorem rise_inv {d : UInt32} (h : Inv cfg s) (hready : s.readySlave i = false)
    (hg : s.requestSlave i = true ∨ 0 < s.owed i) (hs : fsmPos (slaveRise s i d) i = some t) : Inv cfg t := by
  obtain ⟨k, hB, hc⟩ := rise_busy h hready hg
  have hneg : (s.cs i).atNeg = false := by rw [← hB.ready]; exact hready
  obtain ⟨c, pc, ps, hcn, hcm, hpca, hpcb, hpsa, hpsb, rfl⟩ := rise_spec hB hc hs
  have hk : s.idcFsm i k = true := (hB.row k).2 rfl
  set t : State n m := { slaveRise s i d with
    pinoutCore := Function.update s.pinoutCore k pc
    readyCore := Function.update s.readyCore k true
    pinoutSlave := Function.update s.pinoutSlave i ps
    cs := Function.update s.cs i c } with ht
  have hp : ∀ l, (t.pinoutCore l).address = (s.pinoutCore l).address ∧
      (t.pinoutCore l).burst = (s.pinoutCore l).burst := by
    intro l
    by_cases hl : l = k
    · subst hl; simp [ht, hpca, hpcb]
    · simp [ht, hl]
  have hroute : ∀ l, slaveOf cfg t l = slaveOf cfg s l := fun l => by simp only [slaveOf, (hp l).1]
  have hserved : s.served k = true := (h.books.grp i k hk).2
  refine inv_of_sameRow i h ⟨h.poll, fun l hl => ?_, fun l hl hs => ?_, fun l hs => ?_, ?_⟩ (fun j hj => ?_)
    (fun hi => ?_) fun _ => ⟨k, ?_⟩
  · rw [hroute, (hp l).2]; exact h.mapped l hl
  · rw [(hp l).2]; exact h.fresh l hl hs
  · have hl : l ≠ k := by
      rintro rfl
      exact Bool.false_ne_true (hs.symm.trans hserved)
    simpa [ht, hl] using h.quiet l hs
  · refine h.books.reroute (route_inj _ _) fun j l hl => ⟨(h.table hl).2.1, ?_⟩
    rw [route, hroute]
    exact (h.table hl).2.2
  · refine ⟨?_, rfl, rfl, rfl, ?_, ?_, ?_, ?_, rfl, rfl, rfl, rfl, rfl, fun l hl => ?_⟩
    · simp [ht, hj]
    · simp [ht, slaveRise, hj]
    · simp [ht, hj]
    · simp [ht, slaveRise, hj]
    · simp [ht, slaveRise, hj]
    · have hlk : l ≠ k := by
        rintro rfl
        exact hj (h.books.grp_inj hl hk)
      exact ⟨(hp l).1, (hp l).2, rfl, by simp [ht, hlk]⟩
  · simp only [ht, Function.update_self] at hi
    rw [hi] at hcn
    cases hcn
  · constructor
    · exact hB.busy
    · exact hB.go
    · exact hB.request
    · simp [ht, slaveRise, hcn]
    · exact hB.row
    · rw [(hp k).1]; simp [ht, hpsa]
    · rw [(hp k).2]; exact hB.burst
    · rw [show t.pinoutSlave i = ps by simp [ht]]; exact hpsb
    · exact hB.count
    · exact hB.beats
    · -- a slave that owed nothing takes up the request now
      left
      have hcount := hB.count
      have hlatch := hB.latch
      have howed : t.owed i = if s.owed i = 0 then (s.pinoutSlave i).burst else s.owed i := by simp [ht, slaveRise]
      have hb : t.burst i = s.burst i := rfl
      have hbc : t.burstCnt i = s.burstCnt i := rfl
      rw [howed, hb, hbc]
      rcases hB.owed with ho | ⟨-, ho, hz⟩
      · rw [if_neg (by omega)]; exact ho
      · rw [if_pos ho, hlatch, hz, Nat.add_zero]
    · simp [ht, hcn]
    · simpa [ht] using hcm
    · intro hseen
      simp [ht, slaveRise] at hseen

/-! ## A ready pulse ends -/

/-- The masters whose ready line the fsm lowers with a pulse of slave `i`. -/
def lastGroup (s : State n m) (i : Fin m) : Fin n → Bool :=
  match s.cs i with
  | .readNeg => s.idcFsm i
  | .writeNeg k => (· == k)
  | _ => fun _ => false

/-- The condition on a step: a chained request has the burst that the fsm counts to. -/
def Guarded (s : State n m) : Action n m → Prop
  | .fall i =>
    s.burstCnt i + 1 = s.burst i → s.pendingReq i = true →
      ∀ l, chainPick (clear s i (lastGroup s i)) i = some l → (s.pinoutCore l).burst = s.burst i
  | _ => True

instance (s : State n m) : ∀ a, Decidable (Guarded s a)
  | .clock _ => inferInstanceAs (Decidable True)
  | .raise .. => inferInstanceAs (Decidable True)
  | .beat .. => inferInstanceAs (Decidable True)
  | .rise .. => inferInstanceAs (Decidable True)
  | .fall _ => inferInstanceAs (Decidable (_ → _))

/-- Slave `i` and its master `k` when the pulse is over, before the fsm goes on. -/
def pulseOver (s : State n m) (i : Fin m) (k : Fin n) : State n m := dropReady (slaveFall s i) (· == k)

/-- The same after the last pulse of the burst. -/
def burstOver (cfg : Config n) (s : State n m) (i : Fin m) (k : Fin n) : State n m :=
  statistics cfg (clear (pulseOver s i k) i (· == k)) i

theorem fall_busy (h : Inv cfg s) (hready : s.readySlave i = true) :
    ∃ k, Busy s i k ∧ (s.cs i).atNeg = true ∧ lastGroup s i = (· == k) := by
  have hc : s.cs i ≠ .idle := by
    intro hc
    rw [(h.idle i hc).ready] at hready
    cases hready
  obtain ⟨k, hB⟩ := h.busy i hc
  have hneg : (s.cs i).atNeg = true := by rw [← hB.ready]; exact hready
  refine ⟨k, hB, hneg, ?_⟩
  unfold lastGroup
  cases hcs : s.cs i with
  | readNeg =>
    funext l
    rw [Bool.eq_iff_iff, beq_iff_eq]
    exact hB.row l
  | writeNeg l => rw [hB.mode l hcs]
  | _ => rw [hcs] at hneg; cases hneg

/-- What a falling ready edge does: one more beat, a chained request, or back to `IDLE`. -/
theorem fall_cases (h : Inv cfg s) (hready : s.readySlave i = true) (hf : fsmNeg cfg (slaveFall s i) i = some t) :
    ∃ k, Busy s i k ∧ (s.cs i).atNeg = true ∧ lastGroup s i = (· == k) ∧
    (s.burstCnt i + 1 ≠ s.burst i ∧
      (∃ c, c.atNeg = false ∧ c ≠ .idle ∧ t = { pulseOver s i k with
        burstCnt := Function.update s.burstCnt i (s.burstCnt i + 1)
        cs := Function.update s.cs i c }) ∨
    s.burstCnt i + 1 = s.burst i ∧ s.pendingReq i = true ∧
      (∃ l, chainPick (burstOver cfg s i k) i = some l ∧ t = chain (burstOver cfg s i k) i l) ∨
    s.burstCnt i + 1 = s.burst i ∧ t = release (burstOver cfg s i k) i) := by
  obtain ⟨k, hB, hneg, hlast⟩ := fall_busy h hready
  refine ⟨k, hB, hneg, hlast, ?_⟩
  have hend : ∀ pos, pos.atNeg = false → pos ≠ .idle → beatEnd cfg (slaveFall s i) i (· == k) pos = some t →
      (s.burstCnt i + 1 ≠ s.burst i ∧
        (∃ c, c.atNeg = false ∧ c ≠ .idle ∧ t = { pulseOver s i k with
          burstCnt := Function.update s.burstCnt i (s.burstCnt i + 1)
          cs := Function.update s.cs i c }) ∨
      s.burstCnt i + 1 = s.burst i ∧ s.pendingReq i = true ∧
        (∃ l, chainPick (burstOver cfg s i k) i = some l ∧ t = chain (burstOver cfg s i k) i l) ∨
      s.burstCnt i + 1 = s.burst i ∧ t = release (burstOver cfg s i k) i) := by
    intro pos hpos hpi hb
    unfold beatEnd at hb
    by_cases hl : s.burstCnt i + 1 = s.burst i
    · have hl' : (slaveFall s i).burstCnt i + 1 = (slaveFall s i).burst i := hl
      simp only [hl', if_true, endBurst] at hb
      have hp : (burstOver cfg s i k).pendingReq i = s.pendingReq i := rfl
      change (if (burstOver cfg s i k).pendingReq i then
        (chainPick (burstOver cfg s i k) i).map (chain (burstOver cfg s i k) i)
        else some (release (burstOver cfg s i k) i)) = some t at hb
      rw [hp] at hb
      split at hb
      · rename_i hpend
        obtain ⟨l, hl', rfl⟩ := Option.map_eq_some_iff.1 hb
        exact Or.inr (Or.inl ⟨hl, hpend, l, hl', rfl⟩)
      · cases hb
        exact Or.inr (Or.inr ⟨hl, rfl⟩)
    · have hl' : ¬ (slaveFall s i).burstCnt i + 1 = (slaveFall s i).burst i := hl
      simp only [hl', if_false, Option.some_inj] at hb
      exact Or.inl ⟨hl, pos, hpos, hpi, hb.symm⟩
  unfold fsmNeg at hf
  have hcf : (slaveFall s i).cs i = s.cs i := rfl
  rw [hcf] at hf
  unfold lastGroup at hlast
  cases hcs : s.cs i with
  | readNeg =>
    simp only [hcs] at hf hlast
    have hidc : (slaveFall s i).idcFsm i = (· == k) := hlast
    rw [hidc] at hf
    exact hend .readPos rfl (fun hp => by cases hp) hf
  | writeNeg l =>
    simp only [hcs] at hf hlast
    rw [hlast] at hf
    exact hend .writePos rfl (fun hp => by cases hp) hf
  | _ => rw [hcs] at hneg; cases hneg

theorem pulseOver_sameRow (h : Inv cfg s) (hB : Busy s i k) (hj : j ≠ i) : SameRow s (pulseOver s i k) j := by
  refine ⟨rfl, rfl, rfl, rfl, ?_, rfl, ?_, ?_, rfl, rfl, rfl, rfl, rfl, fun l hl => ?_⟩
  · simp [pulseOver, dropReady, slaveFall, hj]
  · simp [pulseOver, dropReady, slaveFall, hj]
  · simp [pulseOver, dropReady, slaveFall, hj]
  · have hlk : l ≠ k := by
      rintro rfl
      exact hj (h.books.grp_inj hl ((hB.row l).2 rfl))
    exact ⟨rfl, rfl, by simp [pulseOver, dropReady, slaveFall, hlk], by simp [pulseOver, dropReady, slaveFall, hlk]⟩

theorem burstOver_sameRow (h : Inv cfg s) (hB : Busy s i k) (hj : j ≠ i) :
    SameRow s (burstOver cfg s i k) j := by
  refine (pulseOver_sameRow h hB hj).trans ⟨rfl, rfl, rfl, rfl, rfl, rfl, rfl, rfl, rfl, rfl, rfl, ?_, ?_,
    fun l _ => ⟨rfl, rfl, rfl, rfl⟩⟩
  · simp [burstOver, statistics, clear, hj]
  · simp [burstOver, statistics, clear, hj]

/-- The master's side in the middle of a burst. -/
theorem beat_busy (h : Inv cfg s) (hB : Busy s i k) (hneg : (s.cs i).atNeg = true)
    (hl : s.burstCnt i + 1 ≠ s.burst i) {c : CtrlState n} (hc : c.atNeg = false) (hci : c ≠ .idle) :
    Inv cfg { pulseOver s i k with
      burstCnt := Function.update s.burstCnt i (s.burstCnt i + 1)
      cs := Function.update s.cs i c } := by
  have hk : s.idcFsm i k = true := (hB.row k).2 rfl
  have hserved := (h.books.grp i k hk).2
  have hcount := hB.count
  have hbeats := hB.beats
  have hready : s.readyCore k = true := by rw [hB.core]; exact hneg
  set t : State n m := { pulseOver s i k with
    burstCnt := Function.update s.burstCnt i (s.burstCnt i + 1)
    cs := Function.update s.cs i c } with ht
  have hreq : t.requestCore = s.requestCore := by
    funext l
    by_cases hlk : l = k
    · subst hlk
      have h1 : s.beats l ≠ 1 := by omega
      simp [ht, pulseOver, dropReady, slaveFall, h1]
    · simp [ht, pulseOver, dropReady, slaveFall, hlk]
  refine inv_of_sameRow i h ⟨fun l => ?_, fun l hl => ?_, fun l hl hs => ?_, fun l hs => ?_, h.books⟩
    (fun j hj => (pulseOver_sameRow h hB hj).trans ?_) (fun hi => ?_) fun _ => ⟨k, ?_⟩
  · have hp := h.poll l
    unfold Polled at hp ⊢
    rw [hreq]
    exact hp
  · rw [hreq] at hl; exact h.mapped l hl
  · rw [hreq] at hl
    have hlk : l ≠ k := by rintro rfl; exact Bool.false_ne_true (hs.symm.trans hserved)
    simpa [ht, pulseOver, dropReady, slaveFall, hlk] using h.fresh l hl hs
  · have hlk : l ≠ k := by rintro rfl; exact Bool.false_ne_true (hs.symm.trans hserved)
    simpa [ht, pulseOver, dropReady, slaveFall, hlk] using h.quiet l hs
  · refine ⟨?_, rfl, rfl, rfl, rfl, rfl, rfl, rfl, rfl, ?_, rfl, rfl, rfl, fun l _ => ⟨rfl, rfl, rfl, rfl⟩⟩
    · exact Function.update_of_ne hj _ _
    · exact Function.update_of_ne hj _ _
  · simp only [ht, Function.update_self] at hi
    exact absurd hi hci
  · constructor
    · exact hB.busy
    · exact hB.go
    · exact hB.request
    · simp [ht, pulseOver, dropReady, slaveFall, hc]
    · exact hB.row
    · exact hB.addr
    · exact hB.burst
    · exact hB.latch
    · simp only [ht, Function.update_self]
      change s.burstCnt i + 1 < s.burst i
      omega
    · simp only [ht, Function.update_self]
      change (pulseOver s i k).beats k + (s.burstCnt i + 1) = s.burst i
      simp only [pulseOver, dropReady, slaveFall, hready, beq_self_eq_true, Bool.and_self, if_true]
      omega
    · left
      simp only [ht, Function.update_self]
      change (pulseOver s i k).owed i + (s.burstCnt i + 1) = s.burst i
      simp only [pulseOver, dropReady, slaveFall, Function.update_self]
      rcases hB.owed with ho | ⟨hf, -⟩
      · omega
      · rw [hneg] at hf; cases hf
    · simp [ht, pulseOver, dropReady, slaveFall, hc]
    · intro l hl
      simp only [ht, Function.update_self] at hl
      rw [hl] at hc
      cases hc
    · intro hseen
      simp [ht, pulseOver, dropReady, slaveFall] at hseen

/-- The masters when the burst of `k` is over: `k` has lowered its request. -/
theorem burstOver_masters (h : Inv cfg s) (hB : Busy s i k) (hneg : (s.cs i).atNeg = true)
    (hl : s.burstCnt i + 1 = s.burst i) : Masters cfg (burstOver cfg s i k) := by
  have hk : s.idcFsm i k = true := (hB.row k).2 rfl
  obtain ⟨htab, hserved⟩ := h.books.grp i k hk
  have hbeats := hB.beats
  have hready : s.readyCore k = true := by rw [hB.core]; exact hneg
  have hpoll := (h.requested (h.table htab).2.1).2
  have h1 : s.beats k = 1 := by omega
  have hother : ∀ l, l ≠ k → (burstOver cfg s i k).requestCore l = s.requestCore l ∧
      (burstOver cfg s i k).req l = s.req l ∧ (burstOver cfg s i k).served l = s.served l ∧
      (burstOver cfg s i k).poll l = s.poll l ∧ (burstOver cfg s i k).beats l = s.beats l ∧
      (burstOver cfg s i k).readyCore l = s.readyCore l := by
    intro l hlk
    simp [burstOver, statistics, clear, pulseOver, dropReady, slaveFall, hlk]
  have hgone : (burstOver cfg s i k).requestCore k = false ∧ (burstOver cfg s i k).req k = false ∧
      (burstOver cfg s i k).poll k = .waitClock ∧ (burstOver cfg s i k).readyCore k = false := by
    simp [burstOver, statistics, clear, pulseOver, dropReady, slaveFall, h1, hready, hserved, hpoll]
  refine ⟨fun l => ?_, fun l hl => ?_, fun l hl hs => ?_, fun l hs => ?_, ?_⟩
  · by_cases hlk : l = k
    · subst hlk
      unfold Polled
      rw [hgone.2.2.1]
      exact hgone.2.1
    · obtain ⟨e1, e2, -, e4, -⟩ := hother l hlk
      have hp := h.poll l
      unfold Polled at hp ⊢
      rw [e1, e2, e4]
      exact hp
  · by_cases hlk : l = k
    · subst hlk; rw [hgone.1] at hl; cases hl
    · rw [(hother l hlk).1] at hl; exact h.mapped l hl
  · by_cases hlk : l = k
    · subst hlk; rw [hgone.1] at hl; cases hl
    · obtain ⟨e1, -, e3, -, e5, -⟩ := hother l hlk
      rw [e1] at hl
      rw [e3] at hs
      rw [e5]
      exact h.fresh l hl hs
  · by_cases hlk : l = k
    · subst hlk; exact hgone.2.2.2
    · obtain ⟨-, -, e3, -, -, e6⟩ := hother l hlk
      rw [e3] at hs
      rw [e6]
      exact h.quiet l hs
  · have hrow : s.idcFsm i = (· == k) := by
      funext l
      rw [Bool.eq_iff_iff, beq_iff_eq]
      exact hB.row l
    have hf := h.books.finish i
    rw [hrow] at hf
    have hnone : (fun l => !(l == k) && s.idcFsm i l) = fun _ => false := by
      funext l
      rw [hrow]
      exact Bool.not_and_self _
    have hbooks : Crossbar.Books (route cfg s) (fun l => !(l == k) && s.req l) (fun l => !(l == k) && s.served l)
        (Function.update s.reqTable i fun l => !(l == k) && s.reqTable i l)
        (Function.update s.idcFsm i fun l => !(l == k) && s.idcFsm i l) := by
      rw [hnone]; exact hf
    exact hbooks

theorem release_inv (h : Inv cfg s) (hB : Busy s i k) (hneg : (s.cs i).atNeg = true)
    (hl : s.burstCnt i + 1 = s.burst i) : Inv cfg (release (burstOver cfg s i k) i) := by
  have hM := burstOver_masters h hB hneg hl
  refine inv_of_sameRow i h ⟨hM.poll, hM.mapped, hM.fresh, hM.quiet, hM.books⟩
    (fun j hj => (burstOver_sameRow h hB hj).trans ?_) (fun _ => ?_) fun hc => ?_
  · refine ⟨?_, ?_, ?_, ?_, rfl, rfl, rfl, rfl, rfl, rfl, rfl, rfl, rfl, fun l _ => ⟨rfl, rfl, rfl, rfl⟩⟩ <;>
      simp [release, hj]
  · constructor
    · simp [release]
    · simp [release]
    · simp [release]
    · simp [release, burstOver, statistics, clear, pulseOver, dropReady, slaveFall]
    · have howed := hB.owed
      simp only [release, burstOver, statistics, clear, pulseOver, dropReady, slaveFall, Function.update_self]
      rcases howed with ho | ⟨hf, -⟩
      · omega
      · rw [hneg] at hf; cases hf
    · intro l
      have hrow : s.idcFsm i l = (l == k) := by
        rw [Bool.eq_iff_iff, beq_iff_eq]
        exact hB.row l
      simp [release, burstOver, statistics, clear, pulseOver, dropReady, slaveFall, hrow]
  · simp [release] at hc

/-- The chained master is in the table of the slave, and it is not the one just served. -/
theorem chainPick_spec (hB : Busy s i k) (hseen : s.seen i = true) (hp : s.pendingReq i = true)
    (hl : chainPick (burstOver cfg s i k) i = some l) :
    l ≠ k ∧ s.reqTable i l = true ∧ s.idcFsm i l = false := by
  obtain ⟨q, hq, hqi⟩ := hB.pending hseen hp
  have hqk : q ≠ k := by
    rintro rfl
    rw [(hB.row q).2 rfl] at hqi
    cases hqi
  have htab : ∀ x, (burstOver cfg s i k).reqTable i x = (!(x == k) && s.reqTable i x) := by
    intro x
    simp [burstOver, statistics, clear, pulseOver, dropReady, slaveFall]
  have hlt : (burstOver cfg s i k).reqTable i l = true := by
    unfold chainPick at hl
    cases hf : Scan.firstFrom ((burstOver cfg s i k).next i + 1) ((burstOver cfg s i k).reqTable i) with
    | none =>
      have := Scan.firstFrom_none.1 hf q
      rw [htab] at this
      simp [hqk, hq] at this
    | some l' =>
      rw [hf, Option.some_or] at hl
      cases hl
      exact Scan.firstFrom_some hf
  rw [htab, Bool.and_eq_true, Bool.not_eq_true', beq_eq_false_iff_ne] at hlt
  refine ⟨hlt.1, hlt.2, ?_⟩
  by_contra hli
  exact hlt.1 ((hB.row l).1 (by simpa using hli))

theorem chain_inv (h : Inv cfg s) (hB : Busy s i k) (hneg : (s.cs i).atNeg = true) (hseen : s.seen i = true)
    (hl : s.burstCnt i + 1 = s.burst i) (hp : s.pendingReq i = true)
    (hpick : chainPick (burstOver cfg s i k) i = some l) (hburst : (s.pinoutCore l).burst = s.burst i) :
    Inv cfg (chain (burstOver cfg s i k) i l) := by
  obtain ⟨hlk, htab, hidcl⟩ := chainPick_spec hB hseen hp hpick
  have hM := burstOver_masters h hB hneg hl
  obtain ⟨hreq, -, hroute⟩ := h.table htab
  have hserved : s.served l = false := h.books.not_served hroute hidcl
  have hmapped := h.mapped l hreq
  have hfresh := h.fresh l hreq hserved
  have hquiet := h.quiet l hserved
  have howed := hB.owed
  have hcount := hB.count
  set w := burstOver cfg s i k with hw
  have hwrow : ∀ x, w.idcFsm i x = false := by
    intro x
    have hrow : s.idcFsm i x = (x == k) := by
      rw [Bool.eq_iff_iff, beq_iff_eq]
      exact hB.row x
    simp [hw, burstOver, statistics, clear, pulseOver, dropReady, slaveFall, hrow]
  have hwtab : w.reqTable i l = true := by
    simp [hw, burstOver, statistics, clear, pulseOver, dropReady, slaveFall, hlk, htab]
  have hserve : ∀ x, x ≠ l → (chain w i l).served x = w.served x := by
    intro x hx
    simp [chain, hx]
  have hserve' : (chain w i l).served l = true := by simp [chain]
  have hcs : (chain w i l).cs i = if (s.pinoutCore l).rw then .writePos else .readPos := by
    simp [chain, hw, burstOver, statistics, clear, pulseOver, dropReady, slaveFall]
  have hcneg : ((chain w i l).cs i).atNeg = false := by
    rw [hcs]; cases (s.pinoutCore l).rw <;> rfl
  refine inv_of_sameRow i h ⟨hM.poll, hM.mapped, fun x hx hs => ?_, fun x hs => ?_, hM.books.serve hwtab⟩
    (fun j hj => (burstOver_sameRow h hB hj).trans ?_) (fun hc => ?_) fun _ => ⟨l, ?_⟩
  · have hxl : x ≠ l := by rintro rfl; rw [hserve'] at hs; cases hs
    rw [hserve x hxl] at hs
    exact hM.fresh x hx hs
  · have hxl : x ≠ l := by rintro rfl; rw [hserve'] at hs; cases hs
    rw [hserve x hxl] at hs
    exact hM.quiet x hs
  · rw [← hw]
    refine ⟨?_, rfl, rfl, ?_, rfl, ?_, rfl, rfl, rfl, ?_, rfl, rfl, ?_, fun x _ => ⟨rfl, rfl, rfl, rfl⟩⟩ <;>
      simp [chain, hj]
  · rw [hcs] at hc
    split at hc <;> cases hc
  · constructor
    · exact hB.busy
    · exact hB.go
    · simp [chain]
    · rw [hcneg]
      simp [chain, hw, burstOver, statistics, clear, pulseOver, dropReady, slaveFall]
    · intro x
      by_cases hx : x = l
      · simp [chain, hx]
      · simp [chain, hx, hwrow]
    · simp [chain]
    · exact hburst
    · simp only [chain, Function.update_self]; exact hburst
    · simp only [chain, Function.update_self]
      change 0 < s.burst i
      omega
    · simp only [chain, Function.update_self]
      change w.beats l + 0 = s.burst i
      have : w.beats l = s.beats l := by
        simp [hw, burstOver, statistics, clear, pulseOver, dropReady, slaveFall, hlk]
      rw [this, hfresh, hburst, Nat.add_zero]
    · refine Or.inr ⟨hcneg, ?_, by simp [chain]⟩
      change w.owed i = 0
      simp only [hw, burstOver, statistics, clear, pulseOver, dropReady, slaveFall, Function.update_self]
      rcases howed with ho | ⟨hf, -⟩
      · omega
      · rw [hneg] at hf; cases hf
    · rw [hcneg]
      change w.readyCore l = false
      simp [hw, burstOver, statistics, clear, pulseOver, dropReady, slaveFall, hquiet]
    · intro x hx
      rw [hx] at hcneg
      cases hcneg
    · intro hseen'
      simp [chain, hw, burstOver, statistics, clear, pulseOver, dropReady, slaveFall] at hseen'

theorem chainPick_burstOver (hlast : lastGroup s i = (· == k)) :
    chainPick (burstOver cfg s i k) i = chainPick (clear s i (lastGroup s i)) i := by
  rw [hlast]; rfl

theorem fall_inv (h : Inv cfg s) (hready : s.readySlave i = true) (hseen : s.seen i = true)
    (hG : Guarded s (.fall i)) (hf : fsmNeg cfg (slaveFall s i) i = some t) : Inv cfg t := by
  obtain ⟨k, hB, hneg, hlast, ⟨hl, c, hc, hci, rfl⟩ | ⟨hl, hp, l, hpick, rfl⟩ | ⟨hl, rfl⟩⟩ := fall_cases h hready hf
  · exact beat_busy h hB hneg hl hc hci
  · exact chain_inv h hB hneg hseen hl hp hpick (hG hl hp l (by rw [← chainPick_burstOver hlast]; exact hpick))
  · exact release_inv h hB hneg hl

/-! ## Every action -/

theorem step_cases {a : Action n m} (hs : step cfg s a = some t) :
    (∃ early, a = .clock early ∧
      t = idleWake (pollClock s early) (pollClock (arbiter cfg (pollClock s early)) fun k => !early k)) ∨
    (∃ k p, a = .raise k p ∧ s.requestCore k = false ∧ (decode m cfg.ID k p.address).isSome = true ∧
      1 ≤ p.burst ∧ t = raiseRequest s k p) ∨
    (∃ k d, a = .beat k d ∧ t = { s with
      pinoutCore := Function.update s.pinoutCore k { s.pinoutCore k with data := d } }) ∨
    (∃ i d, a = .rise i d ∧ s.readySlave i = false ∧ (s.requestSlave i = true ∨ 0 < s.owed i) ∧
      fsmPos (slaveRise s i d) i = some t) ∨
    (∃ i, a = .fall i ∧ s.readySlave i = true ∧ s.seen i = true ∧ fsmNeg cfg (slaveFall s i) i = some t) := by
  cases a with
  | clock early =>
    simp only [step] at hs
    split at hs
    · cases hs
    · exact Or.inl ⟨early, rfl, by simpa using hs.symm⟩
  | raise k p =>
    simp only [step] at hs
    split at hs
    · rename_i hg
      simp only [Bool.and_eq_true, Bool.not_eq_true', decide_eq_true_eq] at hg
      exact Or.inr (Or.inl ⟨k, p, rfl, hg.1.1, hg.1.2, hg.2, by simpa using hs.symm⟩)
    · cases hs
  | beat k d =>
    simp only [step] at hs
    split at hs
    · exact Or.inr (Or.inr (Or.inl ⟨k, d, rfl, by simpa using hs.symm⟩))
    · cases hs
  | rise i d =>
    simp only [step] at hs
    split at hs
    · rename_i hg
      simp only [Bool.and_eq_true, Bool.or_eq_true, Bool.not_eq_true', decide_eq_true_eq] at hg
      exact Or.inr (Or.inr (Or.inr (Or.inl ⟨i, d, rfl, hg.1.1, hg.2, hs⟩)))
    · cases hs
  | fall i =>
    simp only [step] at hs
    split at hs
    · rename_i hg
      simp only [Bool.and_eq_true] at hg
      exact Or.inr (Or.inr (Or.inr (Or.inr ⟨i, rfl, hg.1, hg.2, hs⟩)))
    · cases hs

/-- **Every guarded action keeps the invariant.** -/
theorem step_inv {a : Action n m} (h : Inv cfg s) (hG : Guarded s a) (hs : step cfg s a = some t) : Inv cfg t := by
  obtain ⟨early, -, rfl⟩ | ⟨k, p, -, hk, hp, hb, rfl⟩ | ⟨k, d, -, rfl⟩ | ⟨i, d, -, hready, hg, hf⟩ |
    ⟨i, rfl, hready, hseen, hf⟩ := step_cases hs
  · exact clock_inv h early
  · exact raise_inv h hk hp hb
  · exact beat_inv h
  · exact rise_inv h hready hg hf
  · exact fall_inv h hready hseen hG hf

theorem run_inv {as : List (Action n m)} (hr : Trans.run (step cfg) (init : State n m) as = some t)
    (hG : Trans.Along (step cfg) Guarded (init : State n m) as) : Inv cfg t :=
  Trans.run_inv_along (Inv cfg) (fun _ _ _ h hG hs => step_inv h hG hs) init_inv hG hr

end VirtualSoc.Pic
