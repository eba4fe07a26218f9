import VirtualSoc.Cluster.PicService

/-!
# Bounded bypass at the peripheral interconnect (cluster/cl_pic.cpp)

While a master waits in `req_table`, the slave is busy and `pending_req` is set, so the slave neither
goes back to `IDLE` nor is it given away by the arbiter: it is passed on by the fsm, which looks for the
next entry of the table after `next`. Each time it passes to somebody else the waiting master comes
nearer to the start of that scan.

`Queue` is what this needs of a state. Unlike `Inv` it says nothing of bursts, and it holds in every run:
the pulses that a chained request gets may be those of another burst. `bounded_bypass` is the result.
-/

namespace VirtualSoc.Pic

variable {n m : Nat} {cfg : Config n} {s t : State n m} {i j : Fin m} {k l : Fin n}

/-- The tables of the arbiter, whatever the bursts. -/
structure Queue (cfg : Config n) (s : State n m) : Prop where
  books : Crossbar.Books (fun k i => s.reqTable i k = true) (fun _ => true) s.served s.reqTable s.idcFsm
  waiting : ∀ i k, s.reqTable i k = true → s.served k = false → s.requestCore k = true ∧ slaveOf cfg s k = some i
  sampled : ∀ k, s.req k = true → s.served k = false → s.requestCore k = true
  single : ∀ i k l, s.idcFsm i k = true → s.idcFsm i l = true → k = l
  write : ∀ i k, s.cs i = .writeNeg k → s.idcFsm i k = true
  free : ∀ i, s.busyFsm i = false → s.goFsm i = false ∧ s.cs i = .idle
  held : ∀ i k, s.reqTable i k = true → s.busyFsm i = true ∧ (s.idcFsm i k = false → s.pendingReq i = true)
  pending : ∀ i, s.seen i = true → s.pendingReq i = true → ∃ l, s.reqTable i l = true ∧ s.idcFsm i l = false

theorem init_queue : Queue cfg (init : State n m) := by
  refine ⟨⟨?_, ?_, ?_, ?_⟩, ?_, ?_, ?_, ?_, ?_, ?_, ?_⟩ <;> simp [init]

theorem Queue.unserved (h : Queue cfg s) (ht : s.reqTable i k = true) (hi : s.idcFsm i k = false) :
    s.served k = false :=
  h.books.not_served ht hi

theorem Queue.not_in_row (h : Queue cfg s) (hs : s.served k = false) (i : Fin m) : s.idcFsm i k = false := by
  by_contra hi
  have := (h.books.grp i k (by simpa using hi)).2
  rw [hs] at this
  cases this

/-! ## The clock -/

theorem pollClock_queue (h : Queue cfg s) (who : Fin n → Bool) : Queue cfg (pollClock s who) := by
  refine ⟨h.books, h.waiting, fun k hr hs => ?_, h.single, h.write, h.free, h.held, h.pending⟩
  simp only [pollClock] at hr
  split at hr
  · exact hr
  · exact h.sampled k hr hs

theorem tableAfter_cases (ht : tableAfter cfg s i k = true) :
    s.reqTable i k = true ∨ s.req k = true ∧ s.served k = false ∧ slaveOf cfg s k = some i := by
  simp only [tableAfter, requests, Bool.or_eq_true, Bool.and_eq_true, Bool.not_eq_true', beq_iff_eq] at ht
  exact ht.imp_right fun ht => ⟨ht.1.1, ht.1.2, ht.2⟩

theorem Queue.tableAfter_inj (h : Queue cfg s) (hi : tableAfter cfg s i k = true) (hj : tableAfter cfg s j k = true) :
    i = j := by
  have hroute : ∀ q, tableAfter cfg s q k = true →
      s.reqTable q k = true ∨ s.served k = false ∧ slaveOf cfg s k = some q :=
    fun q hq => (tableAfter_cases hq).imp_right And.right
  rcases hroute i hi with hi | ⟨hs, hi⟩
  · rcases hroute j hj with hj | ⟨hs, hj⟩
    · exact h.books.inj k i j hi hj
    · exact Option.some.inj ((h.waiting i k hi hs).2.symm.trans hj)
  · rcases hroute j hj with hj | ⟨-, hj⟩
    · exact Option.some.inj (hi.symm.trans (h.waiting j k hj hs).2)
    · exact Option.some.inj (hi.symm.trans hj)

/-- A slave that is free has nobody in its row, and it is woken if somebody asks. -/
theorem Queue.free_row (h : Queue cfg s) (hb : s.busyFsm i = false) (k : Fin n) : s.idcFsm i k = false := by
  by_contra hk
  have := (h.held i k (h.books.grp i k (by simpa using hk)).1).1
  rw [hb] at this
  cases this

theorem Queue.wakes_of_grant (h : Queue cfg s) (hg : grant cfg s i = some k) : wakes s (arbiter cfg s) i = true := by
  obtain ⟨hb, ht⟩ := grant_spec hg
  obtain ⟨hgo, hc⟩ := h.free i hb
  have hreq : requested cfg s i = true := decide_eq_true ⟨k, ht⟩
  simp [wakes, arbiter, hgo, hc, hreq]

theorem Queue.arbiter_books (h : Queue cfg s) :
    Crossbar.Books (fun k i => tableAfter cfg s i k = true) (fun _ => true) (servedAfter cfg s) (tableAfter cfg s)
      (idcAfter cfg s) := by
  have hold : ∀ i k, s.reqTable i k = true → tableAfter cfg s i k = true := fun i k hk => by simp [tableAfter, hk]
  have h1 : Crossbar.Books (fun k i => tableAfter cfg s i k = true) (fun _ => true) s.served s.reqTable s.idcFsm :=
    h.books.reroute (fun k i j hi hj => h.tableAfter_inj hi hj) fun i k hk => ⟨rfl, hold i k hk⟩
  refine (h1.scan hold fun i k hk => Or.inr ⟨rfl, hk⟩).grant (fun i k hk => ?_) fun k hk => ?_
  · simp only [idcAfter, Bool.or_eq_true, beq_iff_eq] at hk
    rcases hk with hk | hk
    · obtain ⟨ht, hs⟩ := h.books.grp i k hk
      exact ⟨hold i k ht, by simp [servedAfter, hs]⟩
    · refine ⟨(grant_spec hk).2, ?_⟩
      simp only [servedAfter, Bool.or_eq_true, beq_iff_eq, decide_eq_true_eq]
      exact Or.inr ⟨i, hk⟩
  · simp only [servedAfter, Bool.or_eq_true, decide_eq_true_eq, beq_iff_eq] at hk
    rcases hk with hk | ⟨i, hk⟩
    · obtain ⟨i, hi⟩ := h.books.served k hk
      exact ⟨i, by simp [idcAfter, hi]⟩
    · exact ⟨i, by simp [idcAfter, hk]⟩

theorem wake_queue (h : Queue cfg s) : Queue cfg (idleWake s (arbiter cfg s)) := by
  have hserved : ∀ k, servedAfter cfg s k = false → s.served k = false := by
    intro k hk
    simp only [servedAfter, Bool.or_eq_false_iff] at hk
    exact hk.1
  have hrow : ∀ i, s.busyFsm i = true → ∀ k, idcAfter cfg s i k = s.idcFsm i k := fun i hb k => idcAfter_of_busy hb
  refine ⟨h.arbiter_books, fun i k ht hs => ?_, fun k hr hs => h.sampled k hr (hserved k hs), fun i k l hk hl => ?_,
    fun i k hc => ?_, fun i hb => ?_, fun i k ht => ⟨?_, fun hk => ?_⟩, fun i hseen hp => ?_⟩
  · have hs' := hserved k hs
    have ht : tableAfter cfg s i k = true := ht
    rcases tableAfter_cases ht with ht | ⟨hr, -, hj⟩
    · exact h.waiting i k ht hs'
    · exact ⟨h.sampled k hr hs', hj⟩
  · have hk' : idcAfter cfg s i k = true := hk
    have hl' : idcAfter cfg s i l = true := hl
    cases hb : s.busyFsm i with
    | true =>
      rw [hrow i hb] at hk' hl'
      exact h.single i k l hk' hl'
    | false =>
      simp only [idcAfter, h.free_row hb, Bool.false_or, beq_iff_eq] at hk' hl'
      exact Option.some.inj (hk'.symm.trans hl')
  · have hw : wakes s (arbiter cfg s) i = false := by
      by_contra hw
      rw [Bool.not_eq_false] at hw
      simp only [idleWake, hw, if_true] at hc
      split at hc <;> cases hc
    rw [cs_idleWake_of_not hw] at hc
    have := h.write i k hc
    change idcAfter cfg s i k = true
    simp [idcAfter, this]
  · have hb' : s.busyFsm i = false ∧ requested cfg s i = false := by
      simpa [idleWake, arbiter] using hb
    have hw : wakes s (arbiter cfg s) i = false := by simp [wakes, arbiter, hb'.2]
    exact ⟨hb'.2, by rw [cs_idleWake_of_not hw]; exact (h.free i hb'.1).2⟩
  · have hreq : requested cfg s i = true := decide_eq_true ⟨k, ht⟩
    simp [idleWake, arbiter, hreq]
  · have ht' : tableAfter cfg s i k = true := ht
    have hk' : idcAfter cfg s i k = false := hk
    have hs : s.served k = false := by
      rcases tableAfter_cases ht' with ht | ⟨-, hs, -⟩
      · simp only [idcAfter, Bool.or_eq_false_iff] at hk'
        exact h.unserved ht hk'.1
      · exact hs
    exact decide_eq_true ⟨k, by simp [queued, ht', hs, hk']⟩
  · have hq : ∃ l, queued cfg s i l = true := by simpa [idleWake, arbiter] using hp
    obtain ⟨l, hl⟩ := hq
    simp only [queued, Bool.and_eq_true, Bool.not_eq_true'] at hl
    refine ⟨l, hl.1.1, ?_⟩
    change idcAfter cfg s i l = false
    simp only [idcAfter, h.not_in_row hl.1.2 i, Bool.false_or, beq_eq_false_iff_ne]
    intro hg
    -- a slave that was given away is woken, and then it has not been seen
    have hw := h.wakes_of_grant hg
    simp [idleWake, hw] at hseen

theorem clock_queue (h : Queue cfg s) (early : Fin n → Bool) :
    Queue cfg (idleWake (pollClock s early) (pollClock (arbiter cfg (pollClock s early)) fun k => !early k)) :=
  pollClock_queue (wake_queue (pollClock_queue h early)) fun k => !early k

/-! ## The masters -/

theorem raise_queue {p : Pinout} (h : Queue cfg s) (hk : s.requestCore k = false) :
    Queue cfg (raiseRequest s k p) := by
  refine ⟨h.books, fun i l ht hs => ?_, fun l hr hs => ?_, h.single, h.write, h.free, h.held, h.pending⟩
  · obtain ⟨hreq, hi⟩ := h.waiting i l ht hs
    have hlk : l ≠ k := by
      rintro rfl
      rw [hk] at hreq
      cases hreq
    exact ⟨by simp [raiseRequest, hlk, hreq], by simpa [slaveOf, raiseRequest, hlk] using hi⟩
  · by_cases hlk : l = k
    · subst hlk; simp [raiseRequest]
    · have hr' : s.req l = true := by
        cases hp : s.poll k <;> simpa [raiseRequest, hp, hlk] using hr
      simpa [raiseRequest, hlk] using h.sampled l hr' hs

theorem beat_queue {d : UInt32} (h : Queue cfg s) :
    Queue cfg { s with pinoutCore := Function.update s.pinoutCore k { s.pinoutCore k with data := d } } := by
  refine ⟨h.books, fun i l ht hs => ?_, h.sampled, h.single, h.write, h.free, h.held, h.pending⟩
  obtain ⟨hreq, hi⟩ := h.waiting i l ht hs
  refine ⟨hreq, ?_⟩
  by_cases hlk : l = k
  · subst hlk; simpa [slaveOf] using hi
  · simpa [slaveOf, hlk] using hi

/-! ## The edges of a ready line -/

/-- What a rising ready edge can change of the tables' side: only the fsm, and the pinouts of its row. -/
theorem rise_cases {d : UInt32} (hf : fsmPos (slaveRise s i d) i = some t) :
    (t.reqTable = s.reqTable ∧ t.idcFsm = s.idcFsm ∧ t.served = s.served ∧ t.req = s.req ∧
      t.requestCore = s.requestCore ∧ t.busyFsm = s.busyFsm ∧ t.goFsm = s.goFsm ∧ t.pendingReq = s.pendingReq ∧
      t.next = s.next) ∧
    (t.seen = Function.update s.seen i false) ∧
    (∀ k, s.idcFsm i k = false → t.pinoutCore k = s.pinoutCore k) ∧
    ∃ c, t.cs = Function.update s.cs i c ∧ (s.cs i = .idle → c = .idle) ∧
      ∀ k, c = .writeNeg k → s.idcFsm i k = true ∨ s.cs i = c := by
  unfold fsmPos at hf
  have hcu : (slaveRise s i d).cs i = s.cs i := rfl
  rw [hcu] at hf
  cases hcs : s.cs i with
  | readPos =>
    simp only [hcs, Option.some.injEq] at hf
    subst hf
    refine ⟨⟨rfl, rfl, rfl, rfl, rfl, rfl, rfl, rfl, rfl⟩, rfl, fun k hk => ?_, .readNeg, rfl,
      fun hc => (by cases hc),
      fun k hc => (by cases hc)⟩
    simp [slaveRise, hk]
  | writePos =>
    simp only [hcs, Option.map_eq_some_iff] at hf
    obtain ⟨k, hk, rfl⟩ := hf
    refine ⟨⟨rfl, rfl, rfl, rfl, rfl, rfl, rfl, rfl, rfl⟩, rfl, fun _ _ => rfl, .writeNeg k, rfl,
      fun hc => (by cases hc),
      fun l hc => ?_⟩
    cases hc
    exact Or.inl (Scan.first_some hk)
  | _ =>
    simp only [hcs, Option.some.injEq] at hf
    subst hf
    refine ⟨⟨rfl, rfl, rfl, rfl, rfl, rfl, rfl, rfl, rfl⟩, rfl, fun _ _ => rfl, s.cs i,
      (Function.update_eq_self i s.cs).symm, fun hc => hcs.trans hc, fun k hc => Or.inr hcs.symm⟩

theorem rise_queue {d : UInt32} (h : Queue cfg s) (hf : fsmPos (slaveRise s i d) i = some t) : Queue cfg t := by
  obtain ⟨⟨e1, e2, e3, e4, e5, e6, e7, e8, -⟩, e9, hpin, c, e10, hidle, hneg⟩ := rise_cases hf
  refine ⟨by rw [e1, e2, e3]; exact h.books, fun j k ht hs => ?_, by rw [e3, e4, e5]; exact h.sampled,
    by rw [e2]; exact h.single, fun j k hc => ?_, fun j hb => ?_, by rw [e1, e2, e6, e8]; exact h.held,
    fun j hseen hp => ?_⟩
  · rw [e1] at ht
    rw [e3] at hs
    obtain ⟨hreq, hj⟩ := h.waiting j k ht hs
    rw [e5, slaveOf, hpin k (h.not_in_row hs i)]
    exact ⟨hreq, hj⟩
  · rw [e10] at hc
    rw [e2]
    by_cases hj : j = i
    · subst hj
      rw [Function.update_self] at hc
      rcases hneg k hc with hk | hk
      · exact hk
      · exact h.write j k (hk.trans hc)
    · rw [Function.update_of_ne hj] at hc
      exact h.write j k hc
  · rw [e6] at hb
    rw [e7, e10]
    obtain ⟨hgo, hc⟩ := h.free j hb
    refine ⟨hgo, ?_⟩
    by_cases hj : j = i
    · subst hj
      rw [Function.update_self]
      exact hidle hc
    · rw [Function.update_of_ne hj]
      exact hc
  · rw [e8] at hp
    rw [e1, e2]
    rw [e9] at hseen
    by_cases hj : j = i
    · subst hj; simp at hseen
    · rw [Function.update_of_ne hj] at hseen
      exact h.pending j hseen hp

/-- The end of a burst: `clear` takes the row of the slave out of the tables. -/
def rowOver (cfg : Config n) (s : State n m) (i : Fin m) : State n m :=
  statistics cfg (clear (dropReady (slaveFall s i) (s.idcFsm i)) i (s.idcFsm i)) i

theorem Queue.lastGroup (h : Queue cfg s) (hneg : (s.cs i).atNeg = true) : lastGroup s i = s.idcFsm i := by
  unfold Pic.lastGroup
  cases hc : s.cs i with
  | readNeg => rfl
  | writeNeg k =>
    funext l
    have hk := h.write i k hc
    rw [Bool.eq_iff_iff, beq_iff_eq]
    exact ⟨fun hl => by rw [hl]; exact hk, fun hl => h.single i l k hl hk⟩
  | _ => rw [hc] at hneg; cases hneg

/-- What a falling ready edge does: nothing, one more beat, a chained request, or back to `IDLE`. -/
theorem Queue.fall_cases (h : Queue cfg s) (hf : fsmNeg cfg (slaveFall s i) i = some t) :
    t = slaveFall s i ∨
    (s.cs i).atNeg = true ∧
      ((∃ b c, c.atNeg = false ∧ t = { dropReady (slaveFall s i) (s.idcFsm i) with
          burstCnt := b, cs := Function.update s.cs i c }) ∨
        (s.pendingReq i = true ∧ ∃ l, chainPick (rowOver cfg s i) i = some l ∧ t = chain (rowOver cfg s i) i l) ∨
        s.pendingReq i = false ∧ t = release (rowOver cfg s i) i) := by
  have hend : ∀ pos, pos.atNeg = false → beatEnd cfg (slaveFall s i) i (s.idcFsm i) pos = some t →
      (∃ b c, c.atNeg = false ∧ t = { dropReady (slaveFall s i) (s.idcFsm i) with
          burstCnt := b, cs := Function.update s.cs i c }) ∨
        (s.pendingReq i = true ∧ ∃ l, chainPick (rowOver cfg s i) i = some l ∧ t = chain (rowOver cfg s i) i l) ∨
        s.pendingReq i = false ∧ t = release (rowOver cfg s i) i := by
    intro pos hpos hb
    unfold beatEnd at hb
    split at hb
    · unfold endBurst at hb
      change (if s.pendingReq i = true then (chainPick (rowOver cfg s i) i).map (chain (rowOver cfg s i) i)
        else some (release (rowOver cfg s i) i)) = some t at hb
      split at hb
      · rename_i hp
        obtain ⟨l, hl, rfl⟩ := Option.map_eq_some_iff.1 hb
        exact Or.inr (Or.inl ⟨hp, l, hl, rfl⟩)
      · rename_i hp
        cases hb
        exact Or.inr (Or.inr ⟨by simpa using hp, rfl⟩)
    · cases hb
      exact Or.inl ⟨_, pos, hpos, rfl⟩
  have hcu : (slaveFall s i).cs i = s.cs i := rfl
  have hlast := h.lastGroup (i := i)
  unfold Pic.lastGroup at hlast
  unfold fsmNeg at hf
  rw [hcu] at hf
  cases hc : s.cs i with
  | readNeg =>
    simp only [hc] at hf
    exact Or.inr ⟨rfl, hend .readPos rfl hf⟩
  | writeNeg k =>
    simp only [hc] at hf hlast
    rw [hlast rfl] at hf
    exact Or.inr ⟨rfl, hend .writePos rfl hf⟩
  | _ =>
    simp only [hc, Option.some.injEq] at hf
    exact Or.inl hf.symm

/-- The tables once the row is taken out. -/
theorem Queue.rowOver_books (h : Queue cfg s) (i : Fin m) :
    Crossbar.Books (fun k j => (rowOver cfg s i).reqTable j k = true) (fun _ => true) (rowOver cfg s i).served
      (rowOver cfg s i).reqTable (rowOver cfg s i).idcFsm := by
  have hnone : (fun l => !s.idcFsm i l && s.idcFsm i l) = fun _ => false := funext fun l => Bool.not_and_self _
  have hf : Crossbar.Books (fun k i => s.reqTable i k = true) (fun k => !s.idcFsm i k && true)
      (rowOver cfg s i).served
      (rowOver cfg s i).reqTable (rowOver cfg s i).idcFsm := by
    have := h.books.finish i
    rw [← hnone] at this
    exact this
  refine hf.reroute (fun k a b ha hb => ?_) fun j k hk => ⟨rfl, hk⟩
  have hsub : ∀ q, (rowOver cfg s i).reqTable q k = true → s.reqTable q k = true := fun q hq => (hf.table q k hq).2
  exact h.books.inj k a b (hsub a ha) (hsub b hb)

/-- What is left of the tables of the slave, and of the others. -/
theorem rowOver_table (cfg : Config n) (s : State n m) (i j : Fin m) (k : Fin n) :
    (rowOver cfg s i).reqTable j k = (s.reqTable j k && !(decide (j = i) && s.idcFsm i k)) ∧
      (rowOver cfg s i).idcFsm j k = (s.idcFsm j k && !decide (j = i)) := by
  by_cases hj : j = i
  · subst hj
    simp [rowOver, statistics, clear, dropReady, slaveFall, Bool.and_comm]
  · simp [rowOver, statistics, clear, dropReady, slaveFall, hj]

theorem Queue.rowOver_rest (h : Queue cfg s) (i : Fin m) :
    (∀ j k, (rowOver cfg s i).reqTable j k = true → (rowOver cfg s i).served k = false →
      (rowOver cfg s i).requestCore k = true ∧ slaveOf cfg (rowOver cfg s i) k = some j) ∧
    ∀ k, (rowOver cfg s i).req k = true → (rowOver cfg s i).served k = false →
      (rowOver cfg s i).requestCore k = true := by
  have hcore : ∀ k, s.idcFsm i k = false → (rowOver cfg s i).requestCore k = s.requestCore k := by
    intro k hk
    simp [rowOver, statistics, clear, dropReady, slaveFall, hk]
  refine ⟨fun j k ht hs => ?_, fun k hr hs => ?_⟩
  · rw [(rowOver_table cfg s i j k).1, Bool.and_eq_true] at ht
    have hk : s.idcFsm i k = false := by
      by_contra hk
      rw [Bool.not_eq_false] at hk
      have hji : j = i := h.books.inj k j i ht.1 (h.books.grp i k hk).1
      simp [hji, hk] at ht
    have hs' : s.served k = false := by simpa [rowOver, statistics, clear, dropReady, slaveFall, hk] using hs
    rw [hcore k hk]
    exact h.waiting j k ht.1 hs'
  · have hr' : s.idcFsm i k = false ∧ s.req k = true := by
      simpa [rowOver, statistics, clear, dropReady, slaveFall] using hr
    have hs' : s.served k = false := by simpa [rowOver, statistics, clear, dropReady, slaveFall, hr'.1] using hs
    rw [hcore k hr'.1]
    exact h.sampled k hr'.2 hs'

/-- The chained master was waiting for the slave. -/
theorem Queue.chainPick_spec (h : Queue cfg s) (hseen : s.seen i = true) (hp : s.pendingReq i = true)
    (hl : chainPick (rowOver cfg s i) i = some l) :
    Scan.firstFrom (s.next i + 1) ((rowOver cfg s i).reqTable i) = some l ∧ s.reqTable i l = true ∧
      s.idcFsm i l = false := by
  obtain ⟨q, hq, hqi⟩ := h.pending i hseen hp
  have hfirst : Scan.firstFrom (s.next i + 1) ((rowOver cfg s i).reqTable i) = some l := by
    unfold chainPick at hl
    cases hf : Scan.firstFrom ((rowOver cfg s i).next i + 1) ((rowOver cfg s i).reqTable i) with
    | none =>
      have := Scan.firstFrom_none.1 hf q
      rw [(rowOver_table cfg s i i q).1, hq, hqi] at this
      simp at this
    | some l' =>
      rw [hf, Option.some_or] at hl
      cases hl
      exact hf
  have ht := Scan.firstFrom_some hfirst
  rw [(rowOver_table cfg s i i l).1] at ht
  simp only [decide_true, Bool.true_and, Bool.and_eq_true, Bool.not_eq_true'] at ht
  exact ⟨hfirst, ht.1, ht.2⟩

theorem Queue.busy_of_neg (h : Queue cfg s) (hneg : (s.cs i).atNeg = true) : s.busyFsm i = true := by
  by_contra hb
  rw [(h.free i (by simpa using hb)).2] at hneg
  cases hneg

theorem chain_queue (h : Queue cfg s) (hneg : (s.cs i).atNeg = true) (hseen : s.seen i = true)
    (hp : s.pendingReq i = true) (hl : chainPick (rowOver cfg s i) i = some l) :
    Queue cfg (chain (rowOver cfg s i) i l) := by
  obtain ⟨hfirst, -, -⟩ := h.chainPick_spec hseen hp hl
  have htab := Scan.firstFrom_some hfirst
  obtain ⟨hwait, hsamp⟩ := h.rowOver_rest i
  have hserved : ∀ k, (chain (rowOver cfg s i) i l).served k = false → (rowOver cfg s i).served k = false := by
    intro k hk
    by_cases hkl : k = l
    · subst hkl; simp [chain] at hk
    · simpa [chain, hkl] using hk
  have hrow : ∀ j k, (chain (rowOver cfg s i) i l).idcFsm j k = if j = i then decide (k = l) else s.idcFsm j k := by
    intro j k
    by_cases hj : j = i
    · subst hj
      by_cases hkl : k = l
      · simp [chain, hkl]
      · simp [chain, hkl, (rowOver_table cfg s j j k).2]
    · simp [chain, hj, (rowOver_table cfg s i j k).2]
  have hcs : ∀ j, (chain (rowOver cfg s i) i l).cs j =
      if j = i then (if (s.pinoutCore l).rw then .writePos else .readPos) else s.cs j := by
    intro j
    by_cases hj : j = i
    · subst hj
      simp only [chain, Function.update_self, if_true]
      rfl
    · simp only [chain, Function.update_of_ne hj, if_neg hj]
      rfl
  have hseen' : (chain (rowOver cfg s i) i l).seen = Function.update s.seen i false := rfl
  refine ⟨h.rowOver_books i |>.serve htab, fun j k ht hs => hwait j k ht (hserved k hs),
    fun k hr hs => hsamp k hr (hserved k hs), fun j a b ha hb => ?_, fun j k hc => ?_, fun j hb => ?_,
    fun j k ht => ?_,
    fun j hsj hpj => ?_⟩
  · rw [hrow] at ha hb
    by_cases hj : j = i
    · simp only [hj, if_true, decide_eq_true_eq] at ha hb
      rw [ha, hb]
    · simp only [hj, if_false] at ha hb
      exact h.single j a b ha hb
  · rw [hcs] at hc
    rw [hrow]
    by_cases hj : j = i
    · simp only [hj, if_true] at hc
      split at hc <;> cases hc
    · simp only [hj, if_false] at hc ⊢
      exact h.write j k hc
  · have hb' : s.busyFsm j = false := hb
    have hj : j ≠ i := by
      rintro rfl
      rw [h.busy_of_neg hneg] at hb'
      cases hb'
    rw [hcs, if_neg hj]
    exact h.free j hb'
  · have ht' : (rowOver cfg s i).reqTable j k = true := ht
    rw [(rowOver_table cfg s i j k).1, Bool.and_eq_true] at ht'
    obtain ⟨hb, hpend⟩ := h.held j k ht'.1
    refine ⟨hb, fun hk => ?_⟩
    by_cases hj : j = i
    · subst hj; exact hp
    · rw [hrow, if_neg hj] at hk
      exact hpend hk
  · rw [hseen'] at hsj
    have hj : j ≠ i := by
      rintro rfl
      simp at hsj
    rw [Function.update_of_ne hj] at hsj
    obtain ⟨q, hq, hqi⟩ := h.pending j hsj hpj
    refine ⟨q, ?_, by rw [hrow, if_neg hj]; exact hqi⟩
    change (rowOver cfg s i).reqTable j q = true
    rw [(rowOver_table cfg s i j q).1, hq]
    simp [hj]

theorem release_queue (h : Queue cfg s) (hp : s.pendingReq i = false) : Queue cfg (release (rowOver cfg s i) i) := by
  obtain ⟨hwait, hsamp⟩ := h.rowOver_rest i
  -- whoever is in the table of the slave is in its row, and goes with it
  have hempty : ∀ k, (rowOver cfg s i).reqTable i k = false := by
    intro k
    by_contra hk
    rw [Bool.not_eq_false, (rowOver_table cfg s i i k).1] at hk
    simp only [decide_true, Bool.true_and, Bool.and_eq_true, Bool.not_eq_true'] at hk
    rw [(h.held i k hk.1).2 hk.2] at hp
    cases hp
  have hrow : ∀ j k, (rowOver cfg s i).idcFsm j k = true → j ≠ i ∧ s.idcFsm j k = true := by
    intro j k hk
    rw [(rowOver_table cfg s i j k).2] at hk
    simp only [Bool.and_eq_true, Bool.not_eq_true', decide_eq_false_iff_not] at hk
    exact ⟨hk.2, hk.1⟩
  have hseen' : (release (rowOver cfg s i) i).seen = Function.update s.seen i false := rfl
  refine ⟨h.rowOver_books i, hwait, hsamp, fun j a b ha hb => h.single j a b (hrow j a ha).2 (hrow j b hb).2,
    fun j k hc => ?_, fun j hb => ?_, fun j k ht => ?_, fun j hsj hpj => ?_⟩
  · by_cases hj : j = i
    · subst hj; simp [release] at hc
    · have hc' : s.cs j = .writeNeg k := by
        simpa [release, hj, rowOver, statistics, clear, dropReady, slaveFall] using hc
      change (rowOver cfg s i).idcFsm j k = true
      rw [(rowOver_table cfg s i j k).2, h.write j k hc']
      simp [hj]
  · by_cases hj : j = i
    · subst hj; simp [release]
    · simp only [release, Function.update_of_ne hj] at hb ⊢
      exact h.free j hb
  · have ht' : (rowOver cfg s i).reqTable j k = true := ht
    have hj : j ≠ i := by
      rintro rfl
      rw [hempty k] at ht'
      cases ht'
    rw [(rowOver_table cfg s i j k).1, Bool.and_eq_true] at ht'
    obtain ⟨hb, hpend⟩ := h.held j k ht'.1
    refine ⟨by simp only [release, Function.update_of_ne hj]; exact hb, fun hk => hpend ?_⟩
    have hk' : (rowOver cfg s i).idcFsm j k = false := hk
    rw [(rowOver_table cfg s i j k).2] at hk'
    simpa [hj] using hk'
  · rw [hseen'] at hsj
    have hj : j ≠ i := by
      rintro rfl
      simp at hsj
    rw [Function.update_of_ne hj] at hsj
    obtain ⟨q, hq, hqi⟩ := h.pending j hsj hpj
    refine ⟨q, ?_, ?_⟩
    · change (rowOver cfg s i).reqTable j q = true
      rw [(rowOver_table cfg s i j q).1, hq]
      simp [hj]
    · change (rowOver cfg s i).idcFsm j q = false
      rw [(rowOver_table cfg s i j q).2, hqi]
      rfl

theorem fall_queue (h : Queue cfg s) (hseen : s.seen i = true) (hf : fsmNeg cfg (slaveFall s i) i = some t) :
    Queue cfg t := by
  have hsn : ∀ j, (slaveFall s i).seen j = true → j ≠ i ∧ s.seen j = true := by
    intro j hj
    have hji : j ≠ i := by
      rintro rfl
      simp [slaveFall] at hj
    exact ⟨hji, by simpa [slaveFall, hji] using hj⟩
  rcases h.fall_cases hf with rfl | ⟨hneg, ⟨b, c, hc, rfl⟩ | ⟨hp, l, hl, rfl⟩ | ⟨hp, rfl⟩⟩
  · exact ⟨h.books, h.waiting, h.sampled, h.single, h.write, h.free, h.held,
      fun j hj hp => h.pending j (hsn j hj).2 hp⟩
  · have hcore : ∀ k, s.served k = false →
        (dropReady (slaveFall s i) (s.idcFsm i)).requestCore k = s.requestCore k := by
      intro k hs
      simp [dropReady, slaveFall, h.not_in_row hs i]
    refine ⟨h.books, fun j k ht hs => ?_, fun k hr hs => ?_, h.single, fun j k hcj => ?_, fun j hb => ?_, h.held,
      fun j hj hp => h.pending j (hsn j hj).2 hp⟩
    · refine ⟨(hcore k hs).trans (h.waiting j k ht hs).1, (h.waiting j k ht hs).2⟩
    · exact (hcore k hs).trans (h.sampled k hr hs)
    · by_cases hj : j = i
      · subst hj
        simp only [Function.update_self] at hcj
        rw [hcj] at hc
        cases hc
      · simp only [Function.update_of_ne hj] at hcj
        exact h.write j k hcj
    · have hb' : s.busyFsm j = false := hb
      have hj : j ≠ i := by
        rintro rfl
        rw [h.busy_of_neg hneg] at hb'
        cases hb'
      simp only [Function.update_of_ne hj]
      exact h.free j hb'
  · exact chain_queue h hneg hseen hp hl
  · exact release_queue h hp

/-- **Every action keeps the tables right**, whatever the bursts. -/
theorem step_queue {a : Action n m} (h : Queue cfg s) (hs : step cfg s a = some t) : Queue cfg t := by
  obtain ⟨early, -, rfl⟩ | ⟨k, p, -, hk, -, -, rfl⟩ | ⟨k, d, -, rfl⟩ | ⟨i, d, -, -, -, hf⟩ | ⟨i, -, -, hseen, hf⟩ :=
    step_cases hs
  · exact clock_queue h early
  · exact raise_queue h hk
  · exact beat_queue h
  · exact rise_queue h hf
  · exact fall_queue h hseen hf

/-! ## Who is granted a slave -/

/-- The masters that a step gives slave `i` to: their entries of `idc_fsm` are set. -/
def grants (cfg : Config n) (i : Fin m) (s : State n m) (a : Action n m) : List (Fin n) :=
  match step cfg s a with
  | some t => (List.finRange n).filter fun k => t.idcFsm i k && !s.idcFsm i k
  | none => []

/-- Master `k` is in the table of slave `i` and is not served. -/
def Waits (s : State n m) (i : Fin m) (k : Fin n) : Prop := s.reqTable i k = true ∧ s.idcFsm i k = false

theorem grants_of_same {a : Action n m} (hs : step cfg s a = some t) (h : t.idcFsm i = s.idcFsm i) :
    grants cfg i s a = [] := by
  simp [grants, hs, h]

/-- A step that gives the slave to `l` only. -/
theorem grants_single {a : Action n m} (hs : step cfg s a = some t)
    (h : ∀ k, t.idcFsm i k = true ∧ s.idcFsm i k = false ↔ k = l) : grants cfg i s a = [l] := by
  simp only [grants, hs]
  refine Scan.filter_finRange fun k => ?_
  rw [Bool.and_eq_true, Bool.not_eq_true']
  exact h k

/-- At a clock edge a busy slave is given to nobody, and keeps its pointer. -/
theorem clock_keeps (early : Fin n → Bool) (hb : s.busyFsm i = true) :
    (idleWake (pollClock s early) (pollClock (arbiter cfg (pollClock s early)) fun k => !early k)).idcFsm i =
      s.idcFsm i := by
  funext k
  exact idcAfter_of_busy (s := pollClock s early) hb

/-- **One step** while master `k` waits for slave `i`: it goes on waiting as near as before, or it is
granted, or somebody else is and `k` is nearer to the start of the next scan. -/
theorem step_waits {a : Action n m} (h : Queue cfg s) (hw : Waits s i k) (hs : step cfg s a = some t) :
    (grants cfg i s a = [] ∧ Waits t i k ∧ t.next i = s.next i) ∨ grants cfg i s a = [k] ∨
      ∃ l, l ≠ k ∧ grants cfg i s a = [l] ∧ Waits t i k ∧
        Scan.rank (t.next i + 1) k < Scan.rank (s.next i + 1) k := by
  have hb := (h.held i k hw.1).1
  -- steps that leave the row of the slave, the table entry and the pointer alone
  have hsame : t.idcFsm i = s.idcFsm i → t.reqTable i k = true → t.next i = s.next i →
      grants cfg i s a = [] ∧ Waits t i k ∧ t.next i = s.next i := by
    intro h1 h2 h3
    exact ⟨grants_of_same hs h1, ⟨h2, by rw [h1]; exact hw.2⟩, h3⟩
  obtain ⟨early, -, rfl⟩ | ⟨q, p, -, -, -, -, rfl⟩ | ⟨q, d, -, rfl⟩ | ⟨j, d, -, -, -, hf⟩ | ⟨j, -, -, hseen, hf⟩ :=
    step_cases hs
  · refine Or.inl (hsame (clock_keeps early hb) ?_ rfl)
    have ht : tableAfter cfg (pollClock s early) i k = true := by
      have : (pollClock s early).reqTable i k = true := hw.1
      simp [tableAfter, this]
    exact ht
  · exact Or.inl (hsame rfl hw.1 rfl)
  · exact Or.inl (hsame rfl hw.1 rfl)
  · obtain ⟨⟨e1, e2, -, -, -, -, -, -, e9⟩, -⟩ := rise_cases hf
    exact Or.inl (hsame (by rw [e2]) (by rw [e1]; exact hw.1) (by rw [e9]))
  · have hkeep : (rowOver cfg s j).reqTable i k = true := by
      rw [(rowOver_table cfg s j i k).1, hw.1, Bool.true_and, Bool.not_eq_true']
      by_cases hij : i = j
      · subst hij; simp [hw.2]
      · simp [hij]
    rcases h.fall_cases hf with rfl | ⟨hneg, ⟨b, c, hc, rfl⟩ | ⟨hp, l, hl, rfl⟩ | ⟨hp, rfl⟩⟩
    · exact Or.inl (hsame rfl hw.1 rfl)
    · exact Or.inl (hsame rfl hw.1 rfl)
    · by_cases hij : i = j
      · subst hij
        obtain ⟨hfirst, -, hli⟩ := h.chainPick_spec hseen hp hl
        have hrow : ∀ q, (chain (rowOver cfg s i) i l).idcFsm i q = true ↔ q = l := by
          intro q
          by_cases hq : q = l
          · simp [chain, hq]
          · simp [chain, hq, (rowOver_table cfg s i i q).2]
        have hg : grants cfg i s a = [l] := by
          refine grants_single hs fun q => ⟨fun hq => (hrow q).1 hq.1, fun hq => ?_⟩
          exact ⟨(hrow q).2 hq, by rw [hq]; exact hli⟩
        by_cases hlk : l = k
        · rw [hlk] at hg
          exact Or.inr (Or.inl hg)
        · refine Or.inr (Or.inr ⟨l, hlk, hg, ⟨hkeep, ?_⟩, ?_⟩)
          · by_contra hk
            rw [Bool.not_eq_false, hrow] at hk
            exact hlk hk.symm
          · have hnext : (chain (rowOver cfg s i) i l).next i = l := by simp [chain]
            rw [hnext]
            exact Scan.rank_after hfirst hkeep hlk
      · refine Or.inl (hsame ?_ hkeep ?_)
        · funext q
          simp [chain, hij, (rowOver_table cfg s j i q).2]
        · simp [chain, hij, rowOver, statistics, clear, dropReady, slaveFall]
    · have hij : i ≠ j := by
        rintro rfl
        rw [(h.held i k hw.1).2 hw.2] at hp
        cases hp
      refine Or.inl (hsame ?_ hkeep rfl)
      funext q
      change (rowOver cfg s j).idcFsm i q = s.idcFsm i q
      simp [hij, (rowOver_table cfg s j i q).2]

/-- While a master waits, the slave is given to no more others than stand between the pointer and it. -/
theorem waits_bound (as : List (Action n m)) (h : Queue cfg s) (hw : Waits s i k) :
    ((Trans.trace (step cfg) (grants cfg i) s as).takeWhile (· != k)).length ≤ Scan.rank (s.next i + 1) k := by
  induction as generalizing s with
  | nil => simp
  | cons a as ih =>
    cases hs : step cfg s a with
    | none => simp [Trans.trace, grants, hs]
    | some t =>
      have ht := step_queue h hs
      rw [Trans.trace_cons hs]
      obtain ⟨hg, hw', hn⟩ | hg | ⟨l, hlk, hg, hw', hn⟩ := step_waits h hw hs
      · rw [hg, List.nil_append, ← hn]
        exact ih ht hw'
      · rw [hg]
        simp
      · have := ih ht hw'
        rw [hg, List.singleton_append, List.takeWhile_cons_of_pos (by simpa using hlk), List.length_cons]
        omega

/-- A master enters a table at a clock edge, which gives the slave to one master at most. -/
theorem enters {a : Action n m} (h : Queue cfg s) (hs : step cfg s a = some t) (hout : s.reqTable i k = false)
    (hin : t.reqTable i k = true) : grants cfg i s a = [k] ∨ (grants cfg i s a).length ≤ 1 ∧ Waits t i k := by
  obtain ⟨early, -, rfl⟩ | ⟨q, p, -, -, -, -, rfl⟩ | ⟨q, d, -, rfl⟩ | ⟨j, d, -, -, -, hf⟩ | ⟨j, -, -, hseen, hf⟩ :=
    step_cases hs
  · set u := pollClock s early with hu
    have hQ : Queue cfg u := pollClock_queue h early
    have hrow : ∀ q, (idleWake u (pollClock (arbiter cfg u) fun k => !early k)).idcFsm i q =
        (s.idcFsm i q || grant cfg u i == some q) := fun _ => rfl
    cases hb : u.busyFsm i with
    | true =>
      have hk : s.idcFsm i k = false := by
        by_contra hk
        have := (h.books.grp i k (by simpa using hk)).1
        rw [hout] at this
        cases this
      refine Or.inr ⟨?_, hin, ?_⟩
      · rw [grants_of_same hs (funext fun q => ?_)]
        · simp
        · rw [hrow, grant_of_busy hb]
          simp
      · rw [hrow, grant_of_busy hb, hk]
        rfl
    | false =>
      have hempty : ∀ q, s.idcFsm i q = false := hQ.free_row hb
      cases hg : grant cfg u i with
      | none =>
        rw [grant_none hb] at hg
        have : tableAfter cfg u i k = true := hin
        rw [hg k] at this
        cases this
      | some g =>
        have hone : grants cfg i s a = [g] := by
          refine grants_single hs fun q => ?_
          rw [hrow, hempty q, hg, Bool.false_or, beq_iff_eq, Option.some_inj]
          exact ⟨fun hq => hq.1.symm, fun hq => ⟨hq.symm, rfl⟩⟩
        by_cases hgk : g = k
        · rw [hgk] at hone
          exact Or.inl hone
        · refine Or.inr ⟨by rw [hone]; simp, hin, ?_⟩
          rw [hrow, hempty k, hg]
          simpa using hgk
  · exact absurd (hin.symm.trans hout) (by decide)
  · exact absurd (hin.symm.trans hout) (by decide)
  · rw [(rise_cases hf).1.1, hout] at hin
    cases hin
  · have hsub : (rowOver cfg s j).reqTable i k = true → False := by
      intro hk
      rw [(rowOver_table cfg s j i k).1, hout] at hk
      cases hk
    rcases h.fall_cases hf with rfl | ⟨-, ⟨b, c, -, rfl⟩ | ⟨-, l, -, rfl⟩ | ⟨-, rfl⟩⟩
    · exact absurd (hin.symm.trans hout) (by decide)
    · exact absurd (hin.symm.trans hout) (by decide)
    · exact (hsub hin).elim
    · exact (hsub hin).elim

/-- **Bounded bypass**: from the step on that puts the request of master `k` into the table of slave `i`,
the slave is given to at most `n` others before it is given to `k`, whatever the masters do. -/
theorem bounded_bypass {as : List (Action n m)} {a : Action n m} (bs : List (Action n m))
    (hr : Trans.run (step cfg) (init : State n m) as = some s) (hs : step cfg s a = some t)
    (hout : s.reqTable i k = false) (hin : t.reqTable i k = true) :
    ((Trans.trace (step cfg) (grants cfg i) s (a :: bs)).takeWhile (· != k)).length ≤ n := by
  have h : Queue cfg s := Trans.run_inv (Queue cfg) (fun _ _ _ h hs => step_queue h hs) init_queue hr
  rw [Trans.trace_cons hs]
  rcases enters h hs hout hin with hg | ⟨hg, hw⟩
  · rw [hg]
    simp
  · have hrest := waits_bound bs (step_queue h hs) hw
    have hrank := Scan.rank_lt (t.next i + 1) k
    calc _ ≤ (grants cfg i s a).length +
            ((Trans.trace (step cfg) (grants cfg i) t bs).takeWhile (· != k)).length := ?_
      _ ≤ n := by omega
    rw [List.takeWhile_append]
    split
    · rw [List.length_append]
    · have := (List.takeWhile_sublist (p := (· != k)) (l := grants cfg i s a)).length_le
      omega

/-- Two requests for one slave, before the clock edge that scans them. -/
def raiseBoth : List (Action 2 6) := [.raise master0 (semRead 1), .raise master1 (semRead 1)]

/-- The semaphores are given to master 0, and then to master 1. -/
theorem bounded_bypass_raiseBoth :
    ∃ s, Trans.run (step twoMasters) (init : State 2 6) raiseBoth = some s ∧
      ((Trans.trace (step twoMasters) (grants twoMasters 2) s (.clock (fun _ => false) :: (pulse ++ pulse))).takeWhile
        (· != master1)).length ≤ 2 := by
  have hview : (Trans.run (step twoMasters) (init : State 2 6) raiseBoth).bind (fun s =>
      (step twoMasters s (.clock fun _ => false)).map fun t => (s.reqTable 2 master1, t.reqTable 2 master1)) =
      some (false, true) := by decide +kernel
  obtain ⟨s, hs, hview⟩ := Option.bind_eq_some_iff.1 hview
  obtain ⟨t, ht, hview⟩ := Option.map_eq_some_iff.1 hview
  simp only [Prod.mk.injEq] at hview
  exact ⟨s, hs, bounded_bypass (pulse ++ pulse) hs ht hview.1 hview.2⟩

end VirtualSoc.Pic
