import VirtualSoc.Cluster.L3Mux

/-!
# The invariant of the L3 multiplexer (cluster/cl_L3_mux_NM.cpp)

`Granted` says what the scheduling can do: busy ports keep their masters, and a free port takes a master of its row
of the table that no port serves. So busy ports and masters are always matched (`Crossbar.Matching`).

The state of a port (`Port`) and that of the master it serves (`Master`) agree on the beats that are left
(`Busy`); an idle port has nothing (`Idle`). `step_inv`: every action keeps that up.
-/

namespace VirtualSoc.L3Mux

variable {n m : Nat} {cfg : Config} {table : Fin m → Fin n → Bool} {g g' g'' : Grants n m} {s t : State n m}
  {i j : Fin m} {k l : Fin n}

/-! ## The scheduling -/

/-- The master that a busy port serves. -/
def Grants.serves (g : Grants n m) (i : Fin m) : Option (Fin n) := if g.busyFsm i then g.idcFsm i else none

theorem serves_grant (g : Grants n m) (i : Fin m) (k : Fin n) :
    (grant g i k).serves = Function.update g.serves i (some k) := by
  funext j
  unfold Grants.serves grant
  by_cases hj : j = i
  · rw [hj]
    simp
  · simp [hj]

theorem schedulePort_cases (table : Fin m → Fin n → Bool) (g : Grants n m) (i : Fin m) :
    schedulePort table g i = g ∧ (g.busyFsm i = false → ∀ k, table i k = true → g.done k = true) ∨
      ∃ k, g.busyFsm i = false ∧ table i k = true ∧ g.done k = false ∧ schedulePort table g i = grant g i k := by
  unfold schedulePort
  by_cases hb : g.busyFsm i = true
  · rw [if_pos hb]
    refine Or.inl ⟨rfl, fun hf => ?_⟩
    rw [hb] at hf
    cases hf
  · rw [if_neg hb]
    cases hpick : Scan.firstFrom (g.nextToServe i) fun k => table i k && !g.done k with
    | none =>
      refine Or.inl ⟨rfl, fun _ k hk => ?_⟩
      have := Scan.firstFrom_none.1 hpick k
      simpa [hk] using this
    | some k =>
      have hk := Scan.firstFrom_some hpick
      rw [Bool.and_eq_true, Bool.not_eq_true'] at hk
      exact Or.inr ⟨k, by simpa using hb, hk.1, hk.2, rfl⟩

/-- What the scheduling can do: busy ports stay as they are, a free port may take a master of its row that
is not done. -/
structure Granted (table : Fin m → Fin n → Bool) (g g' : Grants n m) : Prop where
  keep : ∀ i, g.busyFsm i = true →
    g'.busyFsm i = true ∧ g'.goFsm i = g.goFsm i ∧ g'.idcFsm i = g.idcFsm i
  free : ∀ i, g.busyFsm i = false → g'.busyFsm i = false ∧ g'.goFsm i = g.goFsm i ∨
    ∃ k, g'.busyFsm i = true ∧ g'.goFsm i = true ∧ g'.idcFsm i = some k ∧ table i k = true ∧ g.done k = false
  mono : ∀ k, g.done k = true → g'.done k = true
  sync : (∀ k, g.done k = g.served k) → ∀ k, g'.done k = g'.served k
  matching : Crossbar.Matching g.serves g.done → Crossbar.Matching g'.serves g'.done

theorem Granted.refl (table : Fin m → Fin n → Bool) (g : Grants n m) : Granted table g g where
  keep _ hb := ⟨hb, rfl, rfl⟩
  free _ hb := Or.inl ⟨hb, rfl⟩
  mono _ hk := hk
  sync hs := hs
  matching hm := hm

theorem Granted.trans (h : Granted table g g') (h' : Granted table g' g'') : Granted table g g'' where
  keep i hb := by
    obtain ⟨hb', hgo, hid⟩ := h.keep i hb
    obtain ⟨hb'', hgo', hid'⟩ := h'.keep i hb'
    exact ⟨hb'', hgo'.trans hgo, hid'.trans hid⟩
  free i hb := by
    rcases h.free i hb with ⟨hb', hgo⟩ | ⟨k, hb', hgo, hid, ht, hd⟩
    · rcases h'.free i hb' with ⟨hb'', hgo'⟩ | ⟨k, hb'', hgo', hid, ht, hd⟩
      · exact Or.inl ⟨hb'', hgo'.trans hgo⟩
      · refine Or.inr ⟨k, hb'', hgo', hid, ht, ?_⟩
        by_contra hdone
        rw [h.mono k (by simpa using hdone)] at hd
        cases hd
    · obtain ⟨hb'', hgo', hid'⟩ := h'.keep i hb'
      exact Or.inr ⟨k, hb'', hgo'.trans hgo, hid'.trans hid, ht, hd⟩
  mono k hk := h'.mono k (h.mono k hk)
  sync hs := h'.sync (h.sync hs)
  matching hm := h'.matching (h.matching hm)

theorem grant_granted (hb : g.busyFsm i = false) (ht : table i k = true) (hd : g.done k = false) :
    Granted table g (grant g i k) where
  keep j hj := by
    have hji : j ≠ i := by
      rintro rfl
      rw [hb] at hj
      cases hj
    simp [grant, hji, hj]
  free j hj := by
    by_cases hji : j = i
    · subst hji
      exact Or.inr ⟨k, by simp [grant], by simp [grant], by simp [grant], ht, hd⟩
    · exact Or.inl (by simp [grant, hji, hj])
  mono l hl := by
    by_cases hlk : l = k
    · simp [grant, hlk]
    · simp [grant, hlk, hl]
  sync hs l := by
    by_cases hlk : l = k
    · simp [grant, hlk]
    · simp [grant, hlk, hs l]
  matching hm := by
    rw [serves_grant]
    exact hm.assign (by simp [Grants.serves, hb]) hd

theorem foldl_granted (table : Fin m → Fin n → Bool) (is : List (Fin m)) (g : Grants n m) :
    Granted table g (is.foldl (schedulePort table) g) := by
  induction is generalizing g with
  | nil => exact Granted.refl table g
  | cons i is ih =>
    refine Granted.trans ?_ (ih (schedulePort table g i))
    obtain ⟨hsame, -⟩ | ⟨k, hb, ht, hd, hgrant⟩ := schedulePort_cases table g i
    · rw [hsame]
      exact Granted.refl table g
    · rw [hgrant]
      exact grant_granted hb ht hd

theorem schedule_granted (table : Fin m → Fin n → Bool) (g : Grants n m) : Granted table g (schedule table g) :=
  foldl_granted table (List.finRange m) g

/-- The fsm waits for the end of a ready pulse. -/
def CtrlState.atNeg : CtrlState → Bool
  | .readNeg | .writeNeg => true
  | _ => false

/-- All there is of one port. -/
structure Port (n : Nat) where
  busy : Bool
  go : Bool
  idc : Option (Fin n)
  request : Bool
  ready : Bool
  pinout : Pinout
  owed : Nat
  cs : CtrlState
  burst : Nat
  burstCtr : Nat

/-- All there is of one master. -/
structure Master where
  request : Bool
  ready : Bool
  pinout : Pinout
  beats : Nat
  poll : Poll
  req : Bool
  done : Bool
  served : Bool

def State.port (s : State n m) (i : Fin m) : Port n where
  busy := s.busyFsm i
  go := s.goFsm i
  idc := s.idcFsm i
  request := s.requestL3 i
  ready := s.readyL3 i
  pinout := s.pinoutL3 i
  owed := s.owed i
  cs := s.cs i
  burst := s.burst i
  burstCtr := s.burstCtr i

def State.master (s : State n m) (k : Fin n) : Master where
  request := s.requestCore k
  ready := s.readyCore k
  pinout := s.pinoutCore k
  beats := s.beats k
  poll := s.poll k
  req := s.req k
  done := s.done k
  served := s.served k

/-- The mapping lets the port serve the master. -/
def Route (cfg : Config) (i : Fin m) (k : Fin n) : Prop :=
  cfg.staticMapping = true → i.val = getMyPortId n m k

structure Idle (p : Port n) : Prop where
  busy : p.busy = false
  go : p.go = false
  request : p.request = false
  ready : p.ready = false
  owed : p.owed = 0

/-- Port `i` serves master `k`: they agree on the beats that are left. -/
structure Busy (cfg : Config) (i : Fin m) (p : Port n) (k : Fin n) (q : Master) : Prop where
  busy : p.busy = true
  idc : p.idc = some k
  route : Route cfg i k
  request : p.request = true
  asked : q.request = true
  latch : p.pinout.burst = p.burst
  burst : q.pinout.burst = p.burst
  count : p.burstCtr < p.burst
  beats : q.beats + p.burstCtr = p.burst
  owed : p.owed + p.burstCtr = p.burst ∨ p.cs.atNeg = false ∧ p.owed = 0 ∧ p.burstCtr = 0
  ready : p.ready = p.cs.atNeg
  core : q.ready = p.cs.atNeg

structure MasterOk (q : Master) : Prop where
  asked : q.req = q.request
  poll : q.poll = if q.request then .waitServed else .waitRequest
  fresh : q.request = true → q.served = false → q.beats = q.pinout.burst ∧ 1 ≤ q.pinout.burst
  quiet : q.served = false → q.ready = false
  sync : q.done = q.served

def PortOk (cfg : Config) (i : Fin m) (p : Port n) (master : Fin n → Master) : Prop :=
  (p.cs = .idle → Idle p) ∧ (p.cs ≠ .idle → ∃ k, Busy cfg i p k (master k))

structure Inv (cfg : Config) (s : State n m) : Prop where
  master : ∀ k, MasterOk (s.master k)
  table : ∀ i k, s.reqTable i k = true → s.requestCore k = true ∧ Route cfg i k
  matching : Crossbar.Matching s.serves s.done
  port : ∀ i, PortOk cfg i (s.port i) s.master

theorem init_inv (cfg : Config) : Inv cfg (init : State n m) where
  master k := by
    refine ⟨rfl, rfl, fun h => ?_, fun _ => rfl, rfl⟩
    cases h
  table i k h := by cases h
  matching := by
    refine ⟨fun i j k h => ?_, fun k => ⟨fun h => ?_, ?_⟩⟩
    · cases h
    · cases h
    · rintro ⟨i, h⟩
      cases h
  port i := ⟨fun _ => ⟨rfl, rfl, rfl, rfl, rfl⟩, fun h => absurd rfl h⟩

theorem Inv.busy_iff (h : Inv cfg s) (i : Fin m) : s.busyFsm i = true ↔ s.cs i ≠ .idle := by
  constructor
  · intro hb hcs
    have := ((h.port i).1 hcs).busy
    rw [show (s.port i).busy = true from hb] at this
    cases this
  · intro hcs
    obtain ⟨k, hB⟩ := (h.port i).2 hcs
    exact hB.busy

theorem Inv.serves_iff (h : Inv cfg s) (i : Fin m) (k : Fin n) :
    s.serves i = some k ↔ Busy cfg i (s.port i) k (s.master k) := by
  unfold Grants.serves
  constructor
  · intro hs
    obtain ⟨hb, hid⟩ := Option.ite_none_right_eq_some.1 hs
    obtain ⟨l, hB⟩ := (h.port i).2 ((h.busy_iff i).1 hb)
    obtain rfl : l = k := Option.some.inj (hB.idc.symm.trans hid)
    exact hB
  · intro hB
    exact (if_pos hB.busy).trans hB.idc

/-- Who has not asked is served by no port. -/
theorem Inv.not_served (h : Inv cfg s) (hk : s.requestCore k = false) : s.served k = false := by
  have hsync : s.done k = s.served k := (h.master k).sync
  rw [← hsync]
  by_contra hdone
  obtain ⟨i, hi⟩ := (h.matching.taken k).1 (by simpa using hdone)
  have : s.requestCore k = true := ((h.serves_iff i k).1 hi).asked
  rw [hk] at this
  cases this

theorem Inv.served (h : Inv cfg s) (hB : Busy cfg i (s.port i) k (s.master k)) : s.served k = true := by
  have hsync : s.done k = s.served k := (h.master k).sync
  rw [← hsync]
  exact (h.matching.taken k).2 ⟨i, (h.serves_iff i k).2 hB⟩

/-- A port that serves another master, and is not touched itself, stays as it was. -/
theorem Inv.port_frame (h : Inv cfg s) (hports : t.port j = s.port j)
    (hmasters : ∀ l, s.serves j = some l → t.master l = s.master l) : PortOk cfg j (t.port j) t.master := by
  rw [hports]
  refine ⟨(h.port j).1, fun hcs => ?_⟩
  obtain ⟨l, hB⟩ := (h.port j).2 hcs
  refine ⟨l, ?_⟩
  rw [hmasters l ((h.serves_iff j l).2 hB)]
  exact hB

/-- A step of a port and the master that it serves leaves the other ports and masters as they were. -/
theorem Inv.served_frame (h : Inv cfg s) (hB : Busy cfg i (s.port i) k (s.master k))
    (hports : ∀ j, j ≠ i → t.port j = s.port j) (hmasters : ∀ l, l ≠ k → t.master l = s.master l)
    (htable : ∀ j l, t.reqTable j l = true → t.requestCore l = true ∧ Route cfg j l)
    (hmatching : Crossbar.Matching t.serves t.done) (hmaster : MasterOk (t.master k))
    (hport : PortOk cfg i (t.port i) t.master) : Inv cfg t := by
  refine ⟨fun l => ?_, htable, hmatching, fun j => ?_⟩
  · by_cases hl : l = k
    · rw [hl]
      exact hmaster
    · rw [hmasters l hl]
      exact h.master l
  · by_cases hj : j = i
    · rw [hj]
      exact hport
    · refine h.port_frame (hports j hj) fun l hl => hmasters l ?_
      rintro rfl
      exact hj (h.matching.inj j i l hl ((h.serves_iff i l).2 hB))

/-! ## The masters -/

theorem raise_inv {p : Pinout} (h : Inv cfg s) (hk : s.requestCore k = false) (hp : 1 ≤ p.burst) :
    Inv cfg (raiseRequest s k p) := by
  have hserved := h.not_served hk
  have hpoll : s.poll k = .waitRequest := by
    have := (h.master k).poll
    rw [show (s.master k).request = false from hk] at this
    exact this
  have hother : ∀ l, l ≠ k → (raiseRequest s k p).master l = s.master l := by
    intro l hl
    simp [State.master, raiseRequest, hpoll, hl]
  have hself : (raiseRequest s k p).master k =
      { s.master k with request := true, pinout := p, beats := p.burst, req := true, poll := .waitServed } := by
    simp [State.master, raiseRequest, hpoll]
  refine ⟨fun l => ?_, fun i l hl => ?_, h.matching, fun j => h.port_frame rfl fun l hl => hother l ?_⟩
  · by_cases hl : l = k
    · subst hl
      rw [hself]
      exact ⟨rfl, rfl, fun _ _ => ⟨rfl, hp⟩, (h.master l).quiet, (h.master l).sync⟩
    · rw [hother l hl]
      exact h.master l
  · obtain ⟨hr, hroute⟩ := h.table i l hl
    refine ⟨?_, hroute⟩
    by_cases hlk : l = k
    · simp [raiseRequest, hlk]
    · simpa [raiseRequest, hlk] using hr
  · rintro rfl
    have hreq : s.requestCore l = true := ((h.serves_iff j l).1 hl).asked
    rw [hk] at hreq
    cases hreq

theorem beat_inv (h : Inv cfg s) (k : Fin n) (d : UInt32) :
    Inv cfg { s with pinoutCore := Function.update s.pinoutCore k { s.pinoutCore k with data := d } } := by
  have hburst : ∀ l, (Function.update s.pinoutCore k { s.pinoutCore k with data := d } l).burst =
      (s.pinoutCore l).burst := by
    intro l
    by_cases hl : l = k
    · rw [hl, Function.update_self]
    · rw [Function.update_of_ne hl]
  refine ⟨fun l => ?_, h.table, h.matching, fun j => ⟨(h.port j).1, fun hcs => ?_⟩⟩
  · have hM := h.master l
    refine ⟨hM.asked, hM.poll, fun hr hs => ?_, hM.quiet, hM.sync⟩
    obtain ⟨hbeats, hone⟩ := hM.fresh hr hs
    exact ⟨hbeats.trans (hburst l).symm, hone.trans_eq (hburst l).symm⟩
  · obtain ⟨l, hB⟩ := (h.port j).2 hcs
    exact ⟨l, hB.busy, hB.idc, hB.route, hB.request, hB.asked, hB.latch, (hburst l).trans hB.burst, hB.count,
      hB.beats, hB.owed, hB.ready, hB.core⟩

/-! ## The clock -/

theorem port_wake (hw : wakes s t i = true) : (idleWake s t).port i =
    { t.port i with
      request := true
      pinout := granted t i
      cs := if (granted t i).rw then .writePos else .readPos
      burst := (granted t i).burst
      burstCtr := 0 } := by
  simp [State.port, idleWake, hw]

theorem port_sleep (hw : wakes s t i = false) : (idleWake s t).port i = t.port i := by
  simp [State.port, idleWake, hw]

theorem table_spec (h : Inv cfg s) (hk : tableAfter cfg s i k = true) :
    s.requestCore k = true ∧ Route cfg i k := by
  have hasked : s.req k = s.requestCore k := (h.master k).asked
  unfold tableAfter at hk
  simp only [Bool.or_eq_true, Bool.and_eq_true, Bool.not_eq_true', decide_eq_true_eq] at hk
  rcases hk with hk | ⟨⟨hreq, -⟩, hroute⟩
  · exact h.table i k hk
  · refine ⟨hasked ▸ hreq, fun hstatic => ?_⟩
    rcases hroute with hdyn | hroute
    · rw [hstatic] at hdyn
      cases hdyn
    · exact hroute

theorem arbiter_granted (cfg : Config) (s : State n m) :
    Granted (tableAfter cfg s) { s.toGrants with goFsm := fun _ => false } (arbiter cfg s).toGrants :=
  schedule_granted _ _

/-- What an edge of the clock does at a port: it stays idle, it stays busy with its master, or it wakes for a
master that has not been served. -/
theorem clock_port (h : Inv cfg s) (i : Fin m) :
    (wakes s (arbiter cfg s) i = false ∧ s.cs i = .idle ∧ (arbiter cfg s).busyFsm i = false ∧
        (arbiter cfg s).goFsm i = false) ∨
      (wakes s (arbiter cfg s) i = false ∧ s.cs i ≠ .idle ∧ (arbiter cfg s).busyFsm i = true ∧
        (arbiter cfg s).idcFsm i = s.idcFsm i) ∨
      ∃ k, wakes s (arbiter cfg s) i = true ∧ s.cs i = .idle ∧ (arbiter cfg s).busyFsm i = true ∧
        (arbiter cfg s).idcFsm i = some k ∧ s.requestCore k = true ∧ Route cfg i k ∧ s.served k = false := by
  have hG := arbiter_granted cfg s
  by_cases hcs : s.cs i = .idle
  · have hI := (h.port i).1 hcs
    rcases hG.free i hI.busy with ⟨hb, hgo⟩ | ⟨k, hb, hgo, hid, ht, hd⟩
    · refine Or.inl ⟨?_, hcs, hb, hgo⟩
      unfold wakes
      rw [hgo]
      simp
    · obtain ⟨hreq, hroute⟩ := table_spec h ht
      have hsync : s.done k = s.served k := (h.master k).sync
      refine Or.inr (Or.inr ⟨k, ?_, hcs, hb, hid, hreq, hroute, hsync.symm.trans hd⟩)
      unfold wakes
      rw [hgo, show s.goFsm i = false from hI.go, hcs]
      rfl
  · obtain ⟨hb, -, hid⟩ := hG.keep i ((h.busy_iff i).2 hcs)
    refine Or.inr (Or.inl ⟨?_, hcs, hb, hid⟩)
    have hne : (s.cs i == .idle) = false := by simpa using hcs
    unfold wakes
    rw [hne, Bool.and_false]

/-- Who is served before the edge is served after it. -/
theorem clock_served (h : Inv cfg s) (hk : (arbiter cfg s).served k = false) : s.served k = false := by
  have hsync : s.done k = s.served k := (h.master k).sync
  have hsync' : (arbiter cfg s).done k = (arbiter cfg s).served k :=
    (arbiter_granted cfg s).sync (fun k => (h.master k).sync) k
  rw [← hsync]
  by_contra hd
  rw [← hsync', (arbiter_granted cfg s).mono k (by simpa using hd)] at hk
  cases hk

/-- The edge of the clock: the arbiter, and the fsms that it wakes. -/
theorem clock_inv (h : Inv cfg s) : Inv cfg (idleWake s (arbiter cfg s)) := by
  have hG := arbiter_granted cfg s
  refine ⟨fun l => ?_, fun i l hl => table_spec (s := s) h hl, hG.matching h.matching, fun i => ?_⟩
  · have hM := h.master l
    exact ⟨hM.asked, hM.poll, fun hr hs => hM.fresh hr (clock_served h hs), fun hs => hM.quiet (clock_served h hs),
      hG.sync (fun k => (h.master k).sync) l⟩
  · rcases clock_port h i with ⟨hw, hcs, hb, hgo⟩ | ⟨hw, hcs, hb, hid⟩ |
      ⟨k, hw, hcs, hb, hid, hreq, hroute, hserved⟩
    · have hI := (h.port i).1 hcs
      rw [port_sleep hw]
      exact ⟨fun _ => ⟨hb, hgo, hI.request, hI.ready, hI.owed⟩, fun hne => absurd hcs hne⟩
    · obtain ⟨k, hB⟩ := (h.port i).2 hcs
      rw [port_sleep hw]
      exact ⟨fun hidle => absurd hidle hcs, fun _ => ⟨k, hb, hid.trans hB.idc, hB.route, hB.request, hB.asked,
        hB.latch, hB.burst, hB.count, hB.beats, hB.owed, hB.ready, hB.core⟩⟩
    · -- the fsm wakes for the new master, with its burst
      have hI := (h.port i).1 hcs
      obtain ⟨hbeats, hburst⟩ := (h.master k).fresh hreq hserved
      have hgranted : granted (arbiter cfg s) i = s.pinoutCore k := by
        unfold granted
        rw [hid]
        rfl
      have hneg : (if (s.pinoutCore k).rw then CtrlState.writePos else CtrlState.readPos).atNeg = false := by
        split <;> rfl
      rw [port_wake hw, hgranted]
      refine ⟨fun hidle => ?_, fun _ => ⟨k, ?_⟩⟩
      · change (if (s.pinoutCore k).rw then CtrlState.writePos else CtrlState.readPos) = .idle at hidle
        split at hidle <;> cases hidle
      · exact ⟨hb, hid, hroute, rfl, hreq, rfl, rfl, hburst, hbeats, Or.inr ⟨hneg, hI.owed, rfl⟩,
          hI.ready.trans hneg.symm, ((h.master k).quiet hserved).trans hneg.symm⟩

/-! ## The pulses of the memory -/

/-- Only a busy port is answered. -/
theorem Inv.rise_busy (h : Inv cfg s) (hready : s.readyL3 i = false) (hg : s.requestL3 i = true ∨ 0 < s.owed i) :
    ∃ k, Busy cfg i (s.port i) k (s.master k) ∧ (s.cs i = .readPos ∨ s.cs i = .writePos) := by
  have hcs : s.cs i ≠ .idle := by
    intro hcs
    have hI := (h.port i).1 hcs
    have hrequest : s.requestL3 i = false := hI.request
    have howed : s.owed i = 0 := hI.owed
    rcases hg with hg | hg
    · rw [hrequest] at hg
      cases hg
    · omega
  obtain ⟨k, hB⟩ := (h.port i).2 hcs
  have hneg : (s.cs i).atNeg = false := hB.ready.symm.trans hready
  refine ⟨k, hB, ?_⟩
  cases hc : s.cs i with
  | idle => exact absurd hc hcs
  | readPos => exact Or.inl rfl
  | writePos => exact Or.inr rfl
  | readNeg => rw [hc] at hneg; cases hneg
  | writeNeg => rw [hc] at hneg; cases hneg

/-- **A pulse begins**: the ready line of the one master that the port serves rises with it. -/
theorem rise_eq (hB : Busy cfg i (s.port i) k (s.master k)) (hc : s.cs i = .readPos ∨ s.cs i = .writePos)
    (d : UInt32) : ∃ c pc pl, c ≠ .idle ∧ c.atNeg = true ∧ pc.burst = s.burst i ∧ pl.burst = s.burst i ∧
      fsmPos (l3Rise s i d) i =
        { l3Rise s i d with
          pinoutCore := Function.update s.pinoutCore k pc
          pinoutL3 := Function.update s.pinoutL3 i pl
          readyCore := Function.update s.readyCore k true
          cs := Function.update s.cs i c } := by
  have hid : s.idcFsm i = some k := hB.idc
  have hl3 : ∃ pl : Pinout, pl.burst = s.burst i ∧
      (l3Rise s i d).pinoutL3 = Function.update s.pinoutL3 i pl := by
    unfold l3Rise
    by_cases hrw : (s.pinoutL3 i).rw = true
    · exact ⟨s.pinoutL3 i, hB.latch, by simp [hrw]⟩
    · exact ⟨{ s.pinoutL3 i with data := d }, hB.latch, by simp [hrw]⟩
  obtain ⟨pl, hpl, hl3⟩ := hl3
  unfold fsmPos
  rw [show (l3Rise s i d).cs i = s.cs i from rfl, show (l3Rise s i d).idcFsm i = some k from hid]
  rcases hc with hc | hc
  · rw [hc]
    refine ⟨.readNeg, pl, pl, by decide, rfl, hpl, hpl, ?_⟩
    rw [hl3, Function.update_self]
    rfl
  · rw [hc]
    refine ⟨.writeNeg, s.pinoutCore k, s.pinoutCore k, by decide, rfl, hB.burst, hB.burst, ?_⟩
    simp only [hl3, Function.update_idem, Function.update_eq_self]
    rfl

theorem rise_inv (h : Inv cfg s) (hready : s.readyL3 i = false) (hg : s.requestL3 i = true ∨ 0 < s.owed i)
    (d : UInt32) : Inv cfg (fsmPos (l3Rise s i d) i) := by
  obtain ⟨k, hB, hc⟩ := h.rise_busy hready hg
  obtain ⟨c, pc, pl, hne, hneg, hpc, hpl, heq⟩ := rise_eq hB hc d
  have hserved := h.served hB
  have hM := h.master k
  rw [heq]
  refine h.served_frame hB (fun j hj => ?_) (fun l hl => ?_) h.table h.matching ?_ ?_
  · simp [State.port, l3Rise, hj]
  · simp [State.master, l3Rise, hl]
  · refine ⟨hM.asked, hM.poll, fun _ hs => ?_, fun hs => ?_, hM.sync⟩
    · exact absurd (hs.symm.trans hserved) (by decide)
    · exact absurd (hs.symm.trans hserved) (by decide)
  · refine ⟨fun hidle => ?_, fun _ => ⟨k, hB.busy, hB.idc, hB.route, hB.request, hB.asked, ?_, ?_, hB.count,
      hB.beats, ?_, ?_, ?_⟩⟩
    · simp only [State.port, Function.update_self] at hidle
      exact absurd hidle hne
    · simp [State.port, hpl, l3Rise]
    · simp [State.port, State.master, hpc, l3Rise]
    · have hcount : s.burstCtr i < s.burst i := hB.count
      have hlatch : (s.pinoutL3 i).burst = s.burst i := hB.latch
      left
      simp only [State.port, l3Rise, Function.update_self]
      rcases hB.owed with ho | ⟨-, ho, hctr⟩
      · have ho : s.owed i + s.burstCtr i = s.burst i := ho
        rw [if_neg (by omega)]
        exact ho
      · have ho : s.owed i = 0 := ho
        have hctr : s.burstCtr i = 0 := hctr
        rw [if_pos ho, hlatch, hctr, Nat.add_zero]
    · simp [State.port, l3Rise, hneg]
    · simp [State.port, State.master, hneg]

/-- Only a busy port has its ready up. -/
theorem Inv.fall_busy (h : Inv cfg s) (hready : s.readyL3 i = true) :
    ∃ k pos, Busy cfg i (s.port i) k (s.master k) ∧ (s.cs i).atNeg = true ∧ pos ≠ .idle ∧
      pos.atNeg = false ∧ fsmNeg (l3Fall s i) i = beatEnd (l3Fall s i) i k pos := by
  have hcs : s.cs i ≠ .idle := by
    intro hcs
    have hI := ((h.port i).1 hcs).ready
    exact absurd (hI.symm.trans hready) (by decide)
  obtain ⟨k, hB⟩ := (h.port i).2 hcs
  have hid : s.idcFsm i = some k := hB.idc
  have hneg : (s.cs i).atNeg = true := hB.ready.symm.trans hready
  unfold fsmNeg
  rw [show (l3Fall s i).cs i = s.cs i from rfl, show (l3Fall s i).idcFsm i = some k from hid]
  cases hc : s.cs i with
  | idle => exact absurd hc hcs
  | readPos => rw [hc] at hneg; cases hneg
  | writePos => rw [hc] at hneg; cases hneg
  | readNeg => exact ⟨k, .readPos, hB, rfl, by decide, rfl, rfl⟩
  | writeNeg => exact ⟨k, .writePos, hB, rfl, by decide, rfl, rfl⟩

/-- The state in the middle of a burst, when the pulse of port `i` is over. -/
def pulseOver (s : State n m) (i : Fin m) (k : Fin n) (pos : CtrlState) : State n m :=
  { l3Fall s i with
    readyCore := Function.update s.readyCore k false
    beats := Function.update s.beats k (s.beats k - 1)
    burstCtr := Function.update s.burstCtr i (s.burstCtr i + 1)
    cs := Function.update s.cs i pos }

/-- The state when the burst of port `i` is over, and with it the request of `k`. -/
def burstOver (s : State n m) (i : Fin m) (k : Fin n) : State n m :=
  { l3Fall s i with
    readyCore := Function.update s.readyCore k false
    beats := Function.update s.beats k 0
    requestCore := Function.update s.requestCore k false
    requestL3 := Function.update s.requestL3 i false
    req := Function.update s.req k false
    busyFsm := Function.update s.busyFsm i false
    served := Function.update s.served k false
    poll := Function.update s.poll k .waitRequest
    done := Function.update s.done k false
    goFsm := Function.update s.goFsm i false
    reqTable := fun j => Function.update (s.reqTable j) k false
    cs := Function.update s.cs i .idle }

/-- **A pulse ends**: the fsm and the master agree whether it was the last. -/
theorem fall_eq (h : Inv cfg s) (hB : Busy cfg i (s.port i) k (s.master k)) (hneg : (s.cs i).atNeg = true)
    (pos : CtrlState) :
    (s.burstCtr i + 1 < s.burst i ∧ 1 < s.beats k ∧ beatEnd (l3Fall s i) i k pos = pulseOver s i k pos) ∨
      (s.burstCtr i + 1 = s.burst i ∧ s.beats k = 1 ∧ beatEnd (l3Fall s i) i k pos = burstOver s i k) := by
  have hcount : s.burstCtr i < s.burst i := hB.count
  have hbeats : s.beats k + s.burstCtr i = s.burst i := hB.beats
  have hready : s.readyCore k = true := hB.core.trans hneg
  have hserved := h.served hB
  have hpoll : s.poll k = .waitServed := by
    have := (h.master k).poll
    rw [hB.asked] at this
    exact this
  unfold beatEnd
  by_cases hlt : s.burstCtr i + 1 < s.burst i
  · left
    refine ⟨hlt, by omega, ?_⟩
    rw [if_pos (show (l3Fall s i).burstCtr i + 1 < (l3Fall s i).burst i from hlt)]
    have h1 : ¬ s.beats k = 1 := by omega
    simp [dropReady, l3Fall, pulseOver, hready, h1]
  · right
    have h1 : s.beats k = 1 := by omega
    refine ⟨by omega, h1, ?_⟩
    rw [if_neg (show ¬ (l3Fall s i).burstCtr i + 1 < (l3Fall s i).burst i from hlt)]
    simp [dropReady, finish, l3Fall, burstOver, hready, h1, hserved, hpoll]

theorem pulseOver_inv (h : Inv cfg s) (hB : Busy cfg i (s.port i) k (s.master k)) (hneg : (s.cs i).atNeg = true)
    {pos : CtrlState} (hne : pos ≠ .idle) (hpos : pos.atNeg = false) (hlt : s.burstCtr i + 1 < s.burst i) :
    Inv cfg (pulseOver s i k pos) := by
  have hserved := h.served hB
  have hM := h.master k
  refine h.served_frame hB (fun j hj => ?_) (fun l hl => ?_) h.table h.matching ?_ ?_
  · simp [State.port, pulseOver, l3Fall, hj]
  · simp [State.master, pulseOver, l3Fall, hl]
  · refine ⟨hM.asked, hM.poll, fun _ hs => ?_, fun hs => ?_, hM.sync⟩
    · exact absurd (hs.symm.trans hserved) (by decide)
    · exact absurd (hs.symm.trans hserved) (by decide)
  · have hbeats : s.beats k + s.burstCtr i = s.burst i := hB.beats
    refine ⟨fun hidle => ?_, fun _ => ⟨k, hB.busy, hB.idc, hB.route, hB.request, hB.asked, hB.latch, hB.burst,
      ?_, ?_, ?_, ?_, ?_⟩⟩
    · simp only [State.port, pulseOver, Function.update_self] at hidle
      exact absurd hidle hne
    · simp only [State.port, pulseOver, Function.update_self]
      exact hlt
    · simp only [State.port, State.master, pulseOver, l3Fall, Function.update_self]
      omega
    · left
      simp only [State.port, pulseOver, l3Fall, Function.update_self]
      rcases hB.owed with ho | ⟨hf, -⟩
      · have ho : s.owed i + s.burstCtr i = s.burst i := ho
        omega
      · exact absurd (hf.symm.trans hneg) (by decide)
    · simp [State.port, pulseOver, l3Fall, hpos]
    · simp [State.port, State.master, pulseOver, hpos]

theorem serves_burstOver (s : State n m) (i : Fin m) (k : Fin n) :
    (burstOver s i k).serves = Function.update s.serves i none := by
  funext j
  unfold Grants.serves burstOver
  by_cases hj : j = i
  · rw [hj]
    simp
  · simp [hj, l3Fall]

theorem burstOver_inv (h : Inv cfg s) (hB : Busy cfg i (s.port i) k (s.master k)) (hneg : (s.cs i).atNeg = true)
    (hlast : s.burstCtr i + 1 = s.burst i) : Inv cfg (burstOver s i k) := by
  refine h.served_frame hB (fun j hj => ?_) (fun l hl => ?_) (fun j l hl => ?_) ?_ ?_ ?_
  · simp [State.port, burstOver, l3Fall, hj]
  · simp [State.master, burstOver, l3Fall, hl]
  · by_cases hlk : l = k
    · subst hlk
      simp [burstOver] at hl
    · simp only [burstOver, Function.update_of_ne hlk] at hl ⊢
      exact h.table j l hl
  · rw [serves_burstOver]
    exact h.matching.release ((h.serves_iff i k).2 hB)
  · simp only [State.master, burstOver, Function.update_self]
    exact ⟨rfl, rfl, fun hr => absurd hr Bool.false_ne_true, fun _ => rfl, rfl⟩
  · refine ⟨fun _ => ?_, fun hne => ?_⟩
    · constructor
      · simp [State.port, burstOver]
      · simp [State.port, burstOver]
      · simp [State.port, burstOver]
      · simp [State.port, burstOver, l3Fall]
      · simp only [State.port, burstOver, l3Fall, Function.update_self]
        rcases hB.owed with ho | ⟨hf, -⟩
        · have ho : s.owed i + s.burstCtr i = s.burst i := ho
          omega
        · exact absurd (hf.symm.trans hneg) (by decide)
    · simp [State.port, burstOver] at hne

theorem fall_inv (h : Inv cfg s) (hready : s.readyL3 i = true) : Inv cfg (fsmNeg (l3Fall s i) i) := by
  obtain ⟨k, pos, hB, hneg, hne, hpos, heq⟩ := h.fall_busy hready
  rw [heq]
  obtain ⟨hlt, -, hover⟩ | ⟨hlast, -, hover⟩ := fall_eq h hB hneg pos
  · rw [hover]
    exact pulseOver_inv h hB hneg hne hpos hlt
  · rw [hover]
    exact burstOver_inv h hB hneg hlast

/-! ## Every action -/

theorem step_cases {a : Action n m} (hs : step cfg s a = some t) :
    (a = .clock ∧ t = idleWake s (arbiter cfg s)) ∨
    (∃ k p, a = .raise k p ∧ s.requestCore k = false ∧ 1 ≤ p.burst ∧ t = raiseRequest s k p) ∨
    (∃ k d, a = .beat k d ∧ t = { s with
      pinoutCore := Function.update s.pinoutCore k { s.pinoutCore k with data := d } }) ∨
    (∃ i d, a = .rise i d ∧ s.readyL3 i = false ∧ (s.requestL3 i = true ∨ 0 < s.owed i) ∧
      t = fsmPos (l3Rise s i d) i) ∨
    (∃ i, a = .fall i ∧ s.readyL3 i = true ∧ t = fsmNeg (l3Fall s i) i) := by
  cases a with
  | clock =>
    cases hs
    exact Or.inl ⟨rfl, rfl⟩
  | raise k p =>
    obtain ⟨hg, hs⟩ := Option.ite_none_right_eq_some.1 hs
    cases hs
    simp only [Bool.and_eq_true, Bool.not_eq_true', decide_eq_true_eq] at hg
    exact Or.inr (Or.inl ⟨k, p, rfl, hg.1, hg.2, rfl⟩)
  | beat k d =>
    obtain ⟨-, hs⟩ := Option.ite_none_right_eq_some.1 hs
    cases hs
    exact Or.inr (Or.inr (Or.inl ⟨k, d, rfl, rfl⟩))
  | rise i d =>
    obtain ⟨hg, hs⟩ := Option.ite_none_right_eq_some.1 hs
    cases hs
    simp only [Bool.and_eq_true, Bool.or_eq_true, Bool.not_eq_true', decide_eq_true_eq] at hg
    exact Or.inr (Or.inr (Or.inr (Or.inl ⟨i, d, rfl, hg.1.1, hg.2, rfl⟩)))
  | fall i =>
    obtain ⟨hg, hs⟩ := Option.ite_none_right_eq_some.1 hs
    cases hs
    rw [Bool.and_eq_true] at hg
    exact Or.inr (Or.inr (Or.inr (Or.inr ⟨i, rfl, hg.1, rfl⟩)))

/-- **Every action keeps the invariant.** -/
theorem step_inv {a : Action n m} (h : Inv cfg s) (hs : step cfg s a = some t) : Inv cfg t := by
  obtain ⟨-, rfl⟩ | ⟨k, p, -, hk, hp, rfl⟩ | ⟨k, d, -, rfl⟩ | ⟨i, d, -, hready, hg, rfl⟩ | ⟨i, -, hready, rfl⟩ :=
    step_cases hs
  · exact clock_inv h
  · exact raise_inv h hk hp
  · exact beat_inv h k d
  · exact rise_inv h hready hg d
  · exact fall_inv h hready

end VirtualSoc.L3Mux
