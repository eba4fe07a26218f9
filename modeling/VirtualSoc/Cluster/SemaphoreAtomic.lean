import Mathlib.Tactic.Common
import VirtualSoc.Cluster.Semaphore
import VirtualSoc.Cluster.PicPort

/-!
# The semaphores are atomic (cluster/cl_semaphore.cpp, cluster/cl_pic.cpp)

The device and the fsm of its port agree on the access under way (`Inv`): the device rests exactly while the port
does, it works on the request that the port has put up, and its ready pulse is the one that the fsm waits to end. So
what the masters see of the semaphores is one memory whose accesses come one at a time (`step_object`): every request
is one access, between the time that it is raised and its answer, and the answer of a read is what that access found.
-/

namespace VirtualSoc.Semaphore

variable {n m : Nat} {c : Config n m} {s t : State n m}

/-! ## The memory -/

theorem sem_bounds {address : Nat} (h : isInSemSpace address 0 = true) :
    0x09000000 ≤ address ∧ address < 0x09004000 := by
  have h' := of_decide_eq_true h
  simp only [tileAddr, CL_SEM_BASE, CL_SEM_SIZE, TILE_SPACING] at h'
  omega

theorem L3_bounds {address : Nat} (h : isInL3Space address 0 = true) : address < 0x08000000 := by
  have h' := of_decide_eq_true h
  simp only [tileAddr, CL_L3_BASE, CL_L3_SIZE, TILE_SPACING] at h'
  omega

theorem addressing_lt {address : Nat} (h : isInSemSpace address 0 = true) : addressing address < CL_SEM_SIZE := by
  have hb := sem_bounds h
  have heq : addressing address = (address + 4294967296 - 0x09000000) % 4294967296 := rfl
  rw [heq]
  change _ < 0x4000
  omega

theorem read_inside {mem : MemClass} {address : Nat} (hmem : mem.size = CL_SEM_SIZE)
    (h : isInSemSpace address 0 = true) :
    ∃ x, read mem address MEM_WORD = some x ∧ x.2.size = CL_SEM_SIZE := by
  have hno : ¬ addressing address ≥ mem.size := by
    rw [hmem]
    exact Nat.not_le.2 (addressing_lt h)
  rw [read, if_pos rfl, SemaphoreMem.read, if_neg hno]
  refine ⟨_, rfl, ?_⟩
  dsimp only
  split
  · rw [MemClass.size_store, hmem]
  · exact hmem

theorem write_inside {mem : MemClass} {address : Nat} (data : UInt32) (hmem : mem.size = CL_SEM_SIZE)
    (h : isInSemSpace address 0 = true) : ∃ mem', write mem address data = some mem' ∧ mem'.size = CL_SEM_SIZE := by
  have hno : ¬ addressing address ≥ mem.size := by
    rw [hmem]
    exact Nat.not_le.2 (addressing_lt h)
  rw [write, SemaphoreMem.write, if_neg hno]
  exact ⟨_, rfl, by rw [MemClass.size_store, hmem]⟩

/-- The access of the device is the one of the object. -/
theorem access_spec {d : Device} (hbw : d.mast_pinout.bw = MEM_WORD) (haddr : d.addr = d.mast_pinout.address)
    (hmem : d.mem.size = CL_SEM_SIZE) (h : isInSemSpace d.mast_pinout.address 0 = true) :
    ∃ x, apply d.mem (.of d.mast_pinout) = some x ∧ x.1.size = CL_SEM_SIZE ∧ ∃ d', d.access = some d' ∧
      d'.mem = x.1 ∧ d'.phase = d.phase ∧ d'.mast_pinout = d.mast_pinout ∧ d'.addr = d.addr ∧
      x.2 = if d.mast_pinout.rw then none else some d'.data := by
  cases hrw : d.mast_pinout.rw with
  | true =>
    obtain ⟨mem', hw, hsize⟩ := write_inside d.mast_pinout.data hmem h
    refine ⟨(mem', none), by simp [apply, Op.of, hrw, hw], hsize, { d with mem := mem', ready := false }, ?_, rfl, rfl,
      rfl, rfl, rfl⟩
    simp [Device.access, hrw, haddr, hw]
  | false =>
    obtain ⟨x, hr, hsize⟩ := read_inside hmem h
    refine ⟨(x.2, some x.1), by simp [apply, Op.of, hrw, hr], hsize,
      { d with data := x.1, mem := x.2, ready := false }, ?_, rfl, rfl, rfl, rfl, by simp⟩
    simp [Device.access, hrw, haddr, hbw, hr]

/-! ## The device and its port -/

/-- The port waits for a pulse of the access that it has put up. -/
def Awaits (c : Config n m) (s : State n m) : Prop :=
  s.pic.cs c.port = .readPos ∧ (s.pic.pinoutSlave c.port).rw = false ∨
    s.pic.cs c.port = .writePos ∧ (s.pic.pinoutSlave c.port).rw = true

inductive Agree (c : Config n m) (s : State n m) : Prop
  | resting (hphase : s.dev.phase = .atRequest) (hready : s.dev.ready = false) (hcs : s.pic.cs c.port = .idle)
  -- the request came with the clock edge that the device has not seen
  | asked (hphase : s.dev.phase = .atRequest) (hready : s.dev.ready = false) (hedge : s.edge = true)
      (hcs : Awaits c s)
  | taken (left : Nat) (hphase : s.dev.phase = .waiting left 0) (hleft : 1 ≤ left) (hready : s.dev.ready = false)
      (hcs : Awaits c s) (hpin : s.dev.mast_pinout = s.pic.pinoutSlave c.port)
      (haddr : s.dev.addr = s.dev.mast_pinout.address) (hseen : s.edge = true → s.pic.seen c.port = true)
  | pulsing (hphase : s.dev.phase = .waiting 1 1) (hready : s.dev.ready = true)
      (hcs : (s.pic.cs c.port).atNeg = true) (hburst : s.dev.mast_pinout.burst = 1)
      (hseen : s.edge = true → s.pic.seen c.port = true)

structure Inv (c : Config n m) (s : State n m) : Prop where
  pic : Pic.Inv c.pic s.pic
  allowed : ∀ k, s.pic.requestCore k = true → c.Allowed k (s.pic.pinoutCore k)
  same : ∀ k, s.pic.idcFsm c.port k = true → s.pic.pinoutSlave c.port = s.pic.pinoutCore k
  agree : Agree c s
  size : s.dev.mem.size = CL_SEM_SIZE

theorem init_inv {mem : MemClass} (hmem : mem.size = CL_SEM_SIZE) : Inv c (init mem) := by
  refine ⟨Pic.init_inv, fun k hk => ?_, fun k hk => ?_, .resting rfl rfl rfl, hmem⟩
  · cases hk
  · cases hk

/-- A master at the semaphores asks for one word in their window. -/
theorem Inv.word (h : Inv c s) {k : Fin n} (hk : Pic.Asks c.pic s.pic c.port k) :
    isInSemSpace (s.pic.pinoutCore k).address 0 = true ∧ (s.pic.pinoutCore k).bw = MEM_WORD ∧
      (s.pic.pinoutCore k).burst = 1 := by
  obtain ⟨hburst, hword⟩ := h.allowed k hk.1
  obtain ⟨hsem, hbw⟩ := hword hk.2
  refine ⟨hsem, hbw, hburst.resolve_right fun hL3 => ?_⟩
  have h1 := sem_bounds hsem
  have h2 := L3_bounds hL3
  omega

theorem Inv.guarded (h : Inv c s) {j : Fin m} (hready : s.pic.readySlave j = true) (hseen : s.pic.seen j = true) :
    Pic.Guarded s.pic (.fall j) :=
  Pic.guarded_of_single h.pic c.room (fun k hk => (h.allowed k hk).1) hready hseen

theorem Awaits.cs (h : Awaits c s) : s.pic.cs c.port = .readPos ∨ s.pic.cs c.port = .writePos := by
  rcases h with ⟨h, -⟩ | ⟨h, -⟩
  · exact Or.inl h
  · exact Or.inr h

theorem Awaits.ne_idle (h : Awaits c s) : s.pic.cs c.port ≠ .idle := by
  intro hc
  rcases h.cs with h | h <;> rw [hc] at h <;> cases h

/-- What a port that is not at rest serves. -/
theorem Inv.served (h : Inv c s) (hc : s.pic.cs c.port ≠ .idle) :
    ∃ k, Pic.Busy s.pic c.port k ∧ Pic.Asks c.pic s.pic c.port k ∧
      s.pic.pinoutSlave c.port = s.pic.pinoutCore k ∧ s.pic.burst c.port = 1 := by
  obtain ⟨k, hB⟩ := h.pic.busy c.port hc
  have hk := hB.asks h.pic
  refine ⟨k, hB, hk, h.same k ((hB.row k).2 rfl), ?_⟩
  rw [← hB.burst]
  exact (h.word hk).2.2

/-- The ready line of the device is the one of the port. -/
theorem Inv.ready (h : Inv c s) : s.pic.readySlave c.port = s.dev.ready := by
  cases h.agree with
  | resting _ hready hcs => rw [hready, (h.pic.idle _ hcs).ready]
  | asked _ hready _ hcs =>
    obtain ⟨k, hB, -⟩ := h.served hcs.ne_idle
    rw [hready, hB.ready]
    rcases hcs.cs with hc | hc <;> rw [hc] <;> rfl
  | taken _ _ _ hready hcs =>
    obtain ⟨k, hB, -⟩ := h.served hcs.ne_idle
    rw [hready, hB.ready]
    rcases hcs.cs with hc | hc <;> rw [hc] <;> rfl
  | pulsing _ hready hcs =>
    obtain ⟨k, hB, -⟩ := h.served fun hc => by
      rw [hc] at hcs
      cases hcs
    rw [hready, hB.ready, hcs]

/-! ## The object that the masters see -/

/-- Where a master is with its access. -/
def client (c : Config n m) (s : State n m) (k : Fin n) : Atomic.Client Op (Option UInt32) :=
  if Pic.Asks c.pic s.pic c.port k then
    if s.pic.readyCore k then .answered (result (s.pic.pinoutCore k)) else .asked (.of (s.pic.pinoutCore k))
  else .idle

def object (c : Config n m) (s : State n m) : Object n := ⟨s.dev.mem, client c s⟩

theorem client_asks {k : Fin n} (hk : Pic.Asks c.pic s.pic c.port k) : client c s k =
    if s.pic.readyCore k then .answered (result (s.pic.pinoutCore k)) else .asked (.of (s.pic.pinoutCore k)) :=
  if_pos hk

theorem client_congr {k : Fin n} (hasks : Pic.Asks c.pic t.pic c.port k ↔ Pic.Asks c.pic s.pic c.port k)
    (hcore : Pic.Asks c.pic s.pic c.port k →
      t.pic.pinoutCore k = s.pic.pinoutCore k ∧ t.pic.readyCore k = s.pic.readyCore k) :
    client c t k = client c s k := by
  unfold client
  by_cases hk : Pic.Asks c.pic s.pic c.port k
  · rw [if_pos hk, if_pos (hasks.2 hk), (hcore hk).1, (hcore hk).2]
  · rw [if_neg hk, if_neg (mt hasks.1 hk)]

/-- One master's place at the semaphores changes, and their memory. -/
theorem setClient_object {k : Fin n} {q : Atomic.Client Op (Option UInt32)} (hk : client c t k = q)
    (hother : ∀ l, l ≠ k → (Pic.Asks c.pic t.pic c.port l ↔ Pic.Asks c.pic s.pic c.port l) ∧
      t.pic.pinoutCore l = s.pic.pinoutCore l ∧ t.pic.readyCore l = s.pic.readyCore l) :
    ({ object c s with obj := t.dev.mem } : Object n).setClient k q = object c t := by
  refine Atomic.State.ext rfl (funext fun l => ?_)
  by_cases hl : l = k
  · subst hl
    rw [Atomic.State.setClient_self]
    exact hk.symm
  · obtain ⟨hasks, hcore⟩ := hother l hl
    rw [Atomic.State.setClient_of_ne _ _ hl]
    exact (client_congr hasks fun _ => hcore).symm

/-- The requests are as they were, but for the data of those that go elsewhere. -/
theorem Inv.allowed_of (h : Inv c s) {u : Pic.State n m} (hp : Pic.SamePort c.pic s.pic u c.port)
    (hreq : ∀ k, u.requestCore k = true → s.pic.requestCore k = true ∧
      (u.pinoutCore k).address = (s.pic.pinoutCore k).address ∧ (u.pinoutCore k).burst = (s.pic.pinoutCore k).burst) :
    ∀ k, u.requestCore k = true → c.Allowed k (u.pinoutCore k) := by
  intro k hk
  obtain ⟨hs, haddr, hburst⟩ := hreq k hk
  have hold := h.allowed k hs
  by_cases hask : Pic.Asks c.pic s.pic c.port k
  · rw [(hp.core k hask).1]
    exact hold
  · refine ⟨?_, fun hroute => absurd ⟨hs, ?_⟩ hask⟩
    · rw [hburst, haddr]
      exact hold.1
    · rw [haddr] at hroute
      exact hroute

/-- A step that leaves the port alone. -/
theorem Inv.of_samePort (h : Inv c s) {u : Pic.State n m} (hu : Pic.Inv c.pic u)
    (hp : Pic.SamePort c.pic s.pic u c.port) (hallowed : ∀ k, u.requestCore k = true → c.Allowed k (u.pinoutCore k)) :
    Inv c { s with pic := u } ∧ object c { s with pic := u } = object c s := by
  have hawaits : Awaits c s → Awaits c { s with pic := u } := by
    intro ha
    unfold Awaits
    rw [hp.cs, hp.slave]
    exact ha
  refine ⟨⟨hu, hallowed, fun k hk => ?_, ?_, h.size⟩, Atomic.State.ext rfl (funext fun k => ?_)⟩
  · change u.idcFsm c.port k = true at hk
    change u.pinoutSlave c.port = u.pinoutCore k
    rw [hp.idc] at hk
    rw [hp.slave, (hp.core k (h.pic.asks hk)).1]
    exact h.same k hk
  · cases h.agree with
    | resting hphase hready hcs => exact .resting hphase hready (hp.cs.trans hcs)
    | asked hphase hready hedge hcs => exact .asked hphase hready hedge (hawaits hcs)
    | taken left hphase hleft hready hcs hpin haddr hseen =>
      exact .taken left hphase hleft hready (hawaits hcs) (hpin.trans hp.slave.symm) haddr
        fun he => hp.seen.trans (hseen he)
    | pulsing hphase hready hcs hburst hseen =>
      refine .pulsing hphase hready ?_ hburst fun he => hp.seen.trans (hseen he)
      change (u.cs c.port).atNeg = true
      rw [hp.cs]
      exact hcs
  · exact client_congr (hp.asks k) (hp.core k)

/-- What a step has to keep. -/
def Keeps (c : Config n m) (s : State n m) (a : Act n m) (t : State n m) : Prop :=
  Inv c t ∧ Trans.run (Atomic.step apply) (object c s) (obs c s a) = some (object c t)

theorem Keeps.of_quiet {a : Act n m} (hobs : obs c s a = []) (ht : Inv c t ∧ object c t = object c s) :
    Keeps c s a t := by
  refine ⟨ht.1, ?_⟩
  rw [hobs, ht.2]
  rfl

/-! ## The other masters and slaves -/

theorem rise_keeps {j : Fin m} {d : UInt32} (h : Inv c s) (hs : step c s (.rise j d) = some t) :
    Keeps c s (.rise j d) t := by
  simp only [step, State.picStep, Option.ite_none_left_eq_some, Option.map_eq_some_iff] at hs
  obtain ⟨hj, u, hu, rfl⟩ := hs
  obtain ⟨hready, hg, hf⟩ := Pic.step_rise hu
  have hp := Pic.rise_port h.pic (Ne.symm hj) hready hg hf
  refine .of_quiet rfl (h.of_samePort (Pic.rise_inv h.pic hready hg hf) hp (h.allowed_of hp fun k hk => ?_))
  obtain ⟨hreq, haddr, hburst⟩ := Pic.rise_requests h.pic hready hg hf k
  exact ⟨hreq ▸ hk, haddr, hburst⟩

theorem fall_keeps {j : Fin m} (h : Inv c s) (hs : step c s (.fall j) = some t) : Keeps c s (.fall j) t := by
  simp only [step, State.picStep, Option.ite_none_left_eq_some, Option.map_eq_some_iff] at hs
  obtain ⟨hj, u, hu, rfl⟩ := hs
  obtain ⟨hready, hseen, hf⟩ := Pic.step_fall hu
  have hp := Pic.fall_port h.pic (Ne.symm hj) hready hf
  refine .of_quiet rfl (h.of_samePort (Pic.fall_inv h.pic hready hseen (h.guarded hready hseen) hf) hp
    (h.allowed_of hp fun k hk => ?_))
  obtain ⟨hreq, hpin⟩ := Pic.fall_requests h.pic hready hf k hk
  exact ⟨hreq, by rw [hpin], by rw [hpin]⟩

theorem beat_keeps {k : Fin n} {d : UInt32} (h : Inv c s) (hs : step c s (.beat k d) = some t) :
    Keeps c s (.beat k d) t := by
  simp only [step, State.picStep, Option.ite_none_left_eq_some, Option.map_eq_some_iff] at hs
  obtain ⟨hk, u, hu, rfl⟩ := hs
  simp only [Pic.step, Option.ite_none_right_eq_some, Option.some.injEq] at hu
  obtain ⟨-, rfl⟩ := hu
  have hp : Pic.SamePort c.pic s.pic { s.pic with
      pinoutCore := Function.update s.pic.pinoutCore k { s.pic.pinoutCore k with data := d } } c.port :=
    Pic.beat_port hk
  refine .of_quiet rfl (h.of_samePort (Pic.beat_inv h.pic) hp (h.allowed_of hp fun l hl => ⟨hl, ?_⟩))
  by_cases hlk : l = k
  · subst hlk
    simp
  · simp [hlk]

/-- A request to the semaphores, or to another slave. -/
theorem raise_keeps {k : Fin n} {p : Pinout} (h : Inv c s) (hs : step c s (.raise k p) = some t) :
    Keeps c s (.raise k p) t := by
  simp only [step, State.picStep, Option.ite_none_right_eq_some, Option.map_eq_some_iff] at hs
  obtain ⟨hallowed, u, hu, rfl⟩ := hs
  simp only [Pic.step, Option.ite_none_right_eq_some, Option.some.injEq, Bool.and_eq_true, Bool.not_eq_true',
    decide_eq_true_eq] at hu
  obtain ⟨⟨⟨hk, hroute⟩, hburst⟩, rfl⟩ := hu
  have hu := Pic.raise_inv h.pic hk hroute hburst
  have hall : ∀ l, (Pic.raiseRequest s.pic k p).requestCore l = true →
      c.Allowed l ((Pic.raiseRequest s.pic k p).pinoutCore l) := by
    intro l hl
    by_cases hlk : l = k
    · subst hlk
      simpa [Pic.raiseRequest] using hallowed
    · simp only [Pic.raiseRequest, Function.update_of_ne hlk] at hl ⊢
      exact h.allowed l hl
  by_cases hport : Pic.decode m 0 k p.address = some c.port
  · have hne : ∀ l, Pic.Asks c.pic s.pic c.port l → l ≠ k := by
      rintro l hl rfl
      exact Bool.false_ne_true (hk.symm.trans hl.1)
    have hquiet : s.pic.readyCore k = false := by
      refine h.pic.quiet k ?_
      by_contra hserved
      obtain ⟨i, hi⟩ := h.pic.books.served k (by simpa using hserved)
      exact Bool.false_ne_true (hk.symm.trans (h.pic.asks hi).1)
    refine ⟨⟨hu, hall, fun l hl => ?_, ?_, h.size⟩, ?_⟩
    · have hlk := hne l (h.pic.asks hl)
      change s.pic.pinoutSlave c.port = Function.update s.pic.pinoutCore k p l
      rw [Function.update_of_ne hlk]
      exact h.same l hl
    · cases h.agree with
      | resting hphase hready hcs => exact .resting hphase hready hcs
      | asked hphase hready hedge hcs => exact .asked hphase hready hedge hcs
      | taken left hphase hleft hready hcs hpin haddr hseen => exact .taken left hphase hleft hready hcs hpin haddr hseen
      | pulsing hphase hready hcs hburst hseen => exact .pulsing hphase hready hcs hburst hseen
    · have hidle : (object c s).client k = .idle := if_neg fun ha => hne k ha rfl
      simp only [obs, if_pos hport, Trans.run, Atomic.step_ask hidle, Option.bind_some, Option.some.injEq]
      have hask : Pic.Asks c.pic (Pic.raiseRequest s.pic k p) c.port k := by
        simp [Pic.Asks, Pic.raiseRequest, Pic.slaveOf, Config.pic, hport]
      have hasked : client c { s with pic := Pic.raiseRequest s.pic k p } k = .asked (.of p) := by
        rw [client_asks (s := { s with pic := Pic.raiseRequest s.pic k p }) hask]
        simp [Pic.raiseRequest, hquiet]
      refine setClient_object hasked fun l hl => ⟨?_, ?_⟩
      · simp [Pic.Asks, Pic.raiseRequest, Pic.slaveOf, hl]
      · simp [Pic.raiseRequest, hl]
  · refine .of_quiet ?_ (h.of_samePort hu (Pic.raise_port hk hport) hall)
    simp [obs, hport]

/-! ## The clock -/

theorem clock_keeps {early : Fin n → Bool} (h : Inv c s) (hs : step c s (.clock early) = some t) :
    Keeps c s (.clock early) t := by
  simp only [step, Option.ite_none_left_eq_some, Option.map_eq_some_iff] at hs
  obtain ⟨-, u, hu, rfl⟩ := hs
  have hinv := Pic.step_inv h.pic (a := .clock early) trivial hu
  obtain ⟨hreq, hpin, hrdy, -⟩ := Pic.clock_lines hu
  have hasks : ∀ k, Pic.Asks c.pic u c.port k ↔ Pic.Asks c.pic s.pic c.port k := fun k => by
    simp only [Pic.Asks, Pic.slaveOf, hreq, hpin]
  refine .of_quiet rfl ⟨⟨hinv, fun k hk => ?_, fun k hk => ?_, ?_, h.size⟩, Atomic.State.ext rfl (funext fun k => ?_)⟩
  · rw [hreq] at hk
    rw [hpin]
    exact h.allowed k hk
  · change u.idcFsm c.port k = true at hk
    change u.pinoutSlave c.port = u.pinoutCore k
    rw [hpin]
    obtain ⟨-, -, -, hslave, hidc, -⟩ | ⟨-, hcs⟩ | ⟨-, g, hg, hslave, -⟩ := Pic.clock_port (i := c.port) h.pic hu
    · rw [hslave]
      rw [hidc] at hk
      exact h.same k hk
    · exact absurd hcs (hinv.not_idle hk)
    · obtain ⟨q, hB⟩ := hinv.busy c.port (hinv.not_idle hk)
      rw [hslave, (hB.row g).1 hg, (hB.row k).1 hk]
  · obtain ⟨hbusy, hcs, -, hslave, -, hseen⟩ | ⟨hidle, hcs⟩ | ⟨hidle, g, -, hslave, hcs⟩ :=
      Pic.clock_port (i := c.port) h.pic hu
    · have hawaits : Awaits c s → Awaits c ⟨u, s.dev, true⟩ := by
        intro ha
        unfold Awaits
        rw [hcs, hslave]
        exact ha
      cases h.agree with
      | resting _ _ hrest => exact absurd hrest hbusy
      | asked hphase hready _ hcs => exact .asked hphase hready rfl (hawaits hcs)
      | taken left hphase hleft hready hcs hpin haddr _ =>
        exact .taken left hphase hleft hready (hawaits hcs) (hpin.trans hslave.symm) haddr fun _ => hseen
      | pulsing hphase hready hneg hburst _ =>
        refine .pulsing hphase hready ?_ hburst fun _ => hseen
        change (u.cs c.port).atNeg = true
        rw [hcs]
        exact hneg
    all_goals
      obtain ⟨hphase, hready⟩ : s.dev.phase = .atRequest ∧ s.dev.ready = false := by
        cases h.agree with
        | resting hphase hready _ => exact ⟨hphase, hready⟩
        | asked hphase hready _ _ => exact ⟨hphase, hready⟩
        | taken _ _ _ _ ha => exact absurd hidle ha.ne_idle
        | pulsing _ _ hneg =>
          rw [hidle] at hneg
          cases hneg
    · exact .resting hphase hready hcs
    · refine .asked hphase hready rfl ?_
      unfold Awaits
      rw [hcs, hslave]
      cases (s.pic.pinoutCore g).rw
      · exact Or.inl ⟨rfl, rfl⟩
      · exact Or.inr ⟨rfl, rfl⟩
  · exact client_congr (hasks k) fun _ => ⟨by rw [hpin], by rw [hrdy]⟩

theorem clock_enabled (h : Inv c s) (early : Fin n → Bool) (he : s.edge = false) :
    (step c s (.clock early)).isSome = true := by
  simp only [step, he, Bool.false_eq_true, if_false, Option.isSome_map]
  exact Pic.clock_isSome h.pic early

/-! ## The device -/

theorem take_word {d : Device} {p : Pinout} (ws : Nat) (hbw : p.bw = MEM_WORD) :
    d.take ws p = some { d with mast_pinout := p, addr := p.address, phase := .waiting (ws + 1) 0 } := by
  rw [Device.take, hbw]
  rfl

/-- The edge of the access of a single beat: the pulse begins at once. -/
theorem edge_access {s d : Device} (ws : Nat) (hphase : s.phase = .waiting 1 0) (hburst : s.mast_pinout.burst = 1)
    (hbw : s.mast_pinout.bw = MEM_WORD) (haccess : s.access = some d) (hmast : d.mast_pinout = s.mast_pinout) :
    s.edge ws = some { d with
      addr := (d.addr + 4) % 2 ^ 32
      mast_pinout := { s.mast_pinout with data := if s.mast_pinout.rw then s.mast_pinout.data else d.data }
      ready := true
      phase := .waiting 1 1 } := by
  have hlt : 0 < s.mast_pinout.burst := by
    rw [hburst]
    exact Nat.one_pos
  have hsize : size s.mast_pinout.bw = some 4 := by
    rw [hbw]
    rfl
  rw [Device.edge, hphase]
  simp only [Nat.lt_irrefl, if_false, if_pos hlt, haccess, Option.bind_some, Device.waits, if_true, Device.pulse, hmast,
    hsize, Option.map_some]

/-- The edge that ends the pulse of a single beat. -/
theorem edge_lower {s : Device} (ws : Nat) (hphase : s.phase = .waiting 1 1) (hburst : s.mast_pinout.burst = 1) :
    s.edge ws = some { s with ready := false, phase := .atRequest } := by
  rw [Device.edge, hphase]
  simp only [Nat.lt_irrefl, if_false, hburst]

/-- A step of the device that the interconnect does not see. -/
theorem device_quiet {dev dev' : Device} (hedge : s.dev.edge c.mem_bb_ws = some dev) (hready : dev.ready = s.dev.ready)
    (hlatch : latch c s.pic dev = some dev') :
    deviceStep c s = some ⟨s.pic, dev', false⟩ ∧ obs c s .device = [] := by
  simp [deviceStep, drive, obs, hedge, hready, hlatch]

/-- A step that starts or ends a pulse. -/
theorem device_pulse {dev dev' : Device} {u : Pic.State n m} (hedge : s.dev.edge c.mem_bb_ws = some dev)
    (hready : s.dev.ready ≠ dev.ready)
    (hpic : Pic.step c.pic s.pic (if dev.ready then .rise c.port dev.mast_pinout.data else .fall c.port) = some u)
    (hlatch : latch c u dev = some dev') : deviceStep c s = some ⟨u, dev', false⟩ := by
  simp [deviceStep, drive, hedge, hready, hpic, hlatch]

/-- The access is made, and the pulse that answers it begins. -/
theorem device_rise (h : Inv c s) (he : s.edge = true) (hphase : s.dev.phase = .waiting 1 0)
    (hready : s.dev.ready = false) (hcs : Awaits c s) (hpin : s.dev.mast_pinout = s.pic.pinoutSlave c.port)
    (haddr : s.dev.addr = s.dev.mast_pinout.address) (hseen : s.edge = true → s.pic.seen c.port = true) :
    ∃ t, deviceStep c s = some t ∧ Keeps c s .device t := by
  obtain ⟨k, hB, hask, hsame, hburst⟩ := h.served hcs.ne_idle
  obtain ⟨hsem, hbw, hone⟩ := h.word hask
  rw [hsame] at hpin
  obtain ⟨x, happly, hsize, d, haccess, hmem, -, hmast, -, hres⟩ :=
    access_spec (hpin ▸ hbw) haddr h.size (hpin ▸ hsem)
  set data := if s.dev.mast_pinout.rw then s.dev.mast_pinout.data else d.data with hdata
  set dev : Device := { d with
    addr := (d.addr + 4) % 2 ^ 32
    mast_pinout := { s.dev.mast_pinout with data := data }
    ready := true
    phase := .waiting 1 1 } with hdev
  have hedge : s.dev.edge c.mem_bb_ws = some dev :=
    edge_access c.mem_bb_ws hphase (hpin ▸ hone) (hpin ▸ hbw) haccess hmast
  have hsome : (Pic.step c.pic s.pic (.rise c.port data)).isSome = true := Pic.rise_isSome data hB hcs.cs (hseen he)
  obtain ⟨u, hu⟩ := Option.isSome_iff_exists.1 hsome
  have hstep : deviceStep c s = some ⟨u, dev, false⟩ := by
    refine device_pulse hedge ?_ hu ?_
    · rw [hready]
      exact Bool.false_ne_true
    · exact if_neg fun ha => by cases ha.1
  have hmode : s.pic.cs c.port = .readPos ∧ (s.pic.pinoutCore k).rw = false ∨
      s.pic.cs c.port = .writePos ∧ (s.pic.pinoutCore k).rw = true := by
    rw [← hsame]
    exact hcs
  obtain ⟨hneg, hidc, hreq, -, -, hrdy, hslave, hcore⟩ := Pic.rise_own hB hsame hmode (Pic.step_rise hu).2.2
  have hfield : ∀ l, (u.pinoutCore l).address = (s.pic.pinoutCore l).address ∧
      (u.pinoutCore l).burst = (s.pic.pinoutCore l).burst ∧ (u.pinoutCore l).bw = (s.pic.pinoutCore l).bw := by
    intro l
    rw [hcore]
    by_cases hl : l = k
    · subst hl
      simp
    · simp [hl]
  have hasks : ∀ l, Pic.Asks c.pic u c.port l ↔ Pic.Asks c.pic s.pic c.port l := fun l => by
    simp only [Pic.Asks, Pic.slaveOf, hreq, (hfield l).1]
  have hquiet : s.pic.readyCore k = false := by
    rw [hB.core]
    rcases hcs.cs with hc | hc <;> rw [hc] <;> rfl
  refine ⟨_, hstep, ⟨Pic.step_inv h.pic (a := .rise c.port data) trivial hu, fun l hl => ?_, fun l hl => ?_,
    .pulsing rfl rfl hneg ?_ fun hf => absurd hf Bool.false_ne_true, ?_⟩, ?_⟩
  · rw [hreq] at hl
    have hold := h.allowed l hl
    obtain ⟨h1, h2, h3⟩ := hfield l
    unfold Config.Allowed at hold ⊢
    rw [h1, h2, h3]
    exact hold
  · change u.idcFsm c.port l = true at hl
    rw [hidc, hB.row] at hl
    subst hl
    exact hslave
  · change s.dev.mast_pinout.burst = 1
    rw [hpin, hone]
  · change d.mem.size = CL_SEM_SIZE
    rw [hmem, hsize]
  · have hobs : obs c s .device = [.act k] := by
      simp only [obs, hedge, hready, Pic.pulsed_own hB hcs.cs]
      rfl
    have hasked : (object c s).client k = .asked (.of s.dev.mast_pinout) := by
      change client c s k = _
      rw [client_asks hask, hquiet, if_neg Bool.false_ne_true, hpin]
    rw [hobs]
    have hanswered : client c ⟨u, dev, false⟩ k = .answered x.2 := by
      rw [client_asks (s := ⟨u, dev, false⟩) ((hasks k).2 hask)]
      change (if u.readyCore k then _ else _) = _
      rw [hrdy, Function.update_self, if_pos rfl]
      change Atomic.Client.answered (result (u.pinoutCore k)) = _
      rw [hcore, Function.update_self, hres, ← hpin]
      unfold result
      simp only [hdata]
      cases s.dev.mast_pinout.rw <;> rfl
    simp only [Trans.run, Atomic.step_act hasked happly, Option.bind_some, Option.some.injEq, ← hmem]
    refine setClient_object (t := ⟨u, dev, false⟩) hanswered fun l hl => ⟨hasks l, ?_⟩
    change u.pinoutCore l = s.pic.pinoutCore l ∧ u.readyCore l = s.pic.readyCore l
    rw [hcore, hrdy, Function.update_of_ne hl, Function.update_of_ne hl]
    exact ⟨rfl, rfl⟩

/-- The thread after an edge at which it came back to `if(!request.read())`. -/
theorem latch_spec {u : Pic.State n m} {d : Device} (hu : Pic.Inv c.pic u)
    (hallowed : ∀ k, u.requestCore k = true → c.Allowed k (u.pinoutCore k))
    (hsame : ∀ k, u.idcFsm c.port k = true → u.pinoutSlave c.port = u.pinoutCore k)
    (hphase : d.phase = .atRequest) (hready : d.ready = false)
    (hcs : u.cs c.port = .idle ∨ Awaits c ⟨u, d, false⟩) (hsize : d.mem.size = CL_SEM_SIZE) :
    ∃ d', latch c u d = some d' ∧ d'.mem = d.mem ∧ Inv c ⟨u, d', false⟩ := by
  rcases hcs with hcs | hcs
  · have hreq := (hu.idle c.port hcs).request
    refine ⟨d, if_neg fun ha => ?_, rfl, hu, hallowed, hsame, .resting hphase hready hcs, hsize⟩
    rw [hreq] at ha
    cases ha.2
  · obtain ⟨k, hB⟩ := hu.busy c.port hcs.ne_idle
    have hask := hB.asks hu
    have hbw : (u.pinoutSlave c.port).bw = MEM_WORD := by
      rw [hsame k ((hB.row k).2 rfl)]
      exact ((hallowed k hask.1).2 hask.2).2
    have htake := take_word (d := d) c.mem_in_ws hbw
    refine ⟨{ d with
      mast_pinout := u.pinoutSlave c.port
      addr := (u.pinoutSlave c.port).address
      phase := .waiting (c.mem_in_ws + 1) 0 }, ?_, rfl, hu, hallowed, hsame, ?_, hsize⟩
    · rw [latch, if_pos ⟨hphase, hB.request⟩, htake]
    · exact .taken (c.mem_in_ws + 1) rfl (Nat.le_add_left 1 _) hready hcs rfl rfl
        fun hf => absurd hf Bool.false_ne_true

/-- The pulse ends, and the next request is latched if there is one. -/
theorem device_fall (h : Inv c s) (he : s.edge = true) (hphase : s.dev.phase = .waiting 1 1)
    (hready : s.dev.ready = true) (hneg : (s.pic.cs c.port).atNeg = true) (hburst : s.dev.mast_pinout.burst = 1)
    (hseen : s.edge = true → s.pic.seen c.port = true) : ∃ t, deviceStep c s = some t ∧ Keeps c s .device t := by
  obtain ⟨k, hB, hask, -, hone⟩ := h.served fun hc => by
    rw [hc] at hneg
    cases hneg
  have hpic : s.pic.readySlave c.port = true := h.ready.trans hready
  set dev : Device := { s.dev with ready := false, phase := .atRequest } with hdev
  have hedge : s.dev.edge c.mem_bb_ws = some dev := edge_lower c.mem_bb_ws hphase hburst
  obtain ⟨u, hu⟩ := Option.isSome_iff_exists.1 (Pic.fall_isSome h.pic hpic (hseen he))
  have hinv := Pic.step_inv h.pic (h.guarded hpic (hseen he)) hu
  obtain ⟨hreq, hrdy, hpin, -, hnext⟩ := Pic.fall_own h.pic hB hpic hone (hseen he) (Pic.step_fall hu).2.2
  have hallowed : ∀ l, u.requestCore l = true → c.Allowed l (u.pinoutCore l) := by
    intro l hl
    rw [hreq] at hl
    have hlk : l ≠ k := by
      rintro rfl
      rw [Function.update_self] at hl
      cases hl
    rw [Function.update_of_ne hlk] at hl
    rw [hpin]
    exact h.allowed l hl
  have hsame : ∀ l, u.idcFsm c.port l = true → u.pinoutSlave c.port = u.pinoutCore l := by
    intro l hl
    rcases hnext with ⟨hcs, -⟩ | ⟨-, q, -, hq, hslave, -⟩
    · exact absurd hcs (hinv.not_idle hl)
    · obtain ⟨g, hBg⟩ := hinv.busy c.port (hinv.not_idle hl)
      rw [hslave, hpin, (hBg.row q).1 hq, (hBg.row l).1 hl]
  have hcs : u.cs c.port = .idle ∨ Awaits c ⟨u, dev, false⟩ := by
    rcases hnext with ⟨hcs, -⟩ | ⟨-, q, -, -, hslave, hcs⟩
    · exact Or.inl hcs
    · right
      unfold Awaits
      rw [hcs, hslave]
      cases (s.pic.pinoutCore q).rw
      · exact Or.inl ⟨rfl, rfl⟩
      · exact Or.inr ⟨rfl, rfl⟩
  obtain ⟨dev', hlatch, hmem, ht⟩ := latch_spec hinv hallowed hsame rfl rfl hcs h.size
  have hstep : deviceStep c s = some ⟨u, dev', false⟩ := by
    refine device_pulse hedge ?_ hu hlatch
    rw [hready]
    exact Bool.true_eq_false_eq_False
  refine ⟨_, hstep, ht, ?_⟩
  have hcore : s.pic.readyCore k = true := by
    rw [hB.core]
    exact hneg
  have hobs : obs c s .device = [.answer k (result (s.pic.pinoutCore k))] := by
    simp only [obs, hedge, hready, Pic.lowering_own hB hneg hone]
    rfl
  have hanswered : (object c s).client k = .answered (result (s.pic.pinoutCore k)) := by
    change client c s k = _
    rw [client_asks hask, hcore, if_pos rfl]
  rw [hobs]
  have hidle : client c ⟨u, dev', false⟩ k = .idle := by
    refine if_neg fun ha => ?_
    have hk := ha.1
    change u.requestCore k = true at hk
    rw [hreq, Function.update_self] at hk
    cases hk
  have hobj : object c s = { object c s with obj := dev'.mem } := Atomic.State.ext hmem.symm rfl
  simp only [Trans.run, Atomic.step_answer hanswered, Option.bind_some, Option.some.injEq]
  rw [hobj]
  refine setClient_object (t := ⟨u, dev', false⟩) hidle fun l hl => ⟨?_, ?_⟩
  · simp only [Pic.Asks, Pic.slaveOf, hreq, hpin, Function.update_of_ne hl]
  · change u.pinoutCore l = s.pic.pinoutCore l ∧ u.readyCore l = s.pic.readyCore l
    rw [hpin, hrdy, Function.update_of_ne hl]
    exact ⟨rfl, rfl⟩

/-- **A clock edge of the device**: it is never refused. -/
theorem device_keeps (h : Inv c s) (he : s.edge = true) : ∃ t, deviceStep c s = some t ∧ Keeps c s .device t := by
  have hquiet : ∀ {dev dev' : Device}, s.dev.edge c.mem_bb_ws = some dev → dev.ready = s.dev.ready →
      latch c s.pic dev = some dev' → dev'.mem = s.dev.mem → Inv c ⟨s.pic, dev', false⟩ →
      ∃ t, deviceStep c s = some t ∧ Keeps c s .device t := by
    intro dev dev' hedge hready hlatch hmem hinv
    obtain ⟨hstep, hobs⟩ := device_quiet hedge hready hlatch
    exact ⟨_, hstep, .of_quiet hobs ⟨hinv, Atomic.State.ext hmem rfl⟩⟩
  have hrest : s.dev.phase = .atRequest → s.dev.ready = false →
      (s.pic.cs c.port = .idle ∨ Awaits c s) → ∃ t, deviceStep c s = some t ∧ Keeps c s .device t := by
    intro hphase hready hcs
    have hedge : s.dev.edge c.mem_bb_ws = some s.dev := by rw [Device.edge, hphase]
    obtain ⟨dev', hlatch, hmem, hinv⟩ := latch_spec h.pic h.allowed h.same hphase hready hcs h.size
    exact hquiet hedge rfl hlatch hmem hinv
  cases h.agree with
  | resting hphase hready hcs => exact hrest hphase hready (Or.inl hcs)
  | asked hphase hready _ hcs => exact hrest hphase hready (Or.inr hcs)
  | taken left hphase hleft hready hcs hpin haddr hseen =>
    by_cases hlast : left = 1
    · subst hlast
      exact device_rise h he hphase hready hcs hpin haddr hseen
    · have hedge : s.dev.edge c.mem_bb_ws = some { s.dev with phase := .waiting (left - 1) 0 } := by
        rw [Device.edge, hphase]
        exact if_pos (by omega)
      refine hquiet hedge rfl (if_neg fun ha => ?_) rfl ⟨h.pic, h.allowed, h.same, .taken (left - 1) rfl (by omega) hready
        hcs hpin haddr fun hf => absurd hf Bool.false_ne_true, h.size⟩
      cases ha.1
  | pulsing hphase hready hneg hburst hseen => exact device_fall h he hphase hready hneg hburst hseen

/-! ## Every run -/

/-- **One step**: the object follows it. -/
theorem step_keeps {a : Act n m} (h : Inv c s) (hs : step c s a = some t) : Keeps c s a t := by
  cases a with
  | clock early => exact clock_keeps h hs
  | device =>
    simp only [step, Option.ite_none_right_eq_some] at hs
    obtain ⟨u, hu, hk⟩ := device_keeps h hs.1
    rw [hu] at hs
    cases hs.2
    exact hk
  | raise k p => exact raise_keeps h hs
  | beat k d => exact beat_keeps h hs
  | rise j d => exact rise_keeps h hs
  | fall j => exact fall_keeps h hs

theorem run_inv {mem : MemClass} {as : List (Act n m)} (hmem : mem.size = CL_SEM_SIZE)
    (hr : Trans.run (step c) (init mem) as = some s) : Inv c s :=
  Trans.run_inv (Inv c) (fun _ _ _ h hs => (step_keeps h hs).1) (init_inv hmem) hr

/-- The clock of the interconnect, or that of the device if it is behind. -/
def tick (s : State n m) (early : Fin n → Bool) : Act n m := if s.edge then .device else .clock early

theorem tick_enabled (h : Inv c s) (early : Fin n → Bool) : (step c s (tick s early)).isSome = true := by
  unfold tick
  by_cases he : s.edge = true
  · obtain ⟨t, ht, -⟩ := device_keeps h he
    rw [if_pos he, step, if_pos he, ht]
    rfl
  · rw [if_neg he]
    exact clock_enabled h early (by simpa using he)

/-- **The semaphores are one memory**: in every run of the masters, the interconnect and the device, what the masters
see of their accesses is a run of the object, whose memory is the one of the device. In the order in which they take
effect the accesses are a run of the memory alone, and whatever the masters do, the clock goes on: no access fails, and
no pulse meets the interconnect when it cannot take it. -/
theorem semaphores_atomic {mem : MemClass} {as : List (Act n m)} (hmem : mem.size = CL_SEM_SIZE)
    (hr : Trans.run (step c) (init mem) as = some s) :
    (∃ x : Object n, Trans.run (Atomic.step apply) (Atomic.init mem) (Trans.trace (step c) (obs c) (init mem) as) = some x ∧
      Trans.run (Atomic.sequential apply) mem (Trans.trace (Atomic.step apply) Atomic.effects (Atomic.init mem)
        (Trans.trace (step c) (obs c) (init mem) as)) = some s.dev.mem ∧
      x.obj = s.dev.mem ∧
      ∀ k, s.pic.requestCore k = true → Pic.slaveOf c.pic s.pic k = some c.port →
        x.client k = if s.pic.readyCore k then .answered (result (s.pic.pinoutCore k)) else .asked (.of (s.pic.pinoutCore k))) ∧
    ∀ early, (step c s (tick s early)).isSome = true := by
  have hsim : ∀ (s : State n m) a t (x : Object n), (Inv c s ∧ x = object c s) → True → step c s a = some t →
      ∃ y, Trans.run (Atomic.step apply) x (obs c s a) = some y ∧ (Inv c t ∧ y = object c t) := by
    rintro s a t _ ⟨hI, rfl⟩ - hs
    obtain ⟨ht, hrun⟩ := step_keeps hI hs
    exact ⟨_, hrun, ht, rfl⟩
  have h0 : Inv c (init mem) ∧ (Atomic.init mem : Object n) = object c (init mem) := by
    refine ⟨init_inv hmem, Atomic.State.ext rfl (funext fun k => ?_)⟩
    exact (if_neg fun hk => by cases hk.1 : client c (init mem) k = .idle).symm
  obtain ⟨x, hx, hI, rfl⟩ := Trans.accepts_of_sim (fun s x => Inv c s ∧ x = object c s) hsim h0 (Trans.along_true _ as) hr
  exact ⟨⟨object c s, hx, Atomic.run_effects hx, rfl, fun k hreq hroute => client_asks ⟨hreq, hroute⟩⟩, tick_enabled hI⟩

/-! ## Two masters -/

section Two

def master0 : Fin 2 := (Fin.last 0).castSucc
def master1 : Fin 2 := Fin.last 1

def twoMasters : Config 2 6 := ⟨.roundRobin, fun _ => true, 0, 1, Nat.le_refl 6⟩

def firstWord (rw : Bool) : Pinout := { address := CL_SEM_BASE, data := 0, rw := rw, burst := 1 }

def edges : Nat → List (Act 2 6)
  | 0 => []
  | k + 1 => .clock (fun _ => true) :: .device :: edges k

/-- Both read the first semaphore, and the one that found it free gives it back. -/
def bothRead : List (Act 2 6) :=
  [.raise master0 (firstWord false), .raise master1 (firstWord false)] ++ edges 5 ++
    [.raise master0 (firstWord true)] ++ edges 4

theorem semaphores_atomic_bothRead :
    Trans.trace (step twoMasters) (obs twoMasters) (init (MemClass.new CL_SEM_SIZE)) bothRead =
        [.ask master0 (.read CL_SEM_BASE), .ask master1 (.read CL_SEM_BASE), .act master0, .answer master0 (some 0),
          .act master1, .answer master1 (some 1), .ask master0 (.write CL_SEM_BASE 0), .act master0,
          .answer master0 none] ∧
      ∃ s : State 2 6, Trans.run (step twoMasters) (init (MemClass.new CL_SEM_SIZE)) bothRead = some s ∧
        ∀ early, (step twoMasters s (tick s early)).isSome = true := by
  have hsome : (Trans.run (step twoMasters) (init (MemClass.new CL_SEM_SIZE)) bothRead).isSome := by decide +kernel
  obtain ⟨s, hrun⟩ := Option.isSome_iff_exists.1 hsome
  exact ⟨by decide +kernel, s, hrun, (semaphores_atomic rfl hrun).2⟩

end Two

end VirtualSoc.Semaphore
