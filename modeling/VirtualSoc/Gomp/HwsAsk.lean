import VirtualSoc.Cluster.HwsHold
import VirtualSoc.Cluster.HwsPort
import VirtualSoc.Gomp.BarrierHws

/-!
# Asking for an event (cluster/cl_hws.cpp, support/simulator/hws_support.c)

`maybe_get_event` and `get_event` send two words, the request and the ask, and then read the answer. The
machine of the core looks for a slot of its own list and for an event that is not reserved. With a free slot
the read is answered: with an event, reserved and listed, or with a refusal that changes nothing. But the slot
is looked for first, and a core that lists as many events as its list has slots is not refused: the `assert`
on the slot ends the simulation (`ask_answered_iff`).
-/

namespace VirtualSoc.Gomp.HwsAsk

open Trans Hws
open BarrierHws (hwsWaitEvent hwsWaitEvent_answer)

variable {p q : Nat}

/-! ## What the driver sends -/

/-- The first word of an ask (hws_support.c:100 and :160). -/
def requestWord (ID : UInt32) : UInt32 := ((ID &&& 0xFF) <<< 8) ||| 0x0

/-- `hws_request_event_mem_single` and `hws_request_event_no_mem_single`, with 1 and 0 for the third byte. -/
def hwsRequestEvent (mem ID NSL : UInt32) : UInt32 :=
  ((1 &&& 0xFF : UInt32) <<< 24) ||| ((mem &&& 0xFF) <<< 16) ||| ((ID &&& 0x7F) <<< 8) ||| (NSL &&& 0xFF)

/-- A request for an ask. -/
def IsRequest (core : Core) (var : Request) : Prop :=
  var.rw = true ∧ byte var.data 0 = 0 ∧ byte var.data 1 = core.val

/-- An ask, with a 16-bit or a 64-bit mask. -/
def IsAsk (core : Core) (var : Request) : Prop :=
  var.rw = true ∧ byte var.data 1 = core.val ∧ (byte var.data 3 = 1 ∨ byte var.data 3 = 2)

instance (core : Core) (var : Request) : Decidable (IsRequest core var) := inferInstanceAs (Decidable (_ ∧ _ ∧ _))

instance (core : Core) (var : Request) : Decidable (IsAsk core var) := inferInstanceAs (Decidable (_ ∧ _ ∧ _))

theorem requestWord_isRequest (core : Core) :
    IsRequest core ⟨core.val, true, requestWord (UInt32.ofNat core.val)⟩ := by
  revert core
  decide +kernel

theorem byte_or (x y : UInt32) (k : Nat) : byte (x ||| y) k = byte x k ||| byte y k := by
  unfold byte
  rw [UInt32.toNat_or, Nat.shiftRight_or_distrib, Nat.and_or_distrib_right]

/-- The low byte of a word, alone. -/
theorem byte_low (x : UInt32) :
    byte (x &&& 0xFF) 0 = x.toNat % 256 ∧ ∀ k, k ≠ 0 → byte (x &&& 0xFF) k = 0 := by
  have hlow : (x &&& 0xFF).toNat = x.toNat % 256 := by
    rw [UInt32.toNat_and]
    exact Nat.and_two_pow_sub_one_eq_mod _ 8
  unfold byte
  rw [hlow]
  constructor
  · exact (Nat.and_two_pow_sub_one_eq_mod _ 8).trans (Nat.mod_mod _ _)
  · intro k hk
    have hlt : x.toNat % 256 < 2 ^ 8 := Nat.mod_lt _ (by decide)
    have hpow : 2 ^ 8 ≤ 2 ^ (8 * k) := Nat.pow_le_pow_right (by decide) (by omega)
    have hzero : x.toNat % 256 / 2 ^ (8 * k) = 0 := Nat.div_eq_of_lt (Nat.lt_of_lt_of_le hlt hpow)
    rw [Nat.shiftRight_eq_div_pow, hzero, Nat.zero_and]

/-- The three upper bytes. -/
theorem highBytes : ∀ (core : Core) (mem : Fin 2),
    let high := ((1 &&& 0xFF : UInt32) <<< 24) ||| ((UInt32.ofNat mem.val &&& 0xFF) <<< 16) |||
      ((UInt32.ofNat core.val &&& 0x7F) <<< 8)
    byte high 0 = 0 ∧ byte high 1 = core.val ∧ byte high 3 = 1 := by
  decide +kernel

/-- The words of the driver are asks, with the number of notifications cut down to a byte. -/
theorem hwsRequestEvent_isAsk (core : Core) (mem : Fin 2) (NSL : UInt32) :
    IsAsk core ⟨core.val, true, hwsRequestEvent (UInt32.ofNat mem.val) (UInt32.ofNat core.val) NSL⟩ ∧
      byte (hwsRequestEvent (UInt32.ofNat mem.val) (UInt32.ofNat core.val) NSL) 0 = NSL.toNat % 256 := by
  obtain ⟨h0, h1, h3⟩ := highBytes core mem
  obtain ⟨hlow, hrest⟩ := byte_low NSL
  refine ⟨⟨rfl, ?_, .inl ?_⟩, ?_⟩
  · exact (byte_or _ _ 1).trans (by rw [h1, hrest 1 (by decide), Nat.or_zero])
  · exact (byte_or _ _ 3).trans (by rw [h3, hrest 3 (by decide), Nat.or_zero])
  · exact (byte_or _ _ 0).trans (by rw [h0, hlow, Nat.zero_or])

/-- What a core does in the course of an ask, from a state of its machine to the state that waits for the read: it
sends the two words, each after any number of edges, and is not heard while the machine acknowledges. -/
inductive Asking (core : Core) : ProgramState → List (Edge p q) → Prop
  | silent {state as} {a : Edge p q} (h : Silent a.prg core)
      (hstate : state = .requestType ∨ state = .askEvent ∨ state = .waitEvent) (rest : Asking core state as) :
      Asking core state (a :: as)
  | request {as} {a : Edge p q} {port var} (h : Alone a.prg core port var) (hvar : IsRequest core var)
      (rest : Asking core .requestAcc as) : Asking core .requestType (a :: as)
  | requestAcc {as} (a : Edge p q) (rest : Asking core .askEvent as) : Asking core .requestAcc (a :: as)
  | ask {as} {a : Edge p q} {port var} (h : Alone a.prg core port var) (hvar : IsAsk core var)
      (rest : Asking core .askAcc as) : Asking core .askEvent (a :: as)
  | askAcc {as} (a : Edge p q) (rest : Asking core .waitEvent as) : Asking core .askAcc (a :: as)
  | asked : Asking core .waitEvent []

/-! ## The answer -/

section Answer

variable (cfg : Config) (s : State p q) (prg : Fin p → Option Request) (core : Core)

/-- No `assert` of the machine of the core fails. -/
def NoAssert : Prop := (machineStep (q := q) cfg s prg core (s.prog core)).isSome = true

/-- Bit 7 of the counter is clear. -/
def Unreserved (e : Event) : Prop := s.atomicCounters e &&& 0x80 = 0

/-- The read on the port is answered. If there is an unreserved event, the driver gets one, and it is reserved and
listed; otherwise it gets -1, and the machine only writes the answer and its ready line. -/
def Answered (port : Fin p) : Prop :=
  ∃ (m' : Machine p) (ws : List (Write p q)) (ret : UInt32),
    machineStep cfg s prg core (s.prog core) = some (m', ws) ∧ .prgPort port ret ∈ ws ∧
      ((∃ e, Unreserved s e) → ∃ e, Unreserved s e ∧ hwsWaitEvent ret core = e.val ∧
        (∃ v, .counter e v ∈ ws ∧ v &&& 0x80 ≠ 0) ∧ ∃ slot, m'.ev slot = some e) ∧
      ((¬ ∃ e, Unreserved s e) → hwsWaitEvent ret core = -1 ∧ m'.ev = (s.prog core).ev ∧
        ws = [.prgPort port ret, .prRdy port true])

end Answer

variable {cfg : Config} {s t : State p q} {a : Edge p q} {prg : Fin p → Option Request} {core : Core} {port : Fin p}
  {var : Request} {m : Machine p}

/-! ## The ask -/

theorem machineStep_request (h : Alone prg core port var) (hvar : IsRequest core var)
    (hstate : (s.prog core).state = .requestType) :
    machineStep (q := q) cfg s prg core (s.prog core) =
      some ({ s.prog core with state := .requestAcc, nextNext := .askEvent, port := some port }, [.prRdy port true]) := by
  obtain ⟨hrw, h0, h1⟩ := hvar
  rw [machineStep_alone h (by rw [hstate]; rfl), serve, hstate]
  simp [Hws.requestType, hrw, h0, h1]

theorem machineStep_ask (cfg : Config) (h : Alone prg core port var) (hvar : IsAsk core var)
    (hstate : (s.prog core).state = .askEvent) :
    ∃ m', machineStep (q := q) cfg s prg core (s.prog core) = some (m', [.prRdy port true]) ∧ m'.state = .askAcc ∧
      m'.ev = (s.prog core).ev := by
  obtain ⟨hrw, h1, h3⟩ := hvar
  rw [machineStep_alone h (by rw [hstate]; rfl), serve, hstate]
  simp [Hws.askEvent, hrw, h1, h3]

/-- **One edge of an ask**: no `assert` fails, and the list stays. -/
theorem asking_step (cfg : Config) {as : List (Edge p q)} (h : Asking core (s.prog core).state (a :: as))
    (hnext : (s.prog core).state = .requestAcc → (s.prog core).nextNext = .askEvent) :
    ∃ m' ws, machineStep (q := q) cfg s a.prg core (s.prog core) = some (m', ws) ∧ Asking core m'.state as ∧
      (m'.state = .requestAcc → m'.nextNext = .askEvent) ∧ m'.ev = (s.prog core).ev := by
  generalize hst : (s.prog core).state = state at h
  cases h with
  | silent h hstate rest =>
    have htakes : (s.prog core).state.takes = true := by
      rw [hst]
      rcases hstate with rfl | rfl | rfl <;> rfl
    exact ⟨_, _, machineStep_silent h htakes, hst ▸ rest, hnext, rfl⟩
  | request h hvar rest =>
    exact ⟨_, _, machineStep_request h hvar hst, rest, fun _ => rfl, rfl⟩
  | requestAcc _ rest =>
    have hm : machineStep (q := q) cfg s a.prg core (s.prog core) =
        some (acknowledge (s.prog core) (s.prog core).nextNext) := by
      rw [machineStep_acknowledge (by rw [hst]; rfl), Machine.acknowledged, hst]
    refine ⟨_, _, hm, ?_, ?_, rfl⟩
    · show Asking core (s.prog core).nextNext as
      rw [hnext hst]
      exact rest
    · intro hacc
      rw [show (s.prog core).nextNext = .requestAcc from hacc] at hnext
      exact absurd (hnext hst) (by decide)
  | ask h hvar rest =>
    obtain ⟨m', hm, hstate, hev⟩ := machineStep_ask (q := q) cfg h hvar hst
    exact ⟨m', _, hm, hstate ▸ rest, fun hacc => absurd (hstate.symm.trans hacc) (by decide), hev⟩
  | askAcc _ rest =>
    have hm : machineStep (q := q) cfg s a.prg core (s.prog core) = some (acknowledge (s.prog core) .waitEvent) := by
      rw [machineStep_acknowledge (by rw [hst]; rfl), Machine.acknowledged, hst]
    exact ⟨_, _, hm, rest, nofun, rfl⟩

theorem step_none_of_assert (h : (machineStep (q := q) cfg s a.prg core (s.prog core)).isNone = true) :
    step cfg s a = none := by
  have hfails : programmeFails cfg s a.prg = true := decide_eq_true ⟨core, h⟩
  unfold step
  rw [if_neg (by rw [hfails, Bool.not_true, Bool.and_false]; decide)]

/-- **The ask**: none of its edges fails an `assert` of the machine, and after them it waits for the read. -/
theorem asking_run (cfg : Config) {bs : List (Edge p q)} (h : Asking core (s.prog core).state bs)
    (hnext : (s.prog core).state = .requestAcc → (s.prog core).nextNext = .askEvent) :
    Along (step cfg) (fun s a => NoAssert cfg s a.prg core) s bs ∧
      ∀ t, run (step cfg) s bs = some t → (t.prog core).state = .waitEvent ∧ (t.prog core).ev = (s.prog core).ev := by
  induction bs generalizing s with
  | nil =>
    generalize hst : (s.prog core).state = state at h
    cases h
    refine ⟨trivial, fun t ht => ?_⟩
    cases ht
    exact ⟨hst, rfl⟩
  | cons a bs ih =>
    obtain ⟨m', ws, hm, hrest, hacc, hev⟩ := asking_step cfg h hnext
    have hprog : ∀ u, step cfg s a = some u → u.prog core = m' := fun u hu => by
      have hm' := (step_machine hu core).symm.trans hm
      exact (Prod.mk.inj (Option.some.inj hm')).1
    constructor
    · refine ⟨Option.isSome_iff_exists.2 ⟨_, hm⟩, fun u hu => ?_⟩
      have hu := hprog u hu
      exact (ih (hu ▸ hrest) (hu ▸ hacc)).1
    · intro t ht
      obtain ⟨u, hu, ht⟩ := run_cons.1 ht
      have hu := hprog u hu
      obtain ⟨hwait, hlist⟩ := (ih (hu ▸ hrest) (hu ▸ hacc)).2 t ht
      exact ⟨hwait, hlist.trans (hu ▸ hev)⟩

/-! ## The read -/

theorem unreserved_iff {e : Event} : ((s.atomicCounters e &&& 0x80) >>> 7 == 0) = true ↔ Unreserved s e := by
  rw [beq_iff_eq]
  constructor
  · exact reserved_shift
  · intro h
    rw [show s.atomicCounters e &&& 0x80 = 0 from h]
    rfl

theorem freeEvent_none : freeEvent s = none ↔ ¬ ∃ e, Unreserved s e := by
  unfold freeEvent
  rw [Scan.first_none, not_exists]
  exact forall_congr' fun e => by rw [← unreserved_iff, Bool.not_eq_true]

/-- What the runtime has to do with of the synchroniser. -/
structure Sees (y : BarrierHws.Synchroniser) (s : State p q) : Prop where
  reserved : ∀ e, e ∈ y.reserved ↔ ¬ Unreserved s e
  ev : ∀ core : Core, y.ev core = (s.prog core).ev

/-- The read in the runtime is the read of the machine: it fails the same `assert`, has the same answer, and leaves the
same list. -/
theorem waitEvent_sees {y : BarrierHws.Synchroniser} (h : Sees y s) (hread : var.rw = false) :
    (waitEvent s core (s.prog core) port var).map (fun r => (r.1.ev, r.2.head?)) =
      (y.waitEvent core).map fun r => (r.2.ev core, some (.prgPort port (answerWord core r.1))) := by
  have hfree : freeEvent s = y.freeEvent := by
    unfold freeEvent BarrierHws.Synchroniser.freeEvent
    congr 1
    funext e
    rw [Bool.eq_iff_iff, unreserved_iff, decide_eq_true_eq, h.reserved, not_not]
  have hev := h.ev core
  unfold waitEvent BarrierHws.Synchroniser.waitEvent
  rw [if_neg (by rw [hread]; decide), hev, hfree]
  cases Scan.first fun slot => ((s.prog core).ev slot).isNone with
  | none => rfl
  | some slot =>
    cases y.freeEvent with
    | none => simp [hev]
    | some e => simp

/-- **The read is answered** exactly if the list of the core has a slot. -/
theorem answered_iff (hstate : (s.prog core).state = .waitEvent) (h : Alone prg core port var)
    (hread : var.rw = false) : Answered (q := q) cfg s prg core port ↔ ∃ slot, (s.prog core).ev slot = none := by
  have hstep : machineStep (q := q) cfg s prg core (s.prog core) = waitEvent s core (s.prog core) port var := by
    rw [machineStep_alone h (by rw [hstate]; rfl), serve, hstate]
  unfold Answered
  rw [hstep]
  unfold waitEvent
  rw [if_neg (by rw [hread]; decide)]
  cases hslot : Scan.first fun e => ((s.prog core).ev e).isNone with
  | none =>
    have hfull := Scan.first_none.1 hslot
    refine iff_of_false ?_ ?_
    · rintro ⟨m', ws, ret, hnone, -⟩
      cases hnone
    · rintro ⟨slot, hs⟩
      have := hfull slot
      rw [hs] at this
      cases this
  | some slot =>
    have hempty : (s.prog core).ev slot = none := Option.isNone_iff_eq_none.1 (Scan.first_some hslot)
    refine iff_of_true ?_ ⟨slot, hempty⟩
    cases hfree : freeEvent s with
    | some i =>
      have hi : Unreserved s i := unreserved_iff.1 (Scan.first_some hfree)
      refine ⟨_, _, answerWord core (some i), rfl, List.mem_cons_self, fun _ => ⟨i, hi, ?_, ?_, ?_⟩,
        fun hno => absurd ⟨i, hi⟩ hno⟩
      · exact hwsWaitEvent_answer core (some i)
      · exact ⟨_, List.mem_cons_of_mem _ List.mem_cons_self, (reserve_bit _).1⟩
      · exact ⟨slot, Function.update_self ..⟩
    | none =>
      refine ⟨_, _, answerWord core none, rfl, List.mem_cons_self, fun hsome => absurd hsome (freeEvent_none.1 hfree),
        fun _ => ⟨?_, rfl, rfl⟩⟩
      exact hwsWaitEvent_answer core none

/-- **An event request is answered.** From every state, an ask of a core fails no `assert`, and the read after it
is answered as `Answered` says if and only if the list of the core had a slot when it asked. -/
theorem ask_answered_iff {bs : List (Edge p q)} (hstate : (s.prog core).state = .requestType)
    (hask : Asking core .requestType bs) :
    Along (step cfg) (fun s a => NoAssert cfg s a.prg core) s bs ∧
      ∀ t, run (step cfg) s bs = some t → ∀ (prg : Fin p → Option Request) port var, Alone prg core port var →
        var.rw = false → (Answered (q := q) cfg t prg core port ↔ ∃ slot, (s.prog core).ev slot = none) := by
  have hask' : Asking core (s.prog core).state bs := hstate ▸ hask
  obtain ⟨hassert, hwait⟩ := asking_run cfg hask' fun hacc => absurd (hstate.symm.trans hacc) (by decide)
  refine ⟨hassert, fun t ht prg port var halone hread => ?_⟩
  obtain ⟨ht, hev⟩ := hwait t ht
  rw [answered_iff ht halone hread, hev]

/-! ## Core 0 asks -/

def port0 : Fin 1 := Fin.last 0

theorem alone_port0 {var : Request} (h : var.id = core0.val) : Alone (fun _ : Fin 1 => some var) core0 port0 var :=
  ⟨rfl, h, fun _ _ _ _ => Subsingleton.elim _ _⟩

theorem askTwo_asking : Asking core0 .requestType askTwo :=
  .request (alone_port0 rfl) (by decide) (.requestAcc _ (.ask (alone_port0 rfl) (by decide) (.askAcc _ .asked)))

/-- The first ask of a run is answered. -/
theorem ask_answered_iff_first : ∃ t, run (step ⟨16⟩) (init : State 1 2) askTwo = some t ∧
    Answered (q := 2) ⟨16⟩ t obtainTwo.prg core0 port0 := by
  have ht := (Option.some_get askTwo_runs).symm
  exact ⟨_, ht, ((ask_answered_iff (s := init) rfl askTwo_asking).2 _ ht obtainTwo.prg port0 ⟨0, false, 0⟩
    (alone_port0 rfl) rfl).2 ⟨event0, rfl⟩⟩

/-- `maybe_get_event(2)` of core 0, up to the read. -/
def askForTwo : List (Edge 1 1) :=
  [some ⟨0, true, requestWord 0⟩, none, some ⟨0, true, hwsRequestEvent 0 0 2⟩, none].map
    (programmeEdge [.signal, .notify, .programme])

def readEdge : Edge 1 1 := programmeEdge [.signal, .notify, .programme] (some ⟨0, false, 0⟩)

/-- Core 0 obtains every event and asks once more. -/
def askSeventeen : List (Edge 1 1) :=
  (List.replicate N_HWS_EVENTS
    (askForTwo ++ [readEdge, programmeEdge [.signal, .notify, .programme] none])).flatten ++ askForTwo

theorem askSeventeen_asserts :
    ((run (step ⟨16⟩) (init : State 1 1) askSeventeen).map fun t =>
      (machineStep (q := 1) ⟨16⟩ t readEdge.prg core0 (t.prog core0)).isNone) = some true := by
  decide +kernel

/-- **The core that holds every event** is not refused: the read ends the simulation. -/
theorem not_answered_seventeen : ∃ t, run (step ⟨16⟩) (init : State 1 1) askSeventeen = some t ∧
    step ⟨16⟩ t readEdge = none ∧ ¬ Answered (q := 1) ⟨16⟩ t readEdge.prg core0 port0 := by
  obtain ⟨t, ht, hnone⟩ := Option.map_eq_some_iff.1 askSeventeen_asserts
  refine ⟨t, ht, step_none_of_assert hnone, ?_⟩
  rintro ⟨m', ws, ret, hm, -⟩
  rw [hm] at hnone
  cases hnone

end VirtualSoc.Gomp.HwsAsk
