import Mathlib.Data.Fintype.Option
import VirtualSoc.Cluster.Hws
import VirtualSoc.Gomp.TeamAllocInv

/-!
# The hardware-barrier runtime (libgomp/config/vsoc/bar_hws.c, team.c)

A team has an event of the synchroniser for its dock and its barriers, or `SW_BAR_ENABLE` if none was free when
it was formed. Teams are formed and ended as in `TeamAlloc`; here each of its steps makes the calls of the
driver (hws_support.c) that bar_hws.c and team.c have at that place. That a notified event completes when all
have notified it is `Hws.event_barrier_safe`, here `TeamAlloc`'s wait for the slaves at the dock.

The synchroniser lists the events of each core. A core whose list is full is not answered when it asks for another
event: the `assert` on the list ends the simulation (`HwsAsk.ask_answered_iff`), and the model has no step. So a team
gets no event where other cores hold some of them. An id that is no event stops the synchroniser by an `assert`,
too (cl_hws.cpp:262); the model lets a release wake its slaves all the same, to see what comes after it in the runtime.

* `hw_barrier_safe`: if each team finds a free event, and all slaves are at the dock when the first gather
  ends, then all ids are events and nobody leaves the dock of a team without one too early;
* `not_safe_sixteenTeams`: what happens otherwise.
-/

namespace VirtualSoc.Gomp.BarrierHws

open Mask TeamAlloc

def SW_BAR_ENABLE : Int := -1
def GLOBAL_GATHER_END : Int := -1
def GLOBAL_GATHER : Int := 0

/-! ## Events -/

/-- What the driver has to do with of the synchroniser: the events that are reserved, and the slots of `ev[core]`, in
which those stand that the core holds. -/
structure Synchroniser where
  reserved : List Hws.Event := []
  ev : Nat → Fin Hws.N_HWS_EVENTS → Option Hws.Event := fun _ _ => none

namespace Synchroniser

variable (y : Synchroniser) (core : Nat)

/-- The first event that is not reserved. -/
def freeEvent : Option Hws.Event := Scan.first fun e => decide (e ∉ y.reserved)

/-- `WAIT_EVENT` (cl_hws.cpp:153): the slot comes first, and without one the `assert` fails (cl_hws.cpp:170). -/
def waitEvent : Option (Option Hws.Event × Synchroniser) :=
  (Scan.first fun slot => (y.ev core slot).isNone).map fun slot =>
    match y.freeEvent with
    | some e =>
      (some e, {
        reserved := e :: y.reserved
        ev := Function.update y.ev core (Function.update (y.ev core) slot (some e)) })
    | none => (none, y)

/-- The synchroniser after `free_event`, which sends `EVT_ID & 0xFF`. The core holds the event, or the `assert` fails
(cl_hws.cpp:273) and nothing is freed. -/
def free (id : Int) : Synchroniser :=
  match Scan.first fun slot => (y.ev core slot).any fun e => decide ((e.val : Int) = id % 256) with
  | some slot =>
    { reserved := y.reserved.filter fun e => decide ((e.val : Int) ≠ id % 256)
      ev := Function.update y.ev core (Function.update (y.ev core) slot none) }
  | none => y

/-- The slots list reserved events, each of them once. -/
structure Ok : Prop where
  listed : ∀ c slot e, y.ev c slot = some e → e ∈ y.reserved
  once : ∀ c d i j e, y.ev c i = some e → y.ev d j = some e → c = d ∧ i = j

variable {y core} {y' : Synchroniser} {answer : Option Hws.Event} {c : Nat} {i slot : Fin Hws.N_HWS_EVENTS}
  {v : Option Hws.Event}

/-- What is in a slot after one slot of `core` has changed. -/
theorem slot_cases {e : Hws.Event} (h : Function.update y.ev core (Function.update (y.ev core) slot v) c i = some e) :
    (c = core ∧ i = slot ∧ v = some e) ∨ ((c = core → i ≠ slot) ∧ y.ev c i = some e) := by
  by_cases hc : c = core
  · subst hc
    rw [Function.update_self] at h
    by_cases hi : i = slot
    · subst hi
      rw [Function.update_self] at h
      exact Or.inl ⟨rfl, rfl, h⟩
    · rw [Function.update_of_ne hi] at h
      exact Or.inr ⟨fun _ => hi, h⟩
  · rw [Function.update_of_ne hc] at h
    exact Or.inr ⟨fun hc' => absurd hc' hc, h⟩

theorem Ok.empty : Ok {} where
  listed _ _ _ h := nomatch h
  once _ _ _ _ _ h := nomatch h

theorem Ok.waitEvent (h : y.Ok) (hs : y.waitEvent core = some (answer, y')) : y'.Ok := by
  obtain ⟨slot, -, hs⟩ := Option.map_eq_some_iff.1 hs
  cases hf : y.freeEvent with
  | none =>
    rw [hf] at hs
    obtain ⟨-, rfl⟩ := Prod.mk.inj hs
    exact h
  | some e =>
    rw [hf] at hs
    obtain ⟨-, rfl⟩ := Prod.mk.inj hs
    have hnew : e ∉ y.reserved := of_decide_eq_true (Scan.first_some hf)
    refine ⟨fun c i e' hi => ?_, fun c d i j e' hi hj => ?_⟩
    · obtain ⟨-, -, he⟩ | ⟨-, hi⟩ := slot_cases hi
      · cases he
        exact List.mem_cons_self
      · exact List.mem_cons_of_mem _ (h.listed c i e' hi)
    · obtain ⟨hc, hslot, he⟩ | ⟨-, hold⟩ := slot_cases hi
      · obtain ⟨rfl, rfl, -⟩ | ⟨-, hold'⟩ := slot_cases hj
        · exact ⟨hc, hslot⟩
        · cases he
          exact absurd (h.listed d j e hold') hnew
      · obtain ⟨-, -, he⟩ | ⟨-, hold'⟩ := slot_cases hj
        · cases he
          exact absurd (h.listed c i e hold) hnew
        · exact h.once c d i j e' hold hold'

theorem Ok.free (h : y.Ok) (core : Nat) (id : Int) : (y.free core id).Ok := by
  unfold Synchroniser.free
  split
  · rename_i slot hslot
    have hany := Scan.first_some hslot
    cases hev : y.ev core slot with
    | none =>
      rw [hev] at hany
      cases hany
    | some e =>
      rw [hev] at hany
      have hid : (e.val : Int) = id % 256 := of_decide_eq_true hany
      refine ⟨fun c i e' hi => ?_, fun c d i j e' hi hj => ?_⟩
      · obtain ⟨-, -, he⟩ | ⟨hne, hi⟩ := slot_cases hi
        · cases he
        · refine List.mem_filter.2 ⟨h.listed c i e' hi, decide_eq_true fun he => ?_⟩
          -- another slot would list the event that goes
          obtain rfl : e' = e := Fin.ext (Int.ofNat_inj.1 (he.trans hid.symm))
          obtain ⟨rfl, rfl⟩ := h.once c core i slot e' hi hev
          exact hne rfl rfl
      · obtain ⟨-, -, he⟩ | ⟨-, hi⟩ := slot_cases hi
        · cases he
        · obtain ⟨-, -, he⟩ | ⟨-, hj⟩ := slot_cases hj
          · cases he
          · exact h.once c d i j e' hi hj
  · exact h

/-- As long as an event is free, every core has a slot: a full list has all events. -/
theorem Ok.waitEvent_isSome (h : y.Ok) (hfree : ∃ e, e ∉ y.reserved) (core : Nat) :
    (y.waitEvent core).isSome = true := by
  rw [Synchroniser.waitEvent, Option.isSome_map, Option.isSome_iff_ne_none]
  intro hnone
  obtain ⟨e, he⟩ := hfree
  have hfull : ∀ slot, ∃ e, y.ev core slot = some e := by
    intro slot
    have hslot := Scan.first_none.1 hnone slot
    exact Option.ne_none_iff_exists'.1 fun hempty => by simp [hempty] at hslot
  choose held hheld using hfull
  have hinj : Function.Injective held := by
    intro i j hij
    exact (h.once core core i j (held i) (hheld i) (hij ▸ hheld j)).2
  obtain ⟨slot, rfl⟩ := Finite.surjective_of_injective hinj e
  exact he (h.listed core slot _ (hheld slot))

end Synchroniser

/-- `hws_wait_event` (hws_support.c:70), from the word that was read. -/
def hwsWaitEvent (ret : UInt32) (ID : Nat) : Int :=
  if (ret.toNat &&& 0xFF00) >>> 8 = ID ||| 0x80 then (ret.toNat &&& 0xFF : Nat) else -1

/-- The driver reads the event from an answer, and -1 from a refusal. -/
theorem hwsWaitEvent_answer : ∀ (core : Hws.Core) (e : Option Hws.Event),
    hwsWaitEvent (Hws.answerWord core e) core = match e with | some e => (e.val : Int) | none => -1 := by
  decide +kernel

/-- `maybe_get_event` (hws_support.c:90), which reads the answer of the synchroniser with `hws_wait_event`. -/
def maybeGetEvent (y : Synchroniser) (core : Nat) : Option (Int × Synchroniser) :=
  (y.waitEvent core).map fun (e, y) =>
    (match e with
      | some e => (e.val : Int)
      | none => -1, y)

/-- `get_new_hw_event` (bar_hws.c:51). -/
def getNewHwEvent (y : Synchroniser) (core : Nat) : Option (Int × Synchroniser) :=
  (maybeGetEvent y core).map fun (event, y) => (if event < 0 then SW_BAR_ENABLE else event, y)

def InRange (id : Int) : Prop := 0 ≤ id ∧ id < Hws.N_HWS_EVENTS

instance (id : Int) : Decidable (InRange id) := inferInstanceAs (Decidable (_ ∧ _))

theorem InRange.ne_sw {id : Int} (h : InRange id) : id ≠ SW_BAR_ENABLE := by
  rintro rfl
  exact absurd h.1 (by decide)

/-- What a team gets: the first free event, or the mark of the software barrier. -/
theorem getNewHwEvent_cases {y y' : Synchroniser} {core : Nat} {id : Int} (h : getNewHwEvent y core = some (id, y')) :
    (∃ e ∉ y.reserved, id = e.val) ∨ (∀ e, e ∈ y.reserved) ∧ id = SW_BAR_ENABLE ∧ y' = y := by
  simp only [getNewHwEvent, maybeGetEvent, Synchroniser.waitEvent, Option.map_map, Option.map_eq_some_iff,
    Function.comp_apply] at h
  obtain ⟨slot, -, h⟩ := h
  cases hf : y.freeEvent with
  | some e =>
    rw [hf] at h
    obtain ⟨rfl, -⟩ := Prod.mk.inj h
    have hnot : e ∉ y.reserved := of_decide_eq_true (Scan.first_some hf)
    exact Or.inl ⟨e, hnot, if_neg (Int.not_lt.2 (Int.natCast_nonneg _))⟩
  | none =>
    rw [hf] at h
    obtain ⟨rfl, rfl⟩ := Prod.mk.inj h
    refine Or.inr ⟨fun e => ?_, rfl, rfl⟩
    have he := Scan.first_none.1 hf e
    simpa using he

theorem getNewHwEvent_ok {y y' : Synchroniser} {core : Nat} {id : Int} (h : y.Ok)
    (hget : getNewHwEvent y core = some (id, y')) : y'.Ok := by
  simp only [getNewHwEvent, maybeGetEvent, Option.map_map, Option.map_eq_some_iff, Function.comp_apply] at hget
  obtain ⟨⟨answer, y''⟩, hwait, hget⟩ := hget
  obtain ⟨-, rfl⟩ := Prod.mk.inj hget
  exact h.waitEvent hwait

theorem getNewHwEvent_isSome {y : Synchroniser} (h : y.Ok) (hfree : ∃ e, e ∉ y.reserved) (core : Nat) :
    (getNewHwEvent y core).isSome = true := by
  rw [getNewHwEvent, Option.isSome_map, maybeGetEvent, Option.isSome_map]
  exact h.waitEvent_isSome hfree core

theorem getNewHwEvent_inRange {y y' : Synchroniser} {core : Nat} {id : Int} (h : ∃ e, e ∉ y.reserved)
    (hget : getNewHwEvent y core = some (id, y')) : InRange id := by
  obtain ⟨e, -, rfl⟩ | ⟨hall, -⟩ := getNewHwEvent_cases hget
  · exact ⟨Int.natCast_nonneg _, Int.ofNat_lt.2 e.isLt⟩
  · obtain ⟨e, he⟩ := h
    exact absurd (hall e) he

/-! ## The runtime -/

/-- `nullTeam` and `nullEvent` are what is read through a `CURR_TEAM` that is null. -/
structure Config where
  nprocs : Nat
  nullTeam : Team
  nullEvent : Int

/-- Where a core is in bar_hws.c. A slave is `away` before it first comes to the dock, and `late` if it notifies an
event there after the gather (it is not followed from there); the master is `opening` until it ends the
gather. The others are in the software barrier: a slave that has set its flag, the master at the flag of
thread `i`. -/
inductive Inside
  | no
  | away
  | late
  | opening
  | flagged
  | polling (the_team i : Nat)
  | clearing (the_team i : Nat)
deriving DecidableEq, Repr

/-- `hwEvent` is the field `hw_event` of the descriptors, `masterFlag` the words at `MASTER_FLAG`. -/
structure State where
  team : TeamAlloc.State
  hwEvent : Nat → Int
  sync : Synchroniser
  msBarrier : Int
  masterFlag : Nat → Int
  inside : Nat → Inside

/-- `enter` is the first `MSGBarrier_SlaveEnter` of a slave, `opening` the first `MSGBarrier_Wait` of the master
(libgomp.c:119), `barrier` a `GOMP_barrier`; the others are those of `TeamAlloc`. -/
inductive Act
  | enter (c : Nat)
  | opening
  | barrier (c : Nat)
  | start (c specified : Nat)
  | finish (c : Nat)
  | dock (c : Nat)
  | go (c : Nat)
deriving DecidableEq, Repr

variable (cfg : Config)

/-- `CURR_TEAM(c)`. -/
def State.desc (s : State) (c : Nat) : Team :=
  match s.team.g.currTeam c with
  | some T => s.team.g.teams T
  | none => cfg.nullTeam

/-- `CURR_TEAM(c)->hw_event`. -/
def State.event (s : State) (c : Nat) : Int :=
  match s.team.g.currTeam c with
  | some T => s.hwEvent T
  | none => cfg.nullEvent

def State.goIn (s : State) (c : Nat) (p : Inside) : State := { s with inside := Function.update s.inside c p }

/-- A step of `TeamAlloc`. -/
def State.alloc (s : State) (a : TeamAlloc.Act) (k : TeamAlloc.State → State) : Option State :=
  (TeamAlloc.step cfg.nprocs s.team a).map k

/-- `MSGBarrier_SlaveEnter` (bar_hws.c:13): at the gather and with an event the slave stops. -/
def slaveEnter (s : State) (c : Nat) (stop : Option State) : Option State :=
  if s.msBarrier = GLOBAL_GATHER ∨ s.event cfg c ≠ SW_BAR_ENABLE then stop
  else some ({ s with masterFlag := Function.update s.masterFlag c 1 }.goIn c .flagged)

/-- `MSGBarrier_Wait` (bar_hws.c:67), from `GOMP_parallel_end`. At the gather it does not wait. -/
def wait (s : State) (c : Nat) : Option State :=
  (s.team.g.currTeam c).bind fun the_team =>
    s.alloc cfg (.finish c) fun t =>
      if s.msBarrier = GLOBAL_GATHER then
        { s with team := t, msBarrier := GLOBAL_GATHER_END }.goIn c
          (.polling the_team (s.team.g.teams the_team).nthreads)
      else if s.event cfg c ≠ SW_BAR_ENABLE then { s with team := t }
      else { s with team := t }.goIn c (.polling the_team 1)

/-- The next step of core `c` in the call that it has made. -/
def stepGo (s : State) (c : Nat) : Option State :=
  match s.inside c with
  | .away | .late | .opening => none
  | .no =>
    (TeamAlloc.step cfg.nprocs s.team (.go c)).bind fun t =>
      match s.team.pc c with
      | .resolve _ =>
        -- team.c:159
        (getNewHwEvent s.sync c).map fun (event, sync) =>
          { s with team := t, hwEvent := Function.update s.hwEvent s.team.g.nextTeam event, sync := sync }
      | .endSignal the_team =>
        -- team.c:251
        some { s with team := t, sync := s.sync.free c (s.hwEvent the_team) }
      | _ => some { s with team := t }
  | .flagged => some ({ s with team := s.team.goto c .running }.goIn c .no)
  | .polling the_team i =>
    if i < (s.team.g.teams the_team).nthreads then
      if s.masterFlag ((s.team.g.teams the_team).proc_ids i) = 0 then none
      else some (s.goIn c (.clearing the_team i))
    else
      (s.team.g.currTeam c).map fun the_team => { s with team := s.team.goto c (.endWait the_team) }.goIn c .no
  | .clearing the_team i =>
    some ({ s with
      masterFlag := Function.update s.masterFlag ((s.team.g.teams the_team).proc_ids i) 0 }.goIn c
        (.polling the_team (i + 1)))

def step (s : State) : Act → Option State
  | .enter c =>
    if s.inside c = .away then
      slaveEnter cfg s c (some (s.goIn c (if s.msBarrier = GLOBAL_GATHER then .no else .late)))
    else none
  | .opening =>
    if s.inside MASTER_ID = .opening then
      some ({ s with msBarrier := GLOBAL_GATHER_END }.goIn MASTER_ID .no)
    else none
  | .barrier c => if s.inside c = .no ∧ s.team.pc c = .running then some s else none
  | .start c specified =>
    if s.inside c = .no then s.alloc cfg (.start c specified) fun t => { s with team := t } else none
  | .finish c => if s.inside c = .no then wait cfg s c else none
  | .dock c =>
    if s.inside c = .no then
      (TeamAlloc.step cfg.nprocs s.team (.dock c)).bind fun t => slaveEnter cfg s c (some { s with team := t })
    else none
  | .go c => stepGo cfg s c

/-- The event of the root team, which the master asks for (team.c:95). -/
def rootEvent : Int × Synchroniser := (getNewHwEvent {} MASTER_ID).get rfl

theorem rootEvent_spec : InRange rootEvent.1 ∧ rootEvent.2.Ok := by
  have hget : getNewHwEvent {} MASTER_ID = some (rootEvent.1, rootEvent.2) := (Option.some_get rfl).symm
  exact ⟨getNewHwEvent_inRange ⟨⟨0, by decide⟩, List.not_mem_nil⟩ hget, getNewHwEvent_ok .empty hget⟩

/-- After `omp_initenv`: no slave has come to the dock. -/
def init : State where
  team := TeamAlloc.init cfg.nprocs
  hwEvent := Function.update (fun _ => 0) 0 rootEvent.1
  sync := rootEvent.2
  msBarrier := GLOBAL_GATHER
  masterFlag := fun _ => 0
  inside := fun c => if c = MASTER_ID then .opening else if c < cfg.nprocs then .away else .no

/-! ## What is passed to the driver -/

inductive Driver
  | notify
  | notifyAndSet
  | release (mask : BitVec 32)
  | freeEvent
deriving DecidableEq, Repr

structure Call where
  driver : Driver
  id : Int
deriving DecidableEq, Repr

/-- `notify` in `MSGBarrier_SlaveEnter` and in `MSGBarrier_Wait`. -/
def dockCalls (s : State) (c : Nat) : List Call :=
  if s.msBarrier = GLOBAL_GATHER ∨ s.event cfg c = SW_BAR_ENABLE then [] else [⟨.notify, s.event cfg c⟩]

/-- `notify_mask` of `MSGBarrier_Release` (bar_hws.c:117). -/
def notifyMask (s : State) (c : Nat) : BitVec 32 := (s.desc cfg c).team &&& ~~~bit 32 ((s.desc cfg c).proc_ids 0)

/-- The calls of an action. `MSGBarrier_Release`, `gomp_hal_barrier` and `gomp_team_end` pass on what is in the
descriptor. -/
def calls (s : State) : Act → List Call
  | .enter c | .dock c | .finish c => dockCalls cfg s c
  | .opening | .start _ _ => []
  | .barrier c => [⟨if c = (s.desc cfg c).proc_ids 0 then .notify else .notifyAndSet, s.event cfg c⟩]
  | .go c =>
    if s.inside c = .no then
      match s.team.pc c with
      | .release _ 1 => [⟨.release (notifyMask cfg s c), s.event cfg c⟩]
      | .endSignal the_team => [⟨.freeEvent, s.hwEvent the_team⟩]
      | _ => []
    else []

/-! ## What is asked of a run -/

/-- The cores that have entered the dock and were not released since. -/
def docked (s : State) (a : Act) (g : Nat → Bool) : Nat → Bool :=
  match a with
  | .enter c | .dock c => Function.update g c true
  | .go c =>
    if s.inside c = .no then
      match s.team.pc c with
      | .release _ 1 => fun x => g x && !(notifyMask cfg s c).getLsbD x
      | _ => g
    else g
  | _ => g

/-- A slave leaves the software dock after it was released. -/
def HeldUntilReleased (x : State × (Nat → Bool)) : Act → Prop
  | .go c => x.1.inside c = .flagged → x.2 c = false
  | _ => True

/-- The software wait ends when all slaves are in the dock. -/
def AllGathered (x : State × (Nat → Bool)) : Act → Prop
  | .go c =>
    match x.1.inside c with
    | .polling the_team i =>
      (x.1.team.g.teams the_team).nthreads ≤ i →
        ∀ j < (x.1.team.g.teams the_team).nthreads, 1 ≤ j → x.2 ((x.1.team.g.teams the_team).proc_ids j) = true
    | _ => True
  | _ => True

def Safe (x : State × (Nat → Bool)) (a : Act) : Prop :=
  (step cfg x.1 a).isSome = true →
    (∀ k ∈ calls cfg x.1 a, InRange k.id) ∧ HeldUntilReleased x a ∧ AllGathered x a

/-- A team that is formed finds a free event; when the gather ends all slaves are at the dock. -/
def Available (s : State) : Act → Prop
  | .go c =>
    match s.team.pc c with
    | .resolve _ => ∃ e, e ∉ s.sync.reserved
    | _ => True
  | .opening => ∀ c < cfg.nprocs, s.inside c ≠ .away
  | _ => True

end VirtualSoc.Gomp.BarrierHws
