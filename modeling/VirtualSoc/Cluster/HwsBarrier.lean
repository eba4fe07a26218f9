import Mathlib.Data.Fintype.Card
import VirtualSoc.Cluster.HwsCounter

/-!
# An event as a barrier (cluster/cl_hws.cpp, support/simulator/hws_support.c)

A core obtains an event for `n` notifications, and `n` participants then notify it round after round, each
only after it was woken for the round before (`Protocol`). `Round` is the history of such a run. While
`signal` runs first at each edge, the counter is the reservation bit and what is missing in the round, the
event wakes nobody before every participant has notified for the round, and no `assert` of `signal` fails
for it (`event_barrier_safe`).
-/

namespace VirtualSoc.Hws

variable {p q : Nat}

/-! ## Commands on an event -/

section Commands

variable (s : State p q) (prg : Fin p → Option Request) (e : Event)

/-- Core `core` reads the answer to its ask at the edge. -/
def asks (core : Core) : Bool :=
  decide ((s.prog core).state = .waitEvent) && decide (∃ port, (prg port).any fun var => var.id == core.val)

/-- `mask_var` of a release: one word, or what the first of two words left in `mask` and the second. -/
def maskVar (core : Core) (var : Request) : Nat :=
  if (s.prog core).state = .releaseEvent then s.mask e &&& 0xFFFFFFFF ||| var.data.toNat <<< 32
  else if (s.prog core).maskType = 1 then var.data.toNat % 2 ^ 16 else var.data.toNat

/-- Core `core` only gives commands on the event that release it with an empty wake mask. -/
def EmptyReleases (core : Core) : Prop :=
  (s.prog core).evManaging = some e →
    (s.prog core).state = .releaseOrFreeEvent ∨ (s.prog core).state = .releaseEvent →
      ∀ port, ∀ var ∈ prg port, var.id = core.val → var.rw = true ∧ maskVar s e core var = 0

instance (core : Core) : Decidable (EmptyReleases s prg e core) :=
  inferInstanceAs (Decidable ((s.prog core).evManaging = some e →
    (s.prog core).state = .releaseOrFreeEvent ∨ (s.prog core).state = .releaseEvent →
      ∀ port : Fin p, ∀ var ∈ prg port, var.id = core.val → var.rw = true ∧ maskVar s e core var = 0))

end Commands

/-- The edge at which `core`, and no other core, obtains the event for `n` notifications. -/
structure Obtains (s : State p q) (a : Edge p q) (e : Event) (core : Core) (n : Nat) : Prop where
  first : a.order.head? = some .signal
  free : freeEvent s = some e
  asked : asks s a.prg core = true
  nsl : (s.prog core).nslTemp = n
  alone : ∀ core', asks s a.prg core' = true → core' = core
  quiet : ∀ core', EmptyReleases s a.prg e core'

/-! ## Rounds -/

/-- The history of an event: how often it was reloaded, who has notified it since, how often each core has
notified it, and who waits to be woken for its round. -/
structure Round where
  number : Nat := 0
  arrived : List Core := []
  sent : Core → Nat := fun _ => 0
  waiting : Core → Bool := fun _ => false

section Rounds

variable (cfg : Config) (e : Event)

/-- Core `c` is woken for the event at the edge. -/
def wokenFor (s : State p q) (a : Edge p q) (c : Core) : Bool :=
  decide (.wake e c ∈ programmeWrites cfg s a.prg ++ (notifyWrites cfg s : List (Write p q)))

/-- The cores whose notifications of the event are taken at the edge. -/
def notifiers (s : State p q) (a : Edge p q) : List Core := (notified e (accepted s a.slv)).map Notification.core

def Round.next (s : State p q) (a : Edge p q) (r : Round) : Round where
  number := if reloads s e then r.number + 1 else r.number
  arrived := (if reloads s e then [] else r.arrived) ++ notifiers e s a
  sent c := r.sent c + (notifiers e s a).count c
  waiting c := r.waiting c && !wokenFor cfg e s a c || (notifiers e s a).contains c

variable (P : Finset Core)

/-- An edge of the run: `signal` runs first, the event is neither freed nor released with a wake mask, and the
notifications of it are those of `notify` and `notify_and_set`, of participants that do not wait to be woken. -/
structure Protocol (x : State p q × Round) (a : Edge p q) : Prop where
  first : a.order.head? = some .signal
  quiet : ∀ core, EmptyReleases x.1 a.prg e core
  once : (notifiers e x.1 a).Nodup
  notify : ∀ y ∈ notified e (accepted x.1 a.slv), y.core ∈ P ∧ x.2.waiting y.core = false ∧ y.var.rw = true ∧
    byte y.var.data 1 = y.core.val

instance (x : State p q × Round) (a : Edge p q) : Decidable (Protocol e P x a) :=
  decidable_of_iff (a.order.head? = some .signal ∧ (∀ core : Fin MAX_CORES, EmptyReleases x.1 a.prg e core) ∧
      (notifiers e x.1 a).Nodup ∧ ∀ y ∈ notified e (accepted x.1 a.slv), y.core ∈ P ∧ x.2.waiting y.core = false ∧
        y.var.rw = true ∧ byte y.var.data 1 = y.core.val)
    ⟨fun ⟨h₁, h₂, h₃, h₄⟩ => ⟨h₁, h₂, h₃, h₄⟩, fun h => ⟨h.first, h.quiet, h.once, h.notify⟩⟩

/-- Bit 7 is set, and the low bits are what is missing in the round. -/
def Counts (x : State p q × Round) : Prop :=
  x.1.atomicCounters e &&& 0x80 ≠ 0 ∧ (x.1.atomicCounters e &&& 0x7F) + x.2.arrived.length = P.card

/-- What the edge shows: nobody is woken for a round before all participants have notified for it, and an
`assert` of `signal` that fails is about a notification of another event. -/
structure Safe (x : State p q × Round) (a : Edge p q) : Prop where
  counts : Counts e P x
  woken : ∀ c, wokenFor cfg e x.1 a c = true → ∀ d ∈ P, x.2.sent d = x.2.number + 1
  asserts : ∀ f, countOffAll x.1.atomicCounters (accepted x.1 a.slv) = .error f →
    f.event ≠ e.val ∧ ∃ y ∈ accepted x.1 a.slv, byte y.var.data 0 = f.event

/-- The invariant of the run. -/
structure Barrier (x : State p q × Round) : Prop where
  bytes : Bytes x.1
  setValue : x.1.atomicCountersSetValue e = 128 + P.card
  counter : x.1.atomicCounters e + x.2.arrived.length = 128 + P.card
  nodup : x.2.arrived.Nodup
  arrived : ∀ c ∈ x.2.arrived, c ∈ P ∧ x.2.waiting c = true
  sent : ∀ c ∈ P, x.2.sent c = x.2.number + if c ∈ x.2.arrived then 1 else 0

end Rounds

variable {cfg : Config} {s t : State p q} {a : Edge p q} {e : Event} {core : Core} {n : Nat} {P : Finset Core}
  {x y : State p q × Round} {varAc : Event → Nat}

/-! ## What `programme` does to the event -/

/-- The write is not about the counter of the event and wakes nobody for it, unless the counter gets `v`. -/
def About (e : Event) (v : Option Nat) : Write p q → Prop
  | .counter i u => i = e → some u = v
  | .setValue i u => i = e → some u = v
  | .wake i _ => i ≠ e
  | _ => True

theorem wakes_zero : (wakes cfg e 0 : List (Write p q)) = [] := by
  simp [wakes]

/-- A release with an empty mask, or of another event. -/
theorem release_about {i : Event} {maskVar : Nat} {v : Option Nat} (h : i = e → maskVar = 0) :
    ∀ w ∈ (release cfg core i maskVar : List (Write p q)), About e v w := by
  intro w hw
  simp only [release, List.mem_append, List.mem_cons, List.not_mem_nil, or_false] at hw
  obtain ((rfl | rfl) | hw) | rfl := hw
  · trivial
  · trivial
  · by_cases hi : i = e
    · rw [h hi, wakes_zero] at hw
      cases hw
    · simp only [wakes, List.mem_map] at hw
      obtain ⟨c, -, rfl⟩ := hw
      exact hi
  · trivial

theorem releaseOrFree_about {m m₁ m' : Machine p} {port : Fin p} {var : Request} {ws : List (Write p q)}
    {v : Option Nat} (hm : m = s.prog core) (hstate : m.state = .releaseOrFreeEvent) (hJ : m.SameTask m₁)
    (hq : m.evManaging = some e → var.rw = true ∧ maskVar s e core var = 0)
    (h : releaseOrFree cfg core m₁ port var = some (m', ws)) : ∀ w ∈ ws, About e v w := by
  have hmask : m.evManaging = some e → m.maskType = 1 → var.data.toNat % 2 ^ 16 = 0 := by
    intro hev ht
    have := (hq hev).2
    rwa [maskVar, ← hm, if_neg (by rw [hstate]; decide), if_pos ht] at this
  obtain ⟨i, hev, hcases⟩ := releaseOrFree_cases h
  rw [hJ.2.1] at hev
  have hie : ∀ hi : i = e, m.evManaging = some e := fun hi => hev.trans (congrArg some hi)
  obtain ⟨-, ht, -, rfl⟩ | ⟨-, -, -, rfl⟩ | ⟨hrw, -, -, -, rfl⟩ := hcases
  · rw [hJ.2.2] at ht
    intro w hw
    simp only [List.mem_append, List.mem_cons, List.not_mem_nil, or_false] at hw
    obtain (rfl | hw) | rfl := hw
    · trivial
    · exact release_about (fun hi => hmask (hie hi) ht) w hw
    · trivial
  · simp [About]
  · have hne : i ≠ e := fun hi => absurd (hq (hie hi)).1 (Bool.eq_false_iff.1 hrw)
    simp [About, hne]

theorem releaseEvent_about {m m₁ m' : Machine p} {port : Fin p} {var : Request} {ws : List (Write p q)}
    {v : Option Nat} (hm : m = s.prog core) (hstate : m.state = .releaseEvent) (hJ : m.SameTask m₁)
    (hq : m.evManaging = some e → maskVar s e core var = 0)
    (h : releaseEvent cfg s core m₁ port var = some (m', ws)) : ∀ w ∈ ws, About e v w := by
  obtain ⟨i, hev, -, -, rfl⟩ := releaseEvent_cases h
  rw [hJ.2.1] at hev
  intro w hw
  simp only [List.mem_append, List.mem_cons, List.not_mem_nil, or_false] at hw
  obtain hw | rfl := hw
  · refine release_about (fun hi => ?_) w hw
    have := hq (hev.trans (congrArg some hi))
    rw [maskVar, ← hm, if_pos hstate] at this
    rwa [hi]
  · trivial

/-- The writes of a core that commands no more than empty releases: at most the reservation of its ask. -/
theorem machine_about {v : Option Nat} {m' : Machine p} {ws : List (Write p q)} {prg : Fin p → Option Request}
    (hq : EmptyReleases s prg e core) (hv : asks s prg core = true → freeEvent s = some e →
      some ((0x80 ||| (s.prog core).nslTemp) % 256) = v)
    (h : machineStep cfg s prg core (s.prog core) = some (m', ws)) : ∀ w ∈ ws, About e v w := by
  refine machineStep_forall h (fun _ _ => trivial) ?_ ?_ ?_
  · intro hstate m₁ port var m₂ us hJ hvar hid hb
    have hasks : asks s prg core = true := by
      simp only [asks, hstate, decide_true, Bool.true_and, decide_eq_true_eq]
      exact ⟨port, by simp [hvar, hid]⟩
    obtain ⟨-, -, ⟨i, hi, -, rfl⟩ | ⟨-, -, rfl⟩⟩ := waitEvent_cases hb
    · have hval : i = e → some ((0x80 ||| m₁.nslTemp) % 256) = v := by
        rintro rfl
        rw [hJ.1]
        exact hv hasks hi
      simpa [About] using hval
    · simp [About]
  · intro hstate m₁ port var m₂ us hJ hvar hid hb
    exact releaseOrFree_about rfl hstate hJ (fun hev => hq hev (Or.inl hstate) port var hvar hid) hb
  · intro hstate m₁ port var m₂ us hJ hvar hid hb
    exact releaseEvent_about rfl hstate hJ (fun hev => (hq hev (Or.inr hstate) port var hvar hid).2) hb

theorem programme_about {v : Option Nat} {prg : Fin p → Option Request}
    (hq : ∀ core, EmptyReleases s prg e core) (hv : ∀ core, asks s prg core = true → freeEvent s = some e →
      some ((0x80 ||| (s.prog core).nslTemp) % 256) = v) :
    ∀ w ∈ (programmeWrites cfg s prg : List (Write p q)), About e v w := by
  intro w hw
  obtain ⟨core, m', ws, hm, hw⟩ := programme_machine hw
  exact machine_about (hq core) (hv core) hm w hw

/-! ## The edge -/

/-- With `signal` first, the other processes run after it. -/
theorem order_first (hperm : a.order.Perm [.programme, .notify, .signal]) (h : a.order.head? = some .signal) :
    a.order = .signal :: after a ∧ .programme ∈ after a ∧ .notify ∈ after a ∧ .signal ∉ after a := by
  unfold after
  obtain h' | h' | h' | h' | h' | h' := order_cases hperm <;> rw [h'] at h ⊢ <;> revert h <;> decide

/-- The value for the reload changes only if `programme` writes it. -/
theorem step_setValue (hs : step cfg s a = some t)
    (h : ∀ v, .setValue e v ∉ (programmeWrites cfg s a.prg : List (Write p q))) :
    t.atomicCountersSetValue e = s.atomicCountersSetValue e := by
  obtain ⟨-, -, varAc, -, rfl⟩ := step_spec hs
  refine Delta.commit_of_not_mem fun v hv => ?_
  obtain ⟨x, -, hx⟩ := List.mem_flatMap.1 (mem_setValue.1 hv)
  obtain rfl := setValue_programme hx
  exact h v hx

theorem mem_stores_notify {u : Nat} :
    u ∈ stores cfg s a e .notify ↔ reloads s e = true ∧ u = s.atomicCountersSetValue e := by
  refine mem_storesOf.trans ⟨fun hw => ?_, ?_⟩
  · obtain ⟨i, hr, ⟨c, hc, -⟩ | hc | hc⟩ := mem_notifyWrites.1 hw
    · cases hc
    · simp only [Write.counter.injEq] at hc
      obtain ⟨rfl, rfl⟩ := hc
      exact ⟨hr, rfl⟩
    · cases hc
  · rintro ⟨hr, rfl⟩
    exact mem_notifyWrites.2 ⟨e, hr, Or.inr (Or.inl rfl)⟩

/-- The counter after an edge with `signal` first, where `programme` leaves the event alone. -/
theorem step_count (hb : Bytes s) (hs : step cfg s a = some t) (hfirst : a.order.head? = some .signal)
    (h : ∀ v, .counter e v ∉ (programmeWrites cfg s a.prg : List (Write p q))) :
    if reloads s e then t.atomicCounters e = s.atomicCountersSetValue e
    else t.atomicCounters e + (notified e (accepted s a.slv)).length = s.atomicCounters e := by
  obtain ⟨-, -, hnotify, hsignal⟩ := order_first (step_spec hs).1 hfirst
  have hstores : ∀ u, u ∈ (after a).flatMap (stores cfg s a e) ↔
      reloads s e = true ∧ u = s.atomicCountersSetValue e := by
    intro u
    rw [List.mem_flatMap]
    constructor
    · rintro ⟨x, hx, hu⟩
      cases x with
      | programme => exact absurd (mem_storesOf.1 hu) (h u)
      | notify => exact mem_stores_notify.1 hu
      | signal => exact absurd hx hsignal
    · intro hu
      exact ⟨.notify, hnotify, mem_stores_notify.2 hu⟩
  obtain hmem | ⟨hnil, hcount⟩ := step_counter (e := e) hb hs
  · obtain ⟨hr, hval⟩ := (hstores _).1 hmem
    rw [if_pos hr]
    exact hval
  · have hr : ¬ reloads s e = true := by
      intro hr
      have hmem := (hstores _).2 ⟨hr, rfl⟩
      rw [hnil] at hmem
      cases hmem
    rw [if_neg hr]
    exact hcount

/-- Without an obtained event, `programme` does not touch the one that is reserved. -/
theorem programme_quiet (hq : ∀ core, EmptyReleases s a.prg e core) (hr : s.atomicCounters e &&& 0x80 ≠ 0) :
    ∀ w ∈ (programmeWrites cfg s a.prg : List (Write p q)), About e none w := by
  refine programme_about hq fun core _ hfree => ?_
  exact absurd (reserved_shift (beq_iff_eq.1 (Scan.first_some hfree))) hr

/-! ## The invariant -/

theorem Barrier.card (h : Barrier e P x) : x.2.arrived.length ≤ P.card := by
  rw [← List.toFinset_card_of_nodup h.nodup]
  exact Finset.card_le_card fun c hc => (h.arrived c (List.mem_toFinset.1 hc)).1

theorem Barrier.counts (h : Barrier e P x) : Counts e P x := by
  have hcounter := h.counter
  have hcard := h.card
  have hP : P.card ≤ 16 := card_finset_fin_le P
  refine ⟨(counter_iff (h.bytes e).1).1.2 (by omega), ?_⟩
  rw [(counter_iff (h.bytes e).1).2.1]
  omega

/-- When the event is reloaded, everybody has arrived. -/
theorem Barrier.all_arrived (h : Barrier e P x) (hr : reloads x.1 e = true) : ∀ c ∈ P, c ∈ x.2.arrived := by
  have hcounter := h.counter
  simp only [reloads, Bool.and_eq_true, beq_iff_eq, (counter_iff (h.bytes e).1).2.2] at hr
  have hsub : x.2.arrived.toFinset ⊆ P := fun c hc => (h.arrived c (List.mem_toFinset.1 hc)).1
  have hlen : P.card ≤ x.2.arrived.toFinset.card := by
    rw [List.toFinset_card_of_nodup h.nodup]
    omega
  intro c hc
  rw [← Finset.eq_of_subset_of_card_le hsub hlen] at hc
  exact List.mem_toFinset.1 hc

theorem notifiers_mem {c : Core} (hc : c ∈ notifiers e s a) : ∃ y ∈ notified e (accepted s a.slv), y.core = c :=
  List.mem_map.1 hc

/-- Nobody notifies who has arrived. -/
theorem Barrier.disjoint (h : Barrier e P x) (hp : Protocol e P x a) {c : Core} (hc : c ∈ notifiers e x.1 a) :
    c ∈ P ∧ c ∉ x.2.arrived := by
  obtain ⟨y, hy, rfl⟩ := notifiers_mem hc
  obtain ⟨hP, hw, -⟩ := hp.notify y hy
  refine ⟨hP, fun harr => ?_⟩
  rw [(h.arrived _ harr).2] at hw
  cases hw

theorem Barrier.arrivals (h : Barrier e P x) (hp : Protocol e P x a) :
    (x.2.arrived ++ notifiers e x.1 a).Nodup ∧ ∀ c ∈ x.2.arrived ++ notifiers e x.1 a, c ∈ P := by
  constructor
  · refine List.nodup_append.2 ⟨h.nodup, hp.once, fun c hc d hd => ?_⟩
    rintro rfl
    exact (h.disjoint hp hd).2 hc
  · intro c hc
    rcases List.mem_append.1 hc with hc | hc
    · exact (h.arrived c hc).1
    · exact (h.disjoint hp hc).1

theorem wokenFor_reloads (hq : ∀ w ∈ (programmeWrites cfg s a.prg : List (Write p q)), About e none w) {c : Core}
    (hw : wokenFor cfg e s a c = true) : reloads s e = true := by
  rcases List.mem_append.1 (of_decide_eq_true hw) with hw | hw
  · exact absurd rfl (hq _ hw)
  · obtain ⟨i, hr, ⟨c', hc, -⟩ | hc | hc⟩ := mem_notifyWrites.1 hw
    · simp only [Write.wake.injEq] at hc
      rw [hc.1]
      exact hr
    · cases hc
    · cases hc

/-- **One edge** keeps the invariant. -/
theorem Barrier.step (h : Barrier e P x) (hp : Protocol e P x a)
    (hs : Trans.withHistory (step cfg) (Round.next cfg e) x a = some y) : Barrier e P y := by
  obtain ⟨hs, hy⟩ := Trans.withHistory_some.1 hs
  have hq : ∀ w ∈ (programmeWrites cfg x.1 a.prg : List (Write p q)), About e none w :=
    programme_quiet hp.quiet h.counts.1
  have hset := step_setValue hs fun v hv => by have := hq _ hv rfl; cases this
  have hcount := step_count h.bytes hs hp.first fun v hv => by have := hq _ hv rfl; cases this
  have hlen : (notifiers e x.1 a).length = (notified e (accepted x.1 a.slv)).length := List.length_map _
  have hcounter := h.counter
  by_cases hr : reloads x.1 e = true
  · -- everybody has arrived, so nobody notifies
    have hall := h.all_arrived hr
    have hnone : notifiers e x.1 a = [] := List.eq_nil_iff_forall_not_mem.2 fun c hc =>
      (h.disjoint hp hc).2 (hall c (h.disjoint hp hc).1)
    rw [if_pos hr] at hcount
    have hy2 : y.2.arrived = [] := by
      rw [hy]
      simp [Round.next, hr, hnone]
    refine ⟨step_bytes h.bytes hs, hset.trans h.setValue, ?_, ?_, ?_, fun c hc => ?_⟩
    · rw [hcount, h.setValue, hy2]
      rfl
    · rw [hy2]
      exact List.nodup_nil
    · rw [hy2]
      intro c hc
      cases hc
    · have hsent := h.sent c hc
      rw [if_pos (hall c hc)] at hsent
      rw [hy2, if_neg List.not_mem_nil, hy]
      simp [Round.next, hr, hnone, hsent]
  · rw [if_neg hr] at hcount
    obtain ⟨hnodup, hmem⟩ := h.arrivals hp
    have hy2 : y.2.arrived = x.2.arrived ++ notifiers e x.1 a := by
      rw [hy]
      simp [Round.next, hr]
    refine ⟨step_bytes h.bytes hs, hset.trans h.setValue, ?_, ?_, fun c hc => ⟨?_, ?_⟩, fun c hc => ?_⟩
    · rw [hy2, List.length_append, hlen]
      omega
    · rw [hy2]
      exact hnodup
    · rw [hy2] at hc
      exact hmem c hc
    · rw [hy2] at hc
      have hnw : wokenFor cfg e x.1 a c = false := by
        rw [← Bool.not_eq_true]
        exact fun hw => hr (wokenFor_reloads hq hw)
      rw [hy]
      simp only [Round.next, hnw, Bool.not_false, Bool.and_true, Bool.or_eq_true, List.contains_iff_mem]
      rcases List.mem_append.1 hc with hc | hc
      · exact Or.inl (h.arrived c hc).2
      · exact Or.inr hc
    · have hsent := h.sent c hc
      rw [hy2, hy]
      simp only [Round.next, hr, Bool.false_eq_true, if_false, List.mem_append]
      by_cases harr : c ∈ x.2.arrived
      · rw [if_pos harr] at hsent
        rw [if_pos (Or.inl harr), List.count_eq_zero_of_not_mem fun hc => (h.disjoint hp hc).2 harr, hsent]
      · rw [if_neg harr] at hsent
        by_cases hc' : c ∈ notifiers e x.1 a
        · rw [if_pos (Or.inr hc'), List.count_eq_one_of_mem hp.once hc', hsent]
        · rw [if_neg (by simp [harr, hc']), List.count_eq_zero_of_not_mem hc', hsent]

/-- An `assert` that fails is about one of the notifications. -/
theorem countOffAll_error_mem {varAc : Event → Nat} {ys : List (Notification q)} {f : Fired}
    (h : countOffAll varAc ys = .error f) : ∃ y ∈ ys, byte y.var.data 0 = f.event := by
  induction ys generalizing varAc with
  | nil => cases h
  | cons y ys ih =>
    simp only [countOffAll] at h
    cases hy : countOff varAc y with
    | error f' =>
      rw [hy] at h
      cases h
      refine ⟨y, List.mem_cons_self, ?_⟩
      unfold countOff at hy
      dsimp only at hy
      repeat' split at hy
      all_goals first | (cases hy; rfl) | cases hy
    | ok varAc' =>
      rw [hy] at h
      obtain ⟨z, hz, hb⟩ := ih h
      exact ⟨z, List.mem_cons_of_mem y hz, hb⟩

theorem Barrier.safe (h : Barrier e P x) (hp : Protocol e P x a) : Safe cfg e P x a := by
  refine ⟨h.counts, fun c hw d hd => ?_, fun f hf => ⟨?_, countOffAll_error_mem hf⟩⟩
  · have hr := wokenFor_reloads (programme_quiet hp.quiet h.counts.1) hw
    rw [h.sent d hd, if_pos (h.all_arrived hr d hd)]
  · refine countOffAll_error hf (h.bytes e).1 (fun _ => ?_) fun y hy => (hp.notify y hy).2.2
    -- the arrived and those that arrive are different participants
    obtain ⟨hnodup, hmem⟩ := h.arrivals hp
    have hle : (x.2.arrived ++ notifiers e x.1 a).length ≤ P.card := by
      rw [← List.toFinset_card_of_nodup hnodup]
      exact Finset.card_le_card fun c hc => hmem c (List.mem_toFinset.1 hc)
    rw [List.length_append, notifiers, List.length_map] at hle
    have := h.counter
    omega

/-! ## The event is obtained -/

/-- The machine of the core that obtains the event writes its counter, and the value for the reload. -/
theorem obtains_writes (ho : Obtains s a e core n) (hs : step cfg s a = some t) :
    ∃ v, .counter e v ∈ (programmeWrites cfg s a.prg : List (Write p q)) ∧
      .setValue e v ∈ (programmeWrites cfg s a.prg : List (Write p q)) := by
  have hfails := (step_spec hs).2.1
  have hasked := ho.asked
  simp only [asks, Bool.and_eq_true, decide_eq_true_eq, Option.any_eq_true, beq_iff_eq] at hasked
  obtain ⟨hstate, port, var, hvar, hid⟩ := hasked
  simp only [programmeFails, decide_eq_false_iff_not, not_exists] at hfails
  cases hm : machineStep (q := q) cfg s a.prg core (s.prog core) with
  | none => exact absurd (by rw [hm]; rfl) (hfails core)
  | some r =>
    have hm' := hm
    unfold machineStep at hm
    rw [hstate] at hm
    obtain ⟨m₁, m₂, us, -, hb, hsub⟩ := scanPorts_served (J := fun _ => True) (fun _ _ _ _ _ _ _ => trivial) trivial
      hm (List.mem_finRange port) hvar hid
    refine ⟨(0x80 ||| m₁.nslTemp) % 256, ?_⟩
    have hmem : ∀ w ∈ us, w ∈ (programmeWrites cfg s a.prg : List (Write p q)) := by
      intro w hw
      refine List.mem_flatMap.2 ⟨core, List.mem_finRange core, ?_⟩
      rw [machineWrites, hm']
      exact hsub hw
    obtain ⟨-, -, ⟨i, hi, -, rfl⟩ | ⟨hnone, -, -⟩⟩ := waitEvent_cases hb
    · obtain rfl : e = i := Option.some.inj (ho.free.symm.trans hi)
      exact ⟨hmem _ (by simp), hmem _ (by simp)⟩
    · rw [ho.free] at hnone
      cases hnone

theorem reserve_card (P : Finset Core) : (0x80 ||| P.card) % 256 = 128 + P.card := by
  have hP : P.card ≤ 16 := card_finset_fin_le P
  generalize P.card = n at hP
  revert n
  decide

/-- **The obtained event**: nobody has arrived. -/
theorem Obtains.barrier (ho : Obtains s a e core P.card) (hb : Bytes s) (hs : step cfg s a = some t) :
    Barrier e P (t, ({} : Round)) := by
  obtain ⟨-, hprogramme, -, hsignal⟩ := order_first (step_spec hs).1 ho.first
  have hq : ∀ w ∈ (programmeWrites cfg s a.prg : List (Write p q)), About e (some (128 + P.card)) w :=
    programme_about ho.quiet fun core' hask _ => by rw [ho.alone core' hask, ho.nsl, reserve_card]
  have hreload : reloads s e = false := by
    have hfree := reserved_shift (beq_iff_eq.1 (Scan.first_some ho.free))
    have hnot := mt (counter_iff (hb e).1).1.2 (not_not.2 hfree)
    simp only [reloads, (counter_iff (hb e).1).2.2, Bool.and_eq_false_iff, beq_eq_false_iff_ne]
    exact Or.inl (by omega)
  obtain ⟨v, hcounter, hset⟩ := obtains_writes ho hs
  refine ⟨step_bytes hb hs, ?_, ?_, List.nodup_nil, fun c hc => (by cases hc), fun c _ => rfl⟩
  · obtain ⟨hperm, -, varAc, -, rfl⟩ := step_spec hs
    have hmem : (e, v) ∈ (a.order.flatMap (processWrites cfg s a varAc)).filterMap Write.setValue? :=
      mem_setValue.2 (List.mem_flatMap.2 ⟨.programme, process_mem_order hperm .programme, hset⟩)
    obtain ⟨x, -, hx⟩ := List.mem_flatMap.1 (mem_setValue.1 (Delta.commit_mem (f := s.atomicCountersSetValue) hmem))
    obtain rfl := setValue_programme hx
    exact Option.some.inj (hq _ hx rfl)
  · obtain hmem | ⟨hnil, -⟩ := step_counter (e := e) hb hs
    · obtain ⟨x, hx, hu⟩ := List.mem_flatMap.1 hmem
      cases x with
      | programme => exact Option.some.inj (hq _ (mem_storesOf.1 hu) rfl)
      | notify =>
        rw [(mem_stores_notify.1 hu).1] at hreload
        cases hreload
      | signal => exact absurd hx hsignal
    · have hmem : v ∈ (after a).flatMap (stores cfg s a e) :=
        List.mem_flatMap.2 ⟨.programme, hprogramme, mem_storesOf.2 hcounter⟩
      rw [hnil] at hmem
      cases hmem

/-- **The barrier is safe**: from the edge at which an event is obtained for as many notifications as there are
participants, in every run of the protocol, with the notifications in any order, at every edge and at the end. -/
theorem event_barrier_safe {as₀ as : List (Edge p q)} (hr : Trans.run (step cfg) init as₀ = some s)
    (ho : Obtains s a e core P.card) (hs : step cfg s a = some t)
    (hp : Trans.Along (Trans.withHistory (step cfg) (Round.next cfg e)) (Protocol e P) (t, {}) as) :
    Trans.Along (Trans.withHistory (step cfg) (Round.next cfg e)) (Safe cfg e P) (t, {}) as ∧
      ∀ x, Trans.run (Trans.withHistory (step cfg) (Round.next cfg e)) (t, {}) as = some x → Counts e P x := by
  have hb : Bytes s := Trans.run_inv Bytes (fun _ _ _ h hs => step_bytes h hs) init_bytes hr
  have h0 := ho.barrier hb hs
  refine ⟨?_, fun x hx => ?_⟩
  · exact hp.of_inv (Barrier e P) h0 (fun _ _ _ h hp hs => h.step hp hs) fun _ _ h hp => h.safe hp
  · have h := Trans.run_inv_along (Barrier e P) (fun _ _ _ h hp hs => h.step hp hs) h0 hp hx
    exact h.counts

def event0 : Event := ⟨0, by decide⟩

def core0 : Core := ⟨0, by decide⟩

def worker1 : Core := ⟨1, by decide⟩

def worker2 : Core := ⟨2, by decide⟩

/-- `signal` runs first; one programming port and two slave ports. -/
def barrierEdge (prg slv₁ slv₂ : Option Request) : Edge 1 2 :=
  ⟨[.signal, .programme, .notify], fun _ => prg, fun port => if port.val = 0 then slv₁ else slv₂⟩

/-- Core 0 asks for an event with two notifications. -/
def askTwo : List (Edge 1 2) :=
  [some ⟨0, true, 0⟩, none, some ⟨0, true, 0x01010002⟩, none].map (barrierEdge · none none)

def obtainTwo : Edge 1 2 := barrierEdge (some ⟨0, false, 0⟩) none none

/-- Core 0 releases the event with an empty mask; in the first round the cores 1 and 2 notify one after the other,
in the second at the same edge. -/
def twoRounds : List (Edge 1 2) :=
  [none, some ⟨0, true, 1⟩, none, some ⟨0, true, 0⟩, none, some ⟨0, true, 0⟩, none].map (barrierEdge · none none) ++
    [barrierEdge none (some ⟨1, true, 0x010100⟩) none, barrierEdge none none (some ⟨2, true, 0x010200⟩),
      barrierEdge none none none, barrierEdge none (some ⟨1, true, 0x010100⟩) (some ⟨2, true, 0x010200⟩),
      barrierEdge none none none]

theorem askTwo_runs : (Trans.run (step ⟨16⟩) init askTwo).isSome = true := by decide +kernel

theorem obtainTwo_steps :
    (step ⟨16⟩ ((Trans.run (step ⟨16⟩) init askTwo).get askTwo_runs) obtainTwo).isSome = true := by
  decide +kernel

theorem event_barrier_safe_twoRounds : ∃ s t : State 1 2,
    Trans.run (step ⟨16⟩) init askTwo = some s ∧ step ⟨16⟩ s obtainTwo = some t ∧
      Trans.Along (Trans.withHistory (step ⟨16⟩) (Round.next ⟨16⟩ event0)) (Safe ⟨16⟩ event0 {worker1, worker2})
        (t, {}) twoRounds ∧
      ∀ x, Trans.run (Trans.withHistory (step ⟨16⟩) (Round.next ⟨16⟩ event0)) (t, {}) twoRounds = some x →
        Counts event0 {worker1, worker2} x := by
  have hs := (Option.some_get askTwo_runs).symm
  have ht := (Option.some_get obtainTwo_steps).symm
  have hobtains : Obtains ((Trans.run (step ⟨16⟩) init askTwo).get askTwo_runs) obtainTwo event0 core0
      ({worker1, worker2} : Finset Core).card :=
    { first := rfl
      free := by decide +kernel
      asked := by decide +kernel
      nsl := by decide +kernel
      alone := by decide +kernel
      quiet := by decide +kernel }
  exact ⟨_, _, hs, ht, event_barrier_safe hs hobtains ht (by decide +kernel)⟩

end VirtualSoc.Hws
