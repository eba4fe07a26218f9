import VirtualSoc.Cluster.HwsBarrier
import VirtualSoc.Cluster.HwsPort

/-!
# Who holds an event (cluster/cl_hws.cpp)

A core that asks obtains the first event whose reservation bit is clear, and lists it in `ev` until it frees
it. The bit is a signal: all machines of an edge see it as it was before the edge, so two asks that are
answered at one edge obtain the same event (`not_exclusive_readTogether`), and a reservation that is stored
before `signal` writes the counters back is lost. In the runs without such an edge (`OneAsk`) an event has at
most one holder, and between two asks that obtain it it was freed (`event_hold`).
-/

namespace VirtualSoc.Hws

variable {p q : Nat}

section Asks

variable (cfg : Config) (s : State p q) (prg : Fin p → Option Request)

/-- Core `core` reads the answer to its ask on the port. -/
def asksOn (core : Core) (port : Fin p) : Bool :=
  decide ((s.prog core).state = .waitEvent) && (prg port).any fun var => var.id == core.val

/-- The ask of `core` on the port obtains the event. -/
def Obtained (e : Event) (core : Core) (port : Fin p) : Prop :=
  .prgPort port (answerWord core (some e)) ∈ (machineWrites cfg s prg core : List (Write p q))

instance (e : Event) (core : Core) (port : Fin p) : Decidable (Obtained cfg s prg e core port) :=
  inferInstanceAs (Decidable (_ ∈ _))

/-- Core `core` frees the event. -/
def frees (e : Event) (core : Core) : Bool :=
  decide ((s.prog core).state = .releaseOrFreeEvent) && decide ((s.prog core).evManaging = some e) &&
    decide (∃ port, (prg port).any fun var => var.id == core.val && !var.rw)

/-- While there is a free event, one ask is answered at an edge, and its reservation is stored after
`signal` has written the counters. -/
def OneAsk (a : Edge p q) : Prop :=
  (freeEvent s).isSome = true → ∀ core : Core, ∀ port : Fin p, asksOn s a.prg core port = true →
    .programme ∈ after a ∧ ∀ core' : Core, ∀ port' : Fin p, asksOn s a.prg core' port' = true →
      core' = core ∧ port' = port

instance (a : Edge p q) : Decidable (OneAsk s a) :=
  inferInstanceAs (Decidable ((freeEvent s).isSome = true → ∀ core : Fin MAX_CORES, ∀ port : Fin p,
    asksOn s a.prg core port = true → .programme ∈ after a ∧ ∀ core' : Fin MAX_CORES, ∀ port' : Fin p,
      asksOn s a.prg core' port' = true → core' = core ∧ port' = port))

/-- At most one core lists an event. -/
def Exclusive : Prop := ∀ c c' i j e, (s.prog c).ev i = some e → (s.prog c').ev j = some e → c = c'

end Asks

section History

variable (cfg : Config)

/-- The events that were obtained and have not been freed since. -/
def takenEvents (s : State p q) (a : Edge p q) (g : Event → Bool) (e : Event) : Bool :=
  decide (∃ core : Fin MAX_CORES, ∃ port : Fin p, Obtained cfg s a.prg e core port) ||
    g e && !decide (∃ core : Fin MAX_CORES, frees s a.prg e core = true)

/-- An ask only obtains an event that was freed since it was last obtained, and no other ask obtains it at the
edge. -/
def ObtainedOnce (x : State p q × (Event → Bool)) (a : Edge p q) : Prop :=
  ∀ e core port, Obtained cfg x.1 a.prg e core port →
    x.2 e = false ∧ ∀ core' port', Obtained cfg x.1 a.prg e core' port' → core' = core ∧ port' = port

end History

variable {cfg : Config} {s t : State p q} {a : Edge p q} {e : Event} {core : Core} {prg : Fin p → Option Request}
  {m m' : Machine p} {ws : List (Write p q)}

/-! ## One machine -/

theorem answer_inj {core : Core} {e i : Event} (h : answerWord core (some e) = answerWord core (some i)) : e = i := by
  revert core e i
  decide +kernel

theorem answer_ne {core : Core} {e : Event} : answerWord core (some e) ≠ answerWord core none := by
  revert core e
  decide +kernel

/-- What a machine does that obtains no event: an event whose counter it writes goes from its list. -/
structure Keeps (s : State p q) (prg : Fin p → Option Request) (core : Core) (m m' : Machine p)
    (ws : List (Write p q)) : Prop where
  ev : ∀ i, m'.ev i = m.ev i ∨ m'.ev i = none ∧ ∃ e, m.ev i = some e ∧ frees s prg e core = true
  stores : ∀ e v, .counter e v ∈ ws ∨ .setValue e v ∈ ws → ∃ i, m.ev i = some e ∧ m'.ev i = none
  answer : ∀ port e, .prgPort port (answerWord core (some e)) ∉ ws

/-- What a machine does that obtains an event. -/
structure Takes (s : State p q) (core : Core) (e : Event) (port : Fin p) (m m' : Machine p)
    (ws : List (Write p q)) : Prop where
  free : freeEvent s = some e
  ev : ∃ slot, m.ev slot = none ∧ m'.ev = Function.update m.ev slot (some e)
  writes : ws = [.prgPort port (answerWord core (some e)), .counter e ((0x80 ||| m.nslTemp) % 256),
    .setValue e ((0x80 ||| m.nslTemp) % 256), .prRdy port true]

/-- Writes that are about no event. -/
theorem keeps_of_same (hev : m'.ev = m.ev) (hstores : ∀ e v, .counter e v ∉ ws ∧ .setValue e v ∉ ws)
    (hanswer : ∀ port e, .prgPort port (answerWord core (some e)) ∉ ws) : Keeps s prg core m m' ws := by
  refine ⟨fun i => Or.inl (congrFun hev i), fun e v h => ?_, hanswer⟩
  rcases h with h | h
  · exact absurd h (hstores e v).1
  · exact absurd h (hstores e v).2

theorem Keeps.append {m₁ m₂ : Machine p} {us : List (Write p q)} (h : Keeps s prg core m m₁ ws)
    (h' : Keeps s prg core m₁ m₂ us) : Keeps s prg core m m₂ (ws ++ us) where
  ev i := by
    rcases h'.ev i with h₂ | ⟨h₂, e, he, hf⟩
    · rw [h₂]
      exact h.ev i
    · rcases h.ev i with h₁ | ⟨h₁, -⟩
      · exact Or.inr ⟨h₂, e, h₁.symm.trans he, hf⟩
      · rw [h₁] at he
        cases he
  stores e v hw := by
    have hw : (.counter e v ∈ ws ∨ .setValue e v ∈ ws) ∨ .counter e v ∈ us ∨ .setValue e v ∈ us := by
      simp only [List.mem_append] at hw
      tauto
    rcases hw with hw | hw
    · obtain ⟨i, hi, hi'⟩ := h.stores e v hw
      refine ⟨i, hi, ?_⟩
      rcases h'.ev i with h₂ | ⟨h₂, -⟩
      · exact h₂.trans hi'
      · exact h₂
    · obtain ⟨i, hi, hi'⟩ := h'.stores e v hw
      refine ⟨i, ?_, hi'⟩
      rcases h.ev i with h₁ | ⟨h₁, -⟩
      · exact h₁.symm.trans hi
      · rw [h₁] at hi
        cases hi
  answer port e hw := by
    rcases List.mem_append.1 hw with hw | hw
    · exact h.answer port e hw
    · exact h'.answer port e hw

theorem release_keeps {maskVar : Nat} {port : Fin p} {w : Write p q}
    (hw : w ∈ release cfg core e maskVar ++ [.prRdy port true]) :
    (∀ i v, w ≠ .counter i v ∧ w ≠ .setValue i v) ∧ ∀ port d, w ≠ .prgPort port d := by
  simp only [release, List.mem_append, List.mem_cons, List.not_mem_nil, or_false] at hw
  obtain (((rfl | rfl) | hw) | rfl) | rfl := hw
  · simp
  · simp
  · obtain ⟨c, rfl⟩ := wakes_write hw
    simp
  · simp
  · simp

theorem releaseOrFree_keeps {m₁ : Machine p} {port : Fin p} {var : Request}
    (hstate : (s.prog core).state = .releaseOrFreeEvent) (htask : (s.prog core).SameTask m₁)
    (hvar : prg port = some var) (hid : var.id = core.val)
    (h : releaseOrFree cfg core m₁ port var = some (m', ws)) : Keeps s prg core m₁ m' ws := by
  obtain ⟨e, he, ⟨-, -, rfl, rfl⟩ | ⟨-, -, rfl, rfl⟩ | ⟨hrw, slot, hlisted, rfl, rfl⟩⟩ := releaseOrFree_cases h
  · have hnone : ∀ w ∈ Write.mask e (var.data.toNat % 2 ^ 16) ::
        release cfg core e (var.data.toNat % 2 ^ 16) ++ [.prRdy port true],
        (∀ i v, w ≠ .counter i v ∧ w ≠ .setValue i v) ∧ ∀ (port : Fin p) d, w ≠ (.prgPort port d : Write p q) := by
      intro w hw
      rcases List.mem_cons.1 hw with rfl | hw
      · simp
      · exact release_keeps hw
    refine keeps_of_same rfl (fun i v => ⟨fun hw => ?_, fun hw => ?_⟩) fun port i hw => ?_
    · exact ((hnone _ hw).1 i v).1 rfl
    · exact ((hnone _ hw).1 i v).2 rfl
    · exact (hnone _ hw).2 port _ rfl
  · exact keeps_of_same rfl (by simp) (by simp)
  · have hfrees : frees s prg e core = true := by
      simp only [frees, hstate, decide_true, Bool.true_and, Bool.and_eq_true, decide_eq_true_eq]
      exact ⟨htask.2.1.symm.trans he, port, by simp [hvar, hid, hrw]⟩
    refine ⟨fun i => ?_, fun i v hw => ?_, fun port' i hw => ?_⟩
    · by_cases hi : i = slot
      · subst hi
        exact Or.inr ⟨Function.update_self i none m₁.ev, e, hlisted, hfrees⟩
      · exact Or.inl (Function.update_of_ne hi none m₁.ev)
    · have hie : i = e := by
        simp only [List.mem_cons, reduceCtorEq, Write.counter.injEq, Write.setValue.injEq, List.not_mem_nil,
          or_false, false_or] at hw
        rcases hw with hw | hw
        · exact hw.1
        · exact hw.1
      subst hie
      exact ⟨slot, hlisted, Function.update_self slot none m₁.ev⟩
    · simp only [List.mem_cons, reduceCtorEq, Write.prgPort.injEq, List.not_mem_nil, or_false, false_or] at hw
      exact answer_ne hw.2

theorem releaseEvent_keeps {m₁ : Machine p} {port : Fin p} {var : Request}
    (h : releaseEvent cfg s core m₁ port var = some (m', ws)) : Keeps s prg core m₁ m' ws := by
  obtain ⟨e, -, -, rfl, rfl⟩ := releaseEvent_cases h
  refine keeps_of_same rfl (fun i v => ⟨fun hw => ?_, fun hw => ?_⟩) fun port i hw => ?_
  · exact ((release_keeps hw).1 i v).1 rfl
  · exact ((release_keeps hw).1 i v).2 rfl
  · exact (release_keeps hw).2 port _ rfl

/-- An ask that is answered: without a free event nothing changes, otherwise the first of them is taken. -/
theorem waitEvent_takes {port : Fin p} {var : Request} (h : waitEvent s core m port var = some (m', ws)) :
    Keeps s prg core m m' ws ∧ freeEvent s = none ∨ ∃ e, Takes s core e port m m' ws := by
  obtain ⟨slot, hnone, ⟨e, he, rfl, rfl⟩ | ⟨he, rfl, rfl⟩⟩ := waitEvent_cases h
  · exact Or.inr ⟨e, he, ⟨slot, hnone, rfl⟩, rfl⟩
  · refine Or.inl ⟨keeps_of_same rfl (by simp) fun port' i hw => ?_, he⟩
    simp only [List.mem_cons, reduceCtorEq, Write.prgPort.injEq, List.not_mem_nil, or_false] at hw
    exact answer_ne hw.2

/-- **What the machine of a core does** at an edge with at most one ask. -/
theorem machine_holds (hone : OneAsk s a)
    (h : machineStep cfg s a.prg core (s.prog core) = some (m', ws)) :
    Keeps s a.prg core (s.prog core) m' ws ∨
      ∃ e port, asksOn s a.prg core port = true ∧ Takes s core e port (s.prog core) m' ws := by
  by_cases hstate : (s.prog core).state = .waitEvent
  · have hasks : ∀ port var, a.prg port = some var → var.id = core.val → asksOn s a.prg core port = true := by
      intro port var hvar hid
      simp [asksOn, hstate, hvar, hid]
    cases hfree : freeEvent s with
    | none =>
      refine Or.inl ?_
      unfold machineStep at h
      rw [hstate] at h
      refine scanPorts_rel (J := fun _ => True) (fun m => keeps_of_same rfl (by simp) (by simp))
        (fun _ _ _ _ _ => Keeps.append) (fun m₁ port var m₂ us _ _ _ hb => ⟨trivial, ?_⟩) trivial h
      obtain ⟨hk, -⟩ | ⟨e, ht⟩ := waitEvent_takes hb
      · exact hk
      · have := ht.free
        rw [hfree] at this
        cases this
    | some e =>
      by_cases hserved : ∃ port var, a.prg port = some var ∧ var.id = core.val
      · obtain ⟨port, var, hvar, hid⟩ := hserved
        have hother := (hone (by rw [hfree]; rfl) core port (hasks port var hvar hid)).2
        have halone : Alone a.prg core port var :=
          ⟨hvar, hid, fun port' var' hvar' hid' => (hother core port' (hasks port' var' hvar' hid')).2⟩
        rw [machineStep_alone halone (by rw [hstate]; rfl), serve, hstate] at h
        obtain ⟨hk, -⟩ | ⟨i, ht⟩ := waitEvent_takes h
        · exact Or.inl hk
        · exact Or.inr ⟨i, port, hasks port var hvar hid, ht⟩
      · have hsilent : Silent a.prg core := fun port var hvar hid => hserved ⟨port, var, hvar, hid⟩
        rw [machineStep_silent hsilent (by rw [hstate]; rfl)] at h
        cases h
        exact Or.inl (keeps_of_same rfl (by simp) (by simp))
  · refine Or.inl (machineStep_rel h (fun m₁ m₂ hev => ?_) (fun m₁ m₂ port b hev => ?_) (fun _ _ _ _ _ => Keeps.append)
      (fun hs => absurd hs hstate) (fun hs m₁ port var m₂ us htask hvar hid hb => ?_)
      (fun hs m₁ port var m₂ us htask hvar hid hb => ?_))
    · exact keeps_of_same hev (by simp) (by simp)
    · exact keeps_of_same hev (by simp) (by simp)
    · exact releaseOrFree_keeps hs htask hvar hid hb
    · exact releaseEvent_keeps hb

/-! ## The edge -/

/-- The machines of an edge that ends. -/
theorem step_machine (hs : step cfg s a = some t) (core : Core) :
    machineStep cfg s a.prg core (s.prog core) = some (t.prog core, machineWrites cfg s a.prg core) := by
  obtain ⟨-, hok, varAc, -, rfl⟩ := step_spec hs
  simp only [programmeFails, decide_eq_false_iff_not, not_exists, Bool.not_eq_true, Option.isNone_eq_false_iff] at hok
  obtain ⟨r, hr⟩ := Option.isSome_iff_exists.1 (hok core)
  have hnext : machineNext cfg s a core = r.1 := by
    simp only [machineNext, hr, Option.map_some, Option.getD_some]
  have hwrites : machineWrites cfg s a.prg core = r.2 := by
    simp only [machineWrites, hr, Option.map_some, Option.getD_some]
  change _ = some (machineNext cfg s a core, _)
  rw [hnext, hwrites, hr]

theorem mem_programmeWrites {w : Write p q} :
    w ∈ programmeWrites cfg s prg ↔ ∃ core, w ∈ (machineWrites cfg s prg core : List (Write p q)) := by
  simp [programmeWrites, List.mem_flatMap]

/-- What is true of each listed event, and of each event that was obtained and not freed. -/
structure Held (x : State p q × (Event → Bool)) : Prop where
  bytes : Bytes x.1
  reserved : ∀ c i e, (x.1.prog c).ev i = some e →
    x.1.atomicCounters e &&& 0x80 ≠ 0 ∧ x.1.atomicCountersSetValue e &&& 0x80 ≠ 0
  unique : ∀ c c' i j e, (x.1.prog c).ev i = some e → (x.1.prog c').ev j = some e → c = c' ∧ i = j
  taken : ∀ e, x.2 e = true → ∃ c i, (x.1.prog c).ev i = some e

theorem Held.not_free {x : State p q × (Event → Bool)} (h : Held x) {c : Core} {i : Fin N_HWS_EVENTS}
    (he : (x.1.prog c).ev i = some e) : freeEvent x.1 ≠ some e := by
  intro hf
  exact (h.reserved c i e he).1 (reserved_shift (beq_iff_eq.1 (Scan.first_some hf)))

/-- The counter of an event that only one machine lists, before and after the edge, is not written. -/
theorem Held.quiet {x : State p q × (Event → Bool)} (h : Held x) (hone : OneAsk x.1 a)
    (hs : step cfg x.1 a = some t) {c : Core} {i : Fin N_HWS_EVENTS} (he : (x.1.prog c).ev i = some e)
    (ht : (t.prog c).ev i = some e) (v : Nat) :
    .counter e v ∉ (programmeWrites cfg x.1 a.prg : List (Write p q)) ∧
      .setValue e v ∉ (programmeWrites cfg x.1 a.prg : List (Write p q)) := by
  have hno : ¬ ∃ c', .counter e v ∈ (machineWrites cfg x.1 a.prg c' : List (Write p q)) ∨
      .setValue e v ∈ (machineWrites cfg x.1 a.prg c' : List (Write p q)) := by
    rintro ⟨c', hw⟩
    obtain hk | ⟨i', port, -, htake⟩ := machine_holds hone (step_machine hs c')
    · obtain ⟨j, hj, hj'⟩ := hk.stores e v hw
      obtain ⟨rfl, rfl⟩ := h.unique c c' i j e he hj
      rw [ht] at hj'
      cases hj'
    · have hie : e = i' := by
        simp only [htake.writes, List.mem_cons, reduceCtorEq, Write.counter.injEq, Write.setValue.injEq,
          List.not_mem_nil, or_false, false_or] at hw
        rcases hw with hw | hw
        · exact hw.1
        · exact hw.1
      subst hie
      exact h.not_free he htake.free
  constructor
  · intro hw
    obtain ⟨c', hw⟩ := mem_programmeWrites.1 hw
    exact hno ⟨c', Or.inl hw⟩
  · intro hw
    obtain ⟨c', hw⟩ := mem_programmeWrites.1 hw
    exact hno ⟨c', Or.inr hw⟩

/-- An event whose counter `programme` does not write stays reserved. -/
theorem step_reserved (hb : Bytes s) (hs : step cfg s a = some t)
    (hquiet : ∀ v, .counter e v ∉ (programmeWrites cfg s a.prg : List (Write p q)) ∧
      .setValue e v ∉ (programmeWrites cfg s a.prg : List (Write p q)))
    (hc : s.atomicCounters e &&& 0x80 ≠ 0) (hv : s.atomicCountersSetValue e &&& 0x80 ≠ 0) :
    t.atomicCounters e &&& 0x80 ≠ 0 ∧ t.atomicCountersSetValue e &&& 0x80 ≠ 0 := by
  have hset := step_setValue (e := e) hs fun v => (hquiet v).2
  refine ⟨?_, by rwa [hset]⟩
  obtain hmem | ⟨-, hcount⟩ := step_counter (e := e) hb hs
  · obtain ⟨x, hx, hu⟩ := List.mem_flatMap.1 hmem
    cases x with
    | programme => exact absurd (mem_storesOf.1 hu) (hquiet _).1
    | notify =>
      rw [(mem_stores_notify.1 hu).2]
      exact hv
    | signal => exact absurd hx (order_split (step_spec hs).1).2.2
  · -- `signal` takes from the low bits only
    obtain ⟨-, -, varAc, hok, -⟩ := step_spec hs
    have hge := (counter_iff (hb e).1).1.1 hc
    have hlast := (countOffAll_at hok (hb e).1).2
    have hlt := (step_bytes hb hs e).1
    refine (counter_iff hlt).1.2 ?_
    by_cases hnil : notified e (accepted s a.slv) = []
    · rw [hnil, List.length_nil] at hcount
      omega
    · have := hlast hnil
      omega

/-- An event that is obtained at an edge with one ask is reserved after it. -/
theorem Takes.reserved {x : State p q × (Event → Bool)} {port : Fin p} (h : Held x) (hone : OneAsk x.1 a)
    (hs : step cfg x.1 a = some t) (hask : asksOn x.1 a.prg core port = true)
    (htake : Takes x.1 core e port (x.1.prog core) (t.prog core) (machineWrites cfg x.1 a.prg core)) :
    t.atomicCounters e &&& 0x80 ≠ 0 ∧ t.atomicCountersSetValue e &&& 0x80 ≠ 0 := by
  have hsome : (freeEvent x.1).isSome = true := by
    rw [htake.free]
    rfl
  obtain ⟨hafter, halone⟩ := hone hsome core port hask
  -- nobody else writes the counter: who lists an event does not list a free one
  have honly : ∀ v, .counter e v ∈ (programmeWrites cfg x.1 a.prg : List (Write p q)) ∨
      .setValue e v ∈ (programmeWrites cfg x.1 a.prg : List (Write p q)) →
        v = (0x80 ||| (x.1.prog core).nslTemp) % 256 := by
    intro v hw
    obtain ⟨c', hw⟩ : ∃ c', .counter e v ∈ (machineWrites cfg x.1 a.prg c' : List (Write p q)) ∨
        .setValue e v ∈ (machineWrites cfg x.1 a.prg c' : List (Write p q)) := by
      rcases hw with hw | hw
      · obtain ⟨c', hw⟩ := mem_programmeWrites.1 hw
        exact ⟨c', Or.inl hw⟩
      · obtain ⟨c', hw⟩ := mem_programmeWrites.1 hw
        exact ⟨c', Or.inr hw⟩
    obtain hk | ⟨i', port', hask', htake'⟩ := machine_holds hone (step_machine hs c')
    · obtain ⟨j, hj, -⟩ := hk.stores e v hw
      exact absurd htake.free (h.not_free hj)
    · obtain ⟨rfl, -⟩ := halone c' port' hask'
      simp only [htake'.writes, List.mem_cons, reduceCtorEq, Write.counter.injEq, Write.setValue.injEq,
        List.not_mem_nil, or_false, false_or] at hw
      rcases hw with hw | hw
      · exact hw.2
      · exact hw.2
  obtain ⟨hbit, -⟩ := reserve_bit (x.1.prog core).nslTemp
  obtain ⟨hperm, -, varAc, -, rfl⟩ := step_spec hs
  constructor
  · have hmem : (0x80 ||| (x.1.prog core).nslTemp) % 256 ∈ (after a).flatMap (stores cfg x.1 a e) := by
      refine List.mem_flatMap.2 ⟨.programme, hafter, mem_storesOf.2 (mem_programmeWrites.2 ⟨core, ?_⟩)⟩
      rw [htake.writes]
      simp
    obtain hlast | ⟨hnil, -⟩ := step_counter (e := e) h.bytes hs
    · obtain ⟨y, hy, hu⟩ := List.mem_flatMap.1 hlast
      cases y with
      | programme =>
        rw [honly _ (Or.inl (mem_storesOf.1 hu))]
        exact hbit
      | notify =>
        -- a free event is not reloaded
        have hr := (mem_stores_notify.1 hu).1
        simp only [reloads, Bool.and_eq_true, beq_iff_eq] at hr
        have hfree := reserved_shift (beq_iff_eq.1 (Scan.first_some htake.free))
        have hge := (counter_iff (h.bytes e).1).1.2
        rw [(counter_iff (h.bytes e).1).2.2] at hr
        exact absurd hfree (hge (by omega))
      | signal => exact absurd hy (order_split hperm).2.2
    · rw [hnil] at hmem
      cases hmem
  · have hwrite : (e, (0x80 ||| (x.1.prog core).nslTemp) % 256) ∈
        (a.order.flatMap (processWrites cfg x.1 a varAc)).filterMap Write.setValue? := by
      refine mem_setValue.2 (List.mem_flatMap.2 ⟨.programme, process_mem_order hperm .programme,
        mem_programmeWrites.2 ⟨core, ?_⟩⟩)
      rw [htake.writes]
      simp
    have hlast := mem_setValue.1 (Delta.commit_mem (f := x.1.atomicCountersSetValue) hwrite)
    obtain ⟨y, -, hy⟩ := List.mem_flatMap.1 hlast
    obtain rfl := setValue_programme hy
    change Delta.commit _ _ e &&& 0x80 ≠ 0
    rw [honly _ (Or.inr hy)]
    exact hbit

/-- Where the events of a list come from. -/
theorem step_listed (hone : OneAsk s a) (hs : step cfg s a = some t) {c : Core} {i : Fin N_HWS_EVENTS}
    (ht : (t.prog c).ev i = some e) : (s.prog c).ev i = some e ∨ ∃ port, asksOn s a.prg c port = true ∧
      Takes s c e port (s.prog c) (t.prog c) (machineWrites cfg s a.prg c) ∧
        (t.prog c).ev = Function.update (s.prog c).ev i (some e) := by
  obtain hk | ⟨e', port, hask, htake⟩ := machine_holds hone (step_machine hs c)
  · rcases hk.ev i with hi | ⟨hi, -⟩
    · exact Or.inl (hi.symm.trans ht)
    · rw [ht] at hi
      cases hi
  · obtain ⟨slot, -, hev⟩ := htake.ev
    by_cases hi : i = slot
    · subst hi
      have hee : e' = e := by
        rw [hev, Function.update_self] at ht
        exact Option.some.inj ht
      subst hee
      exact Or.inr ⟨port, hask, htake, hev⟩
    · rw [hev, Function.update_of_ne hi] at ht
      exact Or.inl ht

/-- An event leaves a list only when its core frees it. -/
theorem step_keeps_listed (hone : OneAsk s a) (hs : step cfg s a = some t) {c : Core} {i : Fin N_HWS_EVENTS}
    (he : (s.prog c).ev i = some e) (hf : frees s a.prg e c = false) : (t.prog c).ev i = some e := by
  obtain hk | ⟨e', port, -, htake⟩ := machine_holds hone (step_machine hs c)
  · rcases hk.ev i with hi | ⟨-, e', he', hfree⟩
    · exact hi.trans he
    · rw [he] at he'
      cases he'
      rw [hf] at hfree
      cases hfree
  · obtain ⟨slot, hslot, hev⟩ := htake.ev
    have hne : i ≠ slot := by
      rintro rfl
      rw [hslot] at he
      cases he
    rw [hev, Function.update_of_ne hne]
    exact he

/-- An ask that obtains an event takes it. -/
theorem obtained_takes (hone : OneAsk s a) {port : Fin p} (h : Obtained cfg s a.prg e core port) :
    asksOn s a.prg core port = true ∧ ∃ m', machineStep cfg s a.prg core (s.prog core) =
      some (m', machineWrites cfg s a.prg core) ∧
        Takes s core e port (s.prog core) m' (machineWrites cfg s a.prg core) := by
  have hw : .prgPort port (answerWord core (some e)) ∈ (machineWrites cfg s a.prg core : List (Write p q)) := h
  cases hm : machineStep (q := q) cfg s a.prg core (s.prog core) with
  | none =>
    simp only [machineWrites, hm, Option.map_none, Option.getD_none] at hw
    cases hw
  | some r =>
    have hws : machineWrites cfg s a.prg core = r.2 := by
      simp only [machineWrites, hm, Option.map_some, Option.getD_some]
    rw [hws] at hw ⊢
    obtain hk | ⟨e', port', hask, htake⟩ := machine_holds hone hm
    · exact absurd hw (hk.answer port e)
    · rw [htake.writes] at hw
      simp only [List.mem_cons, reduceCtorEq, Write.prgPort.injEq, List.not_mem_nil, or_false] at hw
      obtain rfl := hw.1
      obtain rfl := answer_inj hw.2
      exact ⟨hask, r.1, rfl, htake⟩

theorem Held.next {x y : State p q × (Event → Bool)} (h : Held x) (hone : OneAsk x.1 a)
    (hs : Trans.withHistory (step cfg) (takenEvents cfg) x a = some y) : Held y := by
  obtain ⟨hs, hy⟩ := Trans.withHistory_some.1 hs
  refine ⟨step_bytes h.bytes hs, fun c i e he => ?_, fun c c' i j e he he' => ?_, fun e he => ?_⟩
  · rcases step_listed hone hs he with hold | ⟨port, hask, htake, -⟩
    · obtain ⟨hc, hv⟩ := h.reserved c i e hold
      exact step_reserved h.bytes hs (h.quiet hone hs hold he) hc hv
    · exact htake.reserved h hone hs hask
  · rcases step_listed hone hs he with hold | ⟨port, hask, htake, hev⟩
    · rcases step_listed hone hs he' with hold' | ⟨port', hask', htake', -⟩
      · exact h.unique c c' i j e hold hold'
      · exact absurd htake'.free (h.not_free hold)
    · have hsome : (freeEvent x.1).isSome = true := by
        rw [htake.free]
        rfl
      rcases step_listed hone hs he' with hold' | ⟨port', hask', -, -⟩
      · exact absurd htake.free (h.not_free hold')
      · obtain ⟨rfl, -⟩ := (hone hsome c port hask).2 c' port' hask'
        refine ⟨rfl, ?_⟩
        by_contra hne
        rw [hev, Function.update_of_ne (Ne.symm hne)] at he'
        exact h.not_free he' htake.free
  · rw [hy] at he
    simp only [takenEvents, Bool.or_eq_true, Bool.and_eq_true, decide_eq_true_eq, Bool.not_eq_true',
      decide_eq_false_iff_not] at he
    rcases he with ⟨core, port, ho⟩ | ⟨hg, hf⟩
    · obtain ⟨-, m', hm, htake⟩ := obtained_takes hone ho
      obtain ⟨slot, -, hev⟩ := htake.ev
      have hm' : m' = y.1.prog core := congrArg Prod.fst (Option.some.inj (hm.symm.trans (step_machine hs core)))
      rw [hm'] at hev
      exact ⟨core, slot, by rw [hev, Function.update_self]⟩
    · obtain ⟨c, i, hlisted⟩ := h.taken e hg
      refine ⟨c, i, step_keeps_listed hone hs hlisted ?_⟩
      exact Bool.eq_false_iff.2 fun hfree => hf ⟨c, hfree⟩

theorem Held.obtainedOnce {x : State p q × (Event → Bool)} (h : Held x) (hone : OneAsk x.1 a) :
    ObtainedOnce cfg x a := by
  intro e core port ho
  obtain ⟨hask, m', -, htake⟩ := obtained_takes hone ho
  constructor
  · rw [Bool.eq_false_iff]
    intro hg
    obtain ⟨c, i, hlisted⟩ := h.taken e hg
    exact h.not_free hlisted htake.free
  · intro core' port' ho'
    have hsome : (freeEvent x.1).isSome = true := by
      rw [htake.free]
      rfl
    exact (hone hsome core port hask).2 core' port' (obtained_takes hone ho').1

/-! ## Runs -/

theorem init_held : Held ((init : State p q), fun _ => false) where
  bytes := init_bytes
  reserved _ _ _ h := by cases h
  unique _ _ _ _ _ h := by cases h
  taken _ h := by cases h

/-- **An event has one holder**: in every run in which one ask at a time is answered while there is a free event,
and its reservation is stored after `signal`, no two cores list an event, and each ask obtains one that was freed
since it was last obtained. -/
theorem event_hold {as : List (Edge p q)} {y : State p q × (Event → Bool)}
    (hC : Trans.Along (Trans.withHistory (step cfg) (takenEvents cfg)) (fun x a => OneAsk x.1 a)
      (init, fun _ => false) as)
    (hr : Trans.run (Trans.withHistory (step cfg) (takenEvents cfg)) (init, fun _ => false) as = some y) :
    Exclusive y.1 ∧ Trans.Along (Trans.withHistory (step cfg) (takenEvents cfg)) (ObtainedOnce cfg)
      (init, fun _ => false) as := by
  constructor
  · have h := Trans.run_inv_along Held (fun _ _ _ h hone hs => h.next hone hs) init_held hC hr
    intro c c' i j e he he'
    exact (h.unique c c' i j e he he').1
  · exact hC.of_inv Held init_held (fun _ _ _ h hone hs => h.next hone hs) fun _ _ h hone => h.obtainedOnce hone

/-- `signal` runs first; two programming ports. -/
def portsEdge (prg₁ prg₂ : Option Request) : Edge 2 1 :=
  ⟨[.signal, .programme, .notify], fun port => if port.val = 0 then prg₁ else prg₂, fun _ => none⟩

/-- The cores 0 and 1 ask, each on its port, and come to the state in which they wait for an answer. -/
def askBoth : List (Edge 2 1) :=
  [portsEdge (some ⟨0, true, 0⟩) (some ⟨1, true, 0x0100⟩), portsEdge none none,
    portsEdge (some ⟨0, true, 0x01010001⟩) (some ⟨1, true, 0x01010101⟩), portsEdge none none]

/-- They read the answer one after the other; core 0 frees its event, and asks again. -/
def readInTurn : List (Edge 2 1) :=
  askBoth ++ [portsEdge (some ⟨0, false, 0⟩) none, portsEdge none (some ⟨1, false, 0⟩)] ++
    [none, some ⟨0, true, 1⟩, none, some ⟨0, true, 0⟩, none, some ⟨0, false, 0⟩, none, some ⟨0, true, 0⟩, none,
      some ⟨0, true, 0x01010001⟩, none, some ⟨0, false, 0⟩, none].map (portsEdge · none)

theorem readInTurn_runs : (Trans.run (Trans.withHistory (step ⟨16⟩) (takenEvents ⟨16⟩)) (init, fun _ => false)
    readInTurn).isSome = true := by
  decide +kernel

theorem event_hold_readInTurn : ∃ y, Trans.run (Trans.withHistory (step ⟨16⟩) (takenEvents ⟨16⟩))
    (init, fun _ => false) readInTurn = some y ∧ Exclusive y.1 ∧
      Trans.Along (Trans.withHistory (step ⟨16⟩) (takenEvents ⟨16⟩)) (ObtainedOnce ⟨16⟩) (init, fun _ => false)
        readInTurn := by
  have hr := (Option.some_get readInTurn_runs).symm
  exact ⟨_, hr, event_hold (by decide +kernel) hr⟩

/-- They read the answer at the same edge. -/
def readTogether : List (Edge 2 1) := askBoth ++ [portsEdge (some ⟨0, false, 0⟩) (some ⟨1, false, 0⟩)]

theorem readTogether_runs : (Trans.run (step ⟨16⟩) init readTogether).isSome = true := by decide +kernel

/-- Both obtain event 0. -/
theorem not_exclusive_readTogether :
    ¬ ∀ y : State 2 1, Trans.run (step ⟨16⟩) init readTogether = some y → Exclusive y := by
  intro h
  have := h _ (Option.some_get readTogether_runs).symm core0 worker1 event0 event0 event0 (by decide +kernel)
    (by decide +kernel)
  exact absurd this (by decide)

/-- The answers are read one after the other, but `programme` runs before `signal`. -/
def readBeforeSignal : List (Edge 2 1) :=
  askBoth ++ [{ portsEdge (some ⟨0, false, 0⟩) none with order := [.programme, .signal, .notify] },
    portsEdge none (some ⟨1, false, 0⟩)]

-- the reservation of core 0 is lost, and core 1 obtains event 0 as well
example : (Trans.run (step ⟨16⟩) init readBeforeSignal).map
    (fun s => ((s.prog core0).ev event0, (s.prog worker1).ev event0)) = some (some event0, some event0) := by
  decide +kernel

end VirtualSoc.Hws
