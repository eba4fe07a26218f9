import VirtualSoc.Lib.Transition
import VirtualSoc.Cluster.HwsWrites

/-!
# Wake-ups of the synchroniser (cluster/cl_hws.cpp)

When an event is reloaded, `notify` clears `ARM11_STOP` for its wake mask. A core must then stay running
until it notifies again (`Awake`).

`signal` stops a core one edge after it took its notification. For the last notifier of a round that is the
edge of the reload, so the later of the two processes decides: the wake-up of a core whose notification was
taken at the edge before is lost unless a process that runs after `signal` wakes it (`InTime`).
-/

namespace VirtualSoc.Hws

variable {p q : Nat}

section

variable (cfg : Config) (s : State p q) (a : Edge p q) (c : Core)

/-- Core `c` is in the wake mask of an event that is reloaded. -/
def wokenBy : Bool :=
  decide (∃ e : Event, reloads s e = true ∧ c.val < cfg.nSlaves ∧ (s.mask e).testBit c = true)

/-- The cores that a process wakes. -/
def wakesOf : Process → List Core
  | .programme =>
    (programmeWrites cfg s a.prg : List (Write p q)).filterMap fun w => (w.stop?.filter (!·.2)).map Prod.fst
  | .notify => (notifyWrites cfg s).filterMap fun w => (w.stop?.filter (!·.2)).map Prod.fst
  | .signal => []

/-- The history of a run: the cores that were woken and have not notified since. -/
def wokenSince (s : State p q) (a : Edge p q) (woken : Core → Bool) : Core → Bool := fun c =>
  (wokenBy cfg s c || woken c) && (acceptedBy s a.slv c).isEmpty

/-- After the edge, the cores that it woke run, and those that were woken before and have not notified
since. -/
def Awake (x : State p q × (Core → Bool)) (a : Edge p q) : Prop :=
  ∀ t, step cfg x.1 a = some t → ∀ c, (wokenBy cfg x.1 c || x.2 c) = true → t.arm11Stop c = false

/-- A core that is woken at the edge at which `signal` stops it is woken by a process after `signal`. -/
def InTime : Prop :=
  ∀ c, wokenBy cfg s c = true → (s.sig c).isSome = true → c ∈ (after a).flatMap (wakesOf cfg s a)

instance : Decidable (InTime cfg s a) :=
  inferInstanceAs (Decidable (∀ c : Fin MAX_CORES, wokenBy cfg s c = true → (s.sig c).isSome = true →
    c ∈ (after a).flatMap (wakesOf cfg s a)))

end

variable {cfg : Config} {s t : State p q} {a : Edge p q} {c : Core} {varAc : Event → Nat} {woken : Core → Bool}

/-! ## Who writes the stop flag -/

theorem mem_stop {ws : List (Write p q)} {b : Bool} :
    (c, b) ∈ ws.filterMap Write.stop? ↔ b = true ∧ .halt c ∈ ws ∨ b = false ∧ ∃ e, .wake e c ∈ ws := by
  simp only [List.mem_filterMap]
  constructor
  · rintro ⟨w, hw, he⟩
    cases w <;> simp only [Write.stop?, Option.some.injEq, Prod.mk.injEq, reduceCtorEq] at he
    · obtain ⟨rfl, rfl⟩ := he
      exact Or.inr ⟨rfl, _, hw⟩
    · obtain ⟨rfl, rfl⟩ := he
      exact Or.inl ⟨rfl, hw⟩
  · rintro (⟨rfl, hw⟩ | ⟨rfl, e, hw⟩)
    · exact ⟨_, hw, rfl⟩
    · exact ⟨_, hw, rfl⟩

/-- Only `signal` stops a core, the one whose notification it took at the last edge. -/
theorem halt_signal {x : Process} (hw : .halt c ∈ processWrites cfg s a varAc x) :
    x = .signal ∧ (s.sig c).isSome = true := by
  cases x with
  | programme => exact (programme_write hw).elim
  | notify =>
    obtain ⟨i, -, ⟨_, hc, -⟩ | hc | hc⟩ := mem_notifyWrites.1 hw <;> cases hc
  | signal =>
    obtain ⟨_, _, h⟩ | ⟨_, _, h⟩ | ⟨c', hsig, h⟩ | ⟨_, h⟩ := signal_write hw <;> cases h
    exact ⟨rfl, hsig⟩

theorem signal_halts (h : (s.sig c).isSome = true) :
    .halt c ∈ (signalWrites s a.slv varAc : List (Write p q)) := by
  obtain ⟨port, hport⟩ := Option.isSome_iff_exists.1 h
  refine List.mem_append_left _ (List.mem_flatMap.2 ⟨c, List.mem_finRange c, ?_⟩)
  simp [coreWrites, hport]

theorem signal_wakes_none {e : Event} : .wake e c ∉ (signalWrites s a.slv varAc : List (Write p q)) := by
  intro hw
  obtain ⟨_, _, h⟩ | ⟨_, _, h⟩ | ⟨_, -, h⟩ | ⟨_, h⟩ := signal_write hw <;> cases h

theorem mem_wakesOf {x : Process} (hx : x ≠ .signal) :
    c ∈ wakesOf cfg s a x ↔ ∃ e, .wake e c ∈ processWrites cfg s a varAc x := by
  have hfilter : ∀ ws : List (Write p q),
      c ∈ ws.filterMap (fun w => (w.stop?.filter (!·.2)).map Prod.fst) ↔ ∃ e, .wake e c ∈ ws := by
    intro ws
    have hstop : (c, false) ∈ ws.filterMap Write.stop? ↔ ∃ e, .wake e c ∈ ws := by
      rw [mem_stop]
      simp
    rw [← hstop]
    simp only [List.mem_filterMap, Option.map_eq_some_iff, Option.filter_eq_some_iff, Prod.exists, Bool.not_eq_true']
    constructor
    · rintro ⟨w, hw, c', b, ⟨hwrite, rfl⟩, rfl⟩
      exact ⟨w, hw, hwrite⟩
    · rintro ⟨w, hw, hwrite⟩
      exact ⟨w, hw, c, false, ⟨hwrite, rfl⟩, rfl⟩
  cases x with
  | programme => exact hfilter _
  | notify => exact hfilter _
  | signal => exact absurd rfl hx

theorem notify_wakes (h : wokenBy cfg s c = true) : ∃ e, .wake e c ∈ (notifyWrites cfg s : List (Write p q)) := by
  obtain ⟨e, hr, hlt, hbit⟩ := of_decide_eq_true h
  exact ⟨e, mem_notifyWrites.2 ⟨e, hr, Or.inl ⟨c, rfl, hlt, hbit⟩⟩⟩

/-! ## The stop flag after an edge -/

/-- A core that `signal` does not stop runs after the edge if it ran before or is woken. -/
theorem step_runs (hs : step cfg s a = some t) (hsig : s.sig c = none)
    (h : wokenBy cfg s c = true ∨ s.arm11Stop c = false) : t.arm11Stop c = false := by
  obtain ⟨hperm, -, varAc, -, rfl⟩ := step_spec hs
  have hfalse : ∀ b, (c, b) ∈ (a.order.flatMap (processWrites cfg s a varAc)).filterMap Write.stop? → b = false := by
    intro b hb
    obtain ⟨rfl, hw⟩ | ⟨rfl, -⟩ := mem_stop.1 hb
    · obtain ⟨x, -, hx⟩ := List.mem_flatMap.1 hw
      have hsome := (halt_signal hx).2
      rw [hsig] at hsome
      cases hsome
    · rfl
  by_cases hw : ∃ b, (c, b) ∈ (a.order.flatMap (processWrites cfg s a varAc)).filterMap Write.stop?
  · obtain ⟨b, hb⟩ := hw
    exact hfalse _ (Delta.commit_mem hb)
  · have hold : (commit { s with prog := machineNext cfg s a, sig := signalNext s a.slv }
        (a.order.flatMap (processWrites cfg s a varAc))).arm11Stop c = s.arm11Stop c :=
      Delta.commit_of_not_mem fun b hb => hw ⟨b, hb⟩
    rw [hold]
    obtain h | h := h
    · -- `notify` would have written
      obtain ⟨e, he⟩ := notify_wakes (p := p) (q := q) h
      have hmem : .wake e c ∈ a.order.flatMap (processWrites cfg s a varAc) :=
        List.mem_flatMap.2 ⟨.notify, process_mem_order hperm .notify, he⟩
      exact absurd ⟨false, mem_stop.2 (Or.inr ⟨rfl, e, hmem⟩)⟩ hw
    · exact h

/-- A core that `signal` stops runs after the edge just if a process after `signal` wakes it. -/
theorem step_stopped (hs : step cfg s a = some t) (hsig : (s.sig c).isSome = true) :
    t.arm11Stop c = false ↔ c ∈ (after a).flatMap (wakesOf cfg s a) := by
  obtain ⟨hperm, -, varAc, -, rfl⟩ := step_spec hs
  have hafter := (order_split hperm).2.2
  have hmem : c ∈ (after a).flatMap (wakesOf cfg s a) ↔
      ∃ e, .wake e c ∈ (after a).flatMap (processWrites cfg s a varAc) := by
    simp only [List.mem_flatMap]
    constructor
    · rintro ⟨x, hx, hc⟩
      obtain ⟨e, he⟩ := (mem_wakesOf (a := a) fun h => hafter (by rwa [h] at hx)).1 hc
      exact ⟨e, x, hx, he⟩
    · rintro ⟨e, x, hx, he⟩
      exact ⟨x, hx, (mem_wakesOf fun h => hafter (by rwa [h] at hx)).2 ⟨e, he⟩⟩
  have hhalt : (c, true) ∈ (signalWrites s a.slv varAc : List (Write p q)).filterMap Write.stop? :=
    mem_stop.2 (Or.inl ⟨rfl, signal_halts hsig⟩)
  simp only [commit, writes_split hperm]
  rw [Delta.commit_append_of_mem (List.mem_append_left _ hhalt), hmem]
  constructor
  · intro hf
    by_contra hno
    -- nothing after `signal` writes the flag, and `signal` sets it
    rw [Delta.commit_append_of_not_mem] at hf
    · have hlast := Delta.commit_mem (f := s.arm11Stop) hhalt
      rw [hf] at hlast
      obtain ⟨hb, -⟩ | ⟨-, e, he⟩ := mem_stop.1 hlast
      · cases hb
      · exact signal_wakes_none he
    · intro b hb
      obtain ⟨-, hw⟩ | ⟨-, e, he⟩ := mem_stop.1 hb
      · obtain ⟨x, hx, hw⟩ := List.mem_flatMap.1 hw
        rw [(halt_signal hw).1] at hx
        exact hafter hx
      · exact hno ⟨e, he⟩
  · rintro ⟨e, he⟩
    have hwake := mem_stop.2 (Or.inr ⟨rfl, e, he⟩)
    rw [Delta.commit_append_of_mem hwake]
    have hlast := Delta.commit_mem (f := s.arm11Stop) hwake
    obtain ⟨-, hw⟩ | ⟨hb, -⟩ := mem_stop.1 hlast
    · obtain ⟨x, hx, hw⟩ := List.mem_flatMap.1 hw
      rw [(halt_signal hw).1] at hx
      exact absurd hx hafter
    · exact hb

/-! ## Runs -/

/-- The cores that were woken and have not notified since run, and none of them is about to be stopped. -/
def Running (x : State p q × (Core → Bool)) : Prop := ∀ c, x.2 c = true → x.1.arm11Stop c = false ∧ x.1.sig c = none

/-- **Exactly when an edge loses no wake-up.** -/
theorem awake_iff {x : State p q × (Core → Bool)} (h : Running x) :
    Awake cfg x a ↔ ((step cfg x.1 a).isSome → InTime cfg x.1 a) := by
  cases hs : step cfg x.1 a with
  | none =>
    simp only [Awake, hs, Option.isSome_none, Bool.false_eq_true, false_imp_iff, iff_true]
    intro t ht
    cases ht
  | some t =>
    simp only [Awake, hs, Option.some.injEq, forall_eq', Option.isSome_some, true_imp_iff]
    constructor
    · intro hawake c hc hsig
      exact (step_stopped hs hsig).1 (hawake c (by rw [hc]; rfl))
    · intro hin c hc
      cases hsig : x.1.sig c with
      | none =>
        refine step_runs hs hsig ?_
        rcases Bool.or_eq_true _ _ ▸ hc with hc | hc
        · exact Or.inl hc
        · exact Or.inr (h c hc).1
      | some port =>
        have hsome : (x.1.sig c).isSome = true := by rw [hsig]; rfl
        rcases Bool.or_eq_true _ _ ▸ hc with hc | hc
        · exact (step_stopped hs hsome).2 (hin c hc hsome)
        · rw [(h c hc).2] at hsig
          cases hsig

theorem step_running {x y : State p q × (Core → Bool)} (hawake : Awake cfg x a)
    (hs : Trans.withHistory (step cfg) (wokenSince cfg) x a = some y) : Running y := by
  obtain ⟨hs, hy⟩ := Trans.withHistory_some.1 hs
  intro c hc
  rw [hy] at hc
  simp only [wokenSince, Bool.and_eq_true, List.isEmpty_iff] at hc
  refine ⟨hawake y.1 hs c hc.1, ?_⟩
  obtain ⟨-, -, varAc, -, ht⟩ := step_spec hs
  rw [ht]
  simp [commit, signalNext, hc.2]

/-- **No wake-up is lost** in the runs in which each core that is woken while `signal` stops it is woken after
`signal`, and only in these. -/
theorem awake_along_iff (s : State p q) (as : List (Edge p q)) :
    Trans.Along (Trans.withHistory (step cfg) (wokenSince cfg)) (Awake cfg) (s, fun _ => false) as ↔
      Trans.Along (Trans.withHistory (step cfg) (wokenSince cfg))
        (fun x a => (step cfg x.1 a).isSome → InTime cfg x.1 a) (s, fun _ => false) as :=
  Trans.along_congr Running (fun _ _ _ _ hawake hs => step_running hawake hs) (fun _ _ h => awake_iff h)
    fun _ hc => by cases hc

/-- `notify` runs before `signal`, and `programme` last. -/
def wakeEdge (prg slv : Option Request) : Edge 1 1 := ⟨[.notify, .signal, .programme], fun _ => prg, fun _ => slv⟩

/-- Core 0 asks for an event with one notification and releases it with an empty mask; then core 1 sends its
`notify_and_set`, and the event is reloaded. -/
def lastNotifierStopped : List (Edge 1 1) :=
  [some ⟨0, true, 0⟩, none, some ⟨0, true, 0x01010001⟩, none, some ⟨0, false, 0⟩, none, some ⟨0, true, 1⟩, none,
    some ⟨0, true, 0⟩, none, some ⟨0, true, 0⟩, none].map (wakeEdge · none) ++
  [wakeEdge none (some ⟨1, true, 0x010100⟩), wakeEdge none none]

theorem not_awake_lastNotifierStopped :
    ¬ Trans.Along (Trans.withHistory (step ⟨16⟩) (wokenSince ⟨16⟩)) (Awake ⟨16⟩) (init, fun _ => false)
      lastNotifierStopped := by
  rw [Trans.along_congr Running (fun _ _ _ _ hawake hs => step_running hawake hs) (fun _ _ h => awake_iff h)
    (fun _ hc => by cases hc)]
  decide +kernel

end VirtualSoc.Hws
