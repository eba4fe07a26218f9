import VirtualSoc.Gomp.RegionStep

/-!
# A team as one of its slaves sees it (libgomp/libgomp.c, parallel.c)

From the place of the master and of the slave it is clear where the two are in `life`: before the release of the dock
the task is started, between the release and the gather it depends on the slave alone, and after the gather the slave
has returned.

* `Hop` lists the edges of the control flow, and `step_hop` says that a step follows one of them.
* `lives_step`: what is seen of a step is what `life` expects.
-/

namespace VirtualSoc.Gomp.Region

open Mask Barrier TeamAlloc

/-! ## Where the two are -/

/-- How far the master of team `T` is with thread `j`. -/
inductive View
  | opening
  | inside
  | closing
  | ended

def Pc.view (T j : Nat) : Pc → View
  | .startSignal U | .link U => if U = T then .opening else .inside
  | .release kind U i | .store kind U i _ => if kind = .dock ∧ U = T ∧ ¬ j < i then .opening else .inside
  | .gather kind U i | .reset kind U i => if kind = .dock ∧ U = T ∧ j < i then .closing else .inside
  | .endWait U | .giveIdle U | .givePool U => if U = T then .ended else .inside
  | _ => .inside

/-- A slave between the release of the dock and the gather. -/
def Pc.phase (task : Nat × Nat) (same : Int32 → Bool) : Pc → Phase
  | .enter kind | .announce kind _ => if kind = .dock then .returned else .called
  | .spin kind g => if kind = .dock then (if same g then .returned else .started task) else .called
  | .work => .started task
  | _ => .called

def State.phase (s : State) (T c j : Nat) : Phase :=
  let x := (s.g.teams T).proc_ids j
  match (s.pc c).view T j with
  | .opening => .started (s.task T)
  | .inside => (s.pc x).phase (s.task T) fun g => s.exit x == g
  | .closing => .returned
  | .ended => .finished

/-- Team `T` and core `x` are at `ph`: the team is open, or it is not, or `x` is none of its slaves. -/
def Lives (nprocs : Nat) (s : State) (T x : Nat) (ph : Phase) : Prop :=
  (∃ c j, T ∈ s.opened c ∧ 1 ≤ j ∧ j < (s.g.teams T).nthreads ∧ (s.g.teams T).proc_ids j = x ∧ ph = s.phase T c j) ∨
    (∀ c, T ∈ s.opened c → x ∉ (s.g.teams T).slaves) ∧
      (ph = .absent ∨ ph = .finished ∧ T < s.g.nextTeam ∧ ∀ c < nprocs, s.pc c ≠ .fetch T)

section Steps

variable {barriers : Nat → Nat} {nprocs c d x y T U V i j q n : Nat} {s t : State} {p : Pc} {kind : Kind} {a : Act}

/-! ## What is seen of a step -/

theorem events_cases : events nprocs T x s a = [] ∨
    (a = .ret x ∧ s.g.currTeam x = some T ∧ events nprocs T x s a = [.ret]) ∨
    (a = .go x ∧ s.pc x = .work ∧ s.g.currTeam x = some T ∧ events nprocs T x s a = [.call (s.task T)]) ∨
    (∃ c, a = .go c ∧ s.pc c = .fetch T ∧ x ∈ ((teamStartFetch nprocs s.g T).teams T).slaves ∧
      events nprocs T x s a = [.start (s.task T)]) ∨
    ∃ c i, a = .go c ∧ s.pc c = .gather .dock T i ∧ (s.g.teams T).nthreads ≤ i ∧ x ∈ (s.g.teams T).slaves ∧
      events nprocs T x s a = [.finish] := by
  cases a with
  | ret c =>
    by_cases h : c = x ∧ s.g.currTeam c = some T
    · obtain ⟨rfl, h⟩ := h
      exact Or.inr (Or.inl ⟨rfl, h, if_pos ⟨rfl, h⟩⟩)
    · exact Or.inl (if_neg h)
  | go c =>
    cases hp : s.pc c with
    | fetch U =>
      by_cases h : U = T ∧ x ∈ ((teamStartFetch nprocs s.g T).teams T).slaves
      · obtain ⟨rfl, h⟩ := h
        exact Or.inr (Or.inr (Or.inr (Or.inl ⟨c, rfl, hp, h, by simp [events, hp, h]⟩)))
      · exact Or.inl (by simp only [events, hp, if_neg h])
    | work =>
      by_cases h : c = x ∧ s.g.currTeam c = some T
      · obtain ⟨rfl, h⟩ := h
        exact Or.inr (Or.inr (Or.inl ⟨rfl, hp, h, by simp [events, hp, h]⟩))
      · exact Or.inl (by simp only [events, hp, if_neg h])
    | gather kind U i =>
      cases kind with
      | barrier => exact Or.inl (by simp only [events, hp])
      | dock =>
        by_cases h : U = T ∧ (s.g.teams T).nthreads ≤ i ∧ x ∈ (s.g.teams T).slaves
        · obtain ⟨rfl, hi, hx⟩ := h
          exact Or.inr (Or.inr (Or.inr (Or.inr ⟨c, i, rfl, hp, hi, hx, by simp [events, hp, hi, hx]⟩)))
        · exact Or.inl (by simp only [events, hp, if_neg h])
    | _ => exact Or.inl (by simp only [events, hp])
  | start c fn data specified => exact Or.inl rfl
  | finish c => exact Or.inl rfl
  | barrier c => exact Or.inl rfl

theorem events_gather (hp : s.pc c = .gather kind U i) (hU : ¬ (U = T ∧ (s.g.teams T).nthreads ≤ i)) :
    events nprocs T x s (.go c) = [] := by
  cases kind with
  | barrier => simp only [events, hp]
  | dock =>
    simp only [events, hp]
    exact if_neg fun h => hU ⟨h.1, h.2.1⟩

/-- The edges of the control flow: core `c` goes from the one place to the other. -/
inductive Hop (s : State) (c : Nat) : Act → Pc → Pc → Prop
  | start (fn data specified : Nat) : Hop s c (.start c fn data specified) .running (.startWait fn data specified)
  | finish {T : Nat} (hT : s.g.currTeam c = some T) (hop : s.opened c ≠ []) :
    Hop s c (.finish c) .running (.gather .dock T 1)
  | barrierMaster (T : Nat) : Hop s c (.barrier c) .running (.gather .barrier T 1)
  | barrier : Hop s c (.barrier c) .running (.enter .barrier)
  | ret {T : Nat} (hT : s.g.currTeam c = some T) (hc0 : c ≠ MASTER_ID) (hop : s.opened c = []) :
    Hop s c (.ret c) .running (.enter .dock)
  | enter (kind : Kind) : Hop s c (.go c) (.enter kind) (.announce kind (s.exit c))
  | announce (kind : Kind) (g : Int32) : Hop s c (.go c) (.announce kind g) (.spin kind g)
  | leaveDock {g : Int32} (hne : s.exit c ≠ g) : Hop s c (.go c) (.spin .dock g) .work
  | leaveBarrier {g : Int32} (hne : s.exit c ≠ g) : Hop s c (.go c) (.spin .barrier g) .running
  | work : Hop s c (.go c) .work .running
  | startWait (fn data specified : Nat) :
    Hop s c (.go c) (.startWait fn data specified) (.resolve fn data specified)
  | resolve (fn data specified : Nat) : Hop s c (.go c) (.resolve fn data specified) (.fetch s.g.nextTeam)
  | fetch (T : Nat) : Hop s c (.go c) (.fetch T) (.startSignal T)
  | startSignal (T : Nat) : Hop s c (.go c) (.startSignal T) (.link T)
  | link (T : Nat) : Hop s c (.go c) (.link T) (.release .dock T 1)
  | release {kind : Kind} {T i : Nat} (hi : i < (s.g.teams T).nthreads) (e : Int32) :
    Hop s c (.go c) (.release kind T i) (.store kind T i e)
  | released {kind : Kind} {T i : Nat} (hi : ¬ i < (s.g.teams T).nthreads) :
    Hop s c (.go c) (.release kind T i) .running
  | store (kind : Kind) (T i : Nat) (e : Int32) : Hop s c (.go c) (.store kind T i e) (.release kind T (i + 1))
  | gather {kind : Kind} {T i : Nat} (hi : i < (s.g.teams T).nthreads) :
    Hop s c (.go c) (.gather kind T i) (.reset kind T i)
  | gatherDock {T U i : Nat} (hi : ¬ i < (s.g.teams T).nthreads) (hU : s.g.currTeam c = some U) :
    Hop s c (.go c) (.gather .dock T i) (.endWait U)
  | gatherBarrier {T i : Nat} (hi : ¬ i < (s.g.teams T).nthreads) :
    Hop s c (.go c) (.gather .barrier T i) (.release .barrier T 1)
  | reset (kind : Kind) (T i : Nat) : Hop s c (.go c) (.reset kind T i) (.gather kind T (i + 1))
  | endWait (T : Nat) : Hop s c (.go c) (.endWait T) (.giveIdle T)
  | giveIdle (T : Nat) : Hop s c (.go c) (.giveIdle T) (.givePool T)
  | givePool (T : Nat) : Hop s c (.go c) (.givePool T) (.endSignal T)
  | endSignal (T : Nat) : Hop s c (.go c) (.endSignal T) (.unlink T)
  | unlink (T : Nat) : Hop s c (.go c) (.unlink T) .running

/-- What the step changes: a release the counter of a thread, `fetch` and `givePool` the regions that are open. -/
structure Effect (s t : State) (c : Nat) : Prop where
  exit : ∀ x < 16, t.exit x = s.exit x ∨ ∃ kind T i e, s.pc c = .store kind T i e ∧ x = (s.g.teams T).proc_ids i
  opens : ∀ T ∈ t.opened c, T ∈ s.opened c ∨ s.pc c = .fetch T
  closes : ∀ T ∈ s.opened c, T ∈ t.opened c ∨ ∃ U, s.pc c = .givePool U ∧ (s.opened c).head? = some T
  next : s.g.nextTeam ≤ t.g.nextTeam

theorem Effect.of_eq (hexit : ∀ x < 16, t.exit x = s.exit x) (hop : t.opened = s.opened)
    (hnext : s.g.nextTeam ≤ t.g.nextTeam) : Effect s t c :=
  ⟨fun x hx => Or.inl (hexit x hx), fun _ hT => Or.inl (hop ▸ hT), fun _ hT => Or.inl (hop ▸ hT), hnext⟩

/-- The words of the flags of the threads and the regions that are open stay as they are. -/
theorem Effect.quiet (hmem : t.mem = s.mem) (hop : t.opened = s.opened) (hnext : t.g.nextTeam = s.g.nextTeam) :
    Effect s t c :=
  .of_eq (fun x _ => congrFun hmem (SLAVE_FLAG x)) hop (Nat.le_of_eq hnext.symm)

/-! ### The places where there is a choice, or regions and words change -/

theorem hop_spin {g : Int32} (hp : s.pc c = .spin kind g) (h : stepGo nprocs s c = some t) :
    Hop s c (.go c) (.spin kind g) (t.pc c) ∧ Effect s t c := by
  simp only [stepGo, hp] at h
  obtain ⟨hne, h⟩ := Option.ite_none_left_eq_some.1 h
  cases kind with
  | dock =>
    cases h
    rw [goto_pc_self]
    exact ⟨.leaveDock hne, .quiet rfl rfl rfl⟩
  | barrier =>
    obtain ⟨T, -, rfl⟩ := Option.map_eq_some_iff.1 h
    rw [goto_pc_self]
    exact ⟨.leaveBarrier hne, .quiet rfl rfl rfl⟩

theorem hop_fetch (hp : s.pc c = .fetch T) (h : stepGo nprocs s c = some t) :
    Hop s c (.go c) (.fetch T) (t.pc c) ∧ Effect s t c := by
  simp only [stepGo, hp] at h
  cases h
  rw [goto_pc_self]
  refine ⟨.fetch _, fun _ _ => Or.inl rfl, fun U hU => ?_, fun U hU => Or.inl ?_, Nat.le_refl _⟩
  · simp only [goto_opened, Function.update_self, List.mem_cons] at hU
    rcases hU with rfl | hU
    · exact Or.inr hp
    · exact Or.inl hU
  · simp only [goto_opened, Function.update_self]
    exact List.mem_cons_of_mem T hU

theorem hop_release (hp : s.pc c = .release kind T i) (h : stepGo nprocs s c = some t) :
    Hop s c (.go c) (.release kind T i) (t.pc c) ∧ Effect s t c := by
  simp only [stepGo, hp] at h
  split at h
  · rename_i hi
    cases h
    rw [goto_pc_self]
    exact ⟨.release hi _, .quiet rfl rfl rfl⟩
  · rename_i hi
    cases kind with
    | dock | barrier =>
      cases h
      rw [goto_pc_self]
      exact ⟨.released hi, .quiet rfl rfl rfl⟩

theorem hop_store {e : Int32} (hp : s.pc c = .store kind T i e) (h : stepGo nprocs s c = some t) :
    Hop s c (.go c) (.store kind T i e) (t.pc c) ∧ Effect s t c := by
  simp only [stepGo, hp] at h
  cases h
  rw [goto_pc_self]
  refine ⟨.store _ _ _ _, fun x _ => ?_, fun _ => Or.inl, fun _ => Or.inl, Nat.le_refl _⟩
  by_cases hx : x = (s.g.teams T).proc_ids i
  · exact Or.inr ⟨kind, T, i, e, hp, hx⟩
  · exact Or.inl (setExit_exit_ne hx)

theorem hop_gather (hp : s.pc c = .gather kind T i) (h : stepGo nprocs s c = some t) :
    Hop s c (.go c) (.gather kind T i) (t.pc c) ∧ Effect s t c := by
  simp only [stepGo, hp] at h
  split at h
  · rename_i hi
    obtain ⟨-, h⟩ := Option.ite_none_left_eq_some.1 h
    cases h
    rw [goto_pc_self]
    exact ⟨.gather hi, .quiet rfl rfl rfl⟩
  · rename_i hi
    cases kind with
    | dock =>
      obtain ⟨U, hU, rfl⟩ := Option.map_eq_some_iff.1 h
      rw [goto_pc_self]
      exact ⟨.gatherDock hi hU, .quiet rfl rfl rfl⟩
    | barrier =>
      cases h
      rw [goto_pc_self]
      exact ⟨.gatherBarrier hi, .quiet rfl rfl rfl⟩

theorem hop_givePool (hp : s.pc c = .givePool T) (h : stepGo nprocs s c = some t) :
    Hop s c (.go c) (.givePool T) (t.pc c) ∧ Effect s t c := by
  simp only [stepGo, hp] at h
  cases h
  rw [goto_pc_self]
  refine ⟨.givePool _, fun _ _ => Or.inl rfl, fun U hU => Or.inl ?_, fun U hU => ?_, Nat.le_refl _⟩
  · simp only [goto_opened, Function.update_self] at hU
    exact List.mem_of_mem_tail hU
  · simp only [goto_opened, Function.update_self]
    cases hop : s.opened c with
    | nil =>
      rw [hop] at hU
      cases hU
    | cons V Vs =>
      rw [hop, List.mem_cons] at hU
      rcases hU with rfl | hU
      · exact Or.inr ⟨T, hp, rfl⟩
      · exact Or.inl hU

theorem stepGo_hop (h : stepGo nprocs s c = some t) : Hop s c (.go c) (s.pc c) (t.pc c) ∧ Effect s t c := by
  cases hp : s.pc c with
  | spin kind g => exact hop_spin hp h
  | fetch T => exact hop_fetch hp h
  | release kind T i => exact hop_release hp h
  | store kind T i e => exact hop_store hp h
  | gather kind T i => exact hop_gather hp h
  | givePool T => exact hop_givePool hp h
  | running => simp [stepGo, hp] at h
  | enter _ | startSignal _ | link _ | giveIdle _ | endSignal _ | unlink _ =>
    simp only [stepGo, hp] at h
    cases h
    rw [goto_pc_self]
    exact ⟨by constructor, .quiet rfl rfl rfl⟩
  | announce _ _ | reset _ _ _ =>
    simp only [stepGo, hp] at h
    cases h
    rw [goto_pc_self]
    exact ⟨by constructor, .of_eq (fun _ hx => setFlag_exit hx) rfl (Nat.le_refl _)⟩
  | startWait _ _ _ | endWait _ =>
    simp only [stepGo, hp] at h
    obtain ⟨-, h⟩ := Option.ite_none_right_eq_some.1 h
    cases h
    rw [goto_pc_self]
    exact ⟨by constructor, .quiet rfl rfl rfl⟩
  | work =>
    simp only [stepGo, hp] at h
    obtain ⟨T, -, rfl⟩ := Option.map_eq_some_iff.1 h
    rw [goto_pc_self]
    exact ⟨.work, .quiet rfl rfl rfl⟩
  | resolve fn data specified =>
    simp only [stepGo, hp] at h
    cases h
    rw [goto_pc_self]
    exact ⟨.resolve _ _ _, .of_eq (fun _ _ => rfl) rfl (Nat.le_succ _)⟩

/-- A step follows an edge of the control flow. -/
theorem step_hop (h : step barriers nprocs s a = some t) :
    Hop s a.core a (s.pc a.core) (t.pc a.core) ∧ Effect s t a.core := by
  unfold step at h
  obtain ⟨-, h⟩ := Option.ite_none_right_eq_some.1 h
  cases a with
  | start c fn data specified =>
    obtain ⟨hpc, h⟩ := Option.ite_none_right_eq_some.1 h
    cases h
    rw [Act.core, goto_pc_self, hpc]
    exact ⟨.start fn data specified, .quiet rfl rfl rfl⟩
  | finish c =>
    obtain ⟨⟨hpc, hop⟩, h⟩ := Option.ite_none_right_eq_some.1 h
    obtain ⟨T, hT, h⟩ := Option.bind_eq_some_iff.1 h
    obtain ⟨-, h⟩ := Option.ite_none_right_eq_some.1 h
    cases h
    rw [Act.core, goto_pc_self, hpc]
    exact ⟨.finish hT hop, .quiet rfl rfl rfl⟩
  | barrier c =>
    obtain ⟨⟨hpc, -⟩, h⟩ := Option.ite_none_right_eq_some.1 h
    obtain ⟨T, -, h⟩ := Option.bind_eq_some_iff.1 h
    obtain ⟨-, h⟩ := Option.ite_none_right_eq_some.1 h
    split at h <;> cases h <;> rw [Act.core, goto_pc_self, hpc]
    · exact ⟨.barrierMaster T, .quiet rfl rfl rfl⟩
    · exact ⟨.barrier, .quiet rfl rfl rfl⟩
  | ret c =>
    obtain ⟨⟨hpc, hc0, hop⟩, h⟩ := Option.ite_none_right_eq_some.1 h
    obtain ⟨T, hT, h⟩ := Option.bind_eq_some_iff.1 h
    obtain ⟨-, h⟩ := Option.ite_none_right_eq_some.1 h
    cases h
    rw [Act.core, goto_pc_self, hpc]
    exact ⟨.ret hT hc0 hop, .quiet rfl rfl rfl⟩
  | go c => exact stepGo_hop h

theorem core_lt (h : step barriers nprocs s a = some t) : a.core < nprocs :=
  (Option.ite_none_right_eq_some.1 h).1

/-- A core that is held makes no step. -/
theorem not_held {g : Int32} (h : step barriers nprocs s a = some t) (hp : s.pc a.core = .spin kind g) :
    s.exit a.core ≠ g := by
  have hhop := (step_hop h).1
  rw [hp] at hhop
  generalize a.core = c, t.pc a.core = p' at hhop
  cases hhop <;> assumption

/-! ## An open team -/

/-- A step of a core that is neither the master nor the thread. -/
theorem Inv.phase_ne (hs : Inv barriers nprocs s) (hm : Moves nprocs s t d) (hd : d ≠ c) (hT : T ∈ s.opened c)
    (hj1 : 1 ≤ j) (hj : j < (s.g.teams T).nthreads) (hx : (s.g.teams T).proc_ids j ≠ d) :
    t.phase T c j = s.phase T c j := by
  obtain ⟨-, hids, htask⟩ := hm.teams c T hT
  obtain ⟨hexit, -⟩ := hs.other_words hm hd.symm hT (Team.Formed.slave hj1 hj) hx
  simp only [State.phase, hids, htask, hm.pc c hd.symm, hm.pc _ hx, hexit]

/-- A step of a thread that is not held. -/
theorem Inv.phase_slave (hs : Inv barriers nprocs s) (hprocs : nprocs ≤ 16) (h : step barriers nprocs s a = some t)
    (ha : a.core = x) (hT : T ∈ s.opened c) (hx : x ∈ (s.g.teams T).slaves) (hloose : Loose s q T x n (s.pc x)) :
    Trans.run life ((s.pc x).phase (s.task T) fun g => s.exit x == g) (events nprocs T x s a) =
      some ((t.pc x).phase (s.task T) fun g => t.exit x == g) := by
  have hexit : t.exit x = s.exit x := ha ▸ (hs.step_keeps hprocs h).moves.exit
  have hlt := ha ▸ core_lt h
  -- the regions that it opens itself
  have hother : ∀ {kind U i}, s.pc x = .gather kind U i → U ≠ T := by
    rintro kind U i hp rfl
    have hmine : U ∈ s.opened x := List.mem_of_head? (hp ▸ hs.places x hlt : PcOk barriers s x (.gather kind U i)).1
    exact hs.slave_ne hmine hx rfl
  obtain ⟨hhop, -⟩ := step_hop h
  rw [ha] at hhop
  rw [hexit]
  generalize hp : s.pc x = p, t.pc x = p' at hhop hloose
  cases hhop with
  | ret hU hc0 hop =>
    have hcur := hs.current_of_slave hT hx hop fun U => by simp [hp]
    simp only [events, hcur, and_self, if_true]
    rfl
  | work =>
    have hop : s.opened x = [] := (hp ▸ hs.places x hlt : PcOk barriers s x .work).2
    have hcur := hs.current_of_slave hT hx hop fun U => by simp [hp]
    simp [events, hp, hcur, Trans.run, life, Pc.phase]
  | announce kind g =>
    cases kind with
    | barrier => simp [events, hp, Pc.phase]
    | dock =>
      have hsame : s.exit x = g := hloose.1
      simp [events, hp, Pc.phase, hsame]
  | enter kind => cases kind <;> simp [events, hp, Pc.phase]
  | leaveDock hne => simp [events, hp, Pc.phase, hne]
  | fetch U =>
    have hUT : U ≠ T := by
      rintro rfl
      exact (hs.alloc.at (absPc_self hlt hp)).2.closed c hT
    simp [events, hp, hUT, Pc.phase]
  | gather hi => simp [events_gather hp fun h => hother hp h.1, Pc.phase]
  | gatherDock hi hU => simp [events_gather hp fun h => hother hp h.1, Pc.phase]
  | gatherBarrier hi => simp [events_gather hp fun h => hother hp h.1, Pc.phase]
  | _ => simp [events, hp, Pc.phase]

/-- The phase depends on the view of the master, the place of the thread and its counter. -/
theorem Inv.phase_congr (hs : Inv barriers nprocs s) (hm : Moves nprocs s t c) (hT : T ∈ s.opened c) (hj1 : 1 ≤ j)
    (hj : j < (s.g.teams T).nthreads) (hview : (t.pc c).view T j = (s.pc c).view T j)
    (hexit : t.exit ((s.g.teams T).proc_ids j) = s.exit ((s.g.teams T).proc_ids j)) :
    t.phase T c j = s.phase T c j := by
  obtain ⟨-, hids, htask⟩ := hm.teams c T hT
  simp only [State.phase, hids, htask, hm.pc _ (hs.slave_ne hT (Team.Formed.slave hj1 hj)), hview, hexit]

/-- The store of a release changes the counter of one thread, which is the one it releases. -/
theorem Inv.exit_store {e : Int32} (hs : Inv barriers nprocs s) (heff : Effect s t c) (hlt : c < nprocs)
    (hprocs : nprocs ≤ 16) (hT : T ∈ s.opened c) (hj1 : 1 ≤ j) (hj : j < (s.g.teams T).nthreads)
    (hp : s.pc c = .store kind U i e) (hUi : ¬ (U = T ∧ i = j)) :
    t.exit ((s.g.teams T).proc_ids j) = s.exit ((s.g.teams T).proc_ids j) := by
  obtain ⟨hhead, hi1, -, hi, -⟩ : PcOk barriers s c (.store kind U i e) := hp ▸ hs.places c hlt
  have hU : U ∈ s.opened c := List.mem_of_head? hhead
  have hx : (s.g.teams T).proc_ids j ∈ (s.g.teams T).slaves := Team.Formed.slave hj1 hj
  refine (heff.exit _ (Nat.lt_of_lt_of_le (hs.slave_lt hT hx) hprocs)).resolve_right ?_
  rintro ⟨kind', V, k, e', hp', hxk⟩
  cases hp.symm.trans hp'
  by_cases hUT : U = T
  · subst hUT
    exact hUi ⟨rfl, (hs.formed hT).inj hi hj hxk.symm⟩
  · refine Finset.disjoint_left.1 (hs.alloc.disjoint c c U T hU hT hUT) ?_ hx
    exact hxk ▸ Team.Formed.slave hi1 hi

/-- The store of a release: a thread that leaves the dock is already seen as started. -/
theorem Inv.phase_store {e : Int32} (hs : Inv barriers nprocs s) (hprocs : nprocs ≤ 16)
    (h : step barriers nprocs s (.go c) = some t) (hT : T ∈ s.opened c) (hj1 : 1 ≤ j)
    (hj : j < (s.g.teams T).nthreads) (hp : s.pc c = .store kind U i e) (hp' : t.pc c = .release kind U (i + 1)) :
    t.phase T c j = s.phase T c j := by
  have hm := (hs.step_keeps hprocs h).moves
  by_cases hUi : U = T ∧ i = j
  · -- the thread is released
    obtain ⟨rfl, rfl⟩ := hUi
    obtain ⟨-, hids, htask⟩ := hm.teams c U hT
    have hxc := hs.slave_ne hT (Team.Formed.slave hj1 hj)
    have hobeys := hs.obeys c U hT i hj1 hj
    obtain ⟨g, hg, hsame, -⟩ : Obeys s _ U _ (.held kind _) := by simpa [hp, Pc.told] using hobeys
    simp only [State.phase, hids, htask, hm.pc _ hxc]
    cases kind with
    | barrier => simp [hp, hp', Pc.view, Pc.phase, hg]
    | dock =>
      obtain ⟨-, -, -, -, he⟩ : PcOk barriers s c (.store .dock U i e) := hp ▸ hs.places c (core_lt h)
      have hnew : t.exit ((s.g.teams U).proc_ids i) = e + 1 := by
        have hgo := (Option.ite_none_right_eq_some.1 h).2
        simp only [stepGo, hp, Option.some.injEq] at hgo
        rw [← hgo, goto_exit, setExit_exit_self]
      have hne : t.exit ((s.g.teams U).proc_ids i) ≠ g := by
        rw [hnew, he, hsame]
        exact add_one_ne_self g
      simp [hp, hp', Pc.view, Pc.phase, hg, hne]
  · refine hs.phase_congr hm hT hj1 hj ?_ (hs.exit_store (step_hop h).2 (core_lt h) hprocs hT hj1 hj hp hUi)
    have hview : (kind = .dock ∧ U = T ∧ ¬ j < i + 1) ↔ kind = .dock ∧ U = T ∧ ¬ j < i := by
      refine and_congr_right fun _ => and_congr_right fun hUT => ?_
      have : i ≠ j := fun h => hUi ⟨hUT, h⟩
      omega
    simp only [hp, hp', Pc.view, hview]

/-- A step of the master that stores to no counter. -/
theorem Inv.phase_quiet (hs : Inv barriers nprocs s) (hprocs : nprocs ≤ 16) (h : step barriers nprocs s a = some t)
    (ha : a.core = c) (hT : T ∈ s.opened c) (hj1 : 1 ≤ j) (hj : j < (s.g.teams T).nthreads)
    (hp : ∀ kind U i e, s.pc c ≠ .store kind U i e) (hview : (t.pc c).view T j = (s.pc c).view T j) :
    t.phase T c j = s.phase T c j := by
  refine hs.phase_congr (ha ▸ (hs.step_keeps hprocs h).moves) hT hj1 hj hview ?_
  have heff : Effect s t c := ha ▸ (step_hop h).2
  have hx := Nat.lt_of_lt_of_le (hs.slave_lt hT (Team.Formed.slave hj1 hj)) hprocs
  refine (heff.exit _ hx).resolve_right ?_
  rintro ⟨kind, U, i, e, hstore, -⟩
  exact hp kind U i e hstore

/-- The gather of the dock: a thread that is gathered was already seen as returned. -/
theorem Inv.phase_reset (hs : Inv barriers nprocs s) (hprocs : nprocs ≤ 16)
    (h : step barriers nprocs s (.go c) = some t) (hT : T ∈ s.opened c) (hj1 : 1 ≤ j)
    (hj : j < (s.g.teams T).nthreads) (hp : s.pc c = .reset kind U i) (hp' : t.pc c = .gather kind U (i + 1)) :
    t.phase T c j = s.phase T c j := by
  have hm := (hs.step_keeps hprocs h).moves
  by_cases hUi : U = T ∧ i = j
  · -- the thread is gathered
    obtain ⟨rfl, rfl⟩ := hUi
    obtain ⟨-, hids, htask⟩ := hm.teams c U hT
    have hx : (s.g.teams U).proc_ids i ∈ (s.g.teams U).slaves := Team.Formed.slave hj1 hj
    obtain ⟨g, hg, hsame, -⟩ := hs.gathered (core_lt h) hp
    have heff : Effect s t c := (step_hop h).2
    have hexit : t.exit ((s.g.teams U).proc_ids i) = s.exit ((s.g.teams U).proc_ids i) :=
      (heff.exit _ (Nat.lt_of_lt_of_le (hs.slave_lt hT hx) hprocs)).resolve_right (by simp [hp])
    simp only [State.phase, hids, htask, hm.pc _ (hs.slave_ne hT hx), hexit]
    cases kind <;> simp [hp, hp', Pc.view, Pc.phase, hg, hsame]
  · refine hs.phase_quiet (c := c) hprocs h rfl hT hj1 hj (by simp [hp]) ?_
    have hview : (kind = .dock ∧ U = T ∧ j < i + 1) ↔ kind = .dock ∧ U = T ∧ j < i := by
      refine and_congr_right fun _ => and_congr_right fun hUT => ?_
      have : i ≠ j := fun h => hUi ⟨hUT, h⟩
      omega
    simp only [hp, hp', Pc.view, hview]

/-- The end of the gather of the dock finishes the threads of its own region and no other. -/
theorem Inv.phase_gatherDock (hs : Inv barriers nprocs s) (hprocs : nprocs ≤ 16)
    (h : step barriers nprocs s (.go c) = some t) (hT : T ∈ s.opened c) (hj1 : 1 ≤ j)
    (hj : j < (s.g.teams T).nthreads) (hp : s.pc c = .gather .dock U i) (hi : ¬ i < (s.g.teams U).nthreads)
    (hV : s.g.currTeam c = some V) (hp' : t.pc c = .endWait V) :
    Trans.run life (s.phase T c j) (events nprocs T ((s.g.teams T).proc_ids j) s (.go c)) = some (t.phase T c j) := by
  have hx : (s.g.teams T).proc_ids j ∈ (s.g.teams T).slaves := Team.Formed.slave hj1 hj
  have hcur : s.g.currTeam c = some U := (hs.alloc.at (absPc_self (core_lt h) hp)).2.1
  obtain rfl : U = V := Option.some.inj (hcur.symm.trans hV)
  by_cases hUT : U = T
  · subst hUT
    have hji : j < i := Nat.lt_of_lt_of_le hj (Nat.not_lt.1 hi)
    simp [State.phase, events, hp, hp', Pc.view, Nat.not_lt.1 hi, hx, hji, life, Trans.run]
  · rw [events_gather hp fun h => hUT h.1,
      hs.phase_quiet (c := c) hprocs h rfl hT hj1 hj (by simp [hp]) (by simp [hp, hp', Pc.view, hUT])]
    rfl

/-- The region that `givePool` closes is not one that stays open. -/
theorem Inv.givePool_ne (hs : Inv barriers nprocs s) (h : step barriers nprocs s (.go c) = some t)
    (hT : T ∈ t.opened c) (hp : s.pc c = .givePool U) : U ≠ T := by
  rintro rfl
  have htail : t.opened c = (s.opened c).tail := by
    have hgo := (Option.ite_none_right_eq_some.1 h).2
    simp only [stepGo, hp, Option.some.injEq] at hgo
    rw [← hgo]
    exact Function.update_self ..
  have hhead : (s.opened c).head? = some U := (hs.alloc.at (absPc_self (core_lt h) hp)).1
  have hnodup : (s.opened c).Nodup := (hs.alloc.cores c).nodup
  rw [(List.cons_head?_tail hhead).symm, List.nodup_cons] at hnodup
  exact hnodup.1 (htail ▸ hT)

/-- A step of the master that leaves the region open. -/
theorem Inv.phase_master (hs : Inv barriers nprocs s) (hprocs : nprocs ≤ 16) (h : step barriers nprocs s a = some t)
    (ha : a.core = c) (hT : T ∈ s.opened c) (hT' : T ∈ t.opened c) (hj1 : 1 ≤ j) (hj : j < (s.g.teams T).nthreads) :
    Trans.run life (s.phase T c j) (events nprocs T ((s.g.teams T).proc_ids j) s a) = some (t.phase T c j) := by
  have hxc := hs.slave_ne hT (Team.Formed.slave hj1 hj)
  have hhop := (step_hop h).1
  have hquiet := hs.phase_quiet hprocs h ha hT hj1 hj
  rw [ha] at hhop
  generalize hp : s.pc c = p, hp' : t.pc c = p' at hhop hquiet
  cases hhop with
  | store kind U i e =>
    rw [show events nprocs T ((s.g.teams T).proc_ids j) s (.go c) = [] by simp only [events, hp],
      hs.phase_store hprocs h hT hj1 hj hp hp']
    rfl
  | reset kind U i =>
    rw [show events nprocs T ((s.g.teams T).proc_ids j) s (.go c) = [] by simp only [events, hp],
      hs.phase_reset hprocs h hT hj1 hj hp hp']
    rfl
  | gather hi =>
    rw [events_gather hp (by rintro ⟨rfl, hn⟩; omega), hquiet (by simp) rfl]
    rfl
  | gatherDock hi hV => exact hs.phase_gatherDock hprocs h hT hj1 hj hp hi hV hp'
  | @released kind U i hi =>
    have hview : ¬ (kind = .dock ∧ U = T ∧ ¬ j < i) := by
      rintro ⟨-, rfl, hji⟩
      omega
    rw [hquiet (by simp) (by simp only [Pc.view, if_neg hview])]
    simp [events, hp]
  | givePool U =>
    rw [hquiet (by simp) (by simp [Pc.view, hs.givePool_ne h hT' hp])]
    simp [events, hp]
  | fetch U =>
    have hUT : U ≠ T := by
      rintro rfl
      exact (hs.alloc.at (absPc_self (core_lt h) hp)).2.closed c hT
    rw [hquiet (by simp) (by simp [Pc.view, hUT])]
    simp [events, hp, hUT]
  | ret hU hc0 hop =>
    rw [hop] at hT
    cases hT
  | finish hU hop =>
    rw [hquiet (by simp) (by simp [Pc.view, Nat.ne_of_gt hj1])]
    rfl
  | link U =>
    rw [hquiet (by simp) (by simp [Pc.view, Nat.not_lt.2 hj1])]
    simp [events, hp]
  | work =>
    rw [hquiet (by simp) rfl]
    simp [events, hp, hxc.symm]
  | _ =>
    rw [hquiet (by simp) (by simp [Pc.view])]
    simp [events, hp]

/-- A step of the master that closes the region. -/
theorem Inv.phase_closed (hs : Inv barriers nprocs s) (h : step barriers nprocs s a = some t) (ha : a.core = c)
    (hT : T ∈ s.opened c) (hT' : T ∉ t.opened c) : s.phase T c j = .finished ∧ events nprocs T x s a = [] := by
  obtain ⟨hhop, heff⟩ := step_hop h
  rw [ha] at hhop heff
  obtain ⟨U, hp, hhead⟩ := (heff.closes T hT).resolve_left hT'
  have hhead' : (s.opened c).head? = some U := (hs.alloc.at (absPc_self (ha ▸ core_lt h) hp)).1
  obtain rfl : T = U := Option.some.inj (hhead.symm.trans hhead')
  rw [hp] at hhop
  generalize t.pc c = p' at hhop
  cases hhop
  simp [State.phase, hp, Pc.view, events]

/-- A thread that is not held makes its own way. -/
theorem view_of_loose (h : p.told T n j = .loose q) : p.view T j = .inside := by
  cases p with
  | startSignal U | link U | endWait U | giveIdle U | givePool U =>
    by_cases hU : U = T <;> simp [Pc.told, Pc.view, hU] at h ⊢
  | release kind U i | store kind U i _ =>
    by_cases hU : U = T <;> by_cases hi : j < i <;> simp [Pc.told, Pc.view, hU, hi] at h ⊢
  | gather kind U i | reset kind U i =>
    by_cases hU : U = T ∧ j < i
    · simp [Pc.told, hU] at h
    · simp [Pc.view, hU]
  | _ => rfl

theorem Inv.unique (hs : Inv barriers nprocs s) (hT : T ∈ s.opened c) (hT' : T ∈ s.opened d) : d = c :=
  ((hs.formed hT').master.symm.trans (hs.formed hT).master)

/-- A descriptor that is in use is not made again. -/
theorem Inv.fetch_ne (hs : Inv barriers nprocs s) (hprocs : nprocs ≤ 16) (h : step barriers nprocs s a = some t)
    (hT : T < s.g.nextTeam) (hfetch : ∀ c < nprocs, s.pc c ≠ .fetch T) :
    T < t.g.nextTeam ∧ ∀ c < nprocs, t.pc c ≠ .fetch T := by
  obtain ⟨hhop, heff⟩ := step_hop h
  refine ⟨Nat.lt_of_lt_of_le hT heff.next, fun c hc hp => ?_⟩
  by_cases hca : c = a.core
  · rw [← hca, hp] at hhop
    generalize s.pc c = p at hhop
    cases hhop
    exact absurd hT (Nat.lt_irrefl _)
  · exact hfetch c hc ((hs.step_keeps hprocs h).moves.pc c hca ▸ hp)

/-! ## One step -/

/-- A team that is open, with `x` as one of its slaves. -/
theorem Inv.lives_open (hs : Inv barriers nprocs s) (hprocs : nprocs ≤ 16) (h : step barriers nprocs s a = some t)
    (hT : T ∈ s.opened c) (hj1 : 1 ≤ j) (hj : j < (s.g.teams T).nthreads) (hx : (s.g.teams T).proc_ids j = x) :
    ∃ ph, Trans.run life (s.phase T c j) (events nprocs T x s a) = some ph ∧ Lives nprocs t T x ph := by
  have hm := (hs.step_keeps hprocs h).moves
  have hxT : x ∈ (s.g.teams T).slaves := hx ▸ Team.Formed.slave hj1 hj
  have hxc := hs.slave_ne hT hxT
  obtain ⟨hn, hids, htask⟩ := hm.teams c T hT
  have hlives : T ∈ t.opened c → Lives nprocs t T x (t.phase T c j) := fun hT' =>
    Or.inl ⟨c, j, hT', hj1, by rw [hn]; exact hj, by rw [hids]; exact hx, rfl⟩
  by_cases hac : a.core = c
  · by_cases hT' : T ∈ t.opened c
    · exact ⟨_, hx ▸ hs.phase_master hprocs h hac hT hT' hj1 hj, hlives hT'⟩
    · obtain ⟨hph, hev⟩ := hs.phase_closed (x := x) (j := j) h hac hT hT'
      refine ⟨.finished, by rw [hph, hev]; rfl, Or.inr ⟨fun d hd => ?_, Or.inr ⟨rfl, ?_⟩⟩⟩
      · by_cases hdc : d = c
        · subst hdc
          exact absurd hd hT'
        · rw [hm.opened d (hac ▸ hdc)] at hd
          exact absurd (hs.unique hT hd) hdc
      · refine hs.fetch_ne hprocs h (hs.live hT).lt fun d hd hp => ?_
        exact (hs.alloc.at (absPc_self hd hp)).2.closed c hT
  · have hT' : T ∈ t.opened c := by
      rw [hm.opened c (Ne.symm hac)]
      exact hT
    refine ⟨_, ?_, hlives hT'⟩
    by_cases hax : a.core = x
    · -- the thread itself: it is not held
      have hobeys := hs.obeys c T hT j hj1 hj
      rw [hx] at hobeys
      cases htold : (s.pc c).told T (s.passed T c) j with
      | held kind n =>
        rw [htold] at hobeys
        obtain ⟨g, hp, he, -⟩ := hobeys
        exact absurd (hax ▸ he) (not_held h (hax ▸ hp))
      | loose n =>
        rw [htold] at hobeys
        have hview := view_of_loose htold
        simp only [State.phase, hids, htask, hm.pc c (Ne.symm hac), hview, hx]
        exact hs.phase_slave hprocs h hax hT hxT hobeys
    · rw [hs.phase_ne hm hac hT hj1 hj (by rw [hx]; exact Ne.symm hax)]
      suffices hev : events nprocs T x s a = [] by rw [hev]; rfl
      rcases (events_cases : events nprocs T x s a = [] ∨ _) with
        hev | ⟨rfl, -⟩ | ⟨rfl, -⟩ | ⟨d, rfl, hp, -⟩ | ⟨d, i, rfl, hp, -⟩
      · exact hev
      · exact absurd rfl hax
      · exact absurd rfl hax
      · exact absurd hT ((hs.alloc.at (absPc_self (core_lt h) hp)).2.closed c)
      · have hhead : PcOk barriers s d (.gather .dock T i) := hp ▸ hs.places d (core_lt h)
        exact absurd (hs.unique hT (List.mem_of_head? hhead.1)) hac

/-- The step that forms team `T`. -/
theorem step_fetch (h : step barriers nprocs s (.go c) = some t) (hp : s.pc c = .fetch T) :
    t = { s with
      g := teamStartFetch nprocs s.g T
      opened := Function.update s.opened c (T :: s.opened c)
      taken := Function.update s.taken T { s.taken T with
        bits := (teamStartFetch nprocs s.g T).threadPool &&& ~~~s.g.threadPool } }.goto c (.startSignal T) := by
  have hgo := (Option.ite_none_right_eq_some.1 h).2
  simp only [stepGo, hp, Option.some.injEq] at hgo
  exact hgo.symm

/-- A team that is not open, or that `x` is no slave of. -/
theorem Inv.lives_closed (hs : Inv barriers nprocs s) (hprocs : nprocs ≤ 16) (h : step barriers nprocs s a = some t)
    (hx : ∀ c, T ∈ s.opened c → x ∉ (s.g.teams T).slaves) {ph : Phase}
    (hph : ph = .absent ∨ ph = .finished ∧ T < s.g.nextTeam ∧ ∀ c < nprocs, s.pc c ≠ .fetch T) :
    ∃ ph', Trans.run life ph (events nprocs T x s a) = some ph' ∧ Lives nprocs t T x ph' := by
  have hm := (hs.step_keeps hprocs h).moves
  have hlt := core_lt h
  obtain ⟨hhop, heff⟩ := step_hop h
  -- no thread of the team is there to be seen
  have hnone : x ∈ bits s.g.threadPool → x ≠ MASTER_ID → s.opened x = [] →
      (∀ U, s.pc x ≠ .endSignal U ∧ s.pc x ≠ .unlink U) → s.g.currTeam x ≠ some T := by
    intro hpool hx0 hop hcalls hT
    obtain ⟨d, U, hU, hxU, hcur⟩ := hs.team_of_closed hpool hx0 hop hcalls
    obtain rfl : T = U := Option.some.inj (hT.symm.trans hcur)
    exact hx d hU hxU
  by_cases hfetch : s.pc a.core = .fetch T
  · obtain rfl : ph = .absent := hph.resolve_right fun h => h.2.2 _ hlt hfetch
    have hat := hhop
    rw [hfetch] at hat
    generalize t.pc a.core = p' at hat
    cases a with
    | go c =>
      simp only [Act.core] at hfetch hlt
      have ht := step_fetch h hfetch
      have hformed := (hs.forms hprocs hlt hfetch).formed
      by_cases hxT : x ∈ ((teamStartFetch nprocs s.g T).teams T).slaves
      · obtain ⟨j, ⟨hj1, hj⟩, hxj⟩ := Team.mem_slaves.1 hxT
        refine ⟨.started (s.task T), by simp [events, hfetch, hxT, Trans.run, life], Or.inl ⟨c, j, ?_⟩⟩
        subst ht
        refine ⟨by simp, hj1, hj, hxj, ?_⟩
        simp [State.phase, Pc.view]
      · refine ⟨.absent, by simp [events, hfetch, hxT], Or.inr ⟨fun d _ => ?_, Or.inl rfl⟩⟩
        subst ht
        exact hxT
    | _ => cases hat
  · have hev : events nprocs T x s a = [] := by
      rcases (events_cases : events nprocs T x s a = [] ∨ _) with
        hev | ⟨rfl, hcur, -⟩ | ⟨rfl, hp, hcur, -⟩ | ⟨d, rfl, hp, -⟩ | ⟨d, i, rfl, hp, -, hxT, -⟩
      · exact hev
      · simp only [Act.core] at hhop hlt
        generalize hp : s.pc x = p, t.pc x = p' at hhop
        cases hhop with
        | ret hT hx0 hop =>
          exact absurd hcur (hnone (hs.inside_active hlt (by rw [hp]; rfl)) hx0 hop fun U => by simp [hp])
      · obtain ⟨hx0, hop⟩ : PcOk barriers s x .work := hp ▸ hs.places x hlt
        have habs : s.absPc nprocs x = .running := absPc_self hlt hp
        have hpool : x ∈ bits s.g.threadPool := hs.active (by rw [habs]; simp)
        exact absurd hcur (hnone hpool hx0 hop fun U => by simp [hp])
      · exact absurd hp hfetch
      · have hhead : PcOk barriers s d (.gather .dock T i) := hp ▸ hs.places d hlt
        exact absurd hxT (hx d (List.mem_of_head? hhead.1))
    refine ⟨ph, by rw [hev]; rfl, Or.inr ⟨fun d hT => ?_, hph.imp_right fun hfin => ?_⟩⟩
    · have hTs : T ∈ s.opened d := by
        by_cases hd : d = a.core
        · subst hd
          exact (heff.opens T hT).resolve_right hfetch
        · rwa [hm.opened d hd] at hT
      rw [hm.slaves hTs]
      exact hx d hTs
    · exact ⟨hfin.1, hs.fetch_ne hprocs h hfin.2.1 hfin.2.2⟩

theorem lives_step {ph : Phase} (hs : Inv barriers nprocs s) (hprocs : nprocs ≤ 16)
    (h : step barriers nprocs s a = some t) (hl : Lives nprocs s T x ph) :
    ∃ ph', Trans.run life ph (events nprocs T x s a) = some ph' ∧ Lives nprocs t T x ph' := by
  rcases hl with ⟨c, j, hT, hj1, hj, hx, rfl⟩ | ⟨hx, hph⟩
  · exact hs.lives_open hprocs h hT hj1 hj hx
  · exact hs.lives_closed hprocs h hx hph

/-- The life of a thread of a region with this task. -/
def wholeLife (task : Nat × Nat) : List Event := [.start task, .call task, .ret, .finish]

/-- How much of its life is behind a thread. -/
def Phase.seen : Phase → Nat
  | .absent => 0
  | .started _ => 1
  | .called => 2
  | .returned => 3
  | .finished => 4

theorem life_prefix {evs : List Event} {ph : Phase} (h : Trans.run life .absent evs = some ph) :
    ∃ task, evs = (wholeLife task).take ph.seen ∧ ∀ task', ph = .started task' → task' = task := by
  induction evs using List.reverseRecOn generalizing ph with
  | nil =>
    cases h
    exact ⟨(0, 0), rfl, fun _ h => nomatch h⟩
  | append_singleton evs e ih =>
    obtain ⟨ph', h', he⟩ := Trans.run_append.1 h
    obtain ⟨task, rfl, htask⟩ := ih h'
    obtain ⟨u, hu, hnil⟩ := Trans.run_cons.1 he
    cases hnil
    cases ph' <;> cases e <;> simp only [life, Option.ite_none_right_eq_some, Option.some.injEq, reduceCtorEq] at hu
    · subst hu
      exact ⟨_, rfl, fun _ h => (Phase.started.inj h).symm⟩
    · obtain ⟨rfl, rfl⟩ := hu
      obtain rfl := htask _ rfl
      exact ⟨_, rfl, fun _ h => nomatch h⟩
    · subst hu
      exact ⟨task, rfl, fun _ h => nomatch h⟩
    · subst hu
      exact ⟨task, rfl, fun _ h => nomatch h⟩

end Steps

end VirtualSoc.Gomp.Region
