import VirtualSoc.Gomp.BarrierHws

/-!
# The ids that the hardware-barrier runtime passes on (libgomp/config/vsoc/bar_hws.c)

A core whose pool bit is set has a descriptor (`Owned`), and under `Available` each descriptor has an event, so
whatever `CURR_TEAM` a core passes on, its `hw_event` is an id of the synchroniser, and no core is ever in the
software barrier.
-/

namespace VirtualSoc.Gomp.BarrierHws

open Mask TeamAlloc

/-! ## Descriptors of the cores -/

section Owned

variable {nprocs c T : Nat} {s s' : TeamAlloc.State}

/-- Each core in the pool has a current team, and the teams that are open, or are being ended, have an outer
one. -/
structure Owned (s : TeamAlloc.State) : Prop where
  current : ∀ x ∈ bits s.g.threadPool, ∃ T < s.g.nextTeam, s.g.currTeam x = some T
  outer : ∀ c, ∀ T ∈ s.opened c, ∃ U < s.g.nextTeam, (s.taken T).outer = some U
  ended : ∀ c T, s.pc c = .endSignal T ∨ s.pc c = .unlink T → ∃ U < s.g.nextTeam, (s.taken T).outer = some U

/-- A team that is being ended is an old one. -/
theorem ended_lt (hs : TeamAlloc.Inv nprocs s) (h : s.pc c = .endSignal T ∨ s.pc c = .unlink T) :
    T < s.g.nextTeam := by
  rcases h with h | h
  · exact (hs.at h).1
  · exact (hs.at h).1

/-- A step that sets no pool bit and no current team. -/
theorem Owned.mono (h : Owned s) (hs : TeamAlloc.Inv nprocs s)
    (hpool : bits s'.g.threadPool ⊆ bits s.g.threadPool) (hcur : s'.g.currTeam = s.g.currTeam)
    (hnext : s.g.nextTeam ≤ s'.g.nextTeam) (hopened : ∀ d, s'.opened d ⊆ s.opened d)
    (houter : ∀ T < s.g.nextTeam, (s'.taken T).outer = (s.taken T).outer)
    (hpc : ∀ d T, s'.pc d = .endSignal T ∨ s'.pc d = .unlink T →
      (s.pc d = .endSignal T ∨ s.pc d = .unlink T) ∨ T ∈ s.opened d) : Owned s' := by
  refine ⟨fun x hx => ?_, fun d T hT => ?_, fun d T hT => ?_⟩
  · obtain ⟨T, hT, hxT⟩ := h.current x (hpool hx)
    exact ⟨T, Nat.lt_of_lt_of_le hT hnext, by rw [hcur, hxT]⟩
  · have hmem := hopened d hT
    obtain ⟨U, hU, hUT⟩ := h.outer d T hmem
    exact ⟨U, Nat.lt_of_lt_of_le hU hnext, by rw [houter T ((hs.cores d).live T hmem).lt, hUT]⟩
  · rcases hpc d T hT with hend | hmem
    · obtain ⟨U, hU, hUT⟩ := h.ended d T hend
      exact ⟨U, Nat.lt_of_lt_of_le hU hnext, by rw [houter T (ended_lt hs hend), hUT]⟩
    · obtain ⟨U, hU, hUT⟩ := h.outer d T hmem
      exact ⟨U, Nat.lt_of_lt_of_le hU hnext, by rw [houter T ((hs.cores d).live T hmem).lt, hUT]⟩

/-- Who is at the end of a team after a core has moved: the core that moved there, or one that was there before. -/
theorem ending_goto {d : Nat} {p : Pc} (hd : (s.goto c p).pc d = .endSignal T ∨ (s.goto c p).pc d = .unlink T) :
    (d = c ∧ (p = .endSignal T ∨ p = .unlink T)) ∨ (s.pc d = .endSignal T ∨ s.pc d = .unlink T) := by
  by_cases hdc : d = c
  · subst hdc
    rw [goto_pc_self] at hd
    exact Or.inl ⟨rfl, hd⟩
  · rw [goto_pc_ne p hdc] at hd
    exact Or.inr hd

/-- Only the place of a core changes, and it is not one at the end of a team. -/
theorem Owned.goto (h : Owned s) {p : Pc} (hp : ∀ T, p ≠ .endSignal T ∧ p ≠ .unlink T) : Owned (s.goto c p) := by
  refine ⟨h.current, h.outer, fun d T hd => ?_⟩
  obtain ⟨-, hd⟩ | hd := ending_goto hd
  · exact absurd hd (not_or.2 (hp T))
  · exact h.ended d T hd

/-- A core that is in a call has a current team. -/
theorem Owned.some_current (h : Owned s) (hs : TeamAlloc.Inv nprocs s) (hc : s.pc c ≠ .docked) :
    ∃ T < s.g.nextTeam, s.g.currTeam c = some T :=
  h.current c ((hs.cores c).active hc)

/-- Cores are fetched into a team whose outer one is the current team of its master. -/
theorem Owned.fetch (h : Owned s) (hs : TeamAlloc.Inv nprocs s) (hprocs : nprocs ≤ 32) (hpc : s.pc c = .fetch T) :
    Owned ({ s with
      g := teamStartFetch nprocs s.g T
      opened := Function.update s.opened c (T :: s.opened c)
      taken := Function.update s.taken T { s.taken T with
        bits := (teamStartFetch nprocs s.g T).threadPool &&& ~~~s.g.threadPool } }.goto c (.startSignal T)) := by
  obtain ⟨-, hT⟩ := hs.at hpc
  have hc := ne_docked hpc (by simp)
  have hmy := (hs.cores c).active hc
  obtain ⟨-, -, -, hpool, hcur⟩ :=
    teamStartFetch_spec hprocs (Nat.one_le_of_lt (hs.pool c hmy)) hmy hT.pos hT.master hT.thread hT.mask hT.enough
  have hnext : (teamStartFetch nprocs s.g T).nextTeam = s.g.nextTeam := rfl
  generalize teamStartFetch nprocs s.g T = g' at hpool hcur hnext
  have houter : ∀ U, (Function.update s.taken T
      { s.taken T with bits := g'.threadPool &&& ~~~s.g.threadPool } U).outer = (s.taken U).outer := by
    intro U
    by_cases hU : U = T
    · subst hU
      rw [Function.update_self]
    · rw [Function.update_of_ne hU]
  refine ⟨fun x hx => ?_, fun d U hU => ?_, fun d U hU => ?_⟩
  · rw [goto_g] at hx
    simp only [goto_g, hnext, hcur]
    by_cases hxs : x ∈ (g'.teams T).slaves
    · exact ⟨T, hT.lt, by rw [if_pos hxs]⟩
    · rw [if_neg hxs]
      rw [hpool, Finset.mem_union, or_iff_left hxs] at hx
      exact h.current x hx
  · simp only [goto_g, goto_taken, goto_opened, hnext, houter] at hU ⊢
    by_cases hd : d = c
    · subst hd
      rw [Function.update_self] at hU
      rcases List.mem_cons.1 hU with rfl | hU
      · rw [hT.outer]
        exact h.some_current hs hc
      · exact h.outer d U hU
    · rw [Function.update_of_ne hd] at hU
      exact h.outer d U hU
  · simp only [goto_g, goto_taken, hnext, houter]
    obtain ⟨-, hU⟩ | hU := ending_goto hU
    · simp at hU
    · exact h.ended d U hU

/-- Core `c` gets another current team. -/
theorem Owned.setCurrent (h : Owned s) {g' : Globals} {U : Nat} {p : Pc}
    (hpool : g'.threadPool = s.g.threadPool) (hnext : g'.nextTeam = s.g.nextTeam)
    (hcur : g'.currTeam = Function.update s.g.currTeam c (some U)) (hU : U < s.g.nextTeam)
    (hp : ∀ T, p ≠ .endSignal T ∧ p ≠ .unlink T) : Owned ({ s with g := g' }.goto c p) := by
  have hold := h.goto (c := c) hp
  refine ⟨fun x hx => ?_, fun d T hT => ?_, fun d T hT => ?_⟩
  · simp only [goto_g, hpool, hnext, hcur] at hx ⊢
    by_cases hxc : x = c
    · subst hxc
      exact ⟨U, hU, Function.update_self ..⟩
    · rw [Function.update_of_ne hxc]
      exact h.current x hx
  · simp only [goto_g, hnext]
    exact h.outer d T hT
  · simp only [goto_g, hnext]
    exact hold.ended d T hT

/-- A number that is given out leaves the other teams as they are. -/
theorem Owned.resolve (h : Owned s) (hs : TeamAlloc.Inv nprocs s) (hprocs : nprocs ≤ 32) {k : Nat}
    (hpc : s.pc c = .resolve k) (hstep : TeamAlloc.stepGo nprocs s c = some s') : Owned s' := by
  have hmy := hs.pool c ((hs.cores c).active (ne_docked hpc (by simp)))
  obtain ⟨t, ht, -⟩ := teamStartResolve_spec s.g (Nat.lt_of_lt_of_le hmy hprocs) k
  simp only [TeamAlloc.stepGo, hpc, ht] at hstep
  cases hstep
  refine h.mono hs (Finset.Subset.refl _) rfl (Nat.le_succ _) (fun _ => List.Subset.refl _) (fun T hT => ?_) ?_
  · exact congrArg Taken.outer (Function.update_of_ne (Nat.ne_of_lt hT) ..)
  · intro d T hd
    obtain ⟨-, hd⟩ | hd := ending_goto hd
    · simp at hd
    · exact Or.inl hd

/-- The team whose region is closed keeps its outer team until `unlink`. -/
theorem Owned.givePool (h : Owned s) (hs : TeamAlloc.Inv nprocs s) (hpc : s.pc c = .givePool T) :
    Owned ((s.gives c T).goto c (.endSignal T)) := by
  have hmem := List.mem_of_head? (hs.at hpc).1
  refine h.mono hs ?_ rfl (Nat.le_refl _) (fun d => ?_) (fun _ _ => rfl) ?_
  · show bits (s.g.threadPool &&& _) ⊆ _
    rw [bits_and]
    exact Finset.inter_subset_left
  · simp only [goto_opened, gives_opened]
    by_cases hdc : d = c
    · subst hdc
      rw [Function.update_self]
      exact List.tail_subset _
    · rw [Function.update_of_ne hdc]
      exact List.Subset.refl _
  · intro d U hd
    obtain ⟨rfl, hU⟩ | hU := ending_goto hd
    · simp only [Pc.endSignal.injEq, reduceCtorEq, or_false] at hU
      exact Or.inr (hU ▸ hmem)
    · exact Or.inl hU

theorem Owned.endSignal (h : Owned s) (hpc : s.pc c = .endSignal T) :
    Owned ({ s with lock := none }.goto c (.unlink T)) := by
  obtain ⟨U, hU, hUT⟩ := h.ended c T (Or.inl hpc)
  refine ⟨h.current, h.outer, fun d V hd => ?_⟩
  obtain ⟨-, hd⟩ | hd := ending_goto hd
  · simp only [Pc.unlink.injEq, reduceCtorEq, false_or] at hd
    subst hd
    exact ⟨U, hU, hUT⟩
  · exact h.ended d V hd

theorem Owned.stepGo (h : Owned s) (hs : TeamAlloc.Inv nprocs s) (hprocs : nprocs ≤ 32)
    (hstep : TeamAlloc.stepGo nprocs s c = some s') : Owned s' := by
  cases hpc : s.pc c with
  | docked | running => simp [TeamAlloc.stepGo, hpc] at hstep
  | resolve k => exact h.resolve hs hprocs hpc hstep
  | startWait k =>
    simp only [TeamAlloc.stepGo, hpc] at hstep
    obtain ⟨-, hstep⟩ := Option.ite_none_right_eq_some.1 hstep
    cases hstep
    exact Owned.goto (s := { s with lock := some c }) ⟨h.current, h.outer, h.ended⟩ (by simp)
  | fetch T =>
    simp only [TeamAlloc.stepGo, hpc] at hstep
    cases hstep
    exact h.fetch hs hprocs hpc
  | startSignal T =>
    simp only [TeamAlloc.stepGo, hpc] at hstep
    cases hstep
    exact Owned.goto (s := { s with lock := none }) ⟨h.current, h.outer, h.ended⟩ (by simp)
  | link T =>
    simp only [TeamAlloc.stepGo, hpc] at hstep
    cases hstep
    obtain ⟨hhead, -, -⟩ := hs.at hpc
    exact h.setCurrent rfl rfl rfl ((hs.cores c).live T (List.mem_of_head? hhead)).lt (by simp)
  | release T i =>
    simp only [TeamAlloc.stepGo, hpc] at hstep
    split at hstep
    · cases hstep
      exact (h.goto (by simp)).goto (by simp)
    · cases hstep
      exact h.goto (by simp)
  | gather T i =>
    simp only [TeamAlloc.stepGo, hpc] at hstep
    split at hstep
    · obtain ⟨-, hstep⟩ := Option.ite_none_right_eq_some.1 hstep
      cases hstep
      exact h.goto (by simp)
    · obtain ⟨U, -, rfl⟩ := Option.map_eq_some_iff.1 hstep
      exact h.goto (by simp)
  | endWait T =>
    simp only [TeamAlloc.stepGo, hpc] at hstep
    obtain ⟨-, hstep⟩ := Option.ite_none_right_eq_some.1 hstep
    cases hstep
    exact Owned.goto (s := { s with lock := some c }) ⟨h.current, h.outer, h.ended⟩ (by simp)
  | giveIdle T =>
    simp only [TeamAlloc.stepGo, hpc] at hstep
    cases hstep
    exact Owned.goto (s := { s with g := teamEndIdle s.g T }) ⟨h.current, h.outer, h.ended⟩ (by simp)
  | givePool T =>
    simp only [TeamAlloc.stepGo, hpc] at hstep
    cases hstep
    exact h.givePool hs hpc
  | endSignal T =>
    simp only [TeamAlloc.stepGo, hpc] at hstep
    cases hstep
    exact h.endSignal hpc
  | unlink T =>
    simp only [TeamAlloc.stepGo, hpc] at hstep
    cases hstep
    obtain ⟨-, -, hparent, -⟩ := hs.at hpc
    obtain ⟨U, hU, hUT⟩ := h.ended c T (Or.inr hpc)
    refine h.setCurrent rfl rfl ?_ hU (by simp)
    rw [teamEndUnlink, hparent, hUT]

theorem Owned.step {a : TeamAlloc.Act} (h : Owned s) (hs : TeamAlloc.Inv nprocs s) (hprocs : nprocs ≤ 32)
    (hstep : TeamAlloc.step nprocs s a = some s') : Owned s' := by
  cases a with
  | start c k =>
    simp only [TeamAlloc.step, Option.ite_none_right_eq_some] at hstep
    obtain ⟨-, hstep⟩ := hstep
    cases hstep
    exact Owned.goto (s := { s with before := Function.update s.before c (s.g.currTeam c) })
      ⟨h.current, h.outer, h.ended⟩ (by simp)
  | finish c =>
    simp only [TeamAlloc.step, Option.ite_none_right_eq_some, Option.map_eq_some_iff] at hstep
    obtain ⟨-, T, -, rfl⟩ := hstep
    exact h.goto (by simp)
  | dock c =>
    simp only [TeamAlloc.step, Option.ite_none_right_eq_some] at hstep
    obtain ⟨-, hstep⟩ := hstep
    cases hstep
    exact h.goto (by simp)
  | go c => exact h.stepGo hs hprocs hstep

theorem init_owned (nprocs : Nat) : Owned (TeamAlloc.init nprocs) := by
  refine ⟨fun x hx => ?_, fun _ _ hT => (nomatch hT), fun c T hc => ?_⟩
  · have hpool : bits (TeamAlloc.init nprocs).g.threadPool = {MASTER_ID} := bits_bit (by decide)
    rw [hpool, Finset.mem_singleton] at hx
    subst hx
    exact ⟨0, Nat.zero_lt_one, rfl⟩
  · by_cases hc0 : c = MASTER_ID
    · subst hc0
      simp [TeamAlloc.init] at hc
    · rw [init_docked hc0] at hc
      simp at hc

end Owned

/-! ## Every descriptor has an event -/

section Inv

variable {cfg : Config} {s s' : State} {a : Act} {c : Nat}

structure Inv (cfg : Config) (s : State) : Prop where
  team : TeamAlloc.Inv cfg.nprocs s.team
  owned : Owned s.team
  event : ∀ T < s.team.g.nextTeam, InRange (s.hwEvent T)
  sync : s.sync.Ok
  inside : ∀ c, s.inside c = .no ∨ (s.inside c = .away ∧ c < cfg.nprocs) ∨ (s.inside c = .opening ∧ c = MASTER_ID)
  gathering : s.msBarrier = GLOBAL_GATHER →
    s.inside MASTER_ID = .opening ∧ ∀ c ≠ MASTER_ID, s.team.pc c = .docked
  gathered : s.msBarrier ≠ GLOBAL_GATHER → ∀ c, s.inside c = .no

/-- The event of a core that is in a call. -/
theorem Inv.event_inRange (h : Inv cfg s) (hc : s.team.pc c ≠ .docked) : InRange (s.event cfg c) := by
  obtain ⟨T, hT, hcT⟩ := h.owned.some_current h.team hc
  simp only [State.event, hcT]
  exact h.event T hT

/-- Who is in a call has left the gather behind. -/
theorem Inv.not_gathering (h : Inv cfg s) (hin : s.inside c = .no) (hc : s.team.pc c ≠ .docked) :
    s.msBarrier ≠ GLOBAL_GATHER := by
  intro hg
  obtain ⟨hmaster, hdocked⟩ := h.gathering hg
  by_cases hcm : c = MASTER_ID
  · subst hcm
    rw [hin] at hmaster
    cases hmaster
  · exact hc (hdocked c hcm)

/-- A step of `TeamAlloc` of a core that has left the gather behind. -/
theorem Inv.alloc (h : Inv cfg s) (hprocs : cfg.nprocs ≤ 32) {b : TeamAlloc.Act} {t : TeamAlloc.State}
    (hg : s.msBarrier ≠ GLOBAL_GATHER) (hstep : TeamAlloc.step cfg.nprocs s.team b = some t) {hwEvent : Nat → Int}
    {sync : Synchroniser} (hevent : ∀ T < t.g.nextTeam, InRange (hwEvent T)) (hsync : sync.Ok) :
    Inv cfg { s with team := t, hwEvent := hwEvent, sync := sync } :=
  ⟨TeamAlloc.step_inv h.team hprocs hstep, h.owned.step h.team hprocs hstep, hevent, hsync, h.inside,
    fun hg' => absurd hg' hg, h.gathered⟩

/-- The only step that forms a descriptor is that of `gomp_team_start`. -/
theorem nextTeam_step {nprocs : Nat} {t t' : TeamAlloc.State} {b : TeamAlloc.Act}
    (hstep : TeamAlloc.step nprocs t b = some t') :
    t'.g.nextTeam = t.g.nextTeam ∨ ∃ c k, b = .go c ∧ t.pc c = .resolve k ∧ t'.g.nextTeam = t.g.nextTeam + 1 := by
  cases b with
  | start c k =>
    simp only [TeamAlloc.step, Option.ite_none_right_eq_some] at hstep
    obtain ⟨-, hstep⟩ := hstep
    cases hstep
    exact Or.inl rfl
  | finish c =>
    simp only [TeamAlloc.step, Option.ite_none_right_eq_some, Option.map_eq_some_iff] at hstep
    obtain ⟨-, T, -, rfl⟩ := hstep
    exact Or.inl rfl
  | dock c =>
    simp only [TeamAlloc.step, Option.ite_none_right_eq_some] at hstep
    obtain ⟨-, hstep⟩ := hstep
    cases hstep
    exact Or.inl rfl
  | go c =>
    cases hpc : t.pc c with
    | resolve k =>
      simp only [TeamAlloc.step, TeamAlloc.stepGo, hpc] at hstep
      cases hstep
      exact Or.inr ⟨c, k, rfl, hpc, rfl⟩
    | docked | running => simp [TeamAlloc.step, TeamAlloc.stepGo, hpc] at hstep
    | startWait _ | endWait _ =>
      simp only [TeamAlloc.step, TeamAlloc.stepGo, hpc, Option.ite_none_right_eq_some] at hstep
      obtain ⟨-, hstep⟩ := hstep
      cases hstep
      exact Or.inl rfl
    | fetch _ | startSignal _ | link _ | giveIdle _ | givePool _ | endSignal _ | unlink _ =>
      simp only [TeamAlloc.step, TeamAlloc.stepGo, hpc] at hstep
      cases hstep
      exact Or.inl rfl
    | release _ _ =>
      simp only [TeamAlloc.step, TeamAlloc.stepGo, hpc] at hstep
      split at hstep <;> cases hstep <;> exact Or.inl rfl
    | gather _ _ =>
      simp only [TeamAlloc.step, TeamAlloc.stepGo, hpc] at hstep
      split at hstep
      · rw [Option.ite_none_right_eq_some] at hstep
        obtain ⟨-, hstep⟩ := hstep
        cases hstep
        exact Or.inl rfl
      · rw [Option.map_eq_some_iff] at hstep
        obtain ⟨U, -, rfl⟩ := hstep
        exact Or.inl rfl

/-- A step that forms no descriptor leaves the events of the descriptors as they are. -/
theorem Inv.alloc_same (h : Inv cfg s) (hprocs : cfg.nprocs ≤ 32) {b : TeamAlloc.Act} {t : TeamAlloc.State}
    (hg : s.msBarrier ≠ GLOBAL_GATHER) (hstep : TeamAlloc.step cfg.nprocs s.team b = some t)
    (hb : ∀ c k, b = .go c → s.team.pc c ≠ .resolve k) {sync : Synchroniser} (hsync : sync.Ok) :
    Inv cfg { s with team := t, sync := sync } := by
  refine h.alloc hprocs hg hstep (fun T hT => h.event T ?_) hsync
  rcases nextTeam_step hstep with hnext | ⟨c, k, hbc, hpc, -⟩
  · rw [hnext] at hT
    exact hT
  · exact absurd hpc (hb c k hbc)

/-- A call is made by a core that is not docked. -/
theorem alloc_not_docked {nprocs : Nat} {t t' : TeamAlloc.State} (hstep : TeamAlloc.step nprocs t (.go c) = some t') :
    t.pc c ≠ .docked := by
  intro hpc
  simp [TeamAlloc.step, TeamAlloc.stepGo, hpc] at hstep

theorem running_of_call {nprocs : Nat} {t t' : TeamAlloc.State} {b : TeamAlloc.Act}
    (hb : b = .finish c ∨ b = .dock c ∨ ∃ k, b = .start c k) (hstep : TeamAlloc.step nprocs t b = some t') :
    t.pc c ≠ .docked := by
  intro hpc
  rcases hb with rfl | rfl | ⟨k, rfl⟩ <;> simp [TeamAlloc.step, hpc] at hstep

/-- A core that is in no software barrier comes into none. -/
theorem Inv.enters (h : Inv cfg s) (hin : s.inside c = .away) : s.msBarrier = GLOBAL_GATHER := by
  by_contra hg
  have := h.gathered hg c
  rw [hin] at this
  cases this

theorem Inv.step_go (h : Inv cfg s) (hprocs : cfg.nprocs ≤ 32) (hav : Available cfg s (.go c))
    (hstep : stepGo cfg s c = some s') : Inv cfg s' := by
  have hin : s.inside c = .no := by
    rcases h.inside c with hin | ⟨hin, -⟩ | ⟨hin, -⟩
    · exact hin
    · simp [stepGo, hin] at hstep
    · simp [stepGo, hin] at hstep
  simp only [stepGo, hin, Option.bind_eq_some_iff] at hstep
  obtain ⟨t, ht, hstep⟩ := hstep
  have hg := h.not_gathering hin (alloc_not_docked ht)
  split at hstep
  · rename_i k hpc
    obtain ⟨⟨event, sync⟩, hget, rfl⟩ := Option.map_eq_some_iff.1 hstep
    refine h.alloc hprocs hg ht (fun T hT => ?_) (getNewHwEvent_ok h.sync hget)
    by_cases hTn : T = s.team.g.nextTeam
    · subst hTn
      rw [Function.update_self]
      simp only [Available, hpc] at hav
      exact getNewHwEvent_inRange hav hget
    · rw [Function.update_of_ne hTn]
      rcases nextTeam_step ht with hnext | ⟨-, -, -, -, hnext⟩
      · exact h.event T (by omega)
      · exact h.event T (by omega)
  · rename_i T hpc
    cases hstep
    refine h.alloc_same hprocs hg ht (fun d k hd => ?_) (h.sync.free c _)
    cases hd
    rw [hpc]
    simp
  · rename_i hres _
    cases hstep
    refine h.alloc_same hprocs hg ht (fun d k hd => ?_) h.sync
    cases hd
    exact hres k

/-- **A step** that meets the condition keeps the invariant. -/
theorem step_inv (h : Inv cfg s) (hprocs : cfg.nprocs ≤ 32) (hav : Available cfg s a)
    (hstep : step cfg s a = some s') : Inv cfg s' := by
  cases a with
  | enter c =>
    simp only [step, Option.ite_none_right_eq_some] at hstep
    obtain ⟨hin, hstep⟩ := hstep
    have hg := h.enters hin
    simp only [slaveEnter, hg, true_or, if_true, Option.some.injEq] at hstep
    subst hstep
    have hcm : c ≠ MASTER_ID := by
      rintro rfl
      rw [(h.gathering hg).1] at hin
      cases hin
    refine ⟨h.team, h.owned, h.event, h.sync, fun d => ?_, fun _ => ⟨?_, (h.gathering hg).2⟩, fun hg' => absurd hg hg'⟩
    · simp only [State.goIn]
      by_cases hd : d = c
      · subst hd
        exact Or.inl (Function.update_self ..)
      · rw [Function.update_of_ne hd]
        exact h.inside d
    · simp only [State.goIn]
      rw [Function.update_of_ne hcm.symm]
      exact (h.gathering hg).1
  | opening =>
    simp only [step, Option.ite_none_right_eq_some, Option.some.injEq] at hstep
    obtain ⟨-, rfl⟩ := hstep
    have hno : ∀ d, Function.update s.inside MASTER_ID .no d = .no := by
      intro d
      by_cases hd : d = MASTER_ID
      · rw [hd, Function.update_self]
      · rw [Function.update_of_ne hd]
        rcases h.inside d with hin | ⟨hin, hlt⟩ | ⟨-, hdm⟩
        · exact hin
        · exact absurd hin (hav d hlt)
        · exact absurd hdm hd
    exact ⟨h.team, h.owned, h.event, h.sync, fun d => Or.inl (hno d),
      fun hg => absurd (show GLOBAL_GATHER_END = GLOBAL_GATHER from hg) (by decide), fun _ => hno⟩
  | barrier c =>
    simp only [step, Option.ite_none_right_eq_some, Option.some.injEq] at hstep
    obtain ⟨-, rfl⟩ := hstep
    exact h
  | start c k =>
    simp only [step, Option.ite_none_right_eq_some, State.alloc, Option.map_eq_some_iff] at hstep
    obtain ⟨hin, t, ht, rfl⟩ := hstep
    exact h.alloc_same hprocs (h.not_gathering hin (running_of_call (Or.inr (Or.inr ⟨k, rfl⟩)) ht)) ht (by simp) h.sync
  | finish c =>
    simp only [step, Option.ite_none_right_eq_some, wait, State.alloc, Option.bind_eq_some_iff,
      Option.map_eq_some_iff] at hstep
    obtain ⟨hin, T, -, t, ht, rfl⟩ := hstep
    have hc := running_of_call (Or.inl rfl) ht
    have hg := h.not_gathering hin hc
    rw [if_neg hg, if_pos (h.event_inRange hc).ne_sw]
    exact h.alloc_same hprocs hg ht (by simp) h.sync
  | dock c =>
    simp only [step, Option.ite_none_right_eq_some, Option.bind_eq_some_iff] at hstep
    obtain ⟨hin, t, ht, hstep⟩ := hstep
    have hc := running_of_call (Or.inr (Or.inl rfl)) ht
    have hg := h.not_gathering hin hc
    rw [slaveEnter, if_pos (Or.inr (h.event_inRange hc).ne_sw)] at hstep
    cases hstep
    exact h.alloc_same hprocs hg ht (by simp) h.sync
  | go c => exact h.step_go hprocs hav hstep

theorem init_inv (hone : 1 ≤ cfg.nprocs) : Inv cfg (init cfg) := by
  refine ⟨TeamAlloc.inv_init hone, init_owned _, fun T hT => ?_, rootEvent_spec.2, fun c => ?_,
    fun _ => ⟨rfl, fun c hc => init_docked hc⟩,
    fun hg => absurd rfl hg⟩
  · obtain rfl : T = 0 := Nat.lt_one_iff.1 hT
    exact rootEvent_spec.1
  · simp only [init]
    split
    · rename_i hc
      exact Or.inr (Or.inr ⟨rfl, hc⟩)
    · split
      · rename_i hc
        exact Or.inr (Or.inl ⟨rfl, hc⟩)
      · exact Or.inl rfl

/-- What is passed on in a step is the id of an event. -/
theorem Inv.calls_inRange (h : Inv cfg s) (hstep : step cfg s a = some s') : ∀ k ∈ calls cfg s a, InRange k.id := by
  have hdock : ∀ c, s.team.pc c ≠ .docked → ∀ k ∈ dockCalls cfg s c, InRange k.id := by
    intro c hc k hk
    simp only [dockCalls] at hk
    split at hk
    · cases hk
    · rw [List.mem_singleton] at hk
      subst hk
      exact h.event_inRange hc
  intro k hk
  cases a with
  | enter c =>
    simp only [step, Option.ite_none_right_eq_some] at hstep
    simp [calls, dockCalls, h.enters hstep.1] at hk
  | opening => cases hk
  | barrier c =>
    simp only [step, Option.ite_none_right_eq_some] at hstep
    simp only [calls, List.mem_singleton] at hk
    subst hk
    exact h.event_inRange (ne_docked hstep.1.2 (by simp))
  | start c n => cases hk
  | finish c =>
    simp only [step, Option.ite_none_right_eq_some, wait, State.alloc, Option.bind_eq_some_iff,
      Option.map_eq_some_iff] at hstep
    obtain ⟨-, T, -, t, ht, -⟩ := hstep
    exact hdock c (running_of_call (Or.inl rfl) ht) k hk
  | dock c =>
    simp only [step, Option.ite_none_right_eq_some, Option.bind_eq_some_iff] at hstep
    obtain ⟨-, t, ht, -⟩ := hstep
    exact hdock c (running_of_call (Or.inr (Or.inl rfl)) ht) k hk
  | go c =>
    simp only [calls] at hk
    split at hk
    · split at hk
      · rename_i T hpc
        rw [List.mem_singleton] at hk
        subst hk
        exact h.event_inRange (ne_docked hpc (by simp))
      · rename_i T hpc
        rw [List.mem_singleton] at hk
        subst hk
        exact h.event T (h.team.at hpc).1
      · cases hk
    · cases hk

/-- A team that finds a free event is answered: the list of its master has a slot for it. -/
theorem Inv.ask_answered (h : Inv cfg s) {k : Nat} (hin : s.inside c = .no) (hpc : s.team.pc c = .resolve k)
    (hav : Available cfg s (.go c)) {t : TeamAlloc.State} (ht : TeamAlloc.step cfg.nprocs s.team (.go c) = some t) :
    (step cfg s (.go c)).isSome = true := by
  simp only [Available, hpc] at hav
  simp only [step, stepGo, hin, ht, Option.bind_some, hpc, Option.isSome_map]
  exact getNewHwEvent_isSome h.sync hav c

theorem Inv.safe {g : Nat → Bool} (h : Inv cfg s) : Safe cfg (s, g) a := by
  intro hen
  obtain ⟨s', hstep⟩ := Option.isSome_iff_exists.1 hen
  refine ⟨h.calls_inRange hstep, ?_, ?_⟩
  · cases a with
    | go c =>
      intro hin
      have := h.inside c
      rw [hin] at this
      simp at this
    | _ => trivial
  · cases a with
    | go c =>
      simp only [AllGathered]
      split
      · rename_i T i hin
        have := h.inside c
        rw [hin] at this
        simp at this
      · trivial
    | _ => trivial

end Inv

/-! ## Runs -/

variable {cfg : Config}

instance (s : State) : ∀ a, Decidable (Available cfg s a)
  | .go c =>
    match h : s.team.pc c with
    | .resolve _ => decidable_of_iff (∃ e, e ∉ s.sync.reserved) (by simp only [Available, h])
    | .docked | .running | .startWait _ | .fetch _ | .startSignal _ | .link _ | .release _ _ | .gather _ _
    | .endWait _ | .giveIdle _ | .givePool _ | .endSignal _ | .unlink _ => isTrue (by simp only [Available, h])
  | .opening => inferInstanceAs (Decidable (∀ c < cfg.nprocs, s.inside c ≠ .away))
  | .enter _ | .barrier _ | .start _ _ | .finish _ | .dock _ => isTrue trivial

/-- **The hardware-barrier runtime**: in every run in which a team that is formed finds a free event and the slaves
are at the dock when the gather ends, all ids that are passed on are events, no slave leaves the dock of a team
without an event before it is released, and no wait of such a team ends before all have entered. -/
theorem hw_barrier_safe (hone : 1 ≤ cfg.nprocs) (hprocs : cfg.nprocs ≤ 32) {as : List Act}
    (h : Trans.Along (Trans.withHistory (step cfg) (docked cfg)) (fun x a => Available cfg x.1 a)
      (init cfg, fun _ => false) as) :
    Trans.Along (Trans.withHistory (step cfg) (docked cfg)) (Safe cfg) (init cfg, fun _ => false) as :=
  h.of_inv (fun x => Inv cfg x.1) (init_inv hone)
    (fun _ _ _ hx hav hstep => step_inv hx hprocs hav (Trans.withHistory_some.1 hstep).1) fun _ _ hx _ => hx.safe

/-- **The asks of the teams**: in such a run the synchroniser answers each of them, also with a list that it keeps for
every core. -/
theorem asks_answered (hone : 1 ≤ cfg.nprocs) (hprocs : cfg.nprocs ≤ 32) {as : List Act}
    (h : Trans.Along (step cfg) (Available cfg) (init cfg) as) :
    Trans.Along (step cfg) (fun s a => ∀ c k, a = .go c → s.inside c = .no → s.team.pc c = .resolve k →
      (TeamAlloc.step cfg.nprocs s.team (.go c)).isSome = true → (step cfg s a).isSome = true) (init cfg) as :=
  h.of_inv (Inv cfg) (init_inv hone) (fun _ _ _ hs hav hstep => step_inv hs hprocs hav hstep) fun s a hs hav => by
    rintro c k rfl hin hpc hteam
    obtain ⟨t, ht⟩ := Option.isSome_iff_exists.1 hteam
    exact hs.ask_answered hin hpc hav ht

def fourCores : Config := ⟨4, {}, 0⟩

/-- The slaves come to the dock, and the master ends the gather. -/
def opened : List Act := [.enter 1, .enter 2, .enter 3, .opening]

/-- `GOMP_parallel_start` by core `c`, up to the step after the release of `k - 1` slaves. -/
def parallelStart (c k : Nat) : List Act := .start c k :: List.replicate (5 + k) (.go c)

/-- A region of two, with a barrier. -/
def region : List Act :=
  opened ++ parallelStart 0 2 ++ [.barrier 1, .barrier 0, .dock 1, .finish 0] ++ List.replicate 7 (.go 0)

theorem hw_barrier_safe_region :
    Trans.Along (Trans.withHistory (step fourCores) (docked fourCores)) (Safe fourCores)
      (init fourCores, fun _ => false) region :=
  hw_barrier_safe (by decide) (by decide) (by decide +kernel)

/-- Core 0 has the events of the root team and of a region of two; its slave nests fourteen regions of one thread. So
all events are taken, and neither core holds them all. -/
def allTaken : List Act := opened ++ parallelStart 0 2 ++ (List.replicate 14 (parallelStart 1 1)).flatten

/-- The next region is formed without an event. -/
def sixteenTeams : List Act := allTaken ++ parallelStart 0 1

/-- In the next region there is a slave, which comes back to the dock and goes on. -/
def softwareTeam : List Act := allTaken ++ parallelStart 0 2 ++ [.dock 2, .go 2]

instance (x : State × (Nat → Bool)) : ∀ a, Decidable (HeldUntilReleased x a)
  | .go c => inferInstanceAs (Decidable (x.1.inside c = .flagged → x.2 c = false))
  | .enter _ | .opening | .barrier _ | .start _ _ | .finish _ | .dock _ => isTrue trivial

instance (x : State × (Nat → Bool)) : ∀ a, Decidable (AllGathered x a)
  | .go c =>
    match h : x.1.inside c with
    | .polling the_team i =>
      decidable_of_iff ((x.1.team.g.teams the_team).nthreads ≤ i → ∀ j < (x.1.team.g.teams the_team).nthreads, 1 ≤ j →
        x.2 ((x.1.team.g.teams the_team).proc_ids j) = true) (by simp only [AllGathered, h])
    | .no | .away | .late | .opening | .flagged | .clearing _ _ => isTrue (by simp only [AllGathered, h])
  | .enter _ | .opening | .barrier _ | .start _ _ | .finish _ | .dock _ => isTrue trivial

instance (x : State × (Nat → Bool)) (a : Act) : Decidable (Safe cfg x a) := inferInstanceAs (Decidable (_ → _))

/-- The sixteenth region releases its slaves with the id -1, and a slave of it leaves the dock before it is
released. -/
theorem not_safe_sixteenTeams :
    ¬ Trans.Along (Trans.withHistory (step fourCores) (docked fourCores)) (Safe fourCores)
      (init fourCores, fun _ => false) sixteenTeams ∧
    ¬ Trans.Along (Trans.withHistory (step fourCores) (docked fourCores)) (fun x a => HeldUntilReleased x a)
      (init fourCores, fun _ => false) softwareTeam := by
  decide +kernel

end VirtualSoc.Gomp.BarrierHws
