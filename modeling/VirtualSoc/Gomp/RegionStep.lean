import VirtualSoc.Gomp.RegionInv

/-!
# The steps of the parallel regions (libgomp/libgomp.c, parallel.c, team.c, config/vsoc/bar_sw.c)

Each step is one of `TeamAlloc` or leaves what it sees (`Sim`), and keeps the invariant. Most of them change the place
of one core and no word (`Inv.of_calm`); what a slave does at a barrier is `Inv.of_slave`.
-/

namespace VirtualSoc.Gomp.Region

open Mask Barrier TeamAlloc

section Steps

variable {barriers : Nat → Nat} {nprocs c d x T U i j q n : Nat} {s t : State} {w : Told} {p : Pc} {kind : Kind}

/-! ## The refinement -/

/-- What the step is for the allocation of teams. -/
def Sim (nprocs : Nat) (s t : State) : Prop :=
  t.abs nprocs = s.abs nprocs ∨ ∃ b, TeamAlloc.step nprocs (s.abs nprocs) b = some (t.abs nprocs)

/-- What every step of core `c` does. -/
structure Keeps (barriers : Nat → Nat) (nprocs c : Nat) (s t : State) : Prop where
  sim : Sim nprocs s t
  moves : Moves nprocs s t c
  inv : Inv barriers nprocs t

theorem Sim.alloc (h : Sim nprocs s t) (hs : Inv barriers nprocs s) (hprocs : nprocs ≤ 16) :
    TeamAlloc.Inv nprocs (t.abs nprocs) := by
  rcases h with h | ⟨b, hb⟩
  · exact h ▸ hs.alloc
  · exact TeamAlloc.step_inv hs.alloc (by omega) hb

/-- The state without the words after a move of core `c`. -/
theorem abs_of_move (hc : c < nprocs) (hpc : t.pc = Function.update s.pc c p)
    (hexit : ∀ x < nprocs, t.exit x = s.exit x) :
    t.abs nprocs = TeamAlloc.State.goto ⟨t.g, t.lock, s.absPc nprocs, t.opened, t.before, t.taken⟩ c
      (p.abs fun g => s.exit c == g) := by
  unfold State.abs
  rw [absPc_of_move hc hpc hexit]
  rfl

/-- A move that is the step `b` without the words. -/
theorem sim_step (hc : c < nprocs) (hpc : t.pc = Function.update s.pc c p) (hexit : ∀ x < nprocs, t.exit x = s.exit x)
    (b : TeamAlloc.Act)
    (h : TeamAlloc.step nprocs (s.abs nprocs) b = some (TeamAlloc.State.goto
      ⟨t.g, t.lock, s.absPc nprocs, t.opened, t.before, t.taken⟩ c (p.abs fun g => s.exit c == g))) : Sim nprocs s t :=
  Or.inr ⟨b, by rw [h, abs_of_move hc hpc hexit]⟩

/-- A move between places that are the same without the words. -/
theorem sim_stutter (hc : c < nprocs) (hpc : t.pc = Function.update s.pc c p)
    (hexit : ∀ x < nprocs, t.exit x = s.exit x) (hg : t.g = s.g) (hlock : t.lock = s.lock) (hop : t.opened = s.opened)
    (hbefore : t.before = s.before) (htaken : t.taken = s.taken)
    (hp : (p.abs fun g => s.exit c == g) = s.absPc nprocs c) : Sim nprocs s t := by
  refine Or.inl ?_
  rw [abs_of_move hc hpc hexit, hg, hlock, hop, hbefore, htaken, hp]
  unfold TeamAlloc.State.goto
  rw [Function.update_eq_self]
  rfl

/-! ## Places inside of a call -/

/-- Not waiting at a barrier, and not at the head of the worker loop. -/
def Pc.inside : Pc → Bool
  | .enter _ | .announce _ _ | .spin _ _ | .work => false
  | _ => true

theorem loose_inside (h : p.inside = true) : Loose s q T x n p ↔ s.flag x = 0 ∧ s.passed T x = n := by
  cases p <;> simp only [Pc.inside, Bool.false_eq_true] at h <;> rfl

theorem Obeys.inside (hs : (s.pc c).inside = true) (ht : (t.pc c).inside = true) (hflag : t.flag c = s.flag c)
    (hpassed : t.passed T c = s.passed T c) (h : Obeys s q T c w) : Obeys t q T c w := by
  cases w with
  | held kind n =>
    obtain ⟨g, hg, -⟩ := h
    rw [hg] at hs
    cases hs
  | loose n =>
    refine (loose_inside ht).2 ?_
    rw [hflag, hpassed]
    exact (loose_inside hs).1 h

/-- A place where a held thread cannot be. -/
theorem Obeys.loose (h : Obeys s q T x w) (hne : ∀ kind g, s.pc x = .spin kind g → s.exit x ≠ g) :
    ∃ n, w = .loose n ∧ Loose s q T x n (s.pc x) := by
  cases w with
  | held kind n =>
    obtain ⟨g, hg, he, -⟩ := h
    exact absurd he (hne kind g hg)
  | loose n => exact ⟨n, rfl, h⟩

/-- A core that is master of nothing and between two calls is at home in the team it works in. -/
theorem home_of_none (hlast : (s.opened c).getLast? = none) (hp : ∀ U, s.pc c ≠ .endSignal U ∧ s.pc c ≠ .unlink U) :
    s.home c = s.g.currTeam c := by
  unfold State.home
  rw [hlast]
  cases hpc : s.pc c with
  | endSignal U => exact absurd hpc (hp U).1
  | unlink U => exact absurd hpc (hp U).2
  | _ => rfl

theorem home_of_some {U : Nat} (hlast : (s.opened c).getLast? = some U) : s.home c = (s.taken U).outer := by
  unfold State.home
  rw [hlast]

theorem home_congr (hop : t.opened c = s.opened c) (houter : ∀ U ∈ s.opened c, (t.taken U).outer = (s.taken U).outer)
    (hcur : t.g.currTeam c = s.g.currTeam c)
    (hs : ∀ U, s.pc c ≠ .endSignal U ∧ s.pc c ≠ .unlink U) (ht : ∀ U, t.pc c ≠ .endSignal U ∧ t.pc c ≠ .unlink U) :
    t.home c = s.home c := by
  cases hlast : (s.opened c).getLast? with
  | some U =>
    rw [home_of_some hlast, home_of_some (by rw [hop, hlast])]
    exact houter U (List.mem_of_getLast? hlast)
  | none => rw [home_of_none hlast hs, home_of_none (by rw [hop, hlast]) ht, hcur]

/-- What core `c` writes when team `T` is formed. -/
def State.forms (s : State) (c T : Nat) (g' : Globals) : State :=
  { s with
    g := g'
    opened := Function.update s.opened c (T :: s.opened c)
    taken := Function.update s.taken T { s.taken T with bits := g'.threadPool &&& ~~~s.g.threadPool } }

@[simp] theorem forms_g (g' : Globals) : (s.forms c T g').g = g' := rfl
@[simp] theorem forms_opened (g' : Globals) :
    (s.forms c T g').opened = Function.update s.opened c (T :: s.opened c) := rfl
@[simp] theorem forms_taken (g' : Globals) : (s.forms c T g').taken =
    Function.update s.taken T { s.taken T with bits := g'.threadPool &&& ~~~s.g.threadPool } := rfl

namespace Inv

theorem active (hs : Inv barriers nprocs s) (h : s.absPc nprocs c ≠ .docked) : c ∈ bits s.g.threadPool :=
  (hs.alloc.cores c).active h

theorem inside_active (hs : Inv barriers nprocs s) (hc : c < nprocs) (h : (s.pc c).inside = true) :
    c ∈ bits s.g.threadPool := by
  refine hs.active ?_
  rw [absPc_self hc rfl]
  cases hp : s.pc c with
  | enter _ | announce _ _ | spin _ _ | work =>
    rw [hp] at h
    cases h
  | release kind _ _ | store kind _ _ _ | gather kind _ _ | reset kind _ _ => cases kind <;> exact fun h => nomatch h
  | _ => exact fun h => nomatch h

/-- The current team of a slave that has no region open is the one that it is in. -/
theorem current_of_slave (hs : Inv barriers nprocs s) (hT : T ∈ s.opened d) (hx : c ∈ (s.g.teams T).slaves)
    (hop : s.opened c = []) (hcalls : ∀ U, s.pc c ≠ .endSignal U ∧ s.pc c ≠ .unlink U) : s.g.currTeam c = some T := by
  have hhome := hs.home d T hT c hx
  unfold State.home at hhome
  rw [hop] at hhome
  revert hhome
  cases hp : s.pc c with
  | endSignal U => exact absurd hp (hcalls U).1
  | unlink U => exact absurd hp (hcalls U).2
  | _ => exact id

/-- A core at work, other than the first one, that has no region open is in a team. -/
theorem team_of_closed (hs : Inv barriers nprocs s) (hc : c ∈ bits s.g.threadPool) (hc0 : c ≠ MASTER_ID)
    (hop : s.opened c = []) (hcalls : ∀ U, s.pc c ≠ .endSignal U ∧ s.pc c ≠ .unlink U) :
    ∃ d, ∃ T ∈ s.opened d, c ∈ (s.g.teams T).slaves ∧ s.g.currTeam c = some T := by
  obtain ⟨d, T, hT, hx⟩ := hs.owned c hc hc0
  exact ⟨d, T, hT, hx, hs.current_of_slave hT hx hop hcalls⟩

theorem of_calm (hs : Inv barriers nprocs s) (hm : Moves nprocs s t c) (hc : c < nprocs)
    (hin : (s.pc c).inside = true) (hin' : (t.pc c).inside = true) (hmem : t.mem = s.mem)
    (hop : t.opened c = s.opened c) (hpassed : ∀ d, ∀ T ∈ s.opened d, ∀ x, t.passed T x = s.passed T x)
    (hpool : t.g.threadPool = s.g.threadPool) (halloc : TeamAlloc.Inv nprocs (t.abs nprocs))
    (hplace : PcOk barriers t c (t.pc c)) (hhome : t.home c = s.home c)
    (htold : ∀ T ∈ s.opened c, ∀ j, 1 ≤ j → j < (s.g.teams T).nthreads →
      (t.pc c).told T (s.passed T c) j = (s.pc c).told T (s.passed T c) j) : Inv barriers nprocs t := by
  have hexit : t.exit = s.exit := funext fun x => congrFun hmem _
  have hflag : t.flag = s.flag := funext fun x => congrFun hmem _
  refine hs.of_moves hm (hs.inside_active hc hin) halloc hplace hhome (fun d T hT w _ h => ?_) (fun T hT j hj1 hj => ?_)
    (fun T hT => ?_) (fun x _ hx => ?_) (fun x hx hx0 => ?_)
  · exact h.inside hin hin' (congrFun hflag c) (hpassed d T hT c)
  · rw [hop] at hT
    obtain ⟨hn, hids, -⟩ := hm.teams c T hT
    rw [hn] at hj
    have h := hs.obeys c T hT j hj1 hj
    rw [hids, hm.quota hT, hpassed c T hT, htold T hT j hj1 hj]
    have hne := hs.slave_ne hT (Team.Formed.slave hj1 hj)
    exact h.congr (hm.pc _ hne) (congrFun hexit _) (congrFun hflag _) (hpassed c T hT _)
  · rw [hop] at hT
    exact Or.inl hT
  · rw [hpool] at hx
    exact Or.inl hx
  · rw [hpool] at hx
    obtain ⟨d, T, hT, hxT⟩ := hs.owned x hx hx0
    refine ⟨d, T, ?_, by rw [hm.slaves hT]; exact hxT⟩
    by_cases hd : d = c
    · subst hd
      rw [hop]
      exact hT
    · rw [hm.opened d hd]
      exact hT

/-- A slave at a barrier, or between its task and the dock: its place changes and its own flag and count. -/
theorem of_slave (hs : Inv barriers nprocs s) (hc : c ∈ bits s.g.threadPool) (hop : s.opened c = [])
    (hpc : t.pc = Function.update s.pc c p) (hg : t.g = s.g) (htask : t.task = s.task) (hopened : t.opened = s.opened)
    (htaken : t.taken = s.taken) (hexit : ∀ x < nprocs, t.exit x = s.exit x)
    (hflag : ∀ x ≠ c, t.flag x = s.flag x) (hmine : s.flag c ≠ 0 → t.flag c ≠ 0)
    (hpassed : ∀ T x, t.passed T x = s.passed T x ∨ x = c ∧ ∃ d, T ∈ s.opened d)
    (hsim : Sim nprocs s t) (hprocs : nprocs ≤ 16) (hplace : PcOk barriers t c p)
    (hcalls : ∀ U, s.pc c ≠ .endSignal U ∧ s.pc c ≠ .unlink U) (hcalls' : ∀ U, p ≠ .endSignal U ∧ p ≠ .unlink U)
    (hslave : ∀ d, ∀ T ∈ s.opened d, ∀ w, c ∈ (s.g.teams T).slaves → s.g.currTeam c = some T →
      Obeys s (quota barriers s T) T c w → Obeys t (quota barriers s T) T c w) : Keeps barriers nprocs c s t := by
  have hself : t.pc c = p := by rw [hpc, Function.update_self]
  have hm : Moves nprocs s t c := by
    refine ⟨fun d hd => ?_, fun d _ => by rw [hopened], fun d T _ => ?_, fun T _ => by rw [htaken], fun d _ _ => by rw [hg],
      fun x hx hxc => Or.inl ⟨hexit x hx, hflag x hxc⟩, hexit c (hs.alloc.pool c hc), hmine, fun T _ x => hpassed T x⟩
    · rw [hpc, Function.update_of_ne hd]
    · rw [hg, htask]
      exact ⟨rfl, rfl, rfl⟩
  refine ⟨hsim, hm, hs.of_moves hm hc (hsim.alloc hs hprocs) (hself.symm ▸ hplace) ?_ (fun d T hT w hx h => ?_)
    (fun T hT => ?_) (fun T hT => ?_) (fun x _ hx => ?_) (fun x hx hx0 => ?_)⟩
  · refine home_congr (by rw [hopened]) (fun U _ => by rw [htaken]) (by rw [hg]) hcalls ?_
    rw [hself]
    exact hcalls'
  · exact hslave d T hT w hx (hs.current_of_slave hT hx hop hcalls) h
  · rw [hopened, hop] at hT
    cases hT
  · rw [hopened, hop] at hT
    cases hT
  · rw [hg] at hx
    exact Or.inl hx
  · rw [hg, hopened] at *
    exact hs.owned x hx hx0

/-- A step inside of a call that changes no descriptor. -/
theorem of_goto (hs : Inv barriers nprocs s) (hprocs : nprocs ≤ 16) (hc : c < nprocs) (hin : (s.pc c).inside = true)
    (hp : p.inside = true) (hpc : t.pc = Function.update s.pc c p) (hg : t.g = s.g) (htask : t.task = s.task)
    (hmem : t.mem = s.mem) (hpassed : t.passed = s.passed) (hopened : t.opened = s.opened) (htaken : t.taken = s.taken)
    (hsim : Sim nprocs s t) (hplace : PcOk barriers t c p) (hhome : t.home c = s.home c)
    (htold : ∀ T ∈ s.opened c, ∀ j, 1 ≤ j → j < (s.g.teams T).nthreads →
      p.told T (s.passed T c) j = (s.pc c).told T (s.passed T c) j) : Keeps barriers nprocs c s t := by
  have hself : t.pc c = p := by rw [hpc, Function.update_self]
  have hm : Moves nprocs s t c := by
    refine ⟨fun d hd => ?_, fun d _ => by rw [hopened], fun d T _ => ?_, fun T _ => by rw [htaken], fun d _ _ => by rw [hg],
      fun x _ _ => Or.inl ⟨congrFun hmem _, congrFun hmem _⟩, congrFun hmem _, fun h => ?_, fun T _ x => Or.inl ?_⟩
    · rw [hpc, Function.update_of_ne hd]
    · rw [hg, htask]
      exact ⟨rfl, rfl, rfl⟩
    · rwa [State.flag, hmem]
    · rw [hpassed]
  refine ⟨hsim, hm, hs.of_calm hm hc hin (by rw [hself]; exact hp) hmem (by rw [hopened]) (fun _ _ _ _ => by rw [hpassed])
    (by rw [hg]) (hsim.alloc hs hprocs) (by rw [hself]; exact hplace) hhome ?_⟩
  rw [hself]
  exact htold

/-! ## User code -/

/-- A thread that has no region open is a slave of its current team. -/
theorem team_of_slave (hs : Inv barriers nprocs s) (hc : c < nprocs) (hpc : s.pc c = .running) (hc0 : c ≠ MASTER_ID)
    (hop : s.opened c = []) (hT : s.g.currTeam c = some T) : ∃ d, T ∈ s.opened d ∧ c ∈ (s.g.teams T).slaves := by
  obtain ⟨d, U, hU, hx, hcur⟩ := hs.team_of_closed (hs.inside_active hc (by rw [hpc]; rfl)) hc0 hop fun U => by simp [hpc]
  obtain rfl : T = U := Option.some.inj (hT.symm.trans hcur)
  exact ⟨d, hU, hx⟩

/-- The current team of a core that has regions open is the last of them. -/
theorem team_of_master (hs : Inv barriers nprocs s) (hc : c < nprocs) (hpc : s.pc c = .running)
    (hop : s.opened c ≠ []) (hT : s.g.currTeam c = some T) : (s.opened c).head? = some T := by
  obtain ⟨U, hU⟩ := Option.isSome_iff_exists.1 (List.isSome_head?.2 hop)
  have hlinked := hs.alloc.at (absPc_self hc hpc)
  have := hlinked U hU
  obtain rfl : T = U := Option.some.inj (hT.symm.trans this)
  exact hU

theorem start (hs : Inv barriers nprocs s) (hprocs : nprocs ≤ 16) (hc : c < nprocs) (hpc : s.pc c = .running)
    (fn data specified : Nat) :
    Keeps barriers nprocs c s
      ({ s with before := Function.update s.before c (s.g.currTeam c) }.goto c (.startWait fn data specified)) := by
  refine hs.of_goto hprocs hc (by rw [hpc]; rfl) rfl rfl rfl rfl rfl rfl rfl rfl
    (sim_step hc rfl (fun _ _ => rfl) (.start c specified) ?_) trivial ?_ fun T _ j _ _ => by rw [hpc]; rfl
  · simp only [TeamAlloc.step, State.abs, absPc_self hc hpc, Pc.abs, if_true]
    rfl
  · exact home_congr rfl (fun _ _ => rfl) rfl (fun U => by simp [hpc]) fun U => by simp

theorem finish (hs : Inv barriers nprocs s) (hprocs : nprocs ≤ 16) (hc : c < nprocs) (hpc : s.pc c = .running)
    (hop : s.opened c ≠ []) (hT : s.g.currTeam c = some T) (hq : s.passed T c = quota barriers s T) :
    Keeps barriers nprocs c s (s.goto c (.gather .dock T 1)) := by
  refine hs.of_goto hprocs hc (by rw [hpc]; rfl) rfl rfl rfl rfl rfl rfl rfl rfl
    (sim_step hc rfl (fun _ _ => rfl) (.finish c) ?_) ⟨hs.team_of_master hc hpc hop hT, Nat.le_refl 1, hq⟩ ?_ fun U _ j hj1 _ => ?_
  · simp only [TeamAlloc.step, State.abs, absPc_self hc hpc, Pc.abs]
    rw [if_pos ⟨trivial, hop⟩, hT]
    rfl
  · exact home_congr rfl (fun _ _ => rfl) rfl (fun U => by simp [hpc]) fun U => by simp
  · rw [hpc]
    exact if_neg fun h => absurd h.2 (by omega)

/-- The master of a team comes to a barrier. -/
theorem barrierMaster (hs : Inv barriers nprocs s) (hprocs : nprocs ≤ 16) (hc : c < nprocs) (hpc : s.pc c = .running)
    (hcall : c ≠ MASTER_ID ∨ s.opened c ≠ []) (hT : s.g.currTeam c = some T)
    (hq : s.passed T c < quota barriers s T) (hmaster : c = (s.g.teams T).proc_ids 0) :
    Keeps barriers nprocs c s (s.goto c (.gather .barrier T 1)) := by
  have hop : s.opened c ≠ [] := by
    intro hop
    obtain ⟨d, hd, hx⟩ := hs.team_of_slave hc hpc (hcall.resolve_right fun h => h hop) hop hT
    exact hs.slave_ne hd hx (hmaster.trans (hs.formed hd).master)
  refine hs.of_goto hprocs hc (by rw [hpc]; rfl) rfl rfl rfl rfl rfl rfl rfl rfl ?_
    ⟨hs.team_of_master hc hpc hop hT, Nat.le_refl 1, hq⟩ ?_ fun U _ j hj1 _ => ?_
  · exact sim_stutter hc rfl (fun _ _ => rfl) rfl rfl rfl rfl rfl (absPc_self hc hpc).symm
  · exact home_congr rfl (fun _ _ => rfl) rfl (fun U => by simp [hpc]) fun U => by simp
  · rw [hpc]
    exact if_neg fun h => absurd h.2 (by omega)

/-- A thread of a team goes to a barrier, or to the dock. -/
theorem arrive (hs : Inv barriers nprocs s) (hprocs : nprocs ≤ 16) (hc : c < nprocs) (hpc : s.pc c = .running)
    (hc0 : c ≠ MASTER_ID) (hop : s.opened c = []) (hT : s.g.currTeam c = some T)
    (hdue : Due (quota barriers s T) (s.passed T c) kind) : Keeps barriers nprocs c s (s.goto c (.enter kind)) := by
  have hsim : Sim nprocs s (s.goto c (.enter kind)) :=
    sim_stutter hc rfl (fun _ _ => rfl) rfl rfl rfl rfl rfl (absPc_self hc hpc).symm
  refine hs.of_slave (hs.inside_active hc (by rw [hpc]; rfl)) hop rfl rfl rfl rfl rfl (fun _ _ => rfl)
    (fun _ _ => rfl) id (fun _ _ => Or.inl rfl) hsim hprocs ⟨hc0, hop⟩ (fun U => by simp [hpc]) (fun U => by simp)
    fun d U hU w hx hcur h => ?_
  obtain rfl : T = U := Option.some.inj (hT.symm.trans hcur)
  obtain ⟨n, rfl, hloose⟩ := h.loose fun kind g h => by rw [hpc] at h; cases h
  obtain ⟨hf, hn⟩ := (loose_inside (by rw [hpc]; rfl)).1 hloose
  subst hn
  simp only [Obeys, goto_pc_self]
  exact ⟨hf, rfl, hdue⟩

/-- The master of a team or one of its slaves comes to a barrier. -/
theorem barrier (hs : Inv barriers nprocs s) (hprocs : nprocs ≤ 16) (hc : c < nprocs) (hpc : s.pc c = .running)
    (hcall : c ≠ MASTER_ID ∨ s.opened c ≠ []) (hT : s.g.currTeam c = some T)
    (hq : s.passed T c < quota barriers s T) (hslave : c ≠ (s.g.teams T).proc_ids 0) :
    Keeps barriers nprocs c s (s.goto c (.enter .barrier)) := by
  have hop : s.opened c = [] := by
    by_contra hop
    have hhead := hs.team_of_master hc hpc hop hT
    exact hslave (hs.formed (List.mem_of_head? hhead)).master.symm
  exact hs.arrive hprocs hc hpc (hcall.resolve_right fun h => h hop) hop hT hq

/-! ## `MSGBarrier_SlaveEnter` and the worker loop -/

/-- The slave samples its counter. -/
theorem enter (hs : Inv barriers nprocs s) (hprocs : nprocs ≤ 16) (hc : c < nprocs) (hpc : s.pc c = .enter kind) :
    Keeps barriers nprocs c s (s.goto c (.announce kind (s.exit c))) := by
  obtain ⟨hc0, hop⟩ : c ≠ MASTER_ID ∧ s.opened c = [] := by
    have h := hs.places c hc
    rwa [hpc] at h
  have habs := absPc_self hc hpc
  have hsim : Sim nprocs s (s.goto c (.announce kind (s.exit c))) :=
    sim_stutter hc rfl (fun _ _ => rfl) rfl rfl rfl rfl rfl habs.symm
  refine hs.of_slave (hs.active (by rw [habs]; exact fun h => nomatch h)) hop rfl rfl rfl rfl rfl (fun _ _ => rfl)
    (fun _ _ => rfl) id (fun _ _ => Or.inl rfl) hsim hprocs ⟨hc0, hop⟩ (fun U => by simp [hpc]) (fun U => by simp)
    fun d U hU w hx hcur h => ?_
  obtain ⟨n, rfl, hloose⟩ := h.loose fun kind g h => by rw [hpc] at h; cases h
  rw [hpc] at hloose
  simp only [Obeys, goto_pc_self]
  exact ⟨rfl, hloose⟩

/-- The slave sets its flag; at the dock it is docked from here on. -/
theorem announce (hs : Inv barriers nprocs s) (hprocs : nprocs ≤ 16) (hc : c < nprocs) {g : Int32}
    (hpc : s.pc c = .announce kind g) : Keeps barriers nprocs c s ((s.setFlag c 1).goto c (.spin kind g)) := by
  obtain ⟨hc0, hop⟩ : c ≠ MASTER_ID ∧ s.opened c = [] := by
    have h := hs.places c hc
    rwa [hpc] at h
  have habs := absPc_self hc hpc
  have hpool := hs.active (by rw [habs]; exact fun h => nomatch h)
  have hexit : ∀ x < nprocs, ((s.setFlag c 1).goto c (.spin kind g)).exit x = s.exit x :=
    fun x hx => setFlag_exit (Nat.lt_of_lt_of_le hx hprocs)
  -- the counter is still the one sampled, since the slave is in a team that does not hold it
  have hsample : s.exit c = g := by
    obtain ⟨d, T, hT, hx⟩ := hs.owned c hpool hc0
    obtain ⟨j, ⟨hj1, hj⟩, rfl⟩ := Team.mem_slaves.1 hx
    obtain ⟨n, -, hloose⟩ := (hs.obeys d T hT j hj1 hj).loose fun kind g h => by rw [hpc] at h; cases h
    rw [hpc] at hloose
    exact hloose.1
  have hsim : Sim nprocs s ((s.setFlag c 1).goto c (.spin kind g)) := by
    cases kind with
    | barrier => exact sim_stutter hc rfl hexit rfl rfl rfl rfl rfl habs.symm
    | dock =>
      refine sim_step hc rfl hexit (.dock c) ?_
      have hdocked : (Pc.spin .dock g).abs (fun h => s.exit c == h) = .docked := by simp [Pc.abs, hsample]
      rw [hdocked]
      simp only [TeamAlloc.step, State.abs, habs, Pc.abs]
      rw [if_pos ⟨trivial, hc0, hop⟩]
      rfl
  refine hs.of_slave hpool hop rfl rfl rfl rfl rfl hexit (fun x hx => setFlag_flag_ne hx) (fun _ => ?_)
    (fun _ _ => Or.inl rfl) hsim hprocs ⟨hc0, hop⟩ (fun U => by simp [hpc]) (fun U => by simp)
    fun d U hU w hx hcur h => ?_
  · rw [goto_flag, setFlag_flag_self]
    decide
  · obtain ⟨n, rfl, hloose⟩ := h.loose fun kind g h => by rw [hpc] at h; cases h
    rw [hpc] at hloose
    obtain ⟨h1, -, h3, h4⟩ := hloose
    simp only [Obeys, goto_pc_self]
    refine Or.inl ⟨(hexit c hc).trans h1, ?_, h3, h4⟩
    rw [goto_flag, setFlag_flag_self]
    decide

/-- What a slave knows when it sees that its counter has moved. -/
theorem released (hs : Inv barriers nprocs s) (hc : c < nprocs) {g : Int32} (hpc : s.pc c = .spin kind g)
    (hne : s.exit c ≠ g) :
    c ∈ bits s.g.threadPool ∧ c ≠ MASTER_ID ∧ s.opened c = [] ∧ s.absPc nprocs c = .running ∧
      ∀ q d, ∀ T ∈ s.opened d, ∀ w, c ∈ (s.g.teams T).slaves → Obeys s q T c w →
        ∃ n, w = .loose n ∧ s.flag c = 0 ∧ s.passed T c + passes kind = n ∧ (kind = .dock → n = 0) := by
  obtain ⟨hc0, hop⟩ : c ≠ MASTER_ID ∧ s.opened c = [] := by
    have h := hs.places c hc
    rwa [hpc] at h
  have hpool : c ∈ bits s.g.threadPool := by
    by_contra hc'
    obtain ⟨g', hg', he, -⟩ := hs.free c hc hc'
    rw [hpc] at hg'
    cases hg'
    exact hne he
  refine ⟨hpool, hc0, hop, ?_, fun q d T hT w hx h => ?_⟩
  · rw [absPc_self hc hpc]
    cases kind with
    | barrier => rfl
    | dock => simp [Pc.abs, hne]
  · obtain ⟨n, rfl, hloose⟩ := h.loose fun kind' g' h' => by rw [hpc] at h'; cases h'; exact hne
    rw [hpc] at hloose
    rcases hloose with ⟨he, -⟩ | ⟨-, h2, h3, h4⟩
    · exact absurd he hne
    · exact ⟨n, rfl, h2, h3, h4⟩

/-- The slave leaves the dock. -/
theorem leaveDock (hs : Inv barriers nprocs s) (hprocs : nprocs ≤ 16) (hc : c < nprocs) {g : Int32}
    (hpc : s.pc c = .spin .dock g) (hne : s.exit c ≠ g) : Keeps barriers nprocs c s (s.goto c .work) := by
  obtain ⟨hpool, hc0, hop, habs, hloose⟩ := hs.released hc hpc hne
  have hsim : Sim nprocs s (s.goto c .work) := sim_stutter hc rfl (fun _ _ => rfl) rfl rfl rfl rfl rfl habs.symm
  refine hs.of_slave hpool hop rfl rfl rfl rfl rfl (fun _ _ => rfl) (fun _ _ => rfl) id (fun _ _ => Or.inl rfl)
    hsim hprocs ⟨hc0, hop⟩ (fun U => by simp [hpc]) (fun U => by simp) fun d U hU w hx hcur h => ?_
  obtain ⟨n, rfl, hf, hn, h0⟩ := hloose _ d U hU w hx h
  simp only [Obeys, goto_pc_self]
  exact ⟨hf, hn, h0 rfl⟩

/-- The slave leaves a barrier. -/
theorem leaveBarrier (hs : Inv barriers nprocs s) (hprocs : nprocs ≤ 16) (hc : c < nprocs) {g : Int32}
    (hpc : s.pc c = .spin .barrier g) (hne : s.exit c ≠ g) (hT : s.g.currTeam c = some T) :
    Keeps barriers nprocs c s ((s.pass T c).goto c .running) := by
  obtain ⟨hpool, hc0, hop, habs, hloose⟩ := hs.released hc hpc hne
  have hsim : Sim nprocs s ((s.pass T c).goto c .running) :=
    sim_stutter hc rfl (fun _ _ => rfl) rfl rfl rfl rfl rfl habs.symm
  -- the current team is the one that it is a slave of
  obtain ⟨e, he⟩ : ∃ e, T ∈ s.opened e := by
    obtain ⟨e, U, hU, -, hcur⟩ := hs.team_of_closed hpool hc0 hop fun U => by simp [hpc]
    exact ⟨e, Option.some.inj (hT.symm.trans hcur) ▸ hU⟩
  refine hs.of_slave hpool hop rfl rfl rfl rfl rfl (fun _ _ => rfl) (fun _ _ => rfl) id (fun U x => ?_)
    hsim hprocs trivial (fun U => by simp [hpc]) (fun U => by simp) fun d U hU w hx hcur h => ?_
  · by_cases hU : U = T
    · subst hU
      by_cases hx : x = c
      · exact Or.inr ⟨hx, e, he⟩
      · exact Or.inl (by simp [State.pass, hx])
    · exact Or.inl (by simp [State.pass, hU])
  · obtain rfl : T = U := Option.some.inj (hT.symm.trans hcur)
    obtain ⟨n, rfl, hf, hn, -⟩ := hloose _ d T hU w hx h
    simp only [Obeys, goto_pc_self]
    refine ⟨hf, ?_⟩
    simp only [State.pass, goto_passed, Function.update_self]
    exact hn

/-- The slave calls the task of its team. -/
theorem work (hs : Inv barriers nprocs s) (hprocs : nprocs ≤ 16) (hc : c < nprocs) (hpc : s.pc c = .work) :
    Keeps barriers nprocs c s (s.goto c .running) := by
  obtain ⟨hc0, hop⟩ : c ≠ MASTER_ID ∧ s.opened c = [] := by
    have h := hs.places c hc
    rwa [hpc] at h
  have habs := absPc_self hc hpc
  have hsim : Sim nprocs s (s.goto c .running) := sim_stutter hc rfl (fun _ _ => rfl) rfl rfl rfl rfl rfl habs.symm
  refine hs.of_slave (hs.active (by rw [habs]; exact fun h => nomatch h)) hop rfl rfl rfl rfl rfl (fun _ _ => rfl)
    (fun _ _ => rfl) id (fun _ _ => Or.inl rfl) hsim hprocs trivial (fun U => by simp [hpc]) (fun U => by simp)
    fun d U hU w hx hcur h => ?_
  obtain ⟨n, rfl, hloose⟩ := h.loose fun kind g h => by rw [hpc] at h; cases h
  rw [hpc] at hloose
  simp only [Obeys, goto_pc_self]
  exact ⟨hloose.1, hloose.2.1⟩

/-! ## The loops of the master -/

theorem release (hs : Inv barriers nprocs s) (hprocs : nprocs ≤ 16) (hc : c < nprocs) (hpc : s.pc c = .release kind T i)
    (hi : i < (s.g.teams T).nthreads) :
    Keeps barriers nprocs c s (s.goto c (.store kind T i (s.exit ((s.g.teams T).proc_ids i)))) := by
  obtain ⟨h1, h2, h3⟩ : PcOk barriers s c (.release kind T i) := hpc ▸ hs.places c hc
  refine hs.of_goto hprocs hc (by rw [hpc]; rfl) rfl rfl rfl rfl rfl rfl rfl rfl ?_ ⟨h1, h2, h3, hi, rfl⟩ ?_
    fun U _ j _ _ => by rw [hpc]; rfl
  · refine sim_stutter hc rfl (fun _ _ => rfl) rfl rfl rfl rfl rfl ?_
    rw [absPc_self hc hpc]
    cases kind <;> rfl
  · exact home_congr rfl (fun _ _ => rfl) rfl (fun U => by simp [hpc]) fun U => by simp

/-- The master leaves the release of the dock. -/
theorem releaseDock (hs : Inv barriers nprocs s) (hprocs : nprocs ≤ 16) (hc : c < nprocs)
    (hpc : s.pc c = .release .dock T i) (hi : ¬ i < (s.g.teams T).nthreads) :
    Keeps barriers nprocs c s (s.goto c .running) := by
  refine hs.of_goto hprocs hc (by rw [hpc]; rfl) rfl rfl rfl rfl rfl rfl rfl rfl
    (sim_step hc rfl (fun _ _ => rfl) (.go c) ?_) trivial ?_ fun U hU j _ hj => ?_
  · have hat : (s.abs nprocs).pc c = .release T i := absPc_self hc hpc
    have hn : ¬ i < ((s.abs nprocs).g.teams T).nthreads := hi
    simp only [TeamAlloc.step, TeamAlloc.stepGo, hat, if_neg hn]
    rfl
  · exact home_congr rfl (fun _ _ => rfl) rfl (fun U => by simp [hpc]) fun U => by simp
  · rw [hpc]
    simp only [Pc.told]
    split
    · rename_i h
      subst h
      rw [if_pos (by omega)]
      rfl
    · rfl

theorem gather (hs : Inv barriers nprocs s) (hprocs : nprocs ≤ 16) (hc : c < nprocs) (hpc : s.pc c = .gather kind T i)
    (hi : i < (s.g.teams T).nthreads) (hf : s.flag ((s.g.teams T).proc_ids i) ≠ 0) :
    Keeps barriers nprocs c s (s.goto c (.reset kind T i)) := by
  obtain ⟨h1, h2, h3⟩ : PcOk barriers s c (.gather kind T i) := hpc ▸ hs.places c hc
  refine hs.of_goto hprocs hc (by rw [hpc]; rfl) rfl rfl rfl rfl rfl rfl rfl rfl ?_ ⟨h1, h2, h3, hi, hf⟩ ?_
    fun U _ j _ _ => by rw [hpc]; rfl
  · refine sim_stutter hc rfl (fun _ _ => rfl) rfl rfl rfl rfl rfl ?_
    rw [absPc_self hc hpc]
    cases kind <;> rfl
  · exact home_congr rfl (fun _ _ => rfl) rfl (fun U => by simp [hpc]) fun U => by simp

/-- All threads are gathered at a barrier. -/
theorem gatherBarrier (hs : Inv barriers nprocs s) (hprocs : nprocs ≤ 16) (hc : c < nprocs)
    (hpc : s.pc c = .gather .barrier T i) (hi : ¬ i < (s.g.teams T).nthreads) :
    Keeps barriers nprocs c s (s.goto c (.release .barrier T 1)) := by
  obtain ⟨h1, -, -⟩ : PcOk barriers s c (.gather .barrier T i) := hpc ▸ hs.places c hc
  refine hs.of_goto hprocs hc (by rw [hpc]; rfl) rfl rfl rfl rfl rfl rfl rfl rfl ?_
    ⟨h1, Nat.le_refl 1, fun h => nomatch h⟩ ?_ fun U hU j hj1 hj => ?_
  · exact sim_stutter hc rfl (fun _ _ => rfl) rfl rfl rfl rfl rfl (absPc_self hc hpc).symm
  · exact home_congr rfl (fun _ _ => rfl) rfl (fun U => by simp [hpc]) fun U => by simp
  · rw [hpc]
    simp only [Pc.told]
    by_cases hTU : T = U
    · subst hTU
      rw [if_pos rfl, if_neg (by omega), if_pos ⟨rfl, by omega⟩]
    · rw [if_neg hTU, if_neg fun h => hTU h.1]

/-- All threads are gathered at the dock. -/
theorem gatherDock (hs : Inv barriers nprocs s) (hprocs : nprocs ≤ 16) (hc : c < nprocs)
    (hpc : s.pc c = .gather .dock T i) (hi : ¬ i < (s.g.teams T).nthreads) :
    s.g.currTeam c = some T ∧ Keeps barriers nprocs c s (s.goto c (.endWait T)) := by
  have hcur : s.g.currTeam c = some T := (hs.alloc.at (absPc_self hc hpc)).2.1
  refine ⟨hcur, hs.of_goto hprocs hc (by rw [hpc]; rfl) rfl rfl rfl rfl rfl rfl rfl rfl
    (sim_step hc rfl (fun _ _ => rfl) (.go c) ?_) trivial ?_ fun U hU j _ hj => ?_⟩
  · have hat : (s.abs nprocs).pc c = .gather T i := absPc_self hc hpc
    have hn : ¬ i < ((s.abs nprocs).g.teams T).nthreads := hi
    have hcur' : (s.abs nprocs).g.currTeam c = some T := hcur
    simp only [TeamAlloc.step, TeamAlloc.stepGo, hat, if_neg hn, hcur', Option.map_some]
    rfl
  · exact home_congr rfl (fun _ _ => rfl) rfl (fun U => by simp [hpc]) fun U => by simp
  · rw [hpc]
    simp only [Pc.told]
    by_cases hTU : T = U
    · subst hTU
      rw [if_pos rfl, if_pos ⟨rfl, by omega⟩]
    · rw [if_neg hTU, if_neg fun h => hTU h.1]

/-- A step of the master that touches the words of thread `i` of team `T`. -/
theorem of_thread (hs : Inv barriers nprocs s) (hprocs : nprocs ≤ 16) (hc : c < nprocs) (hin : (s.pc c).inside = true)
    (hp : p.inside = true) (hpc : t.pc = Function.update s.pc c p) (hg : t.g = s.g) (htask : t.task = s.task)
    (hpassed : t.passed = s.passed) (hopened : t.opened = s.opened) (htaken : t.taken = s.taken)
    (hT : T ∈ s.opened c) (hi1 : 1 ≤ i) (hi : i < (s.g.teams T).nthreads)
    (hwords : ∀ x < nprocs, x ≠ (s.g.teams T).proc_ids i → t.exit x = s.exit x ∧ t.flag x = s.flag x)
    (hsim : Sim nprocs s t) (hplace : PcOk barriers t c p) (hhome : t.home c = s.home c)
    (hothers : ∀ U j, U ≠ T → p.told U (s.passed U c) j = (s.pc c).told U (s.passed U c) j)
    (hrest : ∀ j, j ≠ i → p.told T (s.passed T c) j = (s.pc c).told T (s.passed T c) j)
    (hthread : ∀ q, Obeys s q T ((s.g.teams T).proc_ids i) ((s.pc c).told T (s.passed T c) i) →
      Obeys t q T ((s.g.teams T).proc_ids i) (p.told T (s.passed T c) i)) : Keeps barriers nprocs c s t := by
  have hself : t.pc c = p := by rw [hpc, Function.update_self]
  have hx : (s.g.teams T).proc_ids i ∈ (s.g.teams T).slaves := Team.Formed.slave hi1 hi
  have hxc := hs.slave_ne hT hx
  obtain ⟨hexit, hflag⟩ := hwords c hc hxc.symm
  have hm : Moves nprocs s t c := by
    refine ⟨fun d hd => ?_, fun d _ => by rw [hopened], fun d T _ => ?_, fun T _ => by rw [htaken], fun d _ _ => by rw [hg],
      fun x hlt _ => ?_, hexit, fun h => by rwa [hflag], fun T _ x => Or.inl (by rw [hpassed])⟩
    · rw [hpc, Function.update_of_ne hd]
    · rw [hg, htask]
      exact ⟨rfl, rfl, rfl⟩
    · by_cases hxi : x = (s.g.teams T).proc_ids i
      · exact Or.inr ⟨T, hT, hxi ▸ hx⟩
      · exact Or.inl (hwords x hlt hxi)
  refine ⟨hsim, hm, hs.of_moves hm (hs.inside_active hc hin) (hsim.alloc hs hprocs) (by rw [hself]; exact hplace) hhome
    (fun d U hU w _ h => ?_) (fun U hU j hj1 hj => ?_) (fun U hU => ?_) (fun x _ hx => ?_) fun x hx hx0 => ?_⟩
  · exact h.inside hin (by rw [hself]; exact hp) hflag (by rw [hpassed])
  · rw [hopened] at hU
    obtain ⟨hn, hids, -⟩ := hm.teams c U hU
    rw [hn] at hj
    have hy : (s.g.teams U).proc_ids j ∈ (s.g.teams U).slaves := Team.Formed.slave hj1 hj
    have hyc := hs.slave_ne hU hy
    have h := hs.obeys c U hU j hj1 hj
    rw [hids, hm.quota hU, hpassed, hself]
    by_cases hUT : U = T
    · subst hUT
      by_cases hji : j = i
      · subst hji
        exact hthread _ h
      · have hne : (s.g.teams U).proc_ids j ≠ (s.g.teams U).proc_ids i := fun he => hji ((hs.formed hT).inj hj hi he)
        obtain ⟨h1, h2⟩ := hwords _ (hs.slave_lt hU hy) hne
        rw [hrest j hji]
        exact h.congr (hm.pc _ hyc) h1 h2 (by rw [hpassed])
    · have hne : (s.g.teams U).proc_ids j ≠ (s.g.teams T).proc_ids i := by
        intro he
        exact Finset.disjoint_left.1 (hs.alloc.disjoint c c U T hU hT hUT) hy (he ▸ hx)
      obtain ⟨h1, h2⟩ := hwords _ (hs.slave_lt hU hy) hne
      rw [hothers U j hUT]
      exact h.congr (hm.pc _ hyc) h1 h2 (by rw [hpassed])
  · rw [hopened] at hU
    exact Or.inl hU
  · rw [hg] at hx
    exact Or.inl hx
  · rw [hg, hopened] at *
    exact hs.owned x hx hx0

/-- Thread `i` is released. -/
theorem store (hs : Inv barriers nprocs s) (hprocs : nprocs ≤ 16) (hc : c < nprocs) {exit : Int32}
    (hpc : s.pc c = .store kind T i exit) :
    Keeps barriers nprocs c s
      ((s.setExit ((s.g.teams T).proc_ids i) (exit + 1)).goto c (.release kind T (i + 1))) := by
  obtain ⟨h1, h2, h3, h4, h5⟩ : PcOk barriers s c (.store kind T i exit) := hpc ▸ hs.places c hc
  have hT : T ∈ s.opened c := List.mem_of_head? h1
  have hx : (s.g.teams T).proc_ids i ∈ (s.g.teams T).slaves := Team.Formed.slave h2 h4
  have hlt := hs.slave_lt hT hx
  have hheld : ∃ g, s.pc ((s.g.teams T).proc_ids i) = .spin kind g ∧ s.exit ((s.g.teams T).proc_ids i) = g ∧
      s.flag ((s.g.teams T).proc_ids i) = 0 ∧ s.passed T ((s.g.teams T).proc_ids i) = s.passed T c := by
    have h := hs.obeys c T hT i h2 h4
    simp only [hpc, Pc.told, if_true, if_neg (Nat.lt_irrefl i)] at h
    exact h
  obtain ⟨g, hg, he, hf, hn⟩ := hheld
  have hwords : ∀ x < nprocs, x ≠ (s.g.teams T).proc_ids i →
      ((s.setExit ((s.g.teams T).proc_ids i) (exit + 1)).goto c (.release kind T (i + 1))).exit x = s.exit x ∧
        ((s.setExit ((s.g.teams T).proc_ids i) (exit + 1)).goto c (.release kind T (i + 1))).flag x = s.flag x :=
    fun x _ hne => ⟨setExit_exit_ne hne, setExit_flag (Nat.lt_of_lt_of_le hlt hprocs)⟩
  refine hs.of_thread hprocs hc (by rw [hpc]; rfl) rfl rfl rfl rfl rfl rfl rfl hT h2 h4 hwords ?_ ⟨h1, by omega, h3⟩ ?_
    (fun U j hU => ?_) (fun j hj => ?_) fun q h => ?_
  · have hxc := hs.slave_ne hT hx
    -- the place of every core without the words: the thread runs from here on
    have habs : ((s.setExit ((s.g.teams T).proc_ids i) (exit + 1)).goto c (.release kind T (i + 1))).absPc nprocs =
        Function.update (Function.update (s.absPc nprocs) c ((Pc.release kind T (i + 1)).abs fun _ => true))
          ((s.g.teams T).proc_ids i) .running := by
      funext x
      by_cases hxi : x = (s.g.teams T).proc_ids i
      · subst hxi
        have hne : exit + 1 ≠ g := by
          rw [h5, he]
          exact add_one_ne_self g
        have hthere : ((s.setExit ((s.g.teams T).proc_ids i) (exit + 1)).goto c (.release kind T (i + 1))).pc
            ((s.g.teams T).proc_ids i) = .spin kind g := (Function.update_of_ne hxc ..).trans hg
        rw [Function.update_self, absPc_self hlt hthere, goto_exit, setExit_exit_self]
        cases kind <;> simp [Pc.abs, hne]
      · rw [Function.update_of_ne hxi]
        by_cases hxc' : x = c
        · subst hxc'
          rw [Function.update_self, absPc_self hc (goto_pc_self _)]
          cases kind <;> rfl
        · rw [Function.update_of_ne hxc']
          unfold State.absPc
          split
          · rw [goto_pc_ne _ hxc', goto_exit, setExit_exit_ne hxi]
            rfl
          · rfl
    cases kind with
    | barrier =>
      refine Or.inl ?_
      have hthere : s.absPc nprocs ((s.g.teams T).proc_ids i) = .running := absPc_self hlt hg
      have hmine : s.absPc nprocs c = .running := absPc_self hc hpc
      unfold State.abs
      rw [habs, ← hthere, Function.update_eq_self_iff.2 (Function.update_of_ne hxc ..).symm,
        Function.update_eq_self_iff.2 hmine.symm]
      rfl
    | dock =>
      refine Or.inr ⟨.go c, ?_⟩
      have hat : (s.abs nprocs).pc c = .release T i := absPc_self hc hpc
      have hi' : i < ((s.abs nprocs).g.teams T).nthreads := h4
      simp only [TeamAlloc.step, TeamAlloc.stepGo, hat, if_pos hi']
      unfold State.abs
      rw [habs]
      rfl
  · exact home_congr rfl (fun _ _ => rfl) rfl (fun U => by simp [hpc]) fun U => by simp
  · rw [hpc]
    simp only [Pc.told, if_neg hU.symm]
  · rw [hpc]
    simp only [Pc.told, if_true]
    by_cases hji : j < i
    · rw [if_pos hji, if_pos (by omega)]
    · rw [if_neg hji, if_neg (by omega)]
  · simp only [Pc.told, if_true, if_pos (Nat.lt_succ_self i), Obeys]
    rw [goto_pc_ne _ (hs.slave_ne hT hx)]
    show Loose _ q T _ _ (s.pc _)
    rw [hg]
    refine Or.inr ⟨?_, ?_, ?_, fun hk => ?_⟩
    · rw [goto_exit, setExit_exit_self, h5, he]
    · rw [goto_flag, setExit_flag (Nat.lt_of_lt_of_le hlt hprocs)]
      exact hf
    · show s.passed T _ + _ = _
      rw [hn]
    · subst hk
      rw [h3 rfl]
      rfl

/-- The thread whose flag is set waits where the master is. -/
theorem gathered (hs : Inv barriers nprocs s) (hc : c < nprocs) (hpc : s.pc c = .reset kind T i) :
    ∃ g, s.pc ((s.g.teams T).proc_ids i) = .spin kind g ∧ s.exit ((s.g.teams T).proc_ids i) = g ∧
      s.passed T ((s.g.teams T).proc_ids i) = s.passed T c := by
  obtain ⟨h1, h2, h3, h4, h5⟩ : PcOk barriers s c (.reset kind T i) := hpc ▸ hs.places c hc
  have h := hs.obeys c T (List.mem_of_head? h1) i h2 h4
  rw [hpc] at h
  simp only [Pc.told, Nat.lt_irrefl, and_false, if_false, Obeys] at h
  cases hp : s.pc ((s.g.teams T).proc_ids i) with
  | spin kind' g =>
    rw [hp] at h
    rcases h with ⟨he, -, hn, hdue⟩ | ⟨-, hf, -⟩
    · obtain rfl : kind' = kind := by
        cases kind' <;> cases kind <;> simp only [Due] at hdue h3 <;> first | rfl | omega
      exact ⟨g, rfl, he, hn⟩
    · exact absurd hf h5
  | _ =>
    rw [hp] at h
    simp only [Loose] at h
    first | exact absurd h.1 h5 | exact absurd h.2.1 h5

/-- Thread `i` is gathered. -/
theorem reset (hs : Inv barriers nprocs s) (hprocs : nprocs ≤ 16) (hc : c < nprocs) (hpc : s.pc c = .reset kind T i) :
    Keeps barriers nprocs c s
      ((s.setFlag ((s.g.teams T).proc_ids i) 0).goto c (.gather kind T (i + 1))) := by
  obtain ⟨h1, h2, h3, h4, h5⟩ : PcOk barriers s c (.reset kind T i) := hpc ▸ hs.places c hc
  have hT : T ∈ s.opened c := List.mem_of_head? h1
  have hx : (s.g.teams T).proc_ids i ∈ (s.g.teams T).slaves := Team.Formed.slave h2 h4
  have hlt := hs.slave_lt hT hx
  obtain ⟨g, hg, he, hn⟩ := hs.gathered hc hpc
  have hwords : ∀ x < nprocs, x ≠ (s.g.teams T).proc_ids i →
      ((s.setFlag ((s.g.teams T).proc_ids i) 0).goto c (.gather kind T (i + 1))).exit x = s.exit x ∧
        ((s.setFlag ((s.g.teams T).proc_ids i) 0).goto c (.gather kind T (i + 1))).flag x = s.flag x :=
    fun x hlt hne => ⟨setFlag_exit (Nat.lt_of_lt_of_le hlt hprocs), setFlag_flag_ne hne⟩
  have hexit : ∀ x < nprocs,
      ((s.setFlag ((s.g.teams T).proc_ids i) 0).goto c (.gather kind T (i + 1))).exit x = s.exit x :=
    fun x hlt => setFlag_exit (Nat.lt_of_lt_of_le hlt hprocs)
  refine hs.of_thread hprocs hc (by rw [hpc]; rfl) rfl rfl rfl rfl rfl rfl rfl hT h2 h4 hwords ?_ ⟨h1, by omega, h3⟩ ?_
    (fun U j hU => ?_) (fun j hj => ?_) fun q h => ?_
  · cases kind with
    | barrier => exact sim_stutter hc rfl hexit rfl rfl rfl rfl rfl (absPc_self hc hpc).symm
    | dock =>
      refine sim_step hc rfl hexit (.go c) ?_
      have hat : (s.abs nprocs).pc c = .gather T i := absPc_self hc hpc
      have hlt' : i < ((s.abs nprocs).g.teams T).nthreads := h4
      have hdocked : (s.abs nprocs).pc (((s.abs nprocs).g.teams T).proc_ids i) = .docked := by
        refine (absPc_self hlt hg).trans ?_
        simp [Pc.abs, he]
      simp only [TeamAlloc.step, TeamAlloc.stepGo, hat, if_pos hlt', hdocked, if_true]
      rfl
  · exact home_congr rfl (fun _ _ => rfl) rfl (fun U => by simp [hpc]) fun U => by simp
  · rw [hpc]
    simp only [Pc.told, hU.symm, false_and, if_false]
  · rw [hpc]
    simp only [Pc.told, true_and]
    by_cases hji : j < i
    · rw [if_pos hji, if_pos (by omega)]
    · rw [if_neg hji, if_neg (by omega)]
  · simp only [Pc.told, true_and, if_pos (Nat.lt_succ_self i), Obeys]
    refine ⟨g, ?_, ?_, ?_, hn⟩
    · rw [goto_pc_ne _ (hs.slave_ne hT hx)]
      exact hg
    · rw [goto_exit, setFlag_exit (Nat.lt_of_lt_of_le hlt hprocs)]
      exact he
    · rw [goto_flag, setFlag_flag_self]

/-- The master leaves a barrier. -/
theorem releaseBarrier (hs : Inv barriers nprocs s) (hprocs : nprocs ≤ 16) (hc : c < nprocs)
    (hpc : s.pc c = .release .barrier T i) (hi : ¬ i < (s.g.teams T).nthreads) :
    Keeps barriers nprocs c s ((s.pass T c).goto c .running) := by
  obtain ⟨h1, h2, -⟩ : PcOk barriers s c (.release .barrier T i) := hpc ▸ hs.places c hc
  have hT : T ∈ s.opened c := List.mem_of_head? h1
  have hin : (s.pc c).inside = true := by rw [hpc]; rfl
  have hsim : Sim nprocs s ((s.pass T c).goto c .running) :=
    sim_stutter hc rfl (fun _ _ => rfl) rfl rfl rfl rfl rfl (absPc_self hc hpc).symm
  have hpassed : ∀ U x, U ≠ T ∨ x ≠ c → ((s.pass T c).goto c .running).passed U x = s.passed U x := by
    intro U x hne
    by_cases hU : U = T
    · subst hU
      simp [State.pass, hne.resolve_left (fun h => h rfl)]
    · simp [State.pass, hU]
  have hm : Moves nprocs s ((s.pass T c).goto c .running) c := by
    refine ⟨fun d hd => goto_pc_ne _ hd, fun _ _ => rfl, fun _ _ _ => ⟨rfl, rfl, rfl⟩, fun _ _ => rfl, fun _ _ _ => rfl,
      fun _ _ _ => Or.inl ⟨rfl, rfl⟩, rfl, id, fun U _ x => ?_⟩
    by_cases h : U = T ∧ x = c
    · exact Or.inr ⟨h.2, c, h.1 ▸ hT⟩
    · exact Or.inl (hpassed U x (by tauto))
  refine ⟨hsim, hm, hs.of_moves hm (hs.inside_active hc hin) (hsim.alloc hs hprocs) (by rw [goto_pc_self]; trivial) ?_
    (fun d U hU w hx h => ?_) (fun U hU j hj1 hj => ?_) (fun U hU => Or.inl hU) (fun x _ hx => Or.inl hx) hs.owned⟩
  · exact home_congr rfl (fun _ _ => rfl) rfl (fun U => by simp [hpc]) fun U => by simp
  · have hUT : U ≠ T := by
      rintro rfl
      exact (hs.formed hT).master_not_slave hx
    exact h.inside hin (by rw [goto_pc_self]; rfl) rfl (hpassed U c (Or.inl hUT))
  · have hne := hs.slave_ne hU (Team.Formed.slave hj1 hj)
    have h := hs.obeys c U hU j hj1 hj
    rw [hpc] at h
    rw [goto_pc_self, hm.quota hU]
    by_cases hUT : U = T
    · subst hUT
      have hj : j < (s.g.teams U).nthreads := hj
      have hcount : ((s.pass U c).goto c .running).passed U c = s.passed U c + 1 := by simp [State.pass]
      simp only [Pc.told, if_true, if_pos (show j < i by omega)] at h
      simp only [Pc.told, hcount]
      exact Obeys.congr (s := s) (goto_pc_ne _ hne) rfl rfl (hpassed _ _ (Or.inr hne)) h
    · simp only [Pc.told, if_neg (Ne.symm hUT)] at h
      simp only [Pc.told]
      rw [hpassed U c (Or.inl hUT)]
      exact Obeys.congr (s := s) (goto_pc_ne _ hne) rfl rfl (hpassed _ _ (Or.inr hne)) h

/-! ## The critical sections -/

theorem startWait (hs : Inv barriers nprocs s) (hprocs : nprocs ≤ 16) (hc : c < nprocs) {fn data specified : Nat}
    (hpc : s.pc c = .startWait fn data specified) (hlock : s.lock = none) :
    Keeps barriers nprocs c s ({ s with lock := some c }.goto c (.resolve fn data specified)) := by
  refine hs.of_goto hprocs hc (by rw [hpc]; rfl) rfl rfl rfl rfl rfl rfl rfl rfl
    (sim_step hc rfl (fun _ _ => rfl) (.go c) ?_) trivial ?_ fun U _ j _ _ => by rw [hpc]; rfl
  · have hat : (s.abs nprocs).pc c = .startWait specified := absPc_self hc hpc
    have hfree : (s.abs nprocs).lock = none := hlock
    simp only [TeamAlloc.step, TeamAlloc.stepGo, hat, if_pos hfree]
    rfl
  · exact home_congr rfl (fun _ _ => rfl) rfl (fun U => by simp [hpc]) fun U => by simp

theorem startSignal (hs : Inv barriers nprocs s) (hprocs : nprocs ≤ 16) (hc : c < nprocs)
    (hpc : s.pc c = .startSignal T) : Keeps barriers nprocs c s ({ s with lock := none }.goto c (.link T)) := by
  have h : PcOk barriers s c (.startSignal T) := hpc ▸ hs.places c hc
  refine hs.of_goto hprocs hc (by rw [hpc]; rfl) rfl rfl rfl rfl rfl rfl rfl rfl
    (sim_step hc rfl (fun _ _ => rfl) (.go c) ?_) h ?_ fun U _ j _ _ => by rw [hpc]; rfl
  · simp only [TeamAlloc.step, TeamAlloc.stepGo, State.abs, absPc_self hc hpc, Pc.abs]
    rfl
  · exact home_congr rfl (fun _ _ => rfl) rfl (fun U => by simp [hpc]) fun U => by simp

theorem endWait (hs : Inv barriers nprocs s) (hprocs : nprocs ≤ 16) (hc : c < nprocs) (hpc : s.pc c = .endWait T)
    (hlock : s.lock = none) : Keeps barriers nprocs c s ({ s with lock := some c }.goto c (.giveIdle T)) := by
  refine hs.of_goto hprocs hc (by rw [hpc]; rfl) rfl rfl rfl rfl rfl rfl rfl rfl
    (sim_step hc rfl (fun _ _ => rfl) (.go c) ?_) trivial ?_ fun U _ j _ _ => by rw [hpc]; rfl
  · have hat : (s.abs nprocs).pc c = .endWait T := absPc_self hc hpc
    have hfree : (s.abs nprocs).lock = none := hlock
    simp only [TeamAlloc.step, TeamAlloc.stepGo, hat, if_pos hfree]
    rfl
  · exact home_congr rfl (fun _ _ => rfl) rfl (fun U => by simp [hpc]) fun U => by simp

theorem endSignal (hs : Inv barriers nprocs s) (hprocs : nprocs ≤ 16) (hc : c < nprocs) (hpc : s.pc c = .endSignal T) :
    Keeps barriers nprocs c s ({ s with lock := none }.goto c (.unlink T)) := by
  refine hs.of_goto hprocs hc (by rw [hpc]; rfl) rfl rfl rfl rfl rfl rfl rfl rfl
    (sim_step hc rfl (fun _ _ => rfl) (.go c) ?_) trivial ?_ fun U _ j _ _ => by rw [hpc]; rfl
  · simp only [TeamAlloc.step, TeamAlloc.stepGo, State.abs, absPc_self hc hpc, Pc.abs]
    rfl
  · simp only [State.home, goto_opened, goto_pc_self, goto_taken, hpc]

/-- The threads are counted off, and the task is put into the descriptor. -/
theorem resolve (hs : Inv barriers nprocs s) (hprocs : nprocs ≤ 16) (hc : c < nprocs) {fn data specified : Nat}
    (hpc : s.pc c = .resolve fn data specified) (h : stepGo nprocs s c = some t) : Keeps barriers nprocs c s t := by
  obtain ⟨team, heq, -⟩ := teamStartResolve_spec s.g (Nat.lt_of_lt_of_le hc (by omega) : c < 32) specified
  simp only [stepGo, hpc, heq, Option.some.injEq] at h
  have hin : (s.pc c).inside = true := by rw [hpc]; rfl
  have hne : ∀ d, ∀ U ∈ s.opened d, U ≠ s.g.nextTeam := fun d U hU => Nat.ne_of_lt (hs.live hU).lt
  have hsim : Sim nprocs s t := by
    subst h
    refine sim_step hc rfl (fun _ _ => rfl) (.go c) ?_
    have hat : (s.abs nprocs).pc c = .resolve specified := absPc_self hc hpc
    have heq' : teamStartResolve (s.abs nprocs).g c specified = _ := heq
    simp only [TeamAlloc.step, TeamAlloc.stepGo, hat, heq']
    rfl
  have hm : Moves nprocs s t c := by
    subst h
    refine ⟨fun d hd => goto_pc_ne _ hd, fun _ _ => rfl, fun d T hT => ?_, fun T hT => ?_, fun _ _ _ => rfl,
      fun _ _ _ => Or.inl ⟨rfl, rfl⟩, rfl, id, fun T hT x => Or.inl ?_⟩
    · simp [hne d T hT]
    · simp only [goto_taken, Function.update_of_ne (Nat.ne_of_lt hT)]
    · simp only [goto_passed, Function.update_of_ne (Nat.ne_of_lt hT)]
  have halloc := hsim.alloc hs hprocs
  subst h
  refine ⟨hsim, hm, hs.of_calm hm hc hin (by rw [goto_pc_self]; rfl) rfl rfl (fun d T hT x => ?_) rfl halloc
    ?_ ?_ fun T _ j _ _ => by rw [goto_pc_self, hpc]; rfl⟩
  · simp only [goto_passed, Function.update_of_ne (hne d T hT)]
  · rw [goto_pc_self]
    intro x
    simp only [goto_passed, Function.update_self]
  · refine home_congr rfl (fun U hU => ?_) rfl (fun U => by simp [hpc]) fun U => by simp
    simp only [goto_taken, Function.update_of_ne (hne c U hU)]

/-- The current team of the master is the new one. -/
theorem link (hs : Inv barriers nprocs s) (hprocs : nprocs ≤ 16) (hc : c < nprocs) (hpc : s.pc c = .link T) :
    Keeps barriers nprocs c s ({ s with g := teamStartLink s.g c T }.goto c (.release .dock T 1)) := by
  have hin : (s.pc c).inside = true := by rw [hpc]; rfl
  have h0 : PcOk barriers s c (.link T) := hpc ▸ hs.places c hc
  have hhead : (s.opened c).head? = some T := (hs.alloc.at (absPc_self hc hpc)).1
  have hsim : Sim nprocs s ({ s with g := teamStartLink s.g c T }.goto c (.release .dock T 1)) :=
    sim_step hc rfl (fun _ _ => rfl) (.go c) (by
      have hat : (s.abs nprocs).pc c = .link T := absPc_self hc hpc
      simp only [TeamAlloc.step, TeamAlloc.stepGo, hat]
      rfl)
  have hm : Moves nprocs s ({ s with g := teamStartLink s.g c T }.goto c (.release .dock T 1)) c := by
    refine ⟨fun d hd => goto_pc_ne _ hd, fun _ _ => rfl, fun d U _ => ?_, fun _ _ => rfl, fun d hd _ => ?_,
      fun _ _ _ => Or.inl ⟨rfl, rfl⟩, rfl, id, fun _ _ _ => Or.inl rfl⟩
    · simp only [goto_g, goto_task, teamStartLink]
      by_cases hU : U = T
      · subst hU
        simp
      · simp [hU]
    · simp only [goto_g, teamStartLink, Function.update_of_ne hd]
  refine ⟨hsim, hm, hs.of_calm hm hc hin (by rw [goto_pc_self]; rfl) rfl rfl (fun _ _ _ _ => rfl) rfl (hsim.alloc hs hprocs)
    ?_ ?_ fun U _ j hj1 _ => ?_⟩
  · rw [goto_pc_self]
    exact ⟨hhead, Nat.le_refl 1, fun _ => h0⟩
  · have hopen : s.opened c ≠ [] := by
      intro hnil
      rw [hnil] at hhead
      cases hhead
    obtain ⟨U, hU⟩ := Option.isSome_iff_exists.1 (List.getLast?_isSome.2 hopen)
    simp only [State.home, goto_opened, goto_taken, hU]
  · rw [goto_pc_self, hpc]
    simp only [Pc.told, if_neg (show ¬ j < 1 by omega)]

theorem giveIdle (hs : Inv barriers nprocs s) (hprocs : nprocs ≤ 16) (hc : c < nprocs) (hpc : s.pc c = .giveIdle T) :
    Keeps barriers nprocs c s ({ s with g := teamEndIdle s.g T }.goto c (.givePool T)) := by
  have hin : (s.pc c).inside = true := by rw [hpc]; rfl
  have hsim : Sim nprocs s ({ s with g := teamEndIdle s.g T }.goto c (.givePool T)) :=
    sim_step hc rfl (fun _ _ => rfl) (.go c) (by
      have hat : (s.abs nprocs).pc c = .giveIdle T := absPc_self hc hpc
      simp only [TeamAlloc.step, TeamAlloc.stepGo, hat]
      rfl)
  have hm : Moves nprocs s ({ s with g := teamEndIdle s.g T }.goto c (.givePool T)) c :=
    ⟨fun d hd => goto_pc_ne _ hd, fun _ _ => rfl, fun _ _ _ => ⟨rfl, rfl, rfl⟩, fun _ _ => rfl, fun _ _ _ => rfl,
      fun _ _ _ => Or.inl ⟨rfl, rfl⟩, rfl, id, fun _ _ _ => Or.inl rfl⟩
  refine ⟨hsim, hm, hs.of_calm hm hc hin (by rw [goto_pc_self]; rfl) rfl rfl (fun _ _ _ _ => rfl) rfl (hsim.alloc hs hprocs)
    (by rw [goto_pc_self]; trivial) ?_ fun U _ j _ _ => by rw [goto_pc_self, hpc]; rfl⟩
  exact home_congr rfl (fun _ _ => rfl) rfl (fun U => by simp [hpc]) fun U => by simp

/-- The master goes back to the team that it was in. -/
theorem unlink (hs : Inv barriers nprocs s) (hprocs : nprocs ≤ 16) (hc : c < nprocs) (hpc : s.pc c = .unlink T) :
    Keeps barriers nprocs c s ({ s with g := teamEndUnlink s.g c T }.goto c .running) := by
  have hin : (s.pc c).inside = true := by rw [hpc]; rfl
  obtain ⟨-, -, hparent, -⟩ := hs.alloc.at (absPc_self hc hpc)
  have hsim : Sim nprocs s ({ s with g := teamEndUnlink s.g c T }.goto c .running) :=
    sim_step hc rfl (fun _ _ => rfl) (.go c) (by
      have hat : (s.abs nprocs).pc c = .unlink T := absPc_self hc hpc
      simp only [TeamAlloc.step, TeamAlloc.stepGo, hat]
      rfl)
  have hm : Moves nprocs s ({ s with g := teamEndUnlink s.g c T }.goto c .running) c := by
    refine ⟨fun d hd => goto_pc_ne _ hd, fun _ _ => rfl, fun _ _ _ => ⟨rfl, rfl, rfl⟩, fun _ _ => rfl, fun d hd _ => ?_,
      fun _ _ _ => Or.inl ⟨rfl, rfl⟩, rfl, id, fun _ _ _ => Or.inl rfl⟩
    simp only [goto_g, teamEndUnlink, Function.update_of_ne hd]
  refine ⟨hsim, hm, hs.of_calm hm hc hin (by rw [goto_pc_self]; rfl) rfl rfl (fun _ _ _ _ => rfl) rfl (hsim.alloc hs hprocs)
    (by rw [goto_pc_self]; trivial) ?_ fun U _ j _ _ => by rw [goto_pc_self, hpc]; rfl⟩
  simp only [State.home, goto_opened, goto_taken, goto_pc_self, hpc, goto_g, teamEndUnlink, Function.update_self]
  cases (s.opened c).getLast? with
  | some U => rfl
  | none => exact hparent

/-- What the loop over the pool does for a new team. -/
theorem forms (hs : Inv barriers nprocs s) (hprocs : nprocs ≤ 16) (hc : c < nprocs) (hpc : s.pc c = .fetch T) :
    Forms nprocs c T s.g (teamStartFetch nprocs s.g T) :=
  hs.alloc.forms (by omega) (absPc_self hc hpc)

section Fetch

variable {g' : Globals}

theorem ne_of_fetch (hs : Inv barriers nprocs s) (hc : c < nprocs) (hpc : s.pc c = .fetch T) (hU : U ∈ s.opened d) :
    U ≠ T :=
  hs.alloc.ne_of_fetch (absPc_self hc hpc) hU

/-- The new slaves were held at the dock. -/
theorem docked_of_forms (hs : Inv barriers nprocs s) (hf : Forms nprocs c T s.g g') (hx : x ∈ (g'.teams T).slaves) :
    Docked s x :=
  hs.free x (hf.formed.range x hx).2 (Finset.disjoint_left.1 hf.free hx)

theorem forms_moves (hs : Inv barriers nprocs s) (hc : c < nprocs) (hpc : s.pc c = .fetch T)
    (hf : Forms nprocs c T s.g g') : Moves nprocs s ((s.forms c T g').goto c (.startSignal T)) c := by
  refine ⟨fun d hd => goto_pc_ne _ hd, fun d hd => Function.update_of_ne hd .., fun d U hU => ?_, fun U _ => ?_,
    fun d _ hd => ?_, fun _ _ _ => Or.inl ⟨rfl, rfl⟩, rfl, id, fun _ _ _ => Or.inl rfl⟩
  · have hteam : g'.teams U = s.g.teams U := hf.teams U (hs.ne_of_fetch hc hpc hU)
    exact ⟨congrArg TeamAlloc.Team.nthreads hteam, congrArg TeamAlloc.Team.proc_ids hteam, rfl⟩
  · by_cases hU : U = T
    · subst hU
      simp
    · simp [hU]
  · show g'.currTeam d = _
    rw [hf.currTeam, if_neg fun hx => Finset.disjoint_left.1 hf.free hx hd]

/-- The team that `c` is in is the outer one of its oldest region. -/
theorem forms_home (hs : Inv barriers nprocs s) (hc : c < nprocs) (hpc : s.pc c = .fetch T) :
    ((s.forms c T g').goto c (.startSignal T)).home c = s.home c := by
  obtain ⟨-, hT⟩ := hs.alloc.at (absPc_self hc hpc)
  unfold State.home
  simp only [goto_opened, forms_opened, Function.update_self, goto_taken, forms_taken, hpc]
  cases hop : s.opened c with
  | nil =>
    have houter : (s.taken T).outer = s.g.currTeam c := hT.outer
    simpa using houter
  | cons V Vs =>
    rw [List.getLast?_cons_cons]
    obtain ⟨W, hW⟩ := Option.isSome_iff_exists.1 (List.getLast?_isSome.2 (List.cons_ne_nil V Vs))
    have hWne : W ≠ T := hs.ne_of_fetch (d := c) hc hpc (by rw [hop]; exact List.mem_of_getLast? hW)
    simp [hW, hWne]

/-- A new slave is at home in the new team. -/
theorem forms_home_slave (hs : Inv barriers nprocs s) (hf : Forms nprocs c T s.g g') (hx : x ∈ (g'.teams T).slaves) :
    ((s.forms c T g').goto c (.startSignal T)).home x = some T := by
  obtain ⟨g, h1, h2, -⟩ := hs.docked_of_forms hf hx
  have hxlt := (hf.formed.range x hx).2
  have hxc : x ≠ c := by
    rintro rfl
    exact hf.formed.master_not_slave hx
  have hxop : s.opened x = [] := by
    have hat : s.absPc nprocs x = .docked := by
      rw [absPc_self hxlt h1]
      simp [Pc.abs, h2]
    exact hs.alloc.at hat
  unfold State.home
  rw [goto_pc_ne _ hxc]
  have hpcx : (s.forms c T g').pc x = .spin .dock g := h1
  simp only [goto_opened, forms_opened, Function.update_of_ne hxc, hxop, hpcx, goto_g, forms_g, List.getLast?_nil]
  rw [hf.currTeam, if_pos hx]

/-- The threads of the new team are held, those of the others are as they were. -/
theorem forms_obeys (hs : Inv barriers nprocs s) (hc : c < nprocs) (hpc : s.pc c = .fetch T)
    (hf : Forms nprocs c T s.g g') (hU : U ∈ ((s.forms c T g').goto c (.startSignal T)).opened c) (hj1 : 1 ≤ j)
    (hj : j < (g'.teams U).nthreads) :
    Obeys ((s.forms c T g').goto c (.startSignal T)) (quota barriers s U) U ((g'.teams U).proc_ids j)
      ((Pc.startSignal T).told U (s.passed U c) j) := by
  have hzero : ∀ x, s.passed T x = 0 := (hpc ▸ hs.places c hc : PcOk barriers s c (.fetch T))
  simp only [goto_opened, forms_opened, Function.update_self, List.mem_cons] at hU
  by_cases hUT : U = T
  · subst hUT
    have hx : (g'.teams U).proc_ids j ∈ (g'.teams U).slaves := Team.Formed.slave hj1 hj
    obtain ⟨g, h1, h2, h3⟩ := hs.docked_of_forms hf hx
    have hxc : (g'.teams U).proc_ids j ≠ c := by
      rintro he
      exact hf.formed.master_not_slave (he ▸ hx)
    simp only [Pc.told, if_true]
    exact ⟨g, (goto_pc_ne _ hxc).trans h1, h2, h3, (hzero _).trans (hzero c).symm⟩
  · have hUs := hU.resolve_left hUT
    rw [hf.teams U hUT] at hj ⊢
    have h := hs.obeys c U hUs j hj1 hj
    rw [hpc] at h
    simp only [Pc.told, if_neg (Ne.symm hUT)] at h ⊢
    exact Obeys.congr (s := s) (goto_pc_ne _ (hs.slave_ne hUs (Team.Formed.slave hj1 hj))) rfl rfl rfl h

/-- The cores of the pool that are no master of it are slaves of an open team. -/
theorem forms_owned (hs : Inv barriers nprocs s) (hc : c < nprocs) (hpc : s.pc c = .fetch T)
    (hf : Forms nprocs c T s.g g') (hx : x ∈ bits g'.threadPool) (hx0 : x ≠ MASTER_ID) :
    ∃ d, ∃ U ∈ ((s.forms c T g').goto c (.startSignal T)).opened d, x ∈ (g'.teams U).slaves := by
  rw [hf.pool, Finset.mem_union] at hx
  rcases hx with hx | hx
  · obtain ⟨d, U, hU, hxU⟩ := hs.owned x hx hx0
    refine ⟨d, U, ?_, ?_⟩
    · by_cases hd : d = c
      · subst hd
        simp [hU]
      · simp [hd, hU]
    · rw [hf.teams U (hs.ne_of_fetch hc hpc hU)]
      exact hxU
  · exact ⟨c, T, by simp, hx⟩

end Fetch

/-- The team is formed of cores that are held at the dock. -/
theorem fetch (hs : Inv barriers nprocs s) (hprocs : nprocs ≤ 16) (hc : c < nprocs) (hpc : s.pc c = .fetch T) :
    Keeps barriers nprocs c s ((s.forms c T (teamStartFetch nprocs s.g T)).goto c (.startSignal T)) := by
  have hin : (s.pc c).inside = true := by rw [hpc]; rfl
  have hsim : Sim nprocs s ((s.forms c T (teamStartFetch nprocs s.g T)).goto c (.startSignal T)) :=
    sim_step hc rfl (fun _ _ => rfl) (.go c) (by
      have hat : (s.abs nprocs).pc c = .fetch T := absPc_self hc hpc
      simp only [TeamAlloc.step, TeamAlloc.stepGo, hat]
      rfl)
  have halloc := hsim.alloc hs hprocs
  have hf := hs.forms hprocs hc hpc
  generalize teamStartFetch nprocs s.g T = g' at *
  have hm := hs.forms_moves hc hpc hf
  refine ⟨hsim, hm, hs.of_moves hm (hs.inside_active hc hin) halloc ?_ (hs.forms_home hc hpc) (fun d U hU w hx h => ?_)
    (fun U hU j hj1 hj => ?_) (fun U hU => ?_) (fun x _ hx => Or.inl fun h => hx ?_) fun x hx hx0 => ?_⟩
  · rw [goto_pc_self]
    exact (hpc ▸ hs.places c hc : PcOk barriers s c (.fetch T)) c
  · exact h.inside hin (by rw [goto_pc_self]; rfl) rfl rfl
  · rw [goto_pc_self]
    exact hs.forms_obeys hc hpc hf hU hj1 hj
  · simp only [goto_opened, forms_opened, Function.update_self, List.mem_cons] at hU
    refine hU.symm.imp id fun hUT x hx => ?_
    subst hUT
    exact hs.forms_home_slave hf hx
  · exact hf.sub h
  · exact hs.forms_owned hc hpc hf hx hx0

/-- The slaves are given back: they are held at the dock. -/
theorem givePool (hs : Inv barriers nprocs s) (hprocs : nprocs ≤ 16) (hc : c < nprocs) (hpc : s.pc c = .givePool T) :
    Keeps barriers nprocs c s ({ s with
      g := teamEndPool s.g c T
      opened := Function.update s.opened c (s.opened c).tail }.goto c (.endSignal T)) := by
  have hin : (s.pc c).inside = true := by rw [hpc]; rfl
  have hmy := hs.inside_active hc hin
  obtain ⟨hhead, -, -⟩ := hs.alloc.at (absPc_self hc hpc)
  have hhead : (s.opened c).head? = some T := hhead
  have hT : T ∈ s.opened c := List.mem_of_head? hhead
  have hcons : s.opened c = T :: (s.opened c).tail := (List.cons_head?_tail hhead).symm
  have hnodup : T ∉ (s.opened c).tail := by
    have h : (s.opened c).Nodup := (hs.alloc.cores c).nodup
    rw [hcons] at h
    exact (List.nodup_cons.1 h).1
  have hpool : bits (teamEndPool s.g c T).threadPool = bits s.g.threadPool \ (s.g.teams T).slaves :=
    bits_teamEndPool (hs.formed hT) (by omega) s.g.threadPool
  have hsim : Sim nprocs s ({ s with
      g := teamEndPool s.g c T
      opened := Function.update s.opened c (s.opened c).tail }.goto c (.endSignal T)) :=
    sim_step hc rfl (fun _ _ => rfl) (.go c) (by
      have hat : (s.abs nprocs).pc c = .givePool T := absPc_self hc hpc
      simp only [TeamAlloc.step, TeamAlloc.stepGo, hat]
      rfl)
  have hm : Moves nprocs s ({ s with
      g := teamEndPool s.g c T
      opened := Function.update s.opened c (s.opened c).tail }.goto c (.endSignal T)) c :=
    ⟨fun d hd => goto_pc_ne _ hd, fun d hd => Function.update_of_ne hd .., fun _ _ _ => ⟨rfl, rfl, rfl⟩,
      fun _ _ => rfl, fun _ _ _ => rfl, fun _ _ _ => Or.inl ⟨rfl, rfl⟩, rfl, id, fun _ _ _ => Or.inl rfl⟩
  refine ⟨hsim, hm, hs.of_moves hm hmy (hsim.alloc hs hprocs) (by rw [goto_pc_self]; trivial) ?_ (fun d U hU w hx h => ?_)
    (fun U hU j hj1 hj => ?_) (fun U hU => ?_) (fun x hlt hx => ?_) fun x hx hx0 => ?_⟩
  · unfold State.home
    simp only [goto_opened, Function.update_self, goto_taken, goto_pc_self]
    cases htail : (s.opened c).tail with
    | nil => rw [hcons, htail]; rfl
    | cons V Vs =>
      obtain ⟨W, hW⟩ := Option.isSome_iff_exists.1 (List.getLast?_isSome.2 (List.cons_ne_nil V Vs))
      rw [hcons, htail, List.getLast?_cons_cons, hW]
  · exact h.inside hin (by rw [goto_pc_self]; rfl) rfl rfl
  · simp only [goto_opened, Function.update_self] at hU
    have hUs := List.mem_of_mem_tail hU
    have hUT : U ≠ T := by
      rintro rfl
      exact hnodup hU
    have h := hs.obeys c U hUs j hj1 hj
    rw [hpc] at h
    rw [goto_pc_self]
    simp only [Pc.told, if_neg (Ne.symm hUT)] at h ⊢
    exact Obeys.congr (s := s) (goto_pc_ne _ (hs.slave_ne hUs (Team.Formed.slave hj1 hj))) rfl rfl rfl h
  · simp only [goto_opened, Function.update_self] at hU
    exact Or.inl (List.mem_of_mem_tail hU)
  · rw [goto_g, hpool, Finset.mem_sdiff] at hx
    by_cases hxT : x ∈ (s.g.teams T).slaves
    · obtain ⟨j, ⟨hj1, hj⟩, rfl⟩ := Team.mem_slaves.1 hxT
      have h := hs.obeys c T hT j hj1 hj
      rw [hpc] at h
      simp only [Pc.told, if_true] at h
      obtain ⟨g, h1, h2, h3, -⟩ := h
      exact Or.inr ⟨g, (goto_pc_ne _ (hs.slave_ne hT hxT)).trans h1, h2, h3⟩
    · exact Or.inl fun h => hx ⟨h, hxT⟩
  · rw [goto_g, hpool, Finset.mem_sdiff] at hx
    obtain ⟨d, U, hU, hxU⟩ := hs.owned x hx.1 hx0
    refine ⟨d, U, ?_, hxU⟩
    by_cases hd : d = c
    · subst hd
      rw [hcons, List.mem_cons] at hU
      simp only [goto_opened, Function.update_self]
      refine hU.resolve_left fun h => hx.2 (h ▸ hxU)
    · simp [hd, hU]

/-! ## Runs -/

theorem stepGo_keeps (hs : Inv barriers nprocs s) (hprocs : nprocs ≤ 16) (hc : c < nprocs)
    (h : stepGo nprocs s c = some t) : Keeps barriers nprocs c s t := by
  have horig := h
  unfold stepGo at h
  split at h
  · cases h
  · cases h
    exact hs.enter hprocs hc ‹_›
  · cases h
    exact hs.announce hprocs hc ‹_›
  · rename_i kind g hpc
    split at h
    · cases h
    · rename_i hne
      cases kind with
      | dock =>
        cases h
        exact hs.leaveDock hprocs hc hpc hne
      | barrier =>
        obtain ⟨T, hT, rfl⟩ := Option.map_eq_some_iff.1 h
        exact hs.leaveBarrier hprocs hc hpc hne hT
  · obtain ⟨T, -, rfl⟩ := Option.map_eq_some_iff.1 h
    exact hs.work hprocs hc ‹_›
  · obtain ⟨hlock, h⟩ := Option.ite_none_right_eq_some.1 h
    cases h
    exact hs.startWait hprocs hc ‹_› hlock
  · exact hs.resolve hprocs hc ‹_› horig
  · cases h
    exact hs.fetch hprocs hc ‹_›
  · cases h
    exact hs.startSignal hprocs hc ‹_›
  · cases h
    exact hs.link hprocs hc ‹_›
  · rename_i kind T i hpc
    split at h
    · cases h
      exact hs.release hprocs hc hpc ‹_›
    · cases kind with
      | dock =>
        cases h
        exact hs.releaseDock hprocs hc hpc ‹_›
      | barrier =>
        cases h
        exact hs.releaseBarrier hprocs hc hpc ‹_›
  · cases h
    exact hs.store hprocs hc ‹_›
  · rename_i kind T i hpc
    split at h
    · obtain ⟨hf, h⟩ := Option.ite_none_left_eq_some.1 h
      cases h
      exact hs.gather hprocs hc hpc ‹_› hf
    · cases kind with
      | dock =>
        obtain ⟨hcur, hk⟩ := hs.gatherDock hprocs hc hpc ‹_›
        simp only [hcur, Option.map_some, Option.some.injEq] at h
        exact h ▸ hk
      | barrier =>
        cases h
        exact hs.gatherBarrier hprocs hc hpc ‹_›
  · cases h
    exact hs.reset hprocs hc ‹_›
  · obtain ⟨hlock, h⟩ := Option.ite_none_right_eq_some.1 h
    cases h
    exact hs.endWait hprocs hc ‹_› hlock
  · cases h
    exact hs.giveIdle hprocs hc ‹_›
  · cases h
    exact hs.givePool hprocs hc ‹_›
  · cases h
    exact hs.endSignal hprocs hc ‹_›
  · cases h
    exact hs.unlink hprocs hc ‹_›

/-- Every step is one of `TeamAlloc`, or none, and keeps the invariant. -/
theorem step_keeps {a : Act} (hs : Inv barriers nprocs s) (hprocs : nprocs ≤ 16)
    (h : step barriers nprocs s a = some t) : Keeps barriers nprocs a.core s t := by
  unfold step at h
  obtain ⟨hc, h⟩ := Option.ite_none_right_eq_some.1 h
  cases a with
  | start c fn data specified =>
    obtain ⟨hpc, h⟩ := Option.ite_none_right_eq_some.1 h
    cases h
    exact hs.start hprocs hc hpc fn data specified
  | finish c =>
    obtain ⟨⟨hpc, hop⟩, h⟩ := Option.ite_none_right_eq_some.1 h
    obtain ⟨T, hT, h⟩ := Option.bind_eq_some_iff.1 h
    obtain ⟨hq, h⟩ := Option.ite_none_right_eq_some.1 h
    cases h
    exact hs.finish hprocs hc hpc hop hT hq
  | barrier c =>
    obtain ⟨⟨hpc, hcall⟩, h⟩ := Option.ite_none_right_eq_some.1 h
    obtain ⟨T, hT, h⟩ := Option.bind_eq_some_iff.1 h
    obtain ⟨hq, h⟩ := Option.ite_none_right_eq_some.1 h
    split at h
    · cases h
      exact hs.barrierMaster hprocs hc hpc hcall hT hq ‹_›
    · cases h
      exact hs.barrier hprocs hc hpc hcall hT hq ‹_›
  | ret c =>
    obtain ⟨⟨hpc, hc0, hop⟩, h⟩ := Option.ite_none_right_eq_some.1 h
    obtain ⟨T, hT, h⟩ := Option.bind_eq_some_iff.1 h
    obtain ⟨hq, h⟩ := Option.ite_none_right_eq_some.1 h
    cases h
    exact hs.arrive hprocs hc hpc hc0 hop hT hq
  | go c => exact hs.stepGo_keeps hprocs hc h

end Inv

theorem init_master {mem : Nat → Int32} : (init nprocs mem).pc MASTER_ID = .running := by
  simp only [init, Function.update_self]

theorem init_slave {mem : Nat → Int32} (hc : c ≠ MASTER_ID) :
    (init nprocs mem).pc c = .spin .dock (mem (SLAVE_FLAG c)) := by
  simp only [init, Function.update_of_ne hc]

theorem init_abs {mem : Nat → Int32} (hone : 1 ≤ nprocs) : (init nprocs mem).abs nprocs = TeamAlloc.init nprocs := by
  unfold State.abs TeamAlloc.init
  congr 1
  funext x
  by_cases hx : x = MASTER_ID
  · subst hx
    rw [Function.update_self]
    exact absPc_self hone init_master
  · rw [Function.update_of_ne hx]
    unfold State.absPc
    split
    · rw [init_slave hx]
      simp [Pc.abs, State.exit, init]
    · rfl

theorem inv_init {mem : Nat → Int32} (hone : 1 ≤ nprocs) (hmem : ∀ x < nprocs, mem (MASTER_FLAG x) = 0) :
    Inv barriers nprocs (init nprocs mem) := by
  have hpool : bits (init nprocs mem).g.threadPool = {MASTER_ID} := bits_bit (by decide)
  refine ⟨init_abs hone ▸ TeamAlloc.inv_init hone, fun c _ => ?_, fun x hx hfree => ?_, fun x hx h0 => ?_,
    (fun _ _ hT => nomatch hT), fun _ _ hT => nomatch hT⟩
  · by_cases hc : c = MASTER_ID
    · subst hc
      rw [init_master]
      trivial
    · rw [init_slave hc]
      exact ⟨hc, rfl⟩
  · rw [hpool, Finset.mem_singleton] at hfree
    exact ⟨mem (SLAVE_FLAG x), init_slave hfree, rfl, hmem x hx⟩
  · rw [hpool, Finset.mem_singleton] at hx
    exact absurd hx h0

theorem run_inv {mem : Nat → Int32} {as : List Act} (hone : 1 ≤ nprocs) (hprocs : nprocs ≤ 16)
    (hmem : ∀ x < nprocs, mem (MASTER_FLAG x) = 0)
    (hr : Trans.run (step barriers nprocs) (init nprocs mem) as = some s) : Inv barriers nprocs s :=
  Trans.run_inv (Inv barriers nprocs) (fun _ _ _ hs h => (hs.step_keeps hprocs h).inv) (inv_init hone hmem) hr

end Steps

end VirtualSoc.Gomp.Region
