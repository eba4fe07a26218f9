import VirtualSoc.Gomp.Region

/-!
# The words of the parallel regions (libgomp/config/vsoc/bar_sw.c, parallel.c, libgomp.c)

The master of a team deals with its threads one after another, so for each of them it is clear from the place of the
master what it has been told: it is held, gathered for a barrier or for the dock and not released yet, or it is
loose. `Told` says so, with the number of barriers that the thread has passed, and `Obeys` what it means for the
thread and its two words. A core that is in no team is held at the dock.

`Inv.of_moves` is the frame: a step of core `c` touches its own place and words and those of its slaves, so it has
to be proved for `c` as a thread of the team it is in, and for the threads of the teams that it has open.
-/

namespace VirtualSoc.Gomp.Region

open Mask Barrier TeamAlloc

/-! ## The words -/

section Words

variable {nprocs c x y : Nat} {s t : State} {p : Pc} {v : Int32}

@[simp] theorem goto_g (p : Pc) : (s.goto c p).g = s.g := rfl
@[simp] theorem goto_task (p : Pc) : (s.goto c p).task = s.task := rfl
@[simp] theorem goto_lock (p : Pc) : (s.goto c p).lock = s.lock := rfl
@[simp] theorem goto_passed (p : Pc) : (s.goto c p).passed = s.passed := rfl
@[simp] theorem goto_opened (p : Pc) : (s.goto c p).opened = s.opened := rfl
@[simp] theorem goto_before (p : Pc) : (s.goto c p).before = s.before := rfl
@[simp] theorem goto_taken (p : Pc) : (s.goto c p).taken = s.taken := rfl
@[simp] theorem goto_exit (p : Pc) : (s.goto c p).exit = s.exit := rfl
@[simp] theorem goto_flag (p : Pc) : (s.goto c p).flag = s.flag := rfl
@[simp] theorem goto_pc_self (p : Pc) : (s.goto c p).pc c = p := Function.update_self ..
theorem goto_pc_ne (p : Pc) (h : x ≠ c) : (s.goto c p).pc x = s.pc x := Function.update_of_ne h ..

@[simp] theorem setFlag_flag_self : (s.setFlag y v).flag y = v := Function.update_self ..
@[simp] theorem setExit_exit_self : (s.setExit y v).exit y = v := Function.update_self ..

theorem setFlag_flag_ne (h : x ≠ y) : (s.setFlag y v).flag x = s.flag x :=
  Function.update_of_ne (fun he => h (MASTER_FLAG_inj.1 he)) ..

theorem setExit_exit_ne (h : x ≠ y) : (s.setExit y v).exit x = s.exit x :=
  Function.update_of_ne (fun he => h (SLAVE_FLAG_inj.1 he)) ..

/-- Below 16 the counters are no flags. -/
theorem setFlag_exit (h : x < 16) : (s.setFlag y v).exit x = s.exit x :=
  Function.update_of_ne (SLAVE_FLAG_ne_MASTER_FLAG h y) ..

theorem setExit_flag (h : y < 16) : (s.setExit y v).flag x = s.flag x :=
  Function.update_of_ne (SLAVE_FLAG_ne_MASTER_FLAG h x).symm ..

/-- A step of core `c` that leaves the counters. -/
theorem absPc_of_move (hc : c < nprocs) (hpc : t.pc = Function.update s.pc c p) (hexit : ∀ x < nprocs, t.exit x = s.exit x) :
    t.absPc nprocs = Function.update (s.absPc nprocs) c (p.abs fun g => s.exit c == g) := by
  funext x
  by_cases hx : x = c
  · subst hx
    rw [Function.update_self, State.absPc, if_pos hc, hpc, Function.update_self, hexit x hc]
  · rw [Function.update_of_ne hx]
    unfold State.absPc
    split
    · rename_i hlt
      rw [hpc, Function.update_of_ne hx, hexit x hlt]
    · rfl

theorem absPc_self (hc : c < nprocs) (h : s.pc c = p) : s.absPc nprocs c = p.abs fun g => s.exit c == g := by
  rw [State.absPc, if_pos hc, h]

end Words

/-! ## What the threads of a team have been told -/

/-- `held kind n`: gathered, not released. `loose n`: not gathered since. `n` is the number of barriers passed, for a
thread that is loose when it has followed its release. -/
inductive Told
  | held (kind : Kind) (n : Nat)
  | loose (n : Nat)

/-- The barriers that a release lets pass. -/
def passes : Kind → Nat
  | .dock => 0
  | .barrier => 1

/-- What thread `j` of team `T` has been told by a master that has passed `n` barriers. -/
def Pc.told (T n j : Nat) : Pc → Told
  | .startSignal U | .link U | .endWait U | .giveIdle U | .givePool U => if U = T then .held .dock n else .loose n
  | .release kind U i | .store kind U i _ =>
    if U = T then if j < i then .loose (n + passes kind) else .held kind n else .loose n
  | .gather kind U i | .reset kind U i => if U = T ∧ j < i then .held kind n else .loose n
  | _ => .loose n

/-- A thread goes to the dock after its last barrier. -/
def Due (q n : Nat) : Kind → Prop
  | .dock => n = q
  | .barrier => n < q

/-- The slave `x` of team `T`, with `q` barriers in its task. -/
def Loose (s : State) (q T x n : Nat) : Pc → Prop
  | .enter kind => s.flag x = 0 ∧ s.passed T x = n ∧ Due q n kind
  | .announce kind g => s.exit x = g ∧ s.flag x = 0 ∧ s.passed T x = n ∧ Due q n kind
  | .spin kind g =>
    s.exit x = g ∧ s.flag x ≠ 0 ∧ s.passed T x = n ∧ Due q n kind ∨
      s.exit x = g + 1 ∧ s.flag x = 0 ∧ s.passed T x + passes kind = n ∧ (kind = .dock → n = 0)
  | .work => s.flag x = 0 ∧ s.passed T x = n ∧ n = 0
  | _ => s.flag x = 0 ∧ s.passed T x = n

def Obeys (s : State) (q T x : Nat) : Told → Prop
  | .held kind n => ∃ g, s.pc x = .spin kind g ∧ s.exit x = g ∧ s.flag x = 0 ∧ s.passed T x = n
  | .loose n => Loose s q T x n (s.pc x)

def Docked (s : State) (x : Nat) : Prop := ∃ g, s.pc x = .spin .dock g ∧ s.exit x = g ∧ s.flag x = 0

/-- The team that core `x` is a slave of: what is left when its own regions are closed. -/
def State.home (s : State) (x : Nat) : Option Nat :=
  match (s.opened x).getLast? with
  | some U => (s.taken U).outer
  | none =>
    match s.pc x with
    | .endSignal U | .unlink U => (s.taken U).outer
    | _ => s.g.currTeam x

section Invariant

variable (barriers : Nat → Nat) (nprocs : Nat)

/-- What holds of a core at each place, besides `TeamAlloc.PcOk`. -/
def PcOk (s : State) (c : Nat) : Pc → Prop
  | .enter _ | .announce _ _ | .spin _ _ | .work => c ≠ MASTER_ID ∧ s.opened c = []
  | .fetch T => ∀ x, s.passed T x = 0
  | .startSignal T | .link T => s.passed T c = 0
  | .release kind T i => (s.opened c).head? = some T ∧ 1 ≤ i ∧ (kind = .dock → s.passed T c = 0)
  | .store kind T i exit =>
    (s.opened c).head? = some T ∧ 1 ≤ i ∧ (kind = .dock → s.passed T c = 0) ∧ i < (s.g.teams T).nthreads ∧
      exit = s.exit ((s.g.teams T).proc_ids i)
  | .gather kind T i => (s.opened c).head? = some T ∧ 1 ≤ i ∧ Due (quota barriers s T) (s.passed T c) kind
  | .reset kind T i =>
    (s.opened c).head? = some T ∧ 1 ≤ i ∧ Due (quota barriers s T) (s.passed T c) kind ∧ i < (s.g.teams T).nthreads ∧
      s.flag ((s.g.teams T).proc_ids i) ≠ 0
  | _ => True

structure Inv (s : State) : Prop where
  alloc : TeamAlloc.Inv nprocs (s.abs nprocs)
  places : ∀ c < nprocs, PcOk barriers s c (s.pc c)
  free : ∀ x < nprocs, x ∉ bits s.g.threadPool → Docked s x
  owned : ∀ x ∈ bits s.g.threadPool, x ≠ MASTER_ID → ∃ c, ∃ T ∈ s.opened c, x ∈ (s.g.teams T).slaves
  home : ∀ c, ∀ T ∈ s.opened c, ∀ x ∈ (s.g.teams T).slaves, s.home x = some T
  obeys : ∀ c, ∀ T ∈ s.opened c, ∀ j, 1 ≤ j → j < (s.g.teams T).nthreads →
    Obeys s (quota barriers s T) T ((s.g.teams T).proc_ids j) ((s.pc c).told T (s.passed T c) j)

end Invariant

/-! ## What a step leaves alone -/

section Frame

variable {barriers : Nat → Nat} {nprocs c d x T U j q n : Nat} {s t : State} {w : Told} {p : Pc}

theorem Obeys.congr (hpc : t.pc x = s.pc x) (hexit : t.exit x = s.exit x) (hflag : t.flag x = s.flag x)
    (hpassed : t.passed T x = s.passed T x) (h : Obeys s q T x w) : Obeys t q T x w := by
  cases w with
  | held kind n =>
    obtain ⟨g, h1, h2, h3, h4⟩ := h
    exact ⟨g, hpc.trans h1, hexit.trans h2, hflag.trans h3, hpassed.trans h4⟩
  | loose n =>
    simp only [Obeys, hpc] at h ⊢
    cases hp : s.pc x <;> simp only [hp, Loose, hexit, hflag, hpassed] at h ⊢ <;> exact h

/-- The frame of a step of core `c`. -/
structure Moves (nprocs : Nat) (s t : State) (c : Nat) : Prop where
  pc : ∀ d ≠ c, t.pc d = s.pc d
  opened : ∀ d ≠ c, t.opened d = s.opened d
  teams : ∀ d, ∀ T ∈ s.opened d, (t.g.teams T).nthreads = (s.g.teams T).nthreads ∧
    (t.g.teams T).proc_ids = (s.g.teams T).proc_ids ∧ t.task T = s.task T
  outer : ∀ T < s.g.nextTeam, (t.taken T).outer = (s.taken T).outer
  currTeam : ∀ d ≠ c, d ∈ bits s.g.threadPool → t.g.currTeam d = s.g.currTeam d
  words : ∀ x < nprocs, x ≠ c →
    t.exit x = s.exit x ∧ t.flag x = s.flag x ∨ ∃ T ∈ s.opened c, x ∈ (s.g.teams T).slaves
  exit : t.exit c = s.exit c
  flag : s.flag c ≠ 0 → t.flag c ≠ 0
  passed : ∀ T < s.g.nextTeam, ∀ x, t.passed T x = s.passed T x ∨ x = c ∧ ∃ d, T ∈ s.opened d

theorem slaves_congr {t t' : TeamAlloc.Team} (hn : t'.nthreads = t.nthreads) (hp : t'.proc_ids = t.proc_ids) :
    t'.slaves = t.slaves := by
  rw [Team.slaves, Team.slaves, hn, hp]

theorem Moves.slaves (hm : Moves nprocs s t c) (hT : T ∈ s.opened d) : (t.g.teams T).slaves = (s.g.teams T).slaves :=
  slaves_congr (hm.teams d T hT).1 (hm.teams d T hT).2.1

theorem Moves.quota (hm : Moves nprocs s t c) (hT : T ∈ s.opened d) : quota barriers t T = quota barriers s T := by
  rw [Region.quota, Region.quota, (hm.teams d T hT).2.2]

namespace Inv

theorem live (hs : Inv barriers nprocs s) (hT : T ∈ s.opened c) : TeamAlloc.Live nprocs (s.abs nprocs) c T :=
  (hs.alloc.cores c).live T hT

theorem formed (hs : Inv barriers nprocs s) (hT : T ∈ s.opened c) : (s.g.teams T).Formed nprocs c :=
  (hs.live hT).formed

/-- A slave is not the master of the team. -/
theorem slave_ne (hs : Inv barriers nprocs s) (hT : T ∈ s.opened c) (hx : x ∈ (s.g.teams T).slaves) : x ≠ c := by
  rintro rfl
  exact (hs.formed hT).master_not_slave hx

theorem slave_lt (hs : Inv barriers nprocs s) (hT : T ∈ s.opened c) (hx : x ∈ (s.g.teams T).slaves) : x < nprocs :=
  ((hs.formed hT).range x hx).2

theorem not_shared (hs : Inv barriers nprocs s) (hd : d ≠ c) (hT : T ∈ s.opened d) (hU : U ∈ s.opened c)
    (hx : x ∈ (s.g.teams T).slaves) : x ∉ (s.g.teams U).slaves :=
  hs.alloc.not_shared hd hT hU hx

/-- The words of a thread of another master. -/
theorem other_words (hs : Inv barriers nprocs s) (hm : Moves nprocs s t c) (hd : d ≠ c) (hT : T ∈ s.opened d)
    (hx : x ∈ (s.g.teams T).slaves) (hxc : x ≠ c) : t.exit x = s.exit x ∧ t.flag x = s.flag x :=
  (hm.words x (hs.slave_lt hT hx) hxc).resolve_right fun ⟨_, hU, hxU⟩ => hs.not_shared hd hT hU hx hxU

theorem passed_ne (hs : Inv barriers nprocs s) (hm : Moves nprocs s t c) (hT : T ∈ s.opened d) (hxc : x ≠ c) :
    t.passed T x = s.passed T x :=
  (hm.passed T (hs.live hT).lt x).resolve_right fun h => hxc h.1

theorem home_ne (hs : Inv barriers nprocs s) (hm : Moves nprocs s t c) (hx : x ∈ bits s.g.threadPool) (hxc : x ≠ c) :
    t.home x = s.home x := by
  have hlt := hs.alloc.pool x hx
  unfold State.home
  rw [hm.opened x hxc, hm.pc x hxc, hm.currTeam x hxc hx]
  cases hlast : (s.opened x).getLast? with
  | some U => exact hm.outer U (hs.live (List.mem_of_getLast? hlast)).lt
  | none =>
    cases hp : s.pc x with
    | endSignal U => exact hm.outer U (hs.alloc.at (absPc_self hlt hp)).1
    | unlink U => exact hm.outer U (hs.alloc.at (absPc_self hlt hp)).1
    | _ => rfl

/-- A step of core `c` keeps where core `d` may be. -/
theorem places_ne (hs : Inv barriers nprocs s) (hm : Moves nprocs s t c) (hd : d ≠ c) (hlt : d < nprocs) :
    PcOk barriers t d (t.pc d) := by
  have h := hs.places d hlt
  rw [hm.pc d hd]
  have hop := hm.opened d hd
  have habs := hs.alloc.at (absPc_self hlt rfl)
  have hhead : ∀ {T}, (s.opened d).head? = some T → T ∈ s.opened d := fun h => List.mem_of_head? h
  have hpassed : ∀ {T}, T < s.g.nextTeam → t.passed T d = s.passed T d := fun hT =>
    (hm.passed _ hT d).resolve_right fun h => hd h.1
  -- thread `i` of a team that `d` has open may be `c`
  have hwords : ∀ {T i}, T ∈ s.opened d → 1 ≤ i → i < (s.g.teams T).nthreads →
      t.exit ((s.g.teams T).proc_ids i) = s.exit ((s.g.teams T).proc_ids i) ∧
        (s.flag ((s.g.teams T).proc_ids i) ≠ 0 → t.flag ((s.g.teams T).proc_ids i) ≠ 0) := by
    intro T i hT h1 hi
    have hx : (s.g.teams T).proc_ids i ∈ (s.g.teams T).slaves := Team.Formed.slave h1 hi
    by_cases hxc : (s.g.teams T).proc_ids i = c
    · rw [hxc]
      exact ⟨hm.exit, hm.flag⟩
    · obtain ⟨h1, h2⟩ := hs.other_words hm hd hT hx hxc
      exact ⟨h1, fun h => by rwa [h2]⟩
  cases hp : s.pc d with
  | enter _ | announce _ _ | spin _ _ | work =>
    rw [hp] at h
    exact ⟨h.1, hop.trans h.2⟩
  | fetch T =>
    rw [hp] at h habs
    intro x
    exact ((hm.passed T habs.2.lt x).resolve_right fun ⟨_, e, he⟩ => habs.2.closed e he).trans (h x)
  | startSignal T | link T =>
    rw [hp] at h habs
    exact (hpassed (hs.live (hhead habs.1)).lt).trans h
  | release kind T i =>
    rw [hp] at h
    obtain ⟨h1, h2, h3⟩ := h
    exact ⟨by rw [hop, h1], h2, fun hk => (hpassed (hs.live (hhead h1)).lt).trans (h3 hk)⟩
  | store kind T i exit =>
    rw [hp] at h
    obtain ⟨h1, h2, h3, h4, h5⟩ := h
    obtain ⟨hn, hids, -⟩ := hm.teams d T (hhead h1)
    refine ⟨by rw [hop, h1], h2, fun hk => (hpassed (hs.live (hhead h1)).lt).trans (h3 hk), by rw [hn]; exact h4, ?_⟩
    rw [hids, (hwords (hhead h1) h2 h4).1]
    exact h5
  | gather kind T i =>
    rw [hp] at h
    obtain ⟨h1, h2, h3⟩ := h
    refine ⟨by rw [hop, h1], h2, ?_⟩
    rw [hm.quota (hhead h1), hpassed (hs.live (hhead h1)).lt]
    exact h3
  | reset kind T i =>
    rw [hp] at h
    obtain ⟨h1, h2, h3, h4, h5⟩ := h
    obtain ⟨hn, hids, -⟩ := hm.teams d T (hhead h1)
    refine ⟨by rw [hop, h1], h2, ?_, by rw [hn]; exact h4, ?_⟩
    · rw [hm.quota (hhead h1), hpassed (hs.live (hhead h1)).lt]
      exact h3
    · rw [hids]
      exact (hwords (hhead h1) h2 h4).2 h5
  | _ => trivial

theorem obeys_ne (hs : Inv barriers nprocs s) (hm : Moves nprocs s t c) (hd : d ≠ c) (hT : T ∈ s.opened d)
    (hx : x ∈ (s.g.teams T).slaves) (hxc : x ≠ c) (h : Obeys s q T x w) : Obeys t q T x w := by
  obtain ⟨h1, h2⟩ := hs.other_words hm hd hT hx hxc
  exact h.congr (hm.pc x hxc) h1 h2 (hs.passed_ne hm hT hxc)

end Inv

/-- **The frame**: a step of core `c` keeps the invariant if it does so for `c` as a thread of its team, and for the
threads of the teams that `c` has open. -/
theorem Inv.of_moves (hs : Inv barriers nprocs s) (hm : Moves nprocs s t c) (hc : c ∈ bits s.g.threadPool)
    (halloc : TeamAlloc.Inv nprocs (t.abs nprocs)) (hplace : PcOk barriers t c (t.pc c))
    (hhome : t.home c = s.home c)
    (hslave : ∀ d, ∀ T ∈ s.opened d, ∀ w, c ∈ (s.g.teams T).slaves →
      Obeys s (quota barriers s T) T c w → Obeys t (quota barriers s T) T c w)
    (hmaster : ∀ T ∈ t.opened c, ∀ j, 1 ≤ j → j < (t.g.teams T).nthreads →
      Obeys t (quota barriers t T) T ((t.g.teams T).proc_ids j) ((t.pc c).told T (t.passed T c) j))
    (hnew : ∀ T ∈ t.opened c, T ∈ s.opened c ∨ ∀ x ∈ (t.g.teams T).slaves, t.home x = some T)
    (hfree : ∀ x < nprocs, x ∉ bits t.g.threadPool → x ∉ bits s.g.threadPool ∨ Docked t x)
    (howned : ∀ x ∈ bits t.g.threadPool, x ≠ MASTER_ID → ∃ d, ∃ T ∈ t.opened d, x ∈ (t.g.teams T).slaves) :
    Inv barriers nprocs t := by
  refine ⟨halloc, fun d hlt => ?_, fun x hlt hx => ?_, howned, fun d T hT x hx => ?_, fun d T hT j hj1 hj => ?_⟩
  · by_cases hd : d = c
    · exact hd ▸ hplace
    · exact hs.places_ne hm hd hlt
  · rcases hfree x hlt hx with hxs | hdock
    · -- a core that is in no team is not touched
      obtain ⟨g, h1, h2, h3⟩ := hs.free x hlt hxs
      have hxc : x ≠ c := by
        rintro rfl
        exact hxs hc
      obtain ⟨he, hf⟩ := (hm.words x hlt hxc).resolve_right fun ⟨T, hT, hxT⟩ => hxs ((hs.live hT).pool hxT)
      exact ⟨g, (hm.pc x hxc).trans h1, he.trans h2, hf.trans h3⟩
    · exact hdock
  · have hold : T ∈ s.opened d → t.home x = some T := by
      intro hTs
      rw [hm.slaves hTs] at hx
      by_cases hxc : x = c
      · subst hxc
        exact hhome.trans (hs.home d T hTs x hx)
      · exact (hs.home_ne hm ((hs.live hTs).pool hx) hxc).trans (hs.home d T hTs x hx)
    by_cases hd : d = c
    · subst hd
      rcases hnew T hT with hTs | h
      · exact hold hTs
      · exact h x hx
    · rw [hm.opened d hd] at hT
      exact hold hT
  · by_cases hd : d = c
    · subst hd
      exact hmaster T hT j hj1 hj
    · rw [hm.opened d hd] at hT
      obtain ⟨hn, hids, -⟩ := hm.teams d T hT
      rw [hn] at hj
      have hx : (s.g.teams T).proc_ids j ∈ (s.g.teams T).slaves := Team.Formed.slave hj1 hj
      have h := hs.obeys d T hT j hj1 hj
      rw [hm.pc d hd, hids, hm.quota hT, hs.passed_ne hm hT hd]
      by_cases hxc : (s.g.teams T).proc_ids j = c
      · rw [hxc] at h hx ⊢
        exact hslave d T hT _ hx h
      · exact hs.obeys_ne hm hd hT hx hxc h

end Frame

end VirtualSoc.Gomp.Region
