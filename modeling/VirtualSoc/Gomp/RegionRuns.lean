import Mathlib.Data.Finset.Card
import VirtualSoc.Gomp.RegionLife

/-!
# Runs of the parallel regions (libgomp/libgomp.c, parallel.c, barrier.c, config/vsoc/bar_sw.c)

What holds in every state that nested regions reach, in whatever order the cores make their accesses.

* `regions_refine`: the allocation of teams over the words of the barrier is the one with an atomic dock.
* `task_once`: every slave of a team calls the task of the team once, between the start and the end of the region.
* `region_barrier`: no thread of a team is past a barrier that another one has not come to.
* `regions_never_stuck`: the library alone never deadlocks.
-/

namespace VirtualSoc.Gomp.Region

open Mask Barrier TeamAlloc

/-! ## Two runs -/

/-- The calls of core `c` and the accesses that they make, with two threads. -/
def opening (c fn : Nat) : List Act := .start c fn 0 2 :: List.replicate 8 (.go c)

def ending (c : Nat) : List Act := .finish c :: List.replicate 8 (.go c)

/-- Core 1, in a task of one barrier, opens a region of its own; then the master leaves the barrier. -/
def masterFirst : List Act :=
  opening 0 1 ++ List.replicate 2 (.go 1) ++ opening 1 0 ++ List.replicate 2 (.go 2) ++
    .ret 2 :: List.replicate 2 (.go 2) ++ ending 1 ++
    .barrier 1 :: List.replicate 2 (.go 1) ++ .barrier 0 :: List.replicate 6 (.go 0)

/-- All of it. -/
def nestedRegion : List Act := masterFirst ++ .go 1 :: .ret 1 :: List.replicate 2 (.go 1) ++ ending 0

theorem nestedRegion_runs : (Trans.run (step id 4) (init 4 fun _ => 0) nestedRegion).isSome = true := by decide +kernel

section Runs

variable {barriers : Nat → Nat} {nprocs c d x y T i j n : Nat} {s : State} {kind : Kind} {mem : Nat → Int32}
  {as : List Act}

/-- **Refinement**: every run is one of the allocation of teams, where a slave goes to the dock, is gathered and is
released in one step each. -/
theorem regions_refine (hone : 1 ≤ nprocs) (hprocs : nprocs ≤ 16) (hmem : ∀ x < nprocs, mem (MASTER_FLAG x) = 0)
    (hr : Trans.run (step barriers nprocs) (init nprocs mem) as = some s) :
    ∃ bs, Trans.run (TeamAlloc.step nprocs) (TeamAlloc.init nprocs) bs = some (s.abs nprocs) := by
  rw [← show (init nprocs mem).abs nprocs = TeamAlloc.init nprocs from init_abs hone]
  exact Trans.refines_of_sim (State.abs nprocs) (Inv barriers nprocs) (fun _ _ _ hs h => (hs.step_keeps hprocs h).inv)
    (fun _ _ _ hs h => (hs.step_keeps hprocs h).sim) (inv_init hone hmem) hr

theorem regions_refine_nested :
    ∃ s bs, Trans.run (step id 4) (init 4 fun _ => 0) nestedRegion = some s ∧
      Trans.run (TeamAlloc.step 4) (TeamAlloc.init 4) bs = some (s.abs 4) := by
  obtain ⟨s, hs⟩ := Option.isSome_iff_exists.1 nestedRegion_runs
  obtain ⟨bs, hbs⟩ := regions_refine (by decide) (by decide) (fun _ _ => rfl) hs
  exact ⟨s, bs, hs, hbs⟩

/-- **A region runs its task once**: whatever the nesting and the order of the accesses, what is seen between team `T`
and core `x` is a part of one life, or all of it, with one task; when the region is closed it is all or nothing. -/
theorem task_once (hone : 1 ≤ nprocs) (hprocs : nprocs ≤ 16)
    (hmem : ∀ x < nprocs, mem (MASTER_FLAG x) = 0)
    (hr : Trans.run (step barriers nprocs) (init nprocs mem) as = some s) (T x : Nat) :
    ∃ task, Trans.trace (step barriers nprocs) (events nprocs T x) (init nprocs mem) as <+: wholeLife task ∧
      ((∀ c, T ∉ s.opened c) →
        Trans.trace (step barriers nprocs) (events nprocs T x) (init nprocs mem) as = [] ∨
        Trans.trace (step barriers nprocs) (events nprocs T x) (init nprocs mem) as = wholeLife task) := by
  have hinit : Lives nprocs (init nprocs mem) T x .absent := Or.inr ⟨fun _ hT => (nomatch hT), Or.inl rfl⟩
  obtain ⟨ph, hph, -, hl⟩ := Trans.accepts_of_sim (fun s ph => Inv barriers nprocs s ∧ Lives nprocs s T x ph)
    (fun s a t ph hR _ h => by
      obtain ⟨ph', hph, hl⟩ := lives_step hR.1 hprocs h hR.2
      exact ⟨ph', hph, (hR.1.step_keeps hprocs h).inv, hl⟩)
    ⟨inv_init hone hmem, hinit⟩ (Trans.along_true _ as) hr
  obtain ⟨task, htrace, -⟩ := life_prefix hph
  refine ⟨task, ?_, fun hclosed => ?_⟩
  · rw [htrace]
    exact List.take_prefix ..
  · rw [htrace]
    rcases hl with ⟨c, j, hT, -⟩ | ⟨-, rfl | ⟨rfl, -⟩⟩
    · exact absurd hT (hclosed c)
    · exact Or.inl rfl
    · exact Or.inr rfl

theorem task_once_nested :
    ∃ s task, Trans.run (step id 4) (init 4 fun _ => 0) nestedRegion = some s ∧
      Trans.trace (step id 4) (events 4 2 2) (init 4 fun _ => 0) nestedRegion <+: wholeLife task := by
  obtain ⟨s, hs⟩ := Option.isSome_iff_exists.1 nestedRegion_runs
  obtain ⟨task, htask, -⟩ := task_once (by decide) (by decide) (fun _ _ => rfl) hs 2 2
  exact ⟨s, task, hs, htask⟩

/-! ## Barriers -/

/-- Core `y` is at a barrier of team `T`: as a slave it has set its flag. -/
def State.atBarrier (s : State) (T y : Nat) : Bool :=
  match s.pc y with
  | .spin .barrier _ => true
  | .gather .barrier U _ | .reset .barrier U _ | .release .barrier U _ | .store .barrier U _ _ => U == T
  | _ => false

/-- Core `y` has come to barrier `n` of team `T`. -/
def Reached (s : State) (T y n : Nat) : Prop := n < s.passed T y ∨ n = s.passed T y ∧ s.atBarrier T y = true

/-- The master lets its team pass a barrier. -/
def Pc.releasing (T : Nat) : Pc → Bool
  | .release .barrier U _ | .store .barrier U _ _ => U == T
  | _ => false

/-- The barriers that the master has begun to let pass. -/
def State.begun (s : State) (T c : Nat) : Nat := s.passed T c + if (s.pc c).releasing T then 1 else 0

theorem told_begun : (s.pc c).told T (s.passed T c) j = .loose (s.begun T c) ∨
    ∃ kind, (s.pc c).told T (s.passed T c) j = .held kind (s.passed T c) ∧
      (s.begun T c = s.passed T c ∨ kind = .barrier ∧ s.begun T c = s.passed T c + 1) := by
  unfold State.begun
  cases s.pc c with
  | release kind U i | store kind U i _ =>
    by_cases hU : U = T
    · by_cases hi : j < i <;> cases kind <;> simp [Pc.told, Pc.releasing, passes, hU, hi]
    · cases kind <;> simp [Pc.told, Pc.releasing, hU]
  | gather kind U i | reset kind U i =>
    by_cases hU : U = T ∧ j < i <;> simp [Pc.told, Pc.releasing, hU]
  | startSignal U | link U | endWait U | giveIdle U | givePool U =>
    by_cases hU : U = T <;> simp [Pc.told, Pc.releasing, hU]
  | _ => exact Or.inl rfl

/-- A thread that is loose has come to the barriers that it was let pass. -/
theorem loose_reached {q : Nat} (h : Loose s q T x n (s.pc x)) :
    s.passed T x ≤ n ∧ ∀ k < n, Reached s T x k := by
  cases hp : s.pc x with
  | spin kind g =>
    rw [hp] at h
    rcases h with ⟨-, -, hn, -⟩ | ⟨-, -, hn, -⟩
    · exact ⟨Nat.le_of_eq hn, fun k hk => Or.inl (hn ▸ hk)⟩
    · cases kind with
      | dock => exact ⟨Nat.le_of_eq hn, fun k hk => Or.inl (Nat.lt_of_lt_of_eq hk hn.symm)⟩
      | barrier =>
        have hn : s.passed T x + 1 = n := hn
        refine ⟨by omega, fun k hk => ?_⟩
        rcases Nat.lt_or_ge k (s.passed T x) with hlt | hge
        · exact Or.inl hlt
        · exact Or.inr ⟨by omega, by rw [State.atBarrier, hp]⟩
  | enter kind =>
    rw [hp] at h
    exact ⟨Nat.le_of_eq h.2.1, fun k hk => Or.inl (h.2.1 ▸ hk)⟩
  | announce kind g =>
    rw [hp] at h
    exact ⟨Nat.le_of_eq h.2.2.1, fun k hk => Or.inl (h.2.2.1 ▸ hk)⟩
  | work =>
    rw [hp] at h
    exact ⟨Nat.le_of_eq h.2.1, fun k hk => Or.inl (h.2.1 ▸ hk)⟩
  | _ =>
    rw [hp] at h
    exact ⟨Nat.le_of_eq h.2, fun k hk => Or.inl (h.2 ▸ hk)⟩

/-- No thread is past what the master lets pass, and every thread has come to that. -/
theorem Inv.thread_reached (hs : Inv barriers nprocs s) (hT : T ∈ s.opened c) (hx : x ∈ (s.g.teams T).slaves) :
    s.passed T x ≤ s.begun T c ∧ ∀ k < s.begun T c, Reached s T x k := by
  obtain ⟨j, ⟨hj1, hj⟩, rfl⟩ := Team.mem_slaves.1 hx
  have h := hs.obeys c T hT j hj1 hj
  rcases told_begun (s := s) (c := c) (T := T) (j := j) with htold | ⟨kind, htold, hn⟩
  · rw [htold] at h
    exact loose_reached h
  · rw [htold] at h
    obtain ⟨g, hp, -, -, hpassed⟩ := h
    refine ⟨by omega, fun k hk => ?_⟩
    rcases Nat.lt_or_ge k (s.passed T c) with hlt | hge
    · exact Or.inl (hpassed ▸ hlt)
    · obtain ⟨rfl, -⟩ := hn.resolve_left (by omega)
      exact Or.inr ⟨by omega, by rw [State.atBarrier, hp]⟩

theorem master_reached : s.passed T c ≤ s.begun T c ∧ ∀ k < s.begun T c, Reached s T c k := by
  unfold State.begun
  refine ⟨Nat.le_add_right .., fun k hk => ?_⟩
  rcases Nat.lt_or_ge k (s.passed T c) with hlt | hge
  · exact Or.inl hlt
  · split at hk
    · rename_i hrel
      refine Or.inr ⟨by omega, ?_⟩
      unfold Pc.releasing at hrel
      unfold State.atBarrier
      split at hrel
      · simp only [*]
      · simp only [*]
      · cases hrel
    · omega

/-- **Barriers of a region**: no thread of a team has passed a barrier that another one has not come to. -/
theorem region_barrier (hone : 1 ≤ nprocs) (hprocs : nprocs ≤ 16) (hmem : ∀ x < nprocs, mem (MASTER_FLAG x) = 0)
    (hr : Trans.run (step barriers nprocs) (init nprocs mem) as = some s) (hT : T ∈ s.opened c)
    (hx : x ∈ insert c (s.g.teams T).slaves) (hy : y ∈ insert c (s.g.teams T).slaves) (hn : n < s.passed T x) :
    Reached s T y n := by
  have hs := run_inv hone hprocs hmem hr
  have hreached : ∀ z ∈ insert c (s.g.teams T).slaves,
      s.passed T z ≤ s.begun T c ∧ ∀ k < s.begun T c, Reached s T z k := by
    intro z hz
    rcases Finset.mem_insert.1 hz with rfl | hz
    · exact master_reached
    · exact hs.thread_reached hT hz
  exact (hreached y hy).2 n (Nat.lt_of_lt_of_le hn (hreached x hx).1)

theorem region_barrier_masterFirst :
    ∃ s, Trans.run (step id 4) (init 4 fun _ => 0) masterFirst = some s ∧ s.passed 1 1 = 0 ∧ Reached s 1 1 0 := by
  have hfacts : (Trans.run (step id 4) (init 4 fun _ => 0) masterFirst).map
      (fun s => (s.opened 0, s.passed 1 0, s.passed 1 1, decide (1 ∈ (s.g.teams 1).slaves))) = some ([1], 1, 0, true) := by
    decide +kernel
  obtain ⟨s, hs, hat⟩ := Option.map_eq_some_iff.1 hfacts
  simp only [Prod.mk.injEq, decide_eq_true_eq] at hat
  obtain ⟨hop, h0, h1, hx⟩ := hat
  exact ⟨s, hs, h1, region_barrier (c := 0) (by decide) (by decide) (fun _ _ => rfl) hs (by simp [hop])
    (Finset.mem_insert_self ..) (Finset.mem_insert_of_mem hx) (by omega)⟩

/-! ## Progress -/

/-- Core `c` is in the library and cannot go on: it is held at a barrier, the thread that it gathers has not come, or
another core has the lock. -/
def Stuck (s : State) (c : Nat) : Prop :=
  match s.pc c with
  | .spin _ g => s.exit c = g
  | .gather _ T i => i < (s.g.teams T).nthreads ∧ s.flag ((s.g.teams T).proc_ids i) = 0
  | .startWait _ _ _ | .endWait _ => s.lock ≠ none
  | _ => False

namespace Inv

theorem go_or_stuck (hs : Inv barriers nprocs s) (hc : c < nprocs) (hrun : s.pc c ≠ .running) :
    (∃ t, step barriers nprocs s (.go c) = some t) ∨ Stuck s c := by
  have hgo : step barriers nprocs s (.go c) = stepGo nprocs s c := if_pos hc
  rw [hgo]
  unfold stepGo Stuck
  cases hp : s.pc c with
  | running => exact absurd hp hrun
  | spin kind g =>
    by_cases hg : s.exit c = g
    · exact Or.inr hg
    · refine Or.inl ?_
      simp only [if_neg hg]
      cases kind with
      | dock => exact ⟨_, rfl⟩
      | barrier =>
        obtain ⟨hpool, hc0, hop, -, -⟩ := hs.released hc hp hg
        obtain ⟨d, T, -, -, hT⟩ := hs.team_of_closed hpool hc0 hop fun U => by simp [hp]
        exact ⟨_, by rw [hT]; rfl⟩
  | work =>
    obtain ⟨hc0, hop⟩ : PcOk barriers s c .work := hp ▸ hs.places c hc
    have hpool : c ∈ bits s.g.threadPool := hs.active (by rw [absPc_self hc hp]; exact fun h => nomatch h)
    obtain ⟨d, T, -, -, hT⟩ := hs.team_of_closed hpool hc0 hop fun U => by simp [hp]
    exact Or.inl ⟨_, by simp only [hT]; rfl⟩
  | startWait fn data specified =>
    by_cases hlock : s.lock = none
    · exact Or.inl ⟨_, if_pos hlock⟩
    · exact Or.inr hlock
  | endWait T =>
    by_cases hlock : s.lock = none
    · exact Or.inl ⟨_, if_pos hlock⟩
    · exact Or.inr hlock
  | release kind T i =>
    by_cases hi : i < (s.g.teams T).nthreads
    · exact Or.inl ⟨_, if_pos hi⟩
    · cases kind <;> exact Or.inl ⟨_, if_neg hi⟩
  | gather kind T i =>
    by_cases hi : i < (s.g.teams T).nthreads
    · by_cases hf : s.flag ((s.g.teams T).proc_ids i) = 0
      · exact Or.inr ⟨hi, hf⟩
      · exact Or.inl ⟨_, by simp only [if_pos hi, if_neg hf]; rfl⟩
    · refine Or.inl ?_
      simp only [if_neg hi]
      cases kind with
      | dock =>
        have hcur : s.g.currTeam c = some T := (hs.alloc.at (absPc_self hc hp)).2.1
        exact ⟨_, by rw [hcur]; rfl⟩
      | barrier => exact ⟨_, rfl⟩
  | _ => exact Or.inl ⟨_, rfl⟩

/-- The holder of the lock goes on. -/
theorem not_stuck_of_lock (hs : Inv barriers nprocs s) (hlock : s.lock = some c) :
    c < nprocs ∧ s.pc c ≠ .running ∧ ¬ Stuck s c := by
  have hcrit : (s.absPc nprocs c).critical = true := (hs.alloc.cores c).holder.1 hlock
  have hc : c < nprocs := by
    by_contra hge
    rw [State.absPc, if_neg hge] at hcrit
    cases hcrit
  rw [absPc_self hc rfl] at hcrit
  refine ⟨hc, fun hp => ?_, fun hstuck => ?_⟩
  · rw [hp] at hcrit
    cases hcrit
  · unfold Stuck at hstuck
    split at hstuck
    · rename_i kind g hp
      rw [hp] at hcrit
      cases kind
      · cases hcrit
      · simp [Pc.abs, hstuck, TeamAlloc.Pc.critical] at hcrit
    · rename_i kind T i hp
      rw [hp] at hcrit
      cases kind <;> cases hcrit
    · rename_i hp
      rw [hp] at hcrit
      cases hcrit
    · rename_i hp
      rw [hp] at hcrit
      cases hcrit
    · exact hstuck

/-- A master that waits for a thread which is stuck: the thread waits in a region of its own. -/
theorem stuck_thread (hs : Inv barriers nprocs s) (hc : c < nprocs) (hlock : s.lock = none)
    (hpc : s.pc c = .gather kind T i) (hi : i < (s.g.teams T).nthreads) (hf : s.flag ((s.g.teams T).proc_ids i) = 0)
    (hstuck : Stuck s ((s.g.teams T).proc_ids i)) :
    T ∈ s.opened c ∧ (s.g.teams T).proc_ids i ∈ (s.g.teams T).slaves ∧
      ∃ k U j, s.pc ((s.g.teams T).proc_ids i) = .gather k U j := by
  obtain ⟨hhead, hi1, -⟩ : PcOk barriers s c (.gather kind T i) := hpc ▸ hs.places c hc
  have hT : T ∈ s.opened c := List.mem_of_head? hhead
  refine ⟨hT, Team.Formed.slave hi1 hi, ?_⟩
  have h := hs.obeys c T hT i hi1 hi
  simp only [hpc, Pc.told, Nat.lt_irrefl, and_false, if_false, Obeys] at h
  unfold Stuck at hstuck
  split at hstuck
  · rename_i kind' g hp
    rw [hp] at h
    rcases h with ⟨-, hne, -⟩ | ⟨he, -⟩
    · exact absurd hf hne
    · exact absurd (he.symm.trans hstuck) (add_one_ne_self g)
  · exact ⟨_, _, _, ‹_›⟩
  · exact absurd hlock hstuck
  · exact absurd hlock hstuck
  · exact hstuck.elim

end Inv

/-- **No deadlock**: at any time some core runs user code, or is in the library and can go on. -/
theorem regions_never_stuck (hone : 1 ≤ nprocs) (hprocs : nprocs ≤ 16) (hmem : ∀ x < nprocs, mem (MASTER_FLAG x) = 0)
    (hr : Trans.run (step barriers nprocs) (init nprocs mem) as = some s) :
    ∃ c < nprocs, s.pc c = .running ∨ ∃ t, step barriers nprocs s (.go c) = some t := by
  classical
  have hs := run_inv hone hprocs hmem hr
  by_contra hall
  push Not at hall
  have hstuck : ∀ c < nprocs, Stuck s c := fun c hc =>
    (hs.go_or_stuck hc (hall c hc).1).resolve_left fun ⟨t, ht⟩ => (hall c hc).2 t ht
  have hlock : s.lock = none := by
    cases hl : s.lock with
    | none => rfl
    | some c =>
      obtain ⟨hc, -, hgo⟩ := hs.not_stuck_of_lock hl
      exact absurd (hstuck c hc) hgo
  -- the masters that wait for a thread, and for which thread
  let W := (Finset.range nprocs).filter fun c => ∃ k T i, s.pc c = .gather k T i
  have hnext : ∀ c ∈ W, ∃ x ∈ W, ∃ T ∈ s.opened c, x ∈ (s.g.teams T).slaves := by
    intro c hW
    obtain ⟨hc, k, T, i, hp⟩ := Finset.mem_filter.1 hW
    have hc := Finset.mem_range.1 hc
    have hstk := hstuck c hc
    unfold Stuck at hstk
    rw [hp] at hstk
    obtain ⟨hi, hf⟩ := hstk
    obtain ⟨hhead, hi1, -⟩ : PcOk barriers s c (.gather k T i) := hp ▸ hs.places c hc
    have hlt := hs.slave_lt (List.mem_of_head? hhead) (Team.Formed.slave hi1 hi)
    obtain ⟨hT, hx, hg⟩ := hs.stuck_thread hc hlock hp hi hf (hstuck _ hlt)
    exact ⟨_, Finset.mem_filter.2 ⟨Finset.mem_range.2 hlt, hg⟩, T, hT, hx⟩
  choose next hmem hopened using hnext
  -- every thread has one master, so the master of all would be a thread
  have hinj : ∀ c d, (hc : c ∈ W) → (hd : d ∈ W) → next c hc = next d hd → c = d := by
    intro c d hc hd he
    by_contra hne
    obtain ⟨T, hT, hx⟩ := hopened c hc
    obtain ⟨U, hU, hy⟩ := hopened d hd
    exact hs.not_shared hne hT hU hx (he ▸ hy)
  have hroot : MASTER_ID ∈ W := by
    have hstk := hstuck MASTER_ID hone
    have hplace := hs.places MASTER_ID hone
    unfold Stuck at hstk
    split at hstk
    · rename_i hp
      rw [hp] at hplace
      exact absurd rfl hplace.1
    · exact Finset.mem_filter.2 ⟨Finset.mem_range.2 hone, _, _, _, ‹_›⟩
    · exact absurd hlock hstk
    · exact absurd hlock hstk
    · exact hstk.elim
  obtain ⟨c, hc, he⟩ := Finset.surj_on_of_inj_on_of_card_le next hmem hinj (Nat.le_refl _) MASTER_ID hroot
  obtain ⟨T, hT, hx⟩ := hopened c hc
  have := ((hs.formed hT).range _ hx).1
  rw [← he] at this
  exact absurd this (by decide)

theorem regions_never_stuck_masterFirst :
    ∃ s, Trans.run (step id 4) (init 4 fun _ => 0) masterFirst = some s ∧
      ∃ c < 4, s.pc c = .running ∨ ∃ t, step id 4 s (.go c) = some t := by
  have hsome : (Trans.run (step id 4) (init 4 fun _ => 0) masterFirst).isSome = true := by decide +kernel
  obtain ⟨s, hs⟩ := Option.isSome_iff_exists.1 hsome
  exact ⟨s, hs, regions_never_stuck (by decide) (by decide) (fun _ _ => rfl) hs⟩

end Runs

end VirtualSoc.Gomp.Region
