import Mathlib.Logic.Function.Basic
import Mathlib.Order.Interval.Finset.Nat
import VirtualSoc.Lib.Mask

/-!
# Teams (libgomp/team.c, libgomp.c)

`GLOBAL_THREAD_POOL` has a bit for every core at work, `GLOBAL_IDLE_CORES` counts the others.
`gomp_team_start` takes cores from the pool under the global lock, `gomp_team_end` puts them back.
The critical sections are cut where they go from the one variable to the other. `unsigned` masks
are `BitVec 32`, ids and counts are naturals, and a pointer to a descriptor is its number. The
task, the locks and the work share of the descriptor are left out (the locks are in `LockAlloc`).

* `fetchLoop_spec`: what the loop over the pool does, whatever the pool.
-/

namespace VirtualSoc.Gomp.TeamAlloc

open Mask

def MASTER_ID : Nat := 0

/-- `gomp_team_t` (libgomp_globals.h:65). -/
structure Team where
  level : Nat := 0
  parent : Option Nat := none
  nthreads : Nat := 0
  team : BitVec 32 := 0
  proc_ids : Nat → Nat := fun _ => 0
  thread_ids : Nat → Nat := fun _ => 0

/-- The shared variables. `nextTeam` stands for the heap that descriptors come from. -/
structure Globals where
  idleCores : Nat
  threadPool : BitVec 32
  currTeam : Nat → Option Nat
  teams : Nat → Team
  nextTeam : Nat

/-- `gomp_resolve_num_threads` (team.c:30): the number of threads, and `GLOBAL_IDLE_CORES`
afterwards. -/
def resolveNumThreads (idleCores specified : Nat) : Nat × Nat :=
  let nthr := idleCores + 1
  let nthr := if specified ≠ 0 ∧ specified < nthr then specified else nthr
  (nthr, idleCores - (nthr - 1))

/-! ## `gomp_team_start` -/

/-- Up to the loop (team.c:135-163): the threads are counted off and the descriptor is set up for the
master alone. -/
def teamStartResolve (g : Globals) (myid specified : Nat) : Globals × Nat :=
  let (num_threads, idleCores) := resolveNumThreads g.idleCores specified
  let new_team : Team :=
    { nthreads := num_threads
      team := 0 ||| bit 32 myid
      thread_ids := Function.update (fun _ => 0) myid 0
      proc_ids := Function.update (fun _ => 0) 0 myid }
  ({ g with
      idleCores := idleCores
      teams := Function.update g.teams g.nextTeam new_team
      nextTeam := g.nextTeam + 1 },
    g.nextTeam)

/-- The variables of the loop. -/
structure Fetch where
  pool : BitVec 32
  team : Team
  currTeam : Nat → Option Nat
  num_threads : Nat
  local_id_gen : Nat
  mask : BitVec 32

/-- One round of the loop, for core `i`. -/
def fetchStep (new_team i : Nat) (f : Fetch) : Fetch :=
  let f :=
    if f.pool &&& f.mask = 0 then
      { f with
        pool := f.pool ||| f.mask
        team := { f.team with
          team := f.team.team ||| f.mask
          proc_ids := Function.update f.team.proc_ids f.local_id_gen i
          thread_ids := Function.update f.team.thread_ids i f.local_id_gen }
        local_id_gen := f.local_id_gen + 1
        currTeam := Function.update f.currTeam i (some new_team)
        num_threads := f.num_threads - 1 }
    else f
  { f with mask := f.mask <<< 1 }

/-- `for (i = 1, mask = 2; i < nprocs && num_threads; i++, mask <<= 1)`, over what is left of the
cores. -/
def fetchLoop (new_team : Nat) : List Nat → Fetch → Fetch
  | [], f => f
  | i :: is, f => if f.num_threads = 0 then f else fetchLoop new_team is (fetchStep new_team i f)

/-- The variables before the loop. -/
def fetchInit (g : Globals) (new_team : Nat) : Fetch where
  pool := g.threadPool
  team := g.teams new_team
  currTeam := g.currTeam
  num_threads := (g.teams new_team).nthreads - 1
  local_id_gen := 1
  mask := 2

/-- The loop (team.c:183). -/
def teamStartFetch (nprocs : Nat) (g : Globals) (new_team : Nat) : Globals :=
  let f := fetchLoop new_team (List.range' 1 (nprocs - 1)) (fetchInit g new_team)
  { g with threadPool := f.pool, teams := Function.update g.teams new_team f.team, currTeam := f.currTeam }

/-- After the critical section (team.c:211). -/
def teamStartLink (g : Globals) (myid new_team : Nat) : Globals :=
  let parent_team := g.currTeam myid
  let level := match parent_team with | some p => (g.teams p).level + 1 | none => 1
  { g with
    teams := Function.update g.teams new_team { g.teams new_team with level := level, parent := parent_team }
    currTeam := Function.update g.currTeam myid (some new_team) }

/-! ## `gomp_team_end` -/

/-- `GLOBAL_IDLE_CORES += (nthreads - 1)` (team.c:245). -/
def teamEndIdle (g : Globals) (the_team : Nat) : Globals :=
  { g with idleCores := g.idleCores + ((g.teams the_team).nthreads - 1) }

/-- `GLOBAL_THREAD_POOL &= neg_mask` (team.c:246). -/
def teamEndPool (g : Globals) (myid the_team : Nat) : Globals :=
  { g with threadPool := g.threadPool &&& (~~~(g.teams the_team).team ||| bit 32 myid) }

/-- `CURR_TEAM(myid) = the_team->parent` (team.c:255). -/
def teamEndUnlink (g : Globals) (myid the_team : Nat) : Globals :=
  { g with currTeam := Function.update g.currTeam myid (g.teams the_team).parent }

/-! ## `omp_initenv` -/

/-- "To make SW barrier work": the loop of `gomp_master_region_start` (team.c:93). -/
def masterIds (nprocs : Nat) (t : Team) : Team :=
  ((List.range' 1 (nprocs - 1)).foldl
    (fun (r : Team × Nat) i =>
      ({ r.1 with
          proc_ids := Function.update r.1.proc_ids r.2 i
          thread_ids := Function.update r.1.thread_ids i r.2 },
        r.2 + 1))
    (t, 1)).1

/-- `gomp_master_region_start` (team.c:55), called once, for the root team, by core 0. -/
def masterRegionStart (nprocs : Nat) (g : Globals) (specified : Nat) : Globals :=
  let (num_threads, idleCores) := resolveNumThreads g.idleCores specified
  { g with
    idleCores := idleCores
    teams := Function.update g.teams g.nextTeam
      (masterIds nprocs { nthreads := num_threads, team := 0xFFFF, level := 0, parent := none })
    currTeam := Function.update g.currTeam MASTER_ID (some g.nextTeam)
    nextTeam := g.nextTeam + 1 }

/-- `omp_initenv` (libgomp.c:62). -/
def initenv (nprocs : Nat) : Globals :=
  masterRegionStart nprocs
    { idleCores := nprocs - 1
      threadPool := bit 32 MASTER_ID
      currTeam := fun _ => none
      teams := fun _ => {}
      nextTeam := 0 }
    1

/-! ## What the loop does -/

section Fetch

variable {nprocs myid new_team : Nat} {pool : BitVec 32} {currTeam : Nat → Option Nat}

/-- The cores of the team besides its master. -/
def Team.slaves (t : Team) : Finset Nat := (Finset.Ico 1 t.nthreads).image t.proc_ids

/-- What the loop has done before core `i`, from the pool and the current teams that it found. -/
structure Fetched (nprocs myid new_team : Nat) (pool : BitVec 32) (currTeam : Nat → Option Nat) (nthreads i : Nat)
    (f : Fetch) : Prop where
  pos : 1 ≤ f.local_id_gen
  left : f.num_threads + f.local_id_gen = nthreads
  mask : f.mask = bit 32 i
  master : f.team.proc_ids 0 = myid
  size : f.team.nthreads = nthreads
  inverse : ∀ j < f.local_id_gen, f.team.thread_ids (f.team.proc_ids j) = j
  fresh : ∀ j, 1 ≤ j → j < f.local_id_gen →
    1 ≤ f.team.proc_ids j ∧ f.team.proc_ids j < i ∧ f.team.proc_ids j ∉ bits pool
  inPool : bits f.pool = bits pool ∪ (Finset.Ico 1 f.local_id_gen).image f.team.proc_ids
  inTeam : bits f.team.team = insert myid ((Finset.Ico 1 f.local_id_gen).image f.team.proc_ids)
  current : ∀ x, f.currTeam x =
    if x ∈ (Finset.Ico 1 f.local_id_gen).image f.team.proc_ids then some new_team else currTeam x
  enough : f.num_threads ≤ (Finset.Ico i nprocs \ bits pool).card

variable {nthreads i : Nat} {f : Fetch}

theorem image_Ico_update {k : Nat} (hk : 1 ≤ k) (h : Nat → Nat) (i : Nat) :
    (Finset.Ico 1 (k + 1)).image (Function.update h k i) = insert i ((Finset.Ico 1 k).image h) := by
  ext x
  simp only [Finset.mem_image, Finset.mem_Ico, Finset.mem_insert]
  constructor
  · rintro ⟨j, hj, rfl⟩
    by_cases hjk : j = k
    · subst hjk
      simp
    · exact Or.inr ⟨j, by omega, by simp [hjk]⟩
  · rintro (rfl | ⟨j, hj, rfl⟩)
    · exact ⟨k, by omega, by simp⟩
    · exact ⟨j, by omega, by simp [show j ≠ k by omega]⟩

/-- Core `i` is in use if and only if it was before the loop. -/
theorem Fetched.mem_pool (h : Fetched nprocs myid new_team pool currTeam nthreads i f) :
    i ∈ bits f.pool ↔ i ∈ bits pool := by
  rw [h.inPool, Finset.mem_union, or_iff_left_iff_imp, Finset.mem_image]
  rintro ⟨j, hj, rfl⟩
  have := (h.fresh j (Finset.mem_Ico.1 hj).1 (Finset.mem_Ico.1 hj).2).2.1
  omega

/-- A core that is in use is passed over. -/
theorem Fetched.skip (h : Fetched nprocs myid new_team pool currTeam nthreads i f) (hi : i < 32)
    (hused : i ∈ bits pool) :
    Fetched nprocs myid new_team pool currTeam nthreads (i + 1) (fetchStep new_team i f) := by
  have hstep : fetchStep new_team i f = { f with mask := bit 32 (i + 1) } := by
    have hne : ¬ f.pool &&& f.mask = 0 := by
      rw [h.mask, and_bit_eq_zero hi, h.mem_pool]
      exact not_not.2 hused
    simp only [fetchStep, if_neg hne]
    rw [h.mask, bit_succ]
  rw [hstep]
  refine ⟨h.pos, h.left, rfl, h.master, h.size, h.inverse, fun j hj1 hj => ?_, h.inPool, h.inTeam, h.current, ?_⟩
  · obtain ⟨h1, h2, h3⟩ := h.fresh j hj1 hj
    exact ⟨h1, Nat.lt_succ_of_lt h2, h3⟩
  · refine Nat.le_trans h.enough (Finset.card_le_card fun x hx => ?_)
    simp only [Finset.mem_sdiff, Finset.mem_Ico] at hx ⊢
    have : x ≠ i := by
      rintro rfl
      exact hx.2 hused
    exact ⟨by omega, hx.2⟩

/-- A free core joins the team. -/
theorem Fetched.take (h : Fetched nprocs myid new_team pool currTeam nthreads i f) (hi : i < nprocs)
    (hprocs : nprocs ≤ 32) (hi1 : 1 ≤ i) (hmy : myid ∈ bits pool) (hleft : f.num_threads ≠ 0)
    (hfree : i ∉ bits pool) :
    Fetched nprocs myid new_team pool currTeam nthreads (i + 1) (fetchStep new_team i f) := by
  have hz : f.pool &&& f.mask = 0 := by
    rw [h.mask, and_bit_eq_zero (by omega), h.mem_pool]
    exact hfree
  have hbit : bits (bit 32 i) = {i} := bits_bit (by omega)
  have himage := image_Ico_update h.pos f.team.proc_ids i
  have hpos := h.pos
  have hl := h.left
  simp only [fetchStep, if_pos hz]
  refine ⟨by simp, by simp only; omega, by simp [h.mask, bit_succ], ?_, h.size, fun j hj => ?_, fun j hj1 hj => ?_,
    ?_, ?_, fun x => ?_, ?_⟩
  · simp only
    rw [Function.update_of_ne (by omega), h.master]
  · simp only at hj ⊢
    by_cases hjk : j = f.local_id_gen
    · subst hjk
      simp
    · rw [Function.update_of_ne hjk, Function.update_of_ne, h.inverse j (by omega)]
      by_cases hj0 : j = 0
      · subst hj0
        rw [h.master]
        rintro rfl
        exact hfree hmy
      · have := (h.fresh j (by omega) (by omega)).2.1
        omega
  · simp only at hj ⊢
    by_cases hjk : j = f.local_id_gen
    · subst hjk
      rw [Function.update_self]
      exact ⟨hi1, by omega, hfree⟩
    · rw [Function.update_of_ne hjk]
      obtain ⟨h1, h2, h3⟩ := h.fresh j hj1 (by omega)
      exact ⟨h1, by omega, h3⟩
  · simp only
    rw [himage, bits_or, h.mask, hbit, h.inPool, Finset.union_assoc, Finset.union_singleton]
  · simp only
    rw [himage, bits_or, h.mask, hbit, h.inTeam, Finset.union_singleton, Finset.insert_comm]
  · rw [himage]
    by_cases hx : x = i
    · subst hx
      simp
    · show Function.update f.currTeam i (some new_team) x = _
      rw [Function.update_of_ne hx, h.current]
      simp only [Finset.mem_insert, hx, false_or]
  · have hins : Finset.Ico i nprocs \ bits pool = insert i (Finset.Ico (i + 1) nprocs \ bits pool) := by
      ext x
      simp only [Finset.mem_sdiff, Finset.mem_Ico, Finset.mem_insert]
      constructor
      · rintro ⟨hx, hxp⟩
        by_cases hxi : x = i
        · exact Or.inl hxi
        · exact Or.inr ⟨by omega, hxp⟩
      · rintro (rfl | ⟨hx, hxp⟩)
        · exact ⟨by omega, hfree⟩
        · exact ⟨by omega, hxp⟩
    have henough := h.enough
    rw [hins, Finset.card_insert_of_notMem (by simp)] at henough
    simp only
    omega

/-- The loop ends with the number of threads fetched that was asked for. -/
theorem fetchLoop_fetched (hprocs : nprocs ≤ 32) (hmy : myid ∈ bits pool) (n : Nat) :
    ∀ {i : Nat} {f : Fetch}, i + n = nprocs → 1 ≤ i →
      Fetched nprocs myid new_team pool currTeam nthreads i f →
      ∃ j, Fetched nprocs myid new_team pool currTeam nthreads j (fetchLoop new_team (List.range' i n) f) ∧
        (fetchLoop new_team (List.range' i n) f).num_threads = 0 ∧ j ≤ nprocs := by
  induction n with
  | zero =>
    intro i f hn hi1 h
    have henough := h.enough
    rw [show i = nprocs by omega] at henough
    have hdone : f.num_threads = 0 := by simpa using henough
    exact ⟨i, h, hdone, by omega⟩
  | succ n ih =>
    intro i f hn hi1 h
    rw [List.range'_succ, fetchLoop]
    split
    · rename_i hz
      exact ⟨i, h, hz, by omega⟩
    · rename_i hleft
      refine ih (by omega) (by omega) ?_
      by_cases hused : i ∈ bits pool
      · exact h.skip (by omega) hused
      · exact h.take (by omega) hprocs hi1 hmy hleft hused

end Fetch

/-! ## The descriptor of a team -/

section Descriptor

variable {nprocs myid T : Nat} {g : Globals}

/-- The descriptor of a team with the master `myid`: `thread_ids` undoes `proc_ids`, the mask has the
members. -/
structure Team.Formed (t : Team) (nprocs myid : Nat) : Prop where
  pos : 1 ≤ t.nthreads
  master : t.proc_ids 0 = myid
  inverse : ∀ j < t.nthreads, t.thread_ids (t.proc_ids j) = j
  range : ∀ x ∈ t.slaves, 1 ≤ x ∧ x < nprocs
  mask : bits t.team = insert myid t.slaves

theorem Team.Formed.inj {t : Team} (h : t.Formed nprocs myid) {i j : Nat} (hi : i < t.nthreads)
    (hj : j < t.nthreads) (he : t.proc_ids i = t.proc_ids j) : i = j := by
  rw [← h.inverse i hi, he, h.inverse j hj]

theorem Team.mem_slaves {t : Team} {x : Nat} : x ∈ t.slaves ↔ ∃ j, (1 ≤ j ∧ j < t.nthreads) ∧ t.proc_ids j = x := by
  simp [Team.slaves]

/-- The master is none of the slaves. -/
theorem Team.Formed.master_not_slave {t : Team} (h : t.Formed nprocs myid) : myid ∉ t.slaves := by
  rw [Team.mem_slaves]
  rintro ⟨j, ⟨hj1, hj⟩, he⟩
  have := h.inj h.pos hj (h.master.trans he.symm)
  omega

theorem Team.Formed.card_slaves {t : Team} (h : t.Formed nprocs myid) : t.slaves.card = t.nthreads - 1 := by
  unfold Team.slaves
  rw [Finset.card_image_of_injOn, Nat.card_Ico]
  intro i hi j hj he
  simp only [Finset.coe_Ico, Set.mem_Ico] at hi hj
  exact h.inj hi.2 hj.2 he

/-- Not more threads are counted off than cores are idle, besides the master. -/
theorem resolveNumThreads_spec (idleCores specified : Nat) :
    1 ≤ (resolveNumThreads idleCores specified).1 ∧ (resolveNumThreads idleCores specified).1 - 1 ≤ idleCores := by
  simp only [resolveNumThreads]
  split <;> omega

/-- The new descriptor has its master alone. -/
theorem teamStartResolve_spec (g : Globals) (hmy : myid < 32) (specified : Nat) :
    ∃ t : Team, teamStartResolve g myid specified =
        ({ g with
            idleCores := g.idleCores - (t.nthreads - 1)
            teams := Function.update g.teams g.nextTeam t
            nextTeam := g.nextTeam + 1 }, g.nextTeam) ∧
      1 ≤ t.nthreads ∧ t.nthreads - 1 ≤ g.idleCores ∧ t.proc_ids 0 = myid ∧ t.thread_ids myid = 0 ∧
      bits t.team = {myid} := by
  obtain ⟨h1, h2⟩ := resolveNumThreads_spec g.idleCores specified
  refine ⟨{ nthreads := (resolveNumThreads g.idleCores specified).1
            team := 0 ||| bit 32 myid
            thread_ids := Function.update (fun _ => 0) myid 0
            proc_ids := Function.update (fun _ => 0) 0 myid },
    rfl, h1, h2, by simp, by simp, ?_⟩
  show bits (0 ||| bit 32 myid) = _
  rw [bits_or, bits_bit hmy]
  simp

/-- **The loop of `gomp_team_start`** forms the team from free cores, as many as were counted off. -/
theorem teamStartFetch_spec (hprocs : nprocs ≤ 32) (hone : 1 ≤ nprocs) (hmy : myid ∈ bits g.threadPool)
    (hpos : 1 ≤ (g.teams T).nthreads) (hmaster : (g.teams T).proc_ids 0 = myid)
    (hinv : (g.teams T).thread_ids myid = 0) (hmask : bits (g.teams T).team = {myid})
    (henough : (g.teams T).nthreads - 1 ≤ (Finset.Ico 1 nprocs \ bits g.threadPool).card) :
    ((teamStartFetch nprocs g T).teams T).Formed nprocs myid ∧
    ((teamStartFetch nprocs g T).teams T).nthreads = (g.teams T).nthreads ∧
    Disjoint ((teamStartFetch nprocs g T).teams T).slaves (bits g.threadPool) ∧
    bits (teamStartFetch nprocs g T).threadPool =
      bits g.threadPool ∪ ((teamStartFetch nprocs g T).teams T).slaves ∧
    (∀ x, (teamStartFetch nprocs g T).currTeam x =
      if x ∈ ((teamStartFetch nprocs g T).teams T).slaves then some T else g.currTeam x) := by
  have hstart : Fetched nprocs myid T g.threadPool g.currTeam (g.teams T).nthreads 1 (fetchInit g T) := by
    refine ⟨Nat.le_refl 1, Nat.sub_add_cancel hpos, rfl, hmaster, rfl, fun j hj => ?_,
      fun j h1 hj => absurd hj (Nat.not_lt.2 h1), by simp [fetchInit], by simp [fetchInit, hmask],
      fun x => by simp [fetchInit], henough⟩
    obtain rfl : j = 0 := Nat.lt_one_iff.1 hj
    simpa [fetchInit, hmaster] using hinv
  obtain ⟨i, hf, hdone, hi⟩ := fetchLoop_fetched hprocs hmy (nprocs - 1) (by omega) (Nat.le_refl 1) hstart
  unfold teamStartFetch
  generalize fetchLoop T (List.range' 1 (nprocs - 1)) (fetchInit g T) = f at hf hdone ⊢
  have hgen := hf.left
  rw [hdone, Nat.zero_add] at hgen
  have hslaves : f.team.slaves = (Finset.Ico 1 f.local_id_gen).image f.team.proc_ids := by
    rw [Team.slaves, hf.size, hgen]
  simp only [Function.update_self]
  refine ⟨⟨?_, hf.master, fun j hj => ?_, fun x hx => ?_, ?_⟩, hf.size, ?_, ?_, fun x => ?_⟩
  · rw [hf.size]
    exact hpos
  · rw [hf.size, ← hgen] at hj
    exact hf.inverse j hj
  · rw [hslaves, Finset.mem_image] at hx
    obtain ⟨j, hj, rfl⟩ := hx
    rw [Finset.mem_Ico] at hj
    obtain ⟨h1, h2, -⟩ := hf.fresh j hj.1 hj.2
    exact ⟨h1, Nat.lt_of_lt_of_le h2 hi⟩
  · rw [hslaves]
    exact hf.inTeam
  · rw [hslaves, Finset.disjoint_left]
    intro x hx
    obtain ⟨j, hj, rfl⟩ := Finset.mem_image.1 hx
    rw [Finset.mem_Ico] at hj
    exact (hf.fresh j hj.1 hj.2).2.2
  · rw [hslaves]
    exact hf.inPool
  · rw [hslaves]
    exact hf.current x

end Descriptor

end VirtualSoc.Gomp.TeamAlloc
