import VirtualSoc.Lib.Transition
import VirtualSoc.Gomp.TeamAlloc

/-!
# Parallel regions of many masters (libgomp/parallel.c, team.c)

Any core that runs user code may call `GOMP_parallel_start`, and `GOMP_parallel_end` for the last
region that it has opened; a slave goes back to the dock when it has closed its own. The dock
barrier is `Barrier`'s: here the master sets its slaves running one by one, and waits for one after
another to be back.

Ghost state: the regions that each core has open, and for each team what its start took.

* `Core` is what holds of one core and of the teams it has open. `Core.frame` keeps it while
  another core makes a step, so that each step has to be proved for the core that makes it alone.
* `team_allocation`: idle cores and pool bits add up to all cores whenever the lock is free; no
  core is a slave of two teams; an end gives back what its start took.
-/

namespace VirtualSoc.Gomp.TeamAlloc

open Mask

/-! ## The system -/

/-- Where a core is. `startWait` and `endWait` are at `GLOBAL_INFOS_WAIT`, `resolve` to
`startSignal` and `giveIdle` to `endSignal` inside the critical sections. -/
inductive Pc
  | docked
  | running
  | startWait (specified : Nat)
  | resolve (specified : Nat)
  | fetch (new_team : Nat)
  | startSignal (new_team : Nat)
  | link (new_team : Nat)
  | release (new_team i : Nat)
  | gather (the_team i : Nat)
  | endWait (the_team : Nat)
  | giveIdle (the_team : Nat)
  | givePool (the_team : Nat)
  | endSignal (the_team : Nat)
  | unlink (the_team : Nat)
deriving DecidableEq, Repr

/-- What the start of a team took: the pool bits, the idle count; and the current team of its master
when it was called. -/
structure Taken where
  bits : BitVec 32
  idle : Nat
  outer : Option Nat

structure State where
  g : Globals
  lock : Option Nat
  pc : Nat → Pc
  opened : Nat → List Nat
  before : Nat → Option Nat
  taken : Nat → Taken

inductive Act
  | start (c specified : Nat)
  | finish (c : Nat)
  | dock (c : Nat)
  | go (c : Nat)
deriving DecidableEq, Repr

def State.goto (s : State) (c : Nat) (p : Pc) : State := { s with pc := Function.update s.pc c p }

/-- The next step of core `c` in the call that it has made. -/
def stepGo (nprocs : Nat) (s : State) (c : Nat) : Option State :=
  match s.pc c with
  | .docked | .running => none
  | .startWait specified =>
    if s.lock = none then some ({ s with lock := some c }.goto c (.resolve specified)) else none
  | .resolve specified =>
    let (g, new_team) := teamStartResolve s.g c specified
    some ({ s with
      g := g
      taken := Function.update s.taken new_team ⟨0, s.g.idleCores - g.idleCores, s.before c⟩ }.goto c (.fetch new_team))
  | .fetch new_team =>
    let g := teamStartFetch nprocs s.g new_team
    some ({ s with
      g := g
      opened := Function.update s.opened c (new_team :: s.opened c)
      taken := Function.update s.taken new_team
        { s.taken new_team with bits := g.threadPool &&& ~~~s.g.threadPool } }.goto c (.startSignal new_team))
  | .startSignal new_team => some ({ s with lock := none }.goto c (.link new_team))
  | .link new_team => some ({ s with g := teamStartLink s.g c new_team }.goto c (.release new_team 1))
  | .release new_team i =>
    if i < (s.g.teams new_team).nthreads then
      some ((s.goto c (.release new_team (i + 1))).goto ((s.g.teams new_team).proc_ids i) .running)
    else some (s.goto c .running)
  | .gather the_team i =>
    if i < (s.g.teams the_team).nthreads then
      if s.pc ((s.g.teams the_team).proc_ids i) = .docked then some (s.goto c (.gather the_team (i + 1))) else none
    else (s.g.currTeam c).map fun the_team => s.goto c (.endWait the_team)
  | .endWait the_team =>
    if s.lock = none then some ({ s with lock := some c }.goto c (.giveIdle the_team)) else none
  | .giveIdle the_team => some ({ s with g := teamEndIdle s.g the_team }.goto c (.givePool the_team))
  | .givePool the_team =>
    some ({ s with
      g := teamEndPool s.g c the_team
      opened := Function.update s.opened c (s.opened c).tail }.goto c (.endSignal the_team))
  | .endSignal the_team => some ({ s with lock := none }.goto c (.unlink the_team))
  | .unlink the_team => some ({ s with g := teamEndUnlink s.g c the_team }.goto c .running)

def step (nprocs : Nat) (s : State) : Act → Option State
  | .start c specified =>
    if s.pc c = .running then
      some ({ s with before := Function.update s.before c (s.g.currTeam c) }.goto c (.startWait specified))
    else none
  | .finish c =>
    if s.pc c = .running ∧ s.opened c ≠ [] then
      (s.g.currTeam c).map fun the_team => s.goto c (.gather the_team 1)
    else none
  | .dock c =>
    if s.pc c = .running ∧ c ≠ MASTER_ID ∧ s.opened c = [] then some (s.goto c .docked) else none
  | .go c => stepGo nprocs s c

/-- After `omp_initenv` and the first gather at the dock (libgomp.c:135). -/
def init (nprocs : Nat) : State where
  g := initenv nprocs
  lock := none
  pc := Function.update (fun _ => .docked) MASTER_ID .running
  opened := fun _ => []
  before := fun _ => none
  taken := fun _ => ⟨0, 0, none⟩

/-! ## The invariant -/

/-- The steps that are made with the global lock held. -/
def Pc.critical : Pc → Bool
  | .resolve _ | .fetch _ | .startSignal _ | .giveIdle _ | .givePool _ | .endSignal _ => true
  | _ => false

/-- The team of the core is not in its current team yet. -/
def Pc.linking : Pc → Option Nat
  | .startSignal T | .link T => some T
  | _ => none

/-- Counted off but not fetched. -/
def Pc.counted (teams : Nat → Team) : Pc → Nat
  | .fetch T => (teams T).nthreads - 1
  | _ => 0

/-- Counted back but still in the pool. -/
def Pc.returned (teams : Nat → Team) : Pc → Nat
  | .givePool T => (teams T).nthreads - 1
  | _ => 0

/-- The cores add up, but for what the holder of the lock has counted. -/
def Balance (nprocs : Nat) (g : Globals) (p : Pc) : Prop :=
  g.idleCores + p.counted g.teams + popcount g.threadPool = nprocs + p.returned g.teams

/-- The current team of core `c` is the last that it has opened. -/
def Linked (s : State) (c : Nat) : Prop := ∀ T ∈ (s.opened c).head?, s.g.currTeam c = some T

def AllDocked (s : State) (T : Nat) : Prop := ∀ x ∈ (s.g.teams T).slaves, s.pc x = .docked

/-- A descriptor whose threads are counted off, none fetched. -/
structure Counted (nprocs : Nat) (s : State) (c T : Nat) : Prop where
  lt : T < s.g.nextTeam
  closed : ∀ d, T ∉ s.opened d
  outer : (s.taken T).outer = s.g.currTeam c
  pos : 1 ≤ (s.g.teams T).nthreads
  master : (s.g.teams T).proc_ids 0 = c
  thread : (s.g.teams T).thread_ids c = 0
  mask : bits (s.g.teams T).team = {c}
  enough : (s.g.teams T).nthreads - 1 ≤ (Finset.Ico 1 nprocs \ bits s.g.threadPool).card
  idle : (s.taken T).idle = (s.g.teams T).nthreads - 1

/-- What holds of a core at each place. -/
def PcOk (nprocs : Nat) (s : State) (c : Nat) : Pc → Prop
  | .docked => s.opened c = []
  | .running => Linked s c
  | .startWait _ | .resolve _ => Linked s c ∧ s.before c = s.g.currTeam c
  | .fetch T => Linked s c ∧ Counted nprocs s c T
  | .startSignal T | .link T => (s.opened c).head? = some T ∧ (s.taken T).outer = s.g.currTeam c ∧ AllDocked s T
  | .release T i =>
    (s.opened c).head? = some T ∧ s.g.currTeam c = some T ∧ 1 ≤ i ∧
      ∀ j, i ≤ j → j < (s.g.teams T).nthreads → s.pc ((s.g.teams T).proc_ids j) = .docked
  | .gather T i =>
    (s.opened c).head? = some T ∧ s.g.currTeam c = some T ∧
      ∀ j, 1 ≤ j → j < i → j < (s.g.teams T).nthreads → s.pc ((s.g.teams T).proc_ids j) = .docked
  | .endWait T | .giveIdle T | .givePool T =>
    (s.opened c).head? = some T ∧ s.g.currTeam c = some T ∧ AllDocked s T
  | .endSignal T | .unlink T =>
    T < s.g.nextTeam ∧ (s.g.teams T).proc_ids 0 = c ∧ (s.g.teams T).parent = (s.taken T).outer ∧
      ∀ U ∈ (s.opened c).head?, (s.taken T).outer = some U

/-- A team that core `c` has open. -/
structure Live (nprocs : Nat) (s : State) (c T : Nat) : Prop where
  lt : T < s.g.nextTeam
  formed : (s.g.teams T).Formed nprocs c
  pool : (s.g.teams T).slaves ⊆ bits s.g.threadPool
  bits : bits (s.taken T).bits = (s.g.teams T).slaves
  idle : (s.taken T).idle = (s.g.teams T).nthreads - 1
  parent : (s.pc c).linking ≠ some T → (s.g.teams T).parent = (s.taken T).outer

/-- A core, and the teams that it has open, each in the one opened before. -/
structure Core (nprocs : Nat) (s : State) (c : Nat) : Prop where
  pcOk : PcOk nprocs s c (s.pc c)
  active : s.pc c ≠ .docked → c ∈ bits s.g.threadPool
  holder : s.lock = some c ↔ (s.pc c).critical = true
  live : ∀ T ∈ s.opened c, Live nprocs s c T
  nodup : (s.opened c).Nodup
  chain : (s.opened c).IsChain fun T U => (s.taken T).outer = some U

/-- Where the holder of the lock is. -/
def State.holder (s : State) : Pc := match s.lock with | some c => s.pc c | none => .running

structure Inv (nprocs : Nat) (s : State) : Prop where
  cores : ∀ c, Core nprocs s c
  disjoint : ∀ c d T U, T ∈ s.opened c → U ∈ s.opened d → T ≠ U →
    Disjoint (s.g.teams T).slaves (s.g.teams U).slaves
  pool : ∀ x ∈ bits s.g.threadPool, x < nprocs
  master : MASTER_ID ∈ bits s.g.threadPool
  balance : Balance nprocs s.g s.holder

/-! ## What a step leaves alone -/

section Frame

variable {nprocs c d : Nat} {s s' : State}

@[simp] theorem goto_g (p : Pc) : (s.goto c p).g = s.g := rfl
@[simp] theorem goto_lock (p : Pc) : (s.goto c p).lock = s.lock := rfl
@[simp] theorem goto_opened (p : Pc) : (s.goto c p).opened = s.opened := rfl
@[simp] theorem goto_before (p : Pc) : (s.goto c p).before = s.before := rfl
@[simp] theorem goto_taken (p : Pc) : (s.goto c p).taken = s.taken := rfl
@[simp] theorem goto_pc_self (p : Pc) : (s.goto c p).pc c = p := Function.update_self ..
theorem goto_pc_ne (p : Pc) (h : d ≠ c) : (s.goto c p).pc d = s.pc d := Function.update_of_ne h ..

/-- What a step of core `c` leaves to the other cores. A core that it wakes up, or whose pool bit it
clears, is a slave of a team that `c` has open. -/
structure Local (s s' : State) (c : Nat) : Prop where
  next : s.g.nextTeam ≤ s'.g.nextTeam
  teams : ∀ T < s.g.nextTeam, (s.g.teams T).proc_ids 0 ≠ c → s'.g.teams T = s.g.teams T ∧ s'.taken T = s.taken T
  opened : ∀ d ≠ c, s'.opened d = s.opened d
  before : ∀ d ≠ c, s'.before d = s.before d
  currTeam : ∀ d ≠ c, d ∈ bits s.g.threadPool → s'.g.currTeam d = s.g.currTeam d
  pc : ∀ d ≠ c, s.pc d ≠ .docked → s'.pc d = s.pc d
  docked : ∀ d ≠ c, s.pc d = .docked → s'.pc d = .docked ∨ ∃ T ∈ s.opened c, d ∈ (s.g.teams T).slaves
  pool : ∀ d ∈ bits s.g.threadPool, d ∈ bits s'.g.threadPool ∨
    s.pc d = .docked ∧ ∃ T ∈ s.opened c, d ∈ (s.g.teams T).slaves
  lock : ∀ d ≠ c, s'.lock = some d ↔ s.lock = some d
  excluded : ∀ d ≠ c, s.lock = some d → s'.g.threadPool = s.g.threadPool ∧ s'.opened c ⊆ s.opened c

/-- A team of core `d` is not touched by a step of core `c`. -/
theorem Live.same {T : Nat} (h : Live nprocs s d T) (hl : Local s s' c) (hd : d ≠ c) :
    s'.g.teams T = s.g.teams T ∧ s'.taken T = s.taken T :=
  hl.teams T h.lt (by rw [h.formed.master]; exact hd)

/-- An open team that a step of its master leaves alone. -/
theorem Live.kept {U : Nat} (h : Live nprocs s c U) (hteam : s'.g.teams U = s.g.teams U)
    (htaken : s'.taken U = s.taken U) (hnext : s.g.nextTeam ≤ s'.g.nextTeam)
    (hpool : (s.g.teams U).slaves ⊆ Mask.bits s'.g.threadPool) (hlink : (s.pc c).linking ≠ some U) :
    Live nprocs s' c U where
  lt := Nat.lt_of_lt_of_le h.lt hnext
  formed := hteam ▸ h.formed
  pool := hteam ▸ hpool
  bits := by rw [hteam, htaken]; exact h.bits
  idle := by rw [hteam, htaken]; exact h.idle
  parent _ := by rw [hteam, htaken]; exact h.parent hlink

/-- Two cores have no slave in common. -/
theorem Inv.not_shared (hs : Inv nprocs s) (hd : d ≠ c) {T U x : Nat} (hT : T ∈ s.opened d)
    (hU : U ∈ s.opened c) (hx : x ∈ (s.g.teams T).slaves) : x ∉ (s.g.teams U).slaves := by
  have hTU : T ≠ U := by
    rintro rfl
    have h1 := ((hs.cores d).live T hT).formed.master
    have h2 := ((hs.cores c).live T hU).formed.master
    exact hd (h1.symm.trans h2)
  exact Finset.disjoint_left.1 (hs.disjoint d c T U hT hU hTU) hx

/-- The slaves of core `d` are not woken up by core `c`. -/
theorem Inv.still_docked (hs : Inv nprocs s) (hl : Local s s' c) (hc : s.pc c ≠ .docked) (hd : d ≠ c)
    {T x : Nat} (hT : T ∈ s.opened d) (hx : x ∈ (s.g.teams T).slaves) (hdock : s.pc x = .docked) :
    s'.pc x = .docked := by
  have hxc : x ≠ c := by
    rintro rfl
    exact hc hdock
  rcases hl.docked x hxc hdock with h | ⟨U, hU, hxU⟩
  · exact h
  · exact absurd hxU (hs.not_shared hd hT hU hx)

/-- Their pool bits are not cleared by core `c`. -/
theorem Inv.still_taken (hs : Inv nprocs s) (hl : Local s s' c) (hd : d ≠ c) {T x : Nat}
    (hT : T ∈ s.opened d) (hx : x ∈ (s.g.teams T).slaves) : x ∈ bits s'.g.threadPool := by
  rcases hl.pool x (((hs.cores d).live T hT).pool hx) with h | ⟨-, U, hU, hxU⟩
  · exact h
  · exact absurd hxU (hs.not_shared hd hT hU hx)

theorem Team.Formed.slave {t : Team} {j : Nat} (hj1 : 1 ≤ j) (hj : j < t.nthreads) : t.proc_ids j ∈ t.slaves :=
  Team.mem_slaves.2 ⟨j, ⟨hj1, hj⟩, rfl⟩

/-- Core `d` is between counting and fetching: it has the lock, so nobody else takes a core. -/
theorem Counted.frame (hs : Inv nprocs s) (hl : Local s s' c) (hd : d ≠ c) (hp : s.pc d = .fetch T)
    (h : Counted nprocs s d T) : Counted nprocs s' d T := by
  have hcur := hl.currTeam d hd ((hs.cores d).active (by rw [hp]; nofun))
  have hlock : s.lock = some d := (hs.cores d).holder.2 (by rw [hp]; rfl)
  obtain ⟨hsame, hsub⟩ := hl.excluded d hd hlock
  obtain ⟨ht, htaken⟩ := hl.teams T h.lt (by rw [h.master]; exact hd)
  refine ⟨Nat.lt_of_lt_of_le h.lt hl.next, ?_, ?_, ?_, ?_, ?_, ?_, ?_, ?_⟩
  · intro e he
    by_cases hec : e = c
    · subst hec
      exact h.closed e (hsub he)
    · rw [hl.opened e hec] at he
      exact h.closed e he
  · rw [htaken, hcur]
    exact h.outer
  · rw [ht]
    exact h.pos
  · rw [ht]
    exact h.master
  · rw [ht]
    exact h.thread
  · rw [ht]
    exact h.mask
  · rw [ht, hsame]
    exact h.enough
  · rw [ht, htaken]
    exact h.idle

/-- A step of core `c` keeps where core `d` may be. -/
theorem PcOk.frame (hs : Inv nprocs s) (hl : Local s s' c) (hc : s.pc c ≠ .docked) (hd : d ≠ c)
    {p : Pc} (hp : s.pc d = p) (hne : p ≠ .docked) (h : PcOk nprocs s d p) : PcOk nprocs s' d p := by
  have hop := hl.opened d hd
  have hpool := (hs.cores d).active (by rw [hp]; exact hne)
  have hcur := hl.currTeam d hd hpool
  have hlinked : Linked s d → Linked s' d := by
    intro h T hT
    rw [hop] at hT
    rw [hcur]
    exact h T hT
  have hdocked : ∀ T ∈ s.opened d, AllDocked s T → AllDocked s' T := by
    intro T hT h x hx
    rw [((hs.cores d).live T hT).same hl hd |>.1] at hx
    exact hs.still_docked hl hc hd hT hx (h x hx)
  cases p with
  | docked => exact absurd rfl hne
  | running => exact hlinked h
  | startWait k | resolve k =>
    refine ⟨hlinked h.1, ?_⟩
    rw [hl.before d hd, hcur]
    exact h.2
  | fetch T => exact ⟨hlinked h.1, h.2.frame hs hl hd hp⟩
  | startSignal T | link T =>
    obtain ⟨h1, h2, h3⟩ := h
    have hT := List.mem_of_head? h1
    obtain ⟨-, htaken⟩ := ((hs.cores d).live T hT).same hl hd
    exact ⟨by rw [hop]; exact h1, by rw [htaken, hcur]; exact h2, hdocked T hT h3⟩
  | release T i =>
    obtain ⟨h1, h2, h3, h4⟩ := h
    have hT := List.mem_of_head? h1
    obtain ⟨ht, -⟩ := ((hs.cores d).live T hT).same hl hd
    refine ⟨by rw [hop]; exact h1, by rw [hcur]; exact h2, h3, ?_⟩
    intro j hij hj
    rw [ht] at hj ⊢
    exact hs.still_docked hl hc hd hT (Team.Formed.slave (by omega) hj) (h4 j hij hj)
  | gather T i =>
    obtain ⟨h1, h2, h3⟩ := h
    have hT := List.mem_of_head? h1
    obtain ⟨ht, -⟩ := ((hs.cores d).live T hT).same hl hd
    refine ⟨by rw [hop]; exact h1, by rw [hcur]; exact h2, ?_⟩
    intro j hj1 hji hj
    rw [ht] at hj ⊢
    exact hs.still_docked hl hc hd hT (Team.Formed.slave hj1 hj) (h3 j hj1 hji hj)
  | endWait T | giveIdle T | givePool T =>
    obtain ⟨h1, h2, h3⟩ := h
    exact ⟨by rw [hop]; exact h1, by rw [hcur]; exact h2, hdocked T (List.mem_of_head? h1) h3⟩
  | endSignal T | unlink T =>
    obtain ⟨h1, h2, h3, h4⟩ := h
    obtain ⟨ht, htaken⟩ := hl.teams T h1 (by rw [h2]; exact hd)
    refine ⟨Nat.lt_of_lt_of_le h1 hl.next, by rw [ht]; exact h2, by rw [ht, htaken]; exact h3, ?_⟩
    rw [hop, htaken]
    exact h4

/-- **Frame**: a step of core `c` keeps what holds of a core `d` that it does not wake up. -/
theorem Core.frame (hs : Inv nprocs s) (hl : Local s s' c) (hc : s.pc c ≠ .docked) (hd : d ≠ c)
    (hsame : s'.pc d = s.pc d) : Core nprocs s' d := by
  have h := hs.cores d
  have hop := hl.opened d hd
  have hpc : ∀ {p : Pc}, s.pc d = p → PcOk nprocs s' d p := by
    intro p hp
    by_cases hne : p = .docked
    · subst hne
      have h' := h.pcOk
      rw [hp] at h'
      show s'.opened d = []
      rw [hop]
      exact h'
    · refine PcOk.frame hs hl hc hd hp hne ?_
      rw [← hp]
      exact h.pcOk
  refine ⟨?_, ?_, ?_, ?_, ?_, ?_⟩
  · rw [hsame]
    exact hpc rfl
  · rw [hsame]
    intro hne
    rcases hl.pool d (h.active hne) with hm | ⟨hdock, -⟩
    · exact hm
    · exact absurd hdock hne
  · rw [hl.lock d hd, hsame]
    exact h.holder
  · rw [hop]
    intro T hT
    have hT' := h.live T hT
    obtain ⟨ht, htaken⟩ := hT'.same hl hd
    refine ⟨Nat.lt_of_lt_of_le hT'.lt hl.next, by rw [ht]; exact hT'.formed, ?_, ?_, ?_, ?_⟩
    · rw [ht]
      exact fun x hx => hs.still_taken hl hd hT hx
    · rw [ht, htaken]
      exact hT'.bits
    · rw [ht, htaken]
      exact hT'.idle
    · rw [ht, htaken, hsame]
      exact hT'.parent
  · rw [hop]
    exact h.nodup
  · rw [hop]
    refine h.chain.imp_of_mem_imp ?_
    intro T U hT hU hTU
    rw [((h.live T hT).same hl hd).2]
    exact hTU

/-- The step of core `c` that wakes up nobody. -/
theorem Inv.of_local (hs : Inv nprocs s) (hl : Local s s' c) (hc : s.pc c ≠ .docked)
    (hpc : ∀ d ≠ c, s'.pc d = s.pc d) (hcore : Core nprocs s' c)
    (hdisj : ∀ d T U, T ∈ s'.opened c → U ∈ s'.opened d → T ≠ U →
      Disjoint (s'.g.teams T).slaves (s'.g.teams U).slaves)
    (hpool : ∀ x ∈ bits s'.g.threadPool, x < nprocs) (hmaster : MASTER_ID ∈ bits s'.g.threadPool)
    (hbalance : Balance nprocs s'.g s'.holder) : Inv nprocs s' := by
  refine ⟨fun d => ?_, fun d e T U hT hU hTU => ?_, hpool, hmaster, hbalance⟩
  · by_cases hd : d = c
    · subst hd
      exact hcore
    · exact Core.frame hs hl hc hd (hpc d hd)
  · by_cases hd : d = c
    · subst hd
      exact hdisj e T U hT hU hTU
    · by_cases he : e = c
      · subst he
        exact (hdisj d U T hU hT hTU.symm).symm
      · rw [hl.opened d hd] at hT
        rw [hl.opened e he] at hU
        rw [(((hs.cores d).live T hT).same hl hd).1, (((hs.cores e).live U hU).same hl he).1]
        exact hs.disjoint d e T U hT hU hTU

/-- A step of core `c` to another place leaves the places of the others. -/
theorem Local.goto {u : State} {p : Pc} (hu : u.pc = s.pc) (hnext : s.g.nextTeam ≤ u.g.nextTeam)
    (hteams : ∀ T < s.g.nextTeam, (s.g.teams T).proc_ids 0 ≠ c → u.g.teams T = s.g.teams T ∧ u.taken T = s.taken T)
    (hopened : ∀ d ≠ c, u.opened d = s.opened d) (hbefore : ∀ d ≠ c, u.before d = s.before d)
    (hcurTeam : ∀ d ≠ c, d ∈ bits s.g.threadPool → u.g.currTeam d = s.g.currTeam d)
    (hpool : ∀ d ∈ bits s.g.threadPool, d ∈ bits u.g.threadPool ∨
      s.pc d = .docked ∧ ∃ T ∈ s.opened c, d ∈ (s.g.teams T).slaves)
    (hlock : ∀ d ≠ c, u.lock = some d ↔ s.lock = some d)
    (hexcluded : ∀ d ≠ c, s.lock = some d → u.g.threadPool = s.g.threadPool ∧ u.opened c ⊆ s.opened c) :
    Local s (u.goto c p) c := by
  have hpc : ∀ d ≠ c, (u.goto c p).pc d = s.pc d := fun d hd => (goto_pc_ne p hd).trans (congrFun hu d)
  exact ⟨hnext, hteams, hopened, hbefore, hcurTeam, fun d hd _ => hpc d hd, fun d hd h => Or.inl ((hpc d hd).trans h),
    hpool, hlock, hexcluded⟩

/-- The step of core `c` to another place. -/
theorem Inv.of_goto (hs : Inv nprocs s) {u : State} {p : Pc} (hu : u.pc = s.pc) (hl : Local s (u.goto c p) c)
    (hc : s.pc c ≠ .docked) (hok : PcOk nprocs (u.goto c p) c p) (hactive : c ∈ bits (u.goto c p).g.threadPool)
    (hholder : (u.goto c p).lock = some c ↔ p.critical = true)
    (hlive : ∀ T ∈ (u.goto c p).opened c, Live nprocs (u.goto c p) c T) (hnodup : ((u.goto c p).opened c).Nodup)
    (hchain : ((u.goto c p).opened c).IsChain fun T U => ((u.goto c p).taken T).outer = some U)
    (hdisj : ∀ d T U, T ∈ (u.goto c p).opened c → U ∈ (u.goto c p).opened d → T ≠ U →
      Disjoint ((u.goto c p).g.teams T).slaves ((u.goto c p).g.teams U).slaves)
    (hpool : ∀ x ∈ bits (u.goto c p).g.threadPool, x < nprocs) (hmaster : MASTER_ID ∈ bits (u.goto c p).g.threadPool)
    (hbalance : Balance nprocs (u.goto c p).g (u.goto c p).holder) : Inv nprocs (u.goto c p) := by
  refine hs.of_local hl hc (fun d hd => (goto_pc_ne p hd).trans (congrFun hu d)) ⟨?_, fun _ => hactive, ?_, hlive, hnodup,
    hchain⟩ hdisj hpool hmaster hbalance
  · rw [goto_pc_self]
    exact hok
  · rw [goto_pc_self]
    exact hholder

end Frame

/-! ## The steps that take or give nothing -/

section Quiet

variable {nprocs c : Nat} {s s' : State} {p : Pc}

/-- Counts that are not in `GLOBAL_IDLE_CORES` and the pool at once. -/
def Pc.counting : Pc → Bool
  | .fetch _ | .givePool _ => true
  | _ => false

theorem balance_iff {g : Globals} (h : p.counting = false) :
    Balance nprocs g p ↔ g.idleCores + popcount g.threadPool = nprocs := by
  unfold Balance
  cases p <;> simp [Pc.counting, Pc.counted, Pc.returned] at h ⊢

theorem holder_of_lock (h : s.lock = some c) : s.holder = s.pc c := by
  unfold State.holder
  rw [h]

theorem holder_goto (h : s.lock = some c) : (s.goto c p).holder = p :=
  (holder_of_lock (s := s.goto c p) h).trans (goto_pc_self p)

theorem holder_of_free (h : s.lock = none) : s.holder = .running := by
  unfold State.holder
  rw [h]

/-- Only the place of core `c` changes, the lock and the number of idle cores. -/
structure Quiet (s s' : State) (c : Nat) (p : Pc) : Prop where
  pool : s'.g.threadPool = s.g.threadPool
  currTeam : s'.g.currTeam = s.g.currTeam
  teams : s'.g.teams = s.g.teams
  next : s'.g.nextTeam = s.g.nextTeam
  opened : s'.opened = s.opened
  taken : s'.taken = s.taken
  pc : s'.pc = Function.update s.pc c p
  before : ∀ d ≠ c, s'.before d = s.before d
  lock : ∀ d ≠ c, s'.lock = some d ↔ s.lock = some d

theorem Quiet.pc_self (q : Quiet s s' c p) : s'.pc c = p := by
  rw [q.pc, Function.update_self]

theorem Quiet.pc_ne (q : Quiet s s' c p) {d : Nat} (hd : d ≠ c) : s'.pc d = s.pc d := by
  rw [q.pc, Function.update_of_ne hd]

theorem Quiet.isLocal (q : Quiet s s' c p) : Local s s' c where
  next := Nat.le_of_eq q.next.symm
  teams T _ _ := ⟨by rw [q.teams], by rw [q.taken]⟩
  opened d _ := by rw [q.opened]
  before := q.before
  currTeam d _ _ := by rw [q.currTeam]
  pc _ hd _ := q.pc_ne hd
  docked _ hd h := Or.inl ((q.pc_ne hd).trans h)
  pool d h := Or.inl (by rw [q.pool]; exact h)
  lock := q.lock
  excluded d _ _ := ⟨q.pool, by rw [q.opened]; exact List.Subset.refl _⟩

/-- A quiet step keeps the balance, if nothing is counted before it and after it. -/
theorem Quiet.balance (q : Quiet s s' c p) (hs : Inv nprocs s) (hidle : s'.g.idleCores = s.g.idleCores)
    (hbefore : (s.pc c).counting = false) (hafter : p.counting = false) : Balance nprocs s'.g s'.holder := by
  have hbal := hs.balance
  by_cases hd : ∃ d, d ≠ c ∧ s.lock = some d
  · obtain ⟨d, hd, hlock⟩ := hd
    rw [holder_of_lock ((q.lock d hd).2 hlock), q.pc_ne hd]
    rw [holder_of_lock hlock] at hbal
    unfold Balance at hbal ⊢
    rw [q.pool, q.teams, hidle]
    exact hbal
  · -- the lock is free or held by `c`, before and after
    have hfree : s.holder.counting = false := by
      cases hlock : s.lock with
      | none => rw [holder_of_free hlock]; rfl
      | some d =>
        obtain rfl : d = c := by
          by_contra hne
          exact hd ⟨d, hne, hlock⟩
        rw [holder_of_lock hlock]
        exact hbefore
    have hfree' : s'.holder.counting = false := by
      cases hlock : s'.lock with
      | none => rw [holder_of_free hlock]; rfl
      | some d =>
        obtain rfl : d = c := by
          by_contra hne
          exact hd ⟨d, hne, (q.lock d hne).1 hlock⟩
        rw [holder_of_lock hlock, q.pc_self]
        exact hafter
    rw [balance_iff hfree] at hbal
    rw [balance_iff hfree', q.pool, hidle]
    exact hbal

/-- A quiet step keeps the invariant, if core `c` may be where it goes. -/
theorem Inv.quiet (hs : Inv nprocs s) (q : Quiet s s' c p) (hc : s.pc c ≠ .docked)
    (hok : PcOk nprocs s' c p) (hholder : s'.lock = some c ↔ p.critical = true)
    (hlinking : p.linking = (s.pc c).linking) (hbalance : Balance nprocs s'.g s'.holder) : Inv nprocs s' := by
  have h := hs.cores c
  refine hs.of_local q.isLocal hc (fun d hd => q.pc_ne hd) ⟨?_, ?_, ?_, ?_, ?_, ?_⟩ ?_ ?_ ?_ hbalance
  · rw [q.pc_self]
    exact hok
  · intro _
    rw [q.pool]
    exact h.active hc
  · rw [q.pc_self]
    exact hholder
  · intro T hT
    rw [q.opened] at hT
    obtain ⟨h1, h2, h3, h4, h5, h6⟩ := h.live T hT
    refine ⟨by rw [q.next]; exact h1, by rw [q.teams]; exact h2, by rw [q.teams, q.pool]; exact h3,
      by rw [q.teams, q.taken]; exact h4, by rw [q.teams, q.taken]; exact h5, ?_⟩
    rw [q.pc_self, q.teams, q.taken, hlinking]
    exact h6
  · rw [q.opened]
    exact h.nodup
  · rw [q.opened, q.taken]
    exact h.chain
  · intro d T U hT hU hTU
    rw [q.opened] at hT hU
    rw [q.teams]
    exact hs.disjoint c d T U hT hU hTU
  · rw [q.pool]
    exact hs.pool
  · rw [q.pool]
    exact hs.master

/-- A step outside the critical sections that only moves core `c`. -/
theorem Inv.moves (hs : Inv nprocs s) (hc : s.pc c ≠ .docked) (hbefore : (s.pc c).critical = false)
    (hafter : p.critical = false) (hlinking : p.linking = (s.pc c).linking)
    (hok : PcOk nprocs (s.goto c p) c p) : Inv nprocs (s.goto c p) := by
  have q : Quiet s (s.goto c p) c p := ⟨rfl, rfl, rfl, rfl, rfl, rfl, rfl, fun _ _ => rfl, fun _ _ => Iff.rfl⟩
  have hlock : s.lock ≠ some c := by
    rw [Ne, (hs.cores c).holder, hbefore]
    exact Bool.false_ne_true
  have hcounting : ∀ {p : Pc}, p.critical = false → p.counting = false := by
    intro p hp
    cases p <;> first | rfl | exact absurd hp (by simp [Pc.critical])
  refine hs.quiet q hc hok ?_ hlinking (q.balance hs rfl (hcounting hbefore) (hcounting hafter))
  rw [hafter]
  exact iff_of_false hlock Bool.false_ne_true

end Quiet

section Calls

variable {nprocs c T i k : Nat} {s s' : State}

theorem ne_docked {p : Pc} (h : s.pc c = p) (hp : p ≠ .docked) : s.pc c ≠ .docked := by
  rw [h]
  exact hp

theorem Inv.at (hs : Inv nprocs s) {p : Pc} (h : s.pc c = p) : PcOk nprocs s c p := by
  have hok := (hs.cores c).pcOk
  rw [h] at hok
  exact hok

/-- `GOMP_parallel_start` is called. -/
theorem Inv.start (hs : Inv nprocs s) (hpc : s.pc c = .running) :
    Inv nprocs ({ s with before := Function.update s.before c (s.g.currTeam c) }.goto c (.startWait k)) := by
  have hlock : s.lock ≠ some c := by
    rw [Ne, (hs.cores c).holder, hpc]
    exact Bool.false_ne_true
  have q : Quiet s ({ s with before := Function.update s.before c (s.g.currTeam c) }.goto c (.startWait k)) c
      (.startWait k) :=
    ⟨rfl, rfl, rfl, rfl, rfl, rfl, rfl, fun d hd => Function.update_of_ne hd .., fun _ _ => Iff.rfl⟩
  refine hs.quiet q (ne_docked hpc (by decide)) ⟨hs.at hpc, ?_⟩ (iff_of_false hlock Bool.false_ne_true)
    (by rw [hpc]; rfl) (q.balance hs rfl (by rw [hpc]; rfl) rfl)
  exact Function.update_self ..

/-- `GOMP_parallel_end` is called. -/
theorem Inv.finish (hs : Inv nprocs s) (hpc : s.pc c = .running) (hT : T ∈ (s.opened c).head?) :
    Inv nprocs (s.goto c (.gather T 1)) := by
  refine hs.moves (ne_docked hpc (by decide)) (by rw [hpc]; rfl) rfl (by rw [hpc]; rfl) ?_
  refine ⟨hT, hs.at hpc T hT, ?_⟩
  intro j hj1 hj
  omega

/-- The function of a slave is over. -/
theorem Inv.dock (hs : Inv nprocs s) (hpc : s.pc c = .running) (hclosed : s.opened c = []) :
    Inv nprocs (s.goto c .docked) :=
  hs.moves (ne_docked hpc (by decide)) (by rw [hpc]; rfl) rfl (by rw [hpc]; rfl) hclosed

/-- The lock is taken. -/
theorem Inv.lock (hs : Inv nprocs s) {p : Pc} (hfree : s.lock = none) (hc : s.pc c ≠ .docked)
    (hbefore : (s.pc c).counting = false) (hafter : p.counting = false) (hcrit : p.critical = true)
    (hlinking : p.linking = (s.pc c).linking)
    (hok : PcOk nprocs ({ s with lock := some c }.goto c p) c p) :
    Inv nprocs ({ s with lock := some c }.goto c p) := by
  have q : Quiet s ({ s with lock := some c }.goto c p) c p := by
    refine ⟨rfl, rfl, rfl, rfl, rfl, rfl, rfl, fun _ _ => rfl, fun d hd => ?_⟩
    rw [hfree, goto_lock]
    simp [hd.symm]
  exact hs.quiet q hc hok (iff_of_true rfl hcrit) hlinking (q.balance hs rfl hbefore hafter)

/-- The lock is given back. -/
theorem Inv.unlock (hs : Inv nprocs s) {p : Pc} (hc : s.pc c ≠ .docked) (hheld : (s.pc c).critical = true)
    (hbefore : (s.pc c).counting = false) (hafter : p.counting = false) (hcrit : p.critical = false)
    (hlinking : p.linking = (s.pc c).linking)
    (hok : PcOk nprocs ({ s with lock := none }.goto c p) c p) :
    Inv nprocs ({ s with lock := none }.goto c p) := by
  have hlock := (hs.cores c).holder.2 hheld
  have q : Quiet s ({ s with lock := none }.goto c p) c p := by
    refine ⟨rfl, rfl, rfl, rfl, rfl, rfl, rfl, fun _ _ => rfl, fun d hd => ?_⟩
    rw [hlock, goto_lock]
    simp [hd.symm]
  refine hs.quiet q hc hok ?_ hlinking (q.balance hs rfl hbefore hafter)
  rw [hcrit]
  exact iff_of_false (fun h => nomatch h) Bool.false_ne_true

/-- A docked core stays docked while core `c` moves. -/
theorem goto_docked {p : Pc} {x : Nat} (hc : s.pc c ≠ .docked) (hx : s.pc x = .docked) :
    (s.goto c p).pc x = .docked := by
  rw [goto_pc_ne]
  · exact hx
  · rintro rfl
    exact hc hx

theorem AllDocked.goto {p : Pc} (hc : s.pc c ≠ .docked) (h : AllDocked s T) : AllDocked (s.goto c p) T :=
  fun x hx => goto_docked hc (h x hx)

/-- One of the slaves is back. -/
theorem Inv.gatherNext (hs : Inv nprocs s) (hpc : s.pc c = .gather T i)
    (hback : s.pc ((s.g.teams T).proc_ids i) = .docked) : Inv nprocs (s.goto c (.gather T (i + 1))) := by
  obtain ⟨h1, h2, h3⟩ := hs.at hpc
  have hc := ne_docked hpc (by simp)
  refine hs.moves hc (by rw [hpc]; rfl) rfl (by rw [hpc]; rfl) ⟨h1, h2, ?_⟩
  intro j hj1 hji hj
  by_cases hjl : j = i
  · subst hjl
    exact goto_docked hc hback
  · exact goto_docked hc (h3 j hj1 (by omega) hj)

/-- All slaves are back. -/
theorem Inv.gathered (hs : Inv nprocs s) (hpc : s.pc c = .gather T i) (hdone : (s.g.teams T).nthreads ≤ i) :
    Inv nprocs (s.goto c (.endWait T)) := by
  obtain ⟨h1, h2, h3⟩ := hs.at hpc
  have hc := ne_docked hpc (by simp)
  refine hs.moves hc (by rw [hpc]; rfl) rfl (by rw [hpc]; rfl) ⟨h1, h2, AllDocked.goto hc ?_⟩
  intro x hx
  obtain ⟨j, ⟨hj1, hj⟩, rfl⟩ := Team.mem_slaves.1 hx
  exact h3 j hj1 (by omega) hj

/-- All slaves are set running. -/
theorem Inv.released (hs : Inv nprocs s) (hpc : s.pc c = .release T i) : Inv nprocs (s.goto c .running) := by
  obtain ⟨h1, h2, -⟩ := hs.at hpc
  refine hs.moves (ne_docked hpc (by simp)) (by rw [hpc]; rfl) rfl (by rw [hpc]; rfl) ?_
  intro U hU
  obtain rfl : T = U := Option.some_inj.1 (h1.symm.trans hU)
  exact h2

end Calls

/-! ## The start of a team -/

section Start

variable {nprocs c T i k : Nat} {s s' : State}

/-- The cores that are not in the pool. -/
theorem Inv.card_free (hs : Inv nprocs s) :
    (Finset.Ico 1 nprocs \ bits s.g.threadPool).card = nprocs - popcount s.g.threadPool := by
  have hsub : bits s.g.threadPool ⊆ Finset.range nprocs := fun x hx => Finset.mem_range.2 (hs.pool x hx)
  have heq : Finset.Ico 1 nprocs \ bits s.g.threadPool = Finset.range nprocs \ bits s.g.threadPool := by
    ext x
    simp only [Finset.mem_sdiff, Finset.mem_Ico, Finset.mem_range, and_congr_left_iff, and_iff_right_iff_imp]
    intro hx _
    have : x ≠ MASTER_ID := by
      rintro rfl
      exact hx hs.master
    exact Nat.one_le_iff_ne_zero.2 this
  rw [heq, Finset.card_sdiff_of_subset hsub, Finset.card_range]
  rfl

/-- A core inside the critical section holds the lock. -/
theorem Inv.held (hs : Inv nprocs s) {p : Pc} (hpc : s.pc c = p) (hp : p.critical = true) :
    s.lock = some c ∧ s.holder = p := by
  have hlock := (hs.cores c).holder.2 (by rw [hpc]; exact hp)
  exact ⟨hlock, (holder_of_lock hlock).trans hpc⟩

/-- The threads are counted off. -/
theorem Inv.resolve (hs : Inv nprocs s) (hpc : s.pc c = .resolve k) {t : Team} (hpos : 1 ≤ t.nthreads)
    (hidle : t.nthreads - 1 ≤ s.g.idleCores) (hmaster : t.proc_ids 0 = c) (hthread : t.thread_ids c = 0)
    (hmask : bits t.team = {c}) :
    Inv nprocs ({ s with
      g := { s.g with
        idleCores := s.g.idleCores - (t.nthreads - 1)
        teams := Function.update s.g.teams s.g.nextTeam t
        nextTeam := s.g.nextTeam + 1 }
      taken := Function.update s.taken s.g.nextTeam
        ⟨0, s.g.idleCores - (s.g.idleCores - (t.nthreads - 1)), s.before c⟩ }.goto c (.fetch s.g.nextTeam)) := by
  obtain ⟨hlinked, hbefore⟩ := hs.at hpc
  obtain ⟨hlock, hholder⟩ := hs.held hpc rfl
  have hc := ne_docked hpc (by simp)
  have hbal := hs.balance
  rw [hholder, balance_iff rfl] at hbal
  have hne : ∀ d, ∀ U ∈ s.opened d, U ≠ s.g.nextTeam := fun d U hU => Nat.ne_of_lt ((hs.cores d).live U hU).lt
  refine hs.of_goto rfl ?_ hc ?_ ?_ ?_ ?_ ?_ ?_ ?_ hs.pool hs.master ?_
  · refine Local.goto rfl (Nat.le_succ _) ?_ (fun _ _ => rfl) (fun _ _ => rfl) (fun _ _ _ => rfl) (fun _ h => Or.inl h)
      (fun _ _ => Iff.rfl) (fun _ _ _ => ⟨rfl, List.Subset.refl _⟩)
    · intro U hU _
      exact ⟨Function.update_of_ne (Nat.ne_of_lt hU) .., Function.update_of_ne (Nat.ne_of_lt hU) ..⟩
  · refine ⟨hlinked, Nat.lt_succ_self _, fun d hT => hne d _ hT rfl, ?_, ?_, ?_, ?_, ?_, ?_, ?_⟩ <;>
      simp only [goto_g, goto_taken, Function.update_self]
    · exact hbefore
    · exact hpos
    · exact hmaster
    · exact hthread
    · exact hmask
    · rw [hs.card_free]
      omega
    · omega
  · exact (hs.cores c).active hc
  · exact iff_of_true hlock rfl
  · intro U hU
    have hU' := hne c U hU
    have hlive := (hs.cores c).live U hU
    exact hlive.kept (Function.update_of_ne hU' ..) (Function.update_of_ne hU' ..) (Nat.le_succ _) hlive.pool
      (hpc ▸ fun h => nomatch h)
  · exact (hs.cores c).nodup
  · refine (hs.cores c).chain.imp_of_mem_imp ?_
    intro U V hU _ hUV
    simp only [goto_taken, Function.update_of_ne (hne c U hU)]
    exact hUV
  · intro d U V hU hV hUV
    simp only [goto_g, Function.update_of_ne (hne c U hU), Function.update_of_ne (hne d V hV)]
    exact hs.disjoint c d U V hU hV hUV
  · rw [holder_goto]
    · simp only [Balance, Pc.counted, Pc.returned, goto_g, Function.update_self]
      omega
    · exact hlock

theorem teamStartFetch_teams_ne {g : Globals} {U : Nat} (h : U ≠ T) :
    (teamStartFetch nprocs g T).teams U = g.teams U :=
  Function.update_of_ne h ..

/-- What core `c` writes when team `T` is formed. -/
def State.forms (s : State) (c T : Nat) (g' : Globals) : State :=
  { s with
    g := g'
    opened := Function.update s.opened c (T :: s.opened c)
    taken := Function.update s.taken T { s.taken T with bits := g'.threadPool &&& ~~~s.g.threadPool } }

@[simp] theorem forms_g (g' : Globals) : (s.forms c T g').g = g' := rfl
@[simp] theorem forms_opened (g' : Globals) :
    (s.forms c T g').opened = Function.update s.opened c (T :: s.opened c) := rfl
@[simp] theorem forms_taken (g' : Globals) : (s.forms c T g').taken =
    Function.update s.taken T { s.taken T with bits := g'.threadPool &&& ~~~s.g.threadPool } := rfl

/-- What `teamStartFetch` makes of the shared variables. -/
structure Forms (nprocs c T : Nat) (g g' : Globals) : Prop where
  formed : (g'.teams T).Formed nprocs c
  nthreads : (g'.teams T).nthreads = (g.teams T).nthreads
  free : Disjoint (g'.teams T).slaves (bits g.threadPool)
  pool : bits g'.threadPool = bits g.threadPool ∪ (g'.teams T).slaves
  currTeam : ∀ x, g'.currTeam x = if x ∈ (g'.teams T).slaves then some T else g.currTeam x
  teams : ∀ U, U ≠ T → g'.teams U = g.teams U
  idleCores : g'.idleCores = g.idleCores
  nextTeam : g'.nextTeam = g.nextTeam

theorem Inv.forms (hs : Inv nprocs s) (hprocs : nprocs ≤ 32) (hpc : s.pc c = .fetch T) :
    Forms nprocs c T s.g (teamStartFetch nprocs s.g T) := by
  obtain ⟨-, hT⟩ := hs.at hpc
  have hmy := (hs.cores c).active (ne_docked hpc (by simp))
  have hone : 1 ≤ nprocs := Nat.one_le_of_lt (hs.pool c hmy)
  obtain ⟨hformed, hn, hfree, hpool, hcur⟩ :=
    teamStartFetch_spec hprocs hone hmy hT.pos hT.master hT.thread hT.mask hT.enough
  exact ⟨hformed, hn, hfree, hpool, hcur, fun _ => teamStartFetch_teams_ne, rfl, rfl⟩

section Fetch

variable {g' : Globals}

theorem Forms.sub {g : Globals} (hf : Forms nprocs c T g g') : bits g.threadPool ⊆ bits g'.threadPool := by
  rw [hf.pool]
  exact Finset.subset_union_left

/-- A team that is formed was not open. -/
theorem Inv.ne_of_fetch (hs : Inv nprocs s) (hpc : s.pc c = .fetch T) {d U : Nat} (hU : U ∈ s.opened d) : U ≠ T := by
  rintro rfl
  exact (hs.at hpc).2.closed d hU

/-- A core that is fetched is at the dock. -/
theorem Inv.docked_of_forms (hs : Inv nprocs s) (hf : Forms nprocs c T s.g g') {x : Nat}
    (hx : x ∈ (g'.teams T).slaves) : s.pc x = .docked := by
  by_contra hne
  exact Finset.disjoint_left.1 hf.free hx ((hs.cores x).active hne)

theorem Inv.forms_local (hs : Inv nprocs s) (hpc : s.pc c = .fetch T) (hf : Forms nprocs c T s.g g') :
    Local s ((s.forms c T g').goto c (.startSignal T)) c := by
  obtain ⟨-, hT⟩ := hs.at hpc
  obtain ⟨hlock, -⟩ := hs.held hpc rfl
  refine Local.goto rfl (Nat.le_of_eq hf.nextTeam.symm) ?_ ?_ (fun _ _ => rfl) ?_ (fun d hd => Or.inl (hf.sub hd))
    (fun _ _ => Iff.rfl) ?_
  · intro U hU hUc
    have hUT : U ≠ T := by
      rintro rfl
      exact hUc hT.master
    exact ⟨hf.teams U hUT, Function.update_of_ne hUT ..⟩
  · intro d hd
    exact Function.update_of_ne hd ..
  · intro d _ hd
    rw [forms_g, hf.currTeam, if_neg]
    intro hx
    exact Finset.disjoint_left.1 hf.free hx hd
  · intro d hd hlock'
    rw [hlock] at hlock'
    exact absurd (Option.some_inj.1 hlock').symm hd

/-- The new team is open, and so are those that were. -/
theorem Inv.forms_live (hs : Inv nprocs s) (hpc : s.pc c = .fetch T) (hf : Forms nprocs c T s.g g') :
    ∀ U ∈ ((s.forms c T g').goto c (.startSignal T)).opened c,
      Live nprocs ((s.forms c T g').goto c (.startSignal T)) c U := by
  obtain ⟨-, hT⟩ := hs.at hpc
  simp only [goto_opened, forms_opened, Function.update_self, List.forall_mem_cons]
  refine ⟨⟨?_, hf.formed, ?_, ?_, ?_, ?_⟩, fun U hU => ?_⟩
  · rw [goto_g, forms_g, hf.nextTeam]
    exact hT.lt
  · rw [goto_g, forms_g, hf.pool]
    exact Finset.subset_union_right
  · simp only [goto_taken, goto_g, forms_g, forms_taken, Function.update_self]
    rw [bits_diff, hf.pool, Finset.union_sdiff_cancel_left hf.free.symm]
  · simp only [goto_taken, goto_g, forms_g, forms_taken, Function.update_self, hf.nthreads]
    exact hT.idle
  · rw [goto_pc_self]
    exact fun h => absurd rfl h
  · have hU' := hs.ne_of_fetch hpc hU
    have hlive := (hs.cores c).live U hU
    exact hlive.kept (hf.teams U hU') (Function.update_of_ne hU' ..) (Nat.le_of_eq hf.nextTeam.symm)
      (hlive.pool.trans hf.sub) (hpc ▸ fun h => nomatch h)

theorem Inv.forms_chain (hs : Inv nprocs s) (hpc : s.pc c = .fetch T) :
    (((s.forms c T g').goto c (.startSignal T)).opened c).IsChain fun U V =>
      (((s.forms c T g').goto c (.startSignal T)).taken U).outer = some V := by
  obtain ⟨hlinked, hT⟩ := hs.at hpc
  simp only [goto_opened, forms_opened, Function.update_self, List.isChain_cons]
  refine ⟨fun U hU => ?_, (hs.cores c).chain.imp_of_mem_imp ?_⟩
  · simp only [goto_taken, forms_taken, Function.update_self]
    rw [hT.outer]
    exact hlinked U hU
  · intro U V hU _ hUV
    simp only [goto_taken, forms_taken, Function.update_of_ne (hs.ne_of_fetch hpc hU)]
    exact hUV

/-- The new slaves were not in the pool, those of the open teams were. -/
theorem Inv.forms_disjoint (hs : Inv nprocs s) (hpc : s.pc c = .fetch T) (hf : Forms nprocs c T s.g g') (d U V : Nat)
    (hU : U ∈ ((s.forms c T g').goto c (.startSignal T)).opened c)
    (hV : V ∈ ((s.forms c T g').goto c (.startSignal T)).opened d) (hUV : U ≠ V) :
    Disjoint (((s.forms c T g').goto c (.startSignal T)).g.teams U).slaves
      (((s.forms c T g').goto c (.startSignal T)).g.teams V).slaves := by
  have hnew : ∀ d U, U ∈ s.opened d → Disjoint (g'.teams T).slaves (g'.teams U).slaves := by
    intro d U hU
    rw [hf.teams U (hs.ne_of_fetch hpc hU)]
    exact Finset.disjoint_of_subset_right ((hs.cores d).live U hU).pool hf.free
  have hmem : ∀ d U, U ∈ Function.update s.opened c (T :: s.opened c) d → U = T ∨ U ∈ s.opened d := by
    intro d U hU
    by_cases hd : d = c
    · subst hd
      rw [Function.update_self] at hU
      exact List.mem_cons.1 hU
    · rw [Function.update_of_ne hd] at hU
      exact Or.inr hU
  rcases hmem c U hU with rfl | hU'
  · rcases hmem d V hV with rfl | hV'
    · exact absurd rfl hUV
    · exact hnew d V hV'
  · rcases hmem d V hV with rfl | hV'
    · exact (hnew c U hU').symm
    · simp only [goto_g, forms_g, hf.teams U (hs.ne_of_fetch hpc hU'), hf.teams V (hs.ne_of_fetch hpc hV')]
      exact hs.disjoint c d U V hU' hV' hUV

/-- The cores that `fetch` takes were counted before. -/
theorem Inv.forms_balance (hs : Inv nprocs s) (hpc : s.pc c = .fetch T) (hf : Forms nprocs c T s.g g') :
    Balance nprocs ((s.forms c T g').goto c (.startSignal T)).g ((s.forms c T g').goto c (.startSignal T)).holder := by
  obtain ⟨hlock, hholder⟩ := hs.held hpc rfl
  have hidle := hf.idleCores
  rw [holder_goto]
  · have hbal := hs.balance
    have hcard : popcount g'.threadPool = popcount s.g.threadPool + ((s.g.teams T).nthreads - 1) := by
      unfold popcount
      rw [hf.pool, Finset.card_union_of_disjoint hf.free.symm, hf.formed.card_slaves, hf.nthreads]
    rw [hholder] at hbal
    simp only [Balance, Pc.counted, Pc.returned, goto_g, forms_g] at hbal ⊢
    omega
  · exact hlock

end Fetch

/-- The team is formed. -/
theorem Inv.fetch (hs : Inv nprocs s) (hprocs : nprocs ≤ 32) (hpc : s.pc c = .fetch T) :
    Inv nprocs ((s.forms c T (teamStartFetch nprocs s.g T)).goto c (.startSignal T)) := by
  obtain ⟨-, hT⟩ := hs.at hpc
  obtain ⟨hlock, -⟩ := hs.held hpc rfl
  have hc := ne_docked hpc (by simp)
  have hmy := (hs.cores c).active hc
  have hf := hs.forms hprocs hpc
  generalize teamStartFetch nprocs s.g T = g' at hf
  refine hs.of_goto rfl (hs.forms_local hpc hf) hc ⟨?_, ?_, fun x hx => ?_⟩ (hf.sub hmy) (iff_of_true hlock rfl)
    (hs.forms_live hpc hf) ?_ (hs.forms_chain hpc) (hs.forms_disjoint hpc hf) (fun x hx => ?_) (hf.sub hs.master)
    (hs.forms_balance hpc hf)
  · simp only [goto_opened, forms_opened, Function.update_self, List.head?_cons]
  · simp only [goto_taken, goto_g, forms_g, forms_taken, Function.update_self]
    rw [hf.currTeam, if_neg hf.formed.master_not_slave]
    exact hT.outer
  · exact goto_docked hc (hs.docked_of_forms hf hx)
  · simp only [goto_opened, forms_opened, Function.update_self, List.nodup_cons]
    exact ⟨hT.closed c, (hs.cores c).nodup⟩
  · rw [goto_g, forms_g, hf.pool, Finset.mem_union] at hx
    exact hx.elim (hs.pool x) fun h => (hf.formed.range x h).2

/-- The descriptors after the link: only `level` and `parent` of the new team change. -/
theorem teamStartLink_teams (nprocs c T : Nat) (g : Globals) (U : Nat) :
    ((teamStartLink g c T).teams U).slaves = (g.teams U).slaves ∧
    ((teamStartLink g c T).teams U).nthreads = (g.teams U).nthreads ∧
    ((g.teams U).Formed nprocs c → ((teamStartLink g c T).teams U).Formed nprocs c) ∧
    ((teamStartLink g c T).teams T).parent = g.currTeam c ∧
    (U ≠ T → (teamStartLink g c T).teams U = g.teams U) := by
  unfold teamStartLink
  by_cases hU : U = T
  · subst hU
    simp only [Function.update_self]
    exact ⟨rfl, trivial, fun h => ⟨h.pos, h.master, h.inverse, h.range, h.mask⟩, trivial, fun h => absurd rfl h⟩
  · simp only [Function.update_of_ne hU, Function.update_self]
    exact ⟨trivial, trivial, id, trivial, fun _ => trivial⟩

theorem Balance.congr {g g' : Globals} {p : Pc} (h : Balance nprocs g p) (hidle : g'.idleCores = g.idleCores)
    (hpool : g'.threadPool = g.threadPool) (hn : ∀ U, (g'.teams U).nthreads = (g.teams U).nthreads) :
    Balance nprocs g' p := by
  have hcounted : p.counted g'.teams = p.counted g.teams := by
    cases p <;> simp only [Pc.counted, hn]
  have hreturned : p.returned g'.teams = p.returned g.teams := by
    cases p <;> simp only [Pc.returned, hn]
  unfold Balance at h ⊢
  rw [hidle, hpool, hcounted, hreturned]
  exact h

/-- Outside the critical sections core `c` is not the holder. -/
theorem holder_of_other (h : ∀ d, s.lock = some d → s'.pc d = s.pc d) (hlock : s'.lock = s.lock) :
    s'.holder = s.holder := by
  unfold State.holder
  rw [hlock]
  cases hd : s.lock with
  | none => rfl
  | some d => exact h d hd

theorem Inv.not_holder (hs : Inv nprocs s) {p : Pc} (hpc : s.pc c = p) (hp : p.critical = false) :
    s.lock ≠ some c := by
  rw [Ne, (hs.cores c).holder, hpc, hp]
  exact Bool.false_ne_true

/-- The team becomes the current one of its master. -/
theorem Inv.link (hs : Inv nprocs s) (hpc : s.pc c = .link T) :
    Inv nprocs ({ s with g := teamStartLink s.g c T }.goto c (.release T 1)) := by
  obtain ⟨hhead, houter, hdocked⟩ := hs.at hpc
  have hc := ne_docked hpc (by simp)
  have hmem : T ∈ s.opened c := List.mem_of_head? hhead
  have hnot := hs.not_holder hpc rfl
  have hg := fun U => teamStartLink_teams nprocs c T s.g U
  have hslaves := fun U => (hg U).1
  have hn := fun U => (hg U).2.1
  have hformed := fun U => (hg U).2.2.1
  have hparent := (hg T).2.2.2.1
  have hteams := fun U => (hg U).2.2.2.2
  have hidle : (teamStartLink s.g c T).idleCores = s.g.idleCores := rfl
  have hpool : (teamStartLink s.g c T).threadPool = s.g.threadPool := rfl
  have hnext : (teamStartLink s.g c T).nextTeam = s.g.nextTeam := rfl
  have hcur : (teamStartLink s.g c T).currTeam = Function.update s.g.currTeam c (some T) := rfl
  generalize teamStartLink s.g c T = g' at hslaves hn hformed hparent hteams hidle hpool hnext hcur
  refine hs.of_goto rfl ?_ hc ?_ ?_ ?_ ?_ ?_ ?_ ?_ ?_ ?_ ?_
  · refine Local.goto rfl (Nat.le_of_eq hnext.symm) ?_ (fun _ _ => rfl) (fun _ _ => rfl) ?_ ?_ (fun _ _ => Iff.rfl)
      (fun _ _ _ => ⟨hpool, List.Subset.refl _⟩)
    · intro U _ hUc
      have hUT : U ≠ T := by
        rintro rfl
        exact hUc ((hs.cores c).live U hmem).formed.master
      exact ⟨hteams U hUT, rfl⟩
    · intro d hd _
      rw [hcur, Function.update_of_ne hd]
    · intro d hd
      rw [hpool]
      exact Or.inl hd
  · refine ⟨hhead, by rw [goto_g, hcur, Function.update_self], Nat.le_refl 1, ?_⟩
    intro j hj1 hj
    rw [goto_g, hn] at hj
    refine goto_docked hc (hdocked _ ?_)
    rw [← hslaves]
    exact Team.Formed.slave hj1 (by rw [hn]; exact hj)
  · rw [goto_g, hpool]
    exact (hs.cores c).active hc
  · exact iff_of_false hnot Bool.false_ne_true
  · intro U hU
    obtain ⟨h1, h2, h3, h4, h5, h6⟩ := (hs.cores c).live U hU
    rw [hpc] at h6
    refine ⟨by rw [goto_g, hnext]; exact h1, hformed U h2, ?_, ?_, ?_, fun _ => ?_⟩ <;>
      simp only [goto_g, goto_taken, hslaves, hn, hpool]
    · exact h3
    · exact h4
    · exact h5
    · by_cases hUT : U = T
      · subst hUT
        rw [hparent]
        exact houter.symm
      · rw [hteams U hUT]
        exact h6 fun h => hUT (Option.some_inj.1 h).symm
  · exact (hs.cores c).nodup
  · exact (hs.cores c).chain
  · intro d U V hU hV hUV
    simp only [goto_g, hslaves]
    exact hs.disjoint c d U V hU hV hUV
  · rw [goto_g, hpool]
    exact hs.pool
  · rw [goto_g, hpool]
    exact hs.master
  · rw [holder_of_other (s := s)]
    · exact hs.balance.congr hidle hpool hn
    · intro d hd
      exact goto_pc_ne _ fun h => hnot (h ▸ hd)
    · rfl

/-- One of the slaves is set running. -/
theorem Inv.release (hs : Inv nprocs s) (hpc : s.pc c = .release T i) (hi : i < (s.g.teams T).nthreads) :
    Inv nprocs ((s.goto c (.release T (i + 1))).goto ((s.g.teams T).proc_ids i) .running) := by
  obtain ⟨hhead, hcur, hi1, hdocked⟩ := hs.at hpc
  have hc := ne_docked hpc (by simp)
  have hmem : T ∈ s.opened c := List.mem_of_head? hhead
  have hlive := (hs.cores c).live T hmem
  have hslave : (s.g.teams T).proc_ids i ∈ (s.g.teams T).slaves := Team.Formed.slave hi1 hi
  have hx := hdocked i (Nat.le_refl i) hi
  have hinj : ∀ j, i + 1 ≤ j → j < (s.g.teams T).nthreads →
      (s.g.teams T).proc_ids j ≠ (s.g.teams T).proc_ids i := by
    intro j hij hj he
    have := hlive.formed.inj hj hi he
    omega
  generalize (s.g.teams T).proc_ids i = x at hslave hx hinj
  have hxc : x ≠ c := by
    rintro rfl
    exact hc hx
  have hpcx : ∀ d, d ≠ c → d ≠ x → ((s.goto c (.release T (i + 1))).goto x .running).pc d = s.pc d := by
    intro d hdc hdx
    rw [goto_pc_ne _ hdx, goto_pc_ne _ hdc]
  have hpcc : ((s.goto c (.release T (i + 1))).goto x .running).pc c = .release T (i + 1) := by
    rw [goto_pc_ne _ hxc.symm, goto_pc_self]
  have hl : Local s ((s.goto c (.release T (i + 1))).goto x .running) c := by
    refine ⟨Nat.le_refl _, fun _ _ _ => ⟨rfl, rfl⟩, fun _ _ => rfl, fun _ _ => rfl, fun _ _ _ => rfl, ?_, ?_,
      fun _ h => Or.inl h, fun _ _ => Iff.rfl, fun _ _ _ => ⟨rfl, List.Subset.refl _⟩⟩
    · intro d hd hne
      refine hpcx d hd ?_
      rintro rfl
      exact hne hx
    · intro d hd h
      by_cases hdx : d = x
      · subst hdx
        exact Or.inr ⟨T, hmem, hslave⟩
      · exact Or.inl ((hpcx d hd hdx).trans h)
  refine ⟨fun d => ?_, hs.disjoint, hs.pool, hs.master, ?_⟩
  · by_cases hdc : d = c
    · subst hdc
      obtain ⟨-, h2, h3, h4, h5, h6⟩ := hs.cores d
      refine ⟨?_, fun _ => h2 hc, ?_, ?_, h5, h6⟩
      · rw [hpcc]
        refine ⟨hhead, hcur, by omega, ?_⟩
        intro j hij hj
        exact (goto_pc_ne _ (hinj j hij hj)).trans (goto_docked hc (hdocked j (by omega) hj))
      · rw [hpcc, goto_lock, goto_lock, h3, hpc]
        rfl
      · intro U hU
        obtain ⟨l1, l2, l3, l4, l5, l6⟩ := h4 U hU
        rw [hpc] at l6
        exact ⟨l1, l2, l3, l4, l5, fun _ => l6 fun h => nomatch h⟩
    · by_cases hdx : d = x
      · -- the slave has no team open
        subst hdx
        have hclosed : s.opened d = [] := hs.at hx
        refine ⟨?_, fun _ => hlive.pool hslave, ?_, ?_, (hs.cores d).nodup, (hs.cores d).chain⟩
        · rw [goto_pc_self]
          intro U hU
          rw [goto_opened, goto_opened, hclosed] at hU
          exact nomatch hU
        · rw [goto_pc_self]
          exact iff_of_false (hs.not_holder hx rfl) Bool.false_ne_true
        · intro U hU
          rw [goto_opened, goto_opened, hclosed] at hU
          exact nomatch hU
      · exact Core.frame hs hl hc hdc (hpcx d hdc hdx)
  · rw [holder_of_other (s := s)]
    · exact hs.balance
    · intro d hd
      refine hpcx d ?_ ?_
      · rintro rfl
        exact hs.not_holder hpc rfl hd
      · rintro rfl
        exact hs.not_holder hx rfl hd
    · rfl

end Start

/-! ## The end of a team -/

section End

variable {nprocs c T : Nat} {s : State}

/-- The threads are counted back. -/
theorem Inv.giveIdle (hs : Inv nprocs s) (hpc : s.pc c = .giveIdle T) :
    Inv nprocs ({ s with g := teamEndIdle s.g T }.goto c (.givePool T)) := by
  obtain ⟨hlock, hholder⟩ := hs.held hpc rfl
  have q : Quiet s ({ s with g := teamEndIdle s.g T }.goto c (.givePool T)) c (.givePool T) :=
    ⟨rfl, rfl, rfl, rfl, rfl, rfl, rfl, fun _ _ => rfl, fun _ _ => Iff.rfl⟩
  have hc := ne_docked hpc (by simp)
  obtain ⟨h1, h2, h3⟩ := hs.at hpc
  refine hs.quiet q hc ⟨h1, h2, AllDocked.goto (s := { s with g := teamEndIdle s.g T }) hc h3⟩
    (iff_of_true hlock rfl) (by rw [hpc]; rfl) ?_
  rw [holder_goto]
  · have hbal := hs.balance
    rw [hholder] at hbal
    simp only [Balance, Pc.counted, Pc.returned, goto_g, teamEndIdle] at hbal ⊢
    omega
  · exact hlock

/-- The mask of `gomp_team_end` clears the slaves, not the master. -/
theorem bits_teamEndPool {t : Team} (h : t.Formed nprocs c) (hc : c < 32) (pool : BitVec 32) :
    bits (pool &&& (~~~t.team ||| bit 32 c)) = bits pool \ t.slaves := by
  have hmask : ∀ x, x < 32 → (x ∈ bits (~~~t.team ||| bit 32 c) ↔ x ∉ t.slaves) := by
    intro x hx
    rw [bits_or, bits_bit hc, Finset.mem_union, Finset.mem_singleton, mem_bits, BitVec.getLsbD_not]
    have hteam : t.team.getLsbD x = true ↔ x = c ∨ x ∈ t.slaves := by
      rw [← mem_bits, h.mask, Finset.mem_insert]
    have hmaster := h.master_not_slave
    constructor
    · rintro (hx' | rfl)
      · intro hxs
        simp [hteam.2 (Or.inr hxs)] at hx'
      · exact hmaster
    · intro hxs
      by_cases hxc : x = c
      · exact Or.inr hxc
      · left
        have : t.team.getLsbD x = false := by
          rw [← Bool.not_eq_true, hteam]
          exact fun h => h.elim hxc hxs
        rw [this]
        simp [hx]
  ext x
  rw [bits_and, Finset.mem_inter, Finset.mem_sdiff]
  constructor
  · rintro ⟨h1, h2⟩
    exact ⟨h1, (hmask x (BitVec.lt_of_getLsbD (mem_bits.1 h1))).1 h2⟩
  · rintro ⟨h1, h2⟩
    exact ⟨h1, (hmask x (BitVec.lt_of_getLsbD (mem_bits.1 h1))).2 h2⟩

/-- What core `c` writes when the slaves of team `T` go back to the pool. -/
def State.gives (s : State) (c T : Nat) : State :=
  { s with
    g := teamEndPool s.g c T
    opened := Function.update s.opened c (s.opened c).tail }

@[simp] theorem gives_teams : (s.gives c T).g.teams = s.g.teams := rfl
@[simp] theorem gives_opened : (s.gives c T).opened = Function.update s.opened c (s.opened c).tail := rfl

section GivePool

/-- The regions that stay open. -/
theorem Inv.ne_of_givePool (hs : Inv nprocs s) (hpc : s.pc c = .givePool T) {U : Nat} (hU : U ∈ (s.opened c).tail) :
    U ∈ s.opened c ∧ U ≠ T := by
  have hnodup := (hs.cores c).nodup
  rw [(List.cons_head?_tail (hs.at hpc).1).symm] at hnodup
  refine ⟨List.mem_of_mem_tail hU, ?_⟩
  rintro rfl
  exact (List.nodup_cons.1 hnodup).1 hU

theorem Inv.gives_pool (hs : Inv nprocs s) (hprocs : nprocs ≤ 32) (hpc : s.pc c = .givePool T) :
    bits (s.gives c T).g.threadPool = bits s.g.threadPool \ (s.g.teams T).slaves := by
  have hlive := (hs.cores c).live T (List.mem_of_head? (hs.at hpc).1)
  have hmy := (hs.cores c).active (ne_docked hpc (by simp))
  exact bits_teamEndPool hlive.formed (Nat.lt_of_lt_of_le (hs.pool c hmy) hprocs) s.g.threadPool

theorem Inv.gives_kept (hs : Inv nprocs s) (hprocs : nprocs ≤ 32) (hpc : s.pc c = .givePool T) {x : Nat}
    (hx : x ∈ bits s.g.threadPool) (hxs : x ∉ (s.g.teams T).slaves) : x ∈ bits (s.gives c T).g.threadPool := by
  rw [hs.gives_pool hprocs hpc]
  exact Finset.mem_sdiff.2 ⟨hx, hxs⟩

theorem Inv.gives_local (hs : Inv nprocs s) (hprocs : nprocs ≤ 32) (hpc : s.pc c = .givePool T) :
    Local s ((s.gives c T).goto c (.endSignal T)) c := by
  obtain ⟨hhead, -, hdocked⟩ := hs.at hpc
  obtain ⟨hlock, -⟩ := hs.held hpc rfl
  refine Local.goto rfl (Nat.le_refl _) (fun _ _ _ => ⟨rfl, rfl⟩) ?_ (fun _ _ => rfl) (fun _ _ _ => rfl) ?_
    (fun _ _ => Iff.rfl) ?_
  · intro d hd
    exact Function.update_of_ne hd ..
  · intro d hd
    by_cases hds : d ∈ (s.g.teams T).slaves
    · exact Or.inr ⟨hdocked d hds, T, List.mem_of_head? hhead, hds⟩
    · exact Or.inl (hs.gives_kept hprocs hpc hd hds)
  · intro d hd hlock'
    rw [hlock] at hlock'
    exact absurd (Option.some_inj.1 hlock').symm hd

/-- The region below the closed one is that of its outer team. -/
theorem Inv.gives_closed (hs : Inv nprocs s) (hpc : s.pc c = .givePool T) :
    PcOk nprocs ((s.gives c T).goto c (.endSignal T)) c (.endSignal T) := by
  obtain ⟨hhead, -, -⟩ := hs.at hpc
  have hlive := (hs.cores c).live T (List.mem_of_head? hhead)
  have hchain := (hs.cores c).chain
  rw [(List.cons_head?_tail hhead).symm] at hchain
  refine ⟨hlive.lt, hlive.formed.master, hlive.parent (by rw [hpc]; exact fun h => nomatch h), ?_⟩
  simp only [goto_opened, gives_opened, Function.update_self]
  exact (List.isChain_cons.1 hchain).1

/-- The slaves of the teams that stay open are not among those of the closed one. -/
theorem Inv.gives_live (hs : Inv nprocs s) (hprocs : nprocs ≤ 32) (hpc : s.pc c = .givePool T) :
    ∀ U ∈ ((s.gives c T).goto c (.endSignal T)).opened c, Live nprocs ((s.gives c T).goto c (.endSignal T)) c U := by
  simp only [goto_opened, gives_opened, Function.update_self]
  intro U hU
  obtain ⟨hU', hUT⟩ := hs.ne_of_givePool hpc hU
  have hlive := (hs.cores c).live U hU'
  have hdisj := hs.disjoint c c U T hU' (List.mem_of_head? (hs.at hpc).1) hUT
  exact hlive.kept rfl rfl (Nat.le_refl _)
    (fun x hx => hs.gives_kept hprocs hpc (hlive.pool hx) (Finset.disjoint_left.1 hdisj hx)) (hpc ▸ fun h => nomatch h)

theorem Inv.gives_disjoint (hs : Inv nprocs s) (hpc : s.pc c = .givePool T) (d U V : Nat)
    (hU : U ∈ ((s.gives c T).goto c (.endSignal T)).opened c)
    (hV : V ∈ ((s.gives c T).goto c (.endSignal T)).opened d) (hUV : U ≠ V) :
    Disjoint (((s.gives c T).goto c (.endSignal T)).g.teams U).slaves
      (((s.gives c T).goto c (.endSignal T)).g.teams V).slaves := by
  have hsub : ∀ d, Function.update s.opened c (s.opened c).tail d ⊆ s.opened d := by
    intro d W hW
    by_cases hd : d = c
    · subst hd
      rw [Function.update_self] at hW
      exact (hs.ne_of_givePool hpc hW).1
    · rw [Function.update_of_ne hd] at hW
      exact hW
  rw [goto_g, gives_teams]
  exact hs.disjoint c d U V (hsub c hU) (hsub d hV) hUV

/-- The slaves were counted back before their bits are cleared. -/
theorem Inv.gives_balance (hs : Inv nprocs s) (hprocs : nprocs ≤ 32) (hpc : s.pc c = .givePool T) :
    Balance nprocs ((s.gives c T).goto c (.endSignal T)).g ((s.gives c T).goto c (.endSignal T)).holder := by
  obtain ⟨hlock, hholder⟩ := hs.held hpc rfl
  have hlive := (hs.cores c).live T (List.mem_of_head? (hs.at hpc).1)
  have hidle : (s.gives c T).g.idleCores = s.g.idleCores := rfl
  rw [holder_goto]
  · have hbal := hs.balance
    have hcard : popcount (s.gives c T).g.threadPool + ((s.g.teams T).nthreads - 1) = popcount s.g.threadPool := by
      unfold popcount
      rw [hs.gives_pool hprocs hpc, ← hlive.formed.card_slaves]
      exact Finset.card_sdiff_add_card_eq_card hlive.pool
    rw [hholder] at hbal
    simp only [Balance, Pc.counted, Pc.returned, goto_g] at hbal ⊢
    omega
  · exact hlock

end GivePool

/-- The slaves go back to the pool. -/
theorem Inv.givePool (hs : Inv nprocs s) (hprocs : nprocs ≤ 32) (hpc : s.pc c = .givePool T) :
    Inv nprocs ((s.gives c T).goto c (.endSignal T)) := by
  obtain ⟨hhead, -, -⟩ := hs.at hpc
  obtain ⟨hlock, -⟩ := hs.held hpc rfl
  have hc := ne_docked hpc (by simp)
  have hlive := (hs.cores c).live T (List.mem_of_head? hhead)
  have hnodup := (hs.cores c).nodup
  have hchain := (hs.cores c).chain
  rw [(List.cons_head?_tail hhead).symm] at hnodup hchain
  refine hs.of_goto rfl (hs.gives_local hprocs hpc) hc (hs.gives_closed hpc) ?_ (iff_of_true hlock rfl)
    (hs.gives_live hprocs hpc) ?_ ?_ (hs.gives_disjoint hpc) ?_ ?_ (hs.gives_balance hprocs hpc)
  · exact hs.gives_kept hprocs hpc ((hs.cores c).active hc) hlive.formed.master_not_slave
  · simp only [goto_opened, gives_opened, Function.update_self]
    exact (List.nodup_cons.1 hnodup).2
  · simp only [goto_opened, gives_opened, Function.update_self]
    exact (List.isChain_cons.1 hchain).2
  · intro x hx
    rw [goto_g, hs.gives_pool hprocs hpc] at hx
    exact hs.pool x (Finset.mem_sdiff.1 hx).1
  · refine hs.gives_kept hprocs hpc hs.master fun hx => ?_
    exact absurd (hlive.formed.range _ hx).1 (by decide)

/-- The current team of the master is the outer one again. -/
theorem Inv.unlink (hs : Inv nprocs s) (hpc : s.pc c = .unlink T) :
    Inv nprocs ({ s with g := teamEndUnlink s.g c T }.goto c .running) := by
  obtain ⟨-, -, hparent, houter⟩ := hs.at hpc
  have hc := ne_docked hpc (by simp)
  have hnot := hs.not_holder hpc rfl
  refine hs.of_goto rfl ?_ hc ?_ ((hs.cores c).active hc) ?_ ?_ (hs.cores c).nodup (hs.cores c).chain (hs.disjoint c)
    hs.pool hs.master ?_
  · refine Local.goto rfl (Nat.le_refl _) (fun _ _ _ => ⟨rfl, rfl⟩) (fun _ _ => rfl) (fun _ _ => rfl) ?_
      (fun _ h => Or.inl h) (fun _ _ => Iff.rfl) (fun _ _ _ => ⟨rfl, List.Subset.refl _⟩)
    · intro d hd _
      exact Function.update_of_ne hd ..
  · intro U hU
    refine (Function.update_self ..).trans ?_
    rw [hparent]
    exact houter U hU
  · exact iff_of_false hnot Bool.false_ne_true
  · intro U hU
    have hlive := (hs.cores c).live U hU
    exact hlive.kept rfl rfl (Nat.le_refl _) hlive.pool (hpc ▸ fun h => nomatch h)
  · rw [holder_of_other (s := s)]
    · exact hs.balance
    · intro d hd
      exact goto_pc_ne _ fun h => hnot (h ▸ hd)
    · rfl

end End

/-! ## Runs -/

section Runs

variable {nprocs c : Nat} {s s' : State}

theorem stepGo_inv (hs : Inv nprocs s) (hprocs : nprocs ≤ 32) (h : stepGo nprocs s c = some s') :
    Inv nprocs s' := by
  unfold stepGo at h
  split at h
  · exact nomatch h
  · exact nomatch h
  · rename_i k hpc
    rw [Option.ite_none_right_eq_some] at h
    obtain ⟨hfree, h⟩ := h
    cases h
    exact hs.lock hfree (ne_docked hpc (by simp)) (by rw [hpc]; rfl) rfl rfl (by rw [hpc]; rfl) (hs.at hpc)
  · rename_i k hpc
    have hmy := hs.pool c ((hs.cores c).active (ne_docked hpc (by simp)))
    obtain ⟨t, ht, h1, h2, h3, h4, h5⟩ := teamStartResolve_spec s.g (Nat.lt_of_lt_of_le hmy hprocs) k
    rw [ht] at h
    cases h
    exact hs.resolve hpc h1 h2 h3 h4 h5
  · rename_i T hpc
    cases h
    exact hs.fetch hprocs hpc
  · rename_i T hpc
    cases h
    obtain ⟨h1, h2, h3⟩ := hs.at hpc
    have hc := ne_docked hpc (by simp)
    exact hs.unlock hc (by rw [hpc]; rfl) (by rw [hpc]; rfl) rfl rfl (by rw [hpc]; rfl)
      ⟨h1, h2, AllDocked.goto (s := { s with lock := none }) hc h3⟩
  · rename_i T hpc
    cases h
    exact hs.link hpc
  · rename_i T i hpc
    split at h
    · rename_i hi
      cases h
      exact hs.release hpc hi
    · cases h
      exact hs.released hpc
  · rename_i T i hpc
    split at h
    · rw [Option.ite_none_right_eq_some] at h
      obtain ⟨hback, h⟩ := h
      cases h
      exact hs.gatherNext hpc hback
    · rename_i hi
      rw [(hs.at hpc).2.1] at h
      cases h
      exact hs.gathered hpc (Nat.not_lt.1 hi)
  · rename_i T hpc
    rw [Option.ite_none_right_eq_some] at h
    obtain ⟨hfree, h⟩ := h
    cases h
    obtain ⟨h1, h2, h3⟩ := hs.at hpc
    have hc := ne_docked hpc (by simp)
    exact hs.lock hfree hc (by rw [hpc]; rfl) rfl rfl (by rw [hpc]; rfl)
      ⟨h1, h2, AllDocked.goto (s := { s with lock := some c }) hc h3⟩
  · rename_i T hpc
    cases h
    exact hs.giveIdle hpc
  · rename_i T hpc
    cases h
    exact hs.givePool hprocs hpc
  · rename_i T hpc
    cases h
    exact hs.unlock (ne_docked hpc (by simp)) (by rw [hpc]; rfl) (by rw [hpc]; rfl) rfl rfl (by rw [hpc]; rfl)
      (hs.at hpc)
  · rename_i T hpc
    cases h
    exact hs.unlink hpc

/-- Every step keeps the invariant. -/
theorem step_inv {a : Act} (hs : Inv nprocs s) (hprocs : nprocs ≤ 32) (h : step nprocs s a = some s') :
    Inv nprocs s' := by
  cases a with
  | start c k =>
    simp only [step, Option.ite_none_right_eq_some] at h
    obtain ⟨hpc, h⟩ := h
    cases h
    exact hs.start hpc
  | finish c =>
    simp only [step, Option.ite_none_right_eq_some, Option.map_eq_some_iff] at h
    obtain ⟨⟨hpc, hopened⟩, T, hT, rfl⟩ := h
    obtain ⟨U, hU⟩ := Option.isSome_iff_exists.1 (List.isSome_head?.2 hopened)
    obtain rfl : T = U := Option.some_inj.1 (hT.symm.trans (hs.at hpc U hU))
    exact hs.finish hpc hU
  | dock c =>
    simp only [step, Option.ite_none_right_eq_some] at h
    obtain ⟨⟨hpc, -, hclosed⟩, h⟩ := h
    cases h
    exact hs.dock hpc hclosed
  | go c => exact stepGo_inv hs hprocs h

theorem init_docked (hc : c ≠ MASTER_ID) : (init nprocs).pc c = .docked := by
  simp only [init, Function.update_of_ne hc]

/-- Only the master runs, and all others are idle. -/
theorem inv_init (hone : 1 ≤ nprocs) : Inv nprocs (init nprocs) := by
  have hpool : bits (init nprocs).g.threadPool = {MASTER_ID} := bits_bit (by decide)
  refine ⟨fun c => ⟨?_, ?_, ?_, ?_, List.nodup_nil, List.isChain_nil⟩, ?_, ?_, ?_, ?_⟩
  · by_cases hc : c = MASTER_ID
    · subst hc
      exact fun T hT => nomatch hT
    · rw [init_docked hc]
      rfl
  · intro hne
    by_cases hc : c = MASTER_ID
    · rw [hpool, hc]
      exact Finset.mem_singleton_self _
    · exact absurd (init_docked hc) hne
  · refine iff_of_false (fun h => nomatch h) ?_
    by_cases hc : c = MASTER_ID
    · subst hc
      exact Bool.false_ne_true
    · rw [init_docked hc]
      exact Bool.false_ne_true
  · exact fun T hT => nomatch hT
  · exact fun c d T U hT => nomatch hT
  · rw [hpool]
    intro x hx
    rw [Finset.mem_singleton.1 hx]
    exact hone
  · rw [hpool]
    exact Finset.mem_singleton_self _
  · have hcard : popcount (init nprocs).g.threadPool = 1 := by
      rw [popcount, hpool, Finset.card_singleton]
    have hidle : (init nprocs).g.idleCores = nprocs - 1 := by
      simp only [init, initenv, masterRegionStart, resolveNumThreads]
      split <;> omega
    rw [holder_of_free rfl, balance_iff rfl, hcard, hidle]
    omega

theorem run_inv {as : List Act} (hone : 1 ≤ nprocs) (hprocs : nprocs ≤ 32)
    (h : Trans.run (step nprocs) (init nprocs) as = some s) : Inv nprocs s :=
  Trans.run_inv (Inv nprocs) (fun _ _ _ hs => step_inv hs hprocs) (inv_init hone) h

end Runs

/-! ## Team allocation -/

section Allocation

variable {nprocs c T : Nat} {s : State}

/-- The cores that are idle and those in the pool are all cores. -/
def Conserved (nprocs : Nat) (s : State) : Prop := s.g.idleCores + popcount s.g.threadPool = nprocs

/-- `nthreads` different cores, and `thread_ids` undoes `proc_ids` on them. -/
def Team.Numbered (t : Team) : Prop :=
  (∀ i < t.nthreads, ∀ j < t.nthreads, t.proc_ids i = t.proc_ids j → i = j) ∧
  ∀ j < t.nthreads, t.thread_ids (t.proc_ids j) = j

/-- What a step of `gomp_team_end` on `CURR_TEAM` gives back is what the start took of it: the team is
the last that its master has opened. -/
def GivesBack (s : State) (a : Act) (s' : State) : Prop :=
  ∀ c, a = .go c →
    match s.pc c with
    | .giveIdle T => (s.opened c).head? = some T ∧ s'.g.idleCores = s.g.idleCores + (s.taken T).idle
    | .givePool T =>
      (s.opened c).head? = some T ∧ s.g.threadPool &&& ~~~s'.g.threadPool = (s.taken T).bits ∧
        s'.g.threadPool &&& ~~~s.g.threadPool = 0
    | .unlink T => s'.g.currTeam c = (s.taken T).outer
    | _ => True

theorem Inv.givesBack {a : Act} {s' : State} (hs : Inv nprocs s) (hprocs : nprocs ≤ 32)
    (h : step nprocs s a = some s') : GivesBack s a s' := by
  rintro c rfl
  simp only [step, stepGo] at h
  split
  · rename_i T hpc
    rw [hpc] at h
    cases h
    obtain ⟨hhead, -, -⟩ := hs.at hpc
    refine ⟨hhead, ?_⟩
    rw [((hs.cores c).live T (List.mem_of_head? hhead)).idle]
    rfl
  · rename_i T hpc
    rw [hpc] at h
    cases h
    obtain ⟨hhead, -, -⟩ := hs.at hpc
    have hlive := (hs.cores c).live T (List.mem_of_head? hhead)
    have hmy := hs.pool c ((hs.cores c).active (ne_docked hpc (by simp)))
    have hpool : bits (teamEndPool s.g c T).threadPool = bits s.g.threadPool \ (s.g.teams T).slaves :=
      bits_teamEndPool hlive.formed (Nat.lt_of_lt_of_le hmy hprocs) s.g.threadPool
    refine ⟨hhead, bits_inj ?_, bits_inj ?_⟩
    · rw [bits_diff, goto_g, hpool, hlive.bits, Finset.sdiff_sdiff_eq_self hlive.pool]
    · rw [bits_diff, goto_g, hpool, Finset.sdiff_eq_empty_iff_subset.2 Finset.sdiff_subset]
      exact bits_zero.symm
  · rename_i T hpc
    rw [hpc] at h
    cases h
    obtain ⟨-, -, hparent, -⟩ := hs.at hpc
    exact (Function.update_self ..).trans hparent
  · trivial

/-- **Team allocation**: after every run from `omp_initenv`, whatever the masters, the nesting and the
sizes asked for. -/
theorem team_allocation {as : List Act} {s : State} (hone : 1 ≤ nprocs) (hprocs : nprocs ≤ 32)
    (h : Trans.run (step nprocs) (init nprocs) as = some s) :
    (s.lock = none → Conserved nprocs s) ∧
    (∀ x c d T U, T ∈ s.opened c → U ∈ s.opened d → x ∈ (s.g.teams T).slaves → x ∈ (s.g.teams U).slaves → T = U) ∧
    (∀ c, ∀ T ∈ s.opened c, (s.g.teams T).Numbered) ∧
    ∀ a s', step nprocs s a = some s' → GivesBack s a s' := by
  have hs := run_inv hone hprocs h
  refine ⟨?_, ?_, ?_, fun a s' ha => hs.givesBack hprocs ha⟩
  · intro hfree
    have hbal := hs.balance
    rw [holder_of_free hfree, balance_iff rfl] at hbal
    exact hbal
  · intro x c d T U hT hU hxT hxU
    by_contra hTU
    exact Finset.disjoint_left.1 (hs.disjoint c d T U hT hU hTU) hxT hxU
  · intro c T hT
    have hformed := ((hs.cores c).live T hT).formed
    exact ⟨fun i hi j hj => hformed.inj hi hj, hformed.inverse⟩

/-- Core 0 opens a region of three, its slave 1 a nested one of what is left; both are closed again. -/
def nested : List Act :=
  [.start 0 3, .go 0, .go 0, .go 0, .go 0, .go 0, .go 0, .go 0, .go 0,
   .start 1 0, .go 1, .go 1, .go 1, .go 1, .go 1, .go 1, .go 1, .dock 2, .dock 3,
   .finish 1, .go 1, .go 1, .go 1, .go 1, .go 1, .go 1, .go 1, .dock 1,
   .finish 0, .go 0, .go 0, .go 0, .go 0, .go 0, .go 0, .go 0, .go 0]

theorem nested_runs : (Trans.run (step 4) (init 4) nested).isSome = true := by decide +kernel

/-- A run that goes through both regions. -/
theorem team_allocation_nested :
    ∃ s, Trans.run (step 4) (init 4) nested = some s ∧ (s.lock = none → Conserved 4 s) ∧
      ∀ a s', step 4 s a = some s' → GivesBack s a s' := by
  obtain ⟨s, hrun⟩ := Option.isSome_iff_exists.1 nested_runs
  obtain ⟨h1, -, -, h4⟩ := team_allocation (by decide) (by decide) hrun
  exact ⟨s, hrun, h1, h4⟩

end Allocation

end VirtualSoc.Gomp.TeamAlloc
