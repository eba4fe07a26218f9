import VirtualSoc.Lib.Transition
import VirtualSoc.Gomp.Barrier
import VirtualSoc.Gomp.TeamAllocInv

/-!
# Parallel regions, word by word (libgomp/libgomp.c, parallel.c, team.c, barrier.c, config/vsoc/bar_sw.c)

The worker loop of `omp_SPMD_worker`, `GOMP_parallel_start`, `GOMP_parallel_end` and `GOMP_barrier` over the words of
the barrier: a slave waits at the dock by `MSGBarrier_SlaveEnter`, the start of a region releases the slaves of the
new team with `MSGBarrier_Release`, and its end gathers them with `MSGBarrier_Wait`. A barrier inside of the region
uses the same words. Regions are nested in any way: a slave that runs a task opens regions of its own.

User code is whatever the actions are, but a task has its barriers: `barriers fn` says how often `fn` calls
`GOMP_barrier`, in each thread that runs it. The master of the team runs the task between the start and the end of
the region. The end of the program (`OMP_SLAVE_EXIT`) is left out, and a barrier outside of all regions.

* `State.abs` forgets the words: a slave is at the dock while its counter is the one that it sampled. This is a
  refinement mapping to the allocation of teams (`TeamAlloc`), where the dock is one step.
* `life` is what a team means for one of its slaves: it is started, the slave runs the task of the team once, and
  the team is finished.
-/

namespace VirtualSoc.Gomp.Region

open Mask Barrier TeamAlloc

/-- Where a core is. `enter` to `spin` are in `MSGBarrier_SlaveEnter`, with the counter sampled in the last two;
`work` is the head of the worker loop. `release` and `gather` are the heads of the loops of `MSGBarrier_Release` and
`MSGBarrier_Wait`, at thread `i`; `store` has the counter loaded, `reset` has seen the flag. -/
inductive Pc
  | enter (kind : Kind)
  | announce (kind : Kind) (g : Int32)
  | spin (kind : Kind) (g : Int32)
  | work
  | running
  | startWait (fn data specified : Nat)
  | resolve (fn data specified : Nat)
  | fetch (new_team : Nat)
  | startSignal (new_team : Nat)
  | link (new_team : Nat)
  | release (kind : Kind) (team i : Nat)
  | store (kind : Kind) (team i : Nat) (exit : Int32)
  | gather (kind : Kind) (team i : Nat)
  | reset (kind : Kind) (team i : Nat)
  | endWait (the_team : Nat)
  | giveIdle (the_team : Nat)
  | givePool (the_team : Nat)
  | endSignal (the_team : Nat)
  | unlink (the_team : Nat)
deriving DecidableEq, Repr

/-- `task` has `omp_task_f` and `omp_args` of the descriptors. Ghost state: `passed T c` counts the barriers of team
`T` that core `c` has left; the others are those of `TeamAlloc`. -/
structure State where
  g : Globals
  task : Nat → Nat × Nat
  mem : Nat → Int32
  lock : Option Nat
  pc : Nat → Pc
  passed : Nat → Nat → Nat
  opened : Nat → List Nat
  before : Nat → Option Nat
  taken : Nat → Taken

inductive Act
  | start (c fn data specified : Nat)
  | finish (c : Nat)
  | barrier (c : Nat)
  | ret (c : Nat)
  | go (c : Nat)
deriving DecidableEq, Repr

def Act.core : Act → Nat
  | .start c _ _ _ | .finish c | .barrier c | .ret c | .go c => c

namespace State

def goto (s : State) (c : Nat) (p : Pc) : State := { s with pc := Function.update s.pc c p }

/-- `*(SLAVE_FLAG(x))`. -/
def exit (s : State) (x : Nat) : Int32 := s.mem (SLAVE_FLAG x)

/-- `*(MASTER_FLAG(x))`. -/
def flag (s : State) (x : Nat) : Int32 := s.mem (MASTER_FLAG x)

def setExit (s : State) (x : Nat) (v : Int32) : State := { s with mem := Function.update s.mem (SLAVE_FLAG x) v }

def setFlag (s : State) (x : Nat) (v : Int32) : State := { s with mem := Function.update s.mem (MASTER_FLAG x) v }

/-- Core `c` leaves a barrier of team `T`. -/
def pass (s : State) (T c : Nat) : State :=
  { s with passed := Function.update s.passed T (Function.update (s.passed T) c (s.passed T c + 1)) }

end State

section Step

variable (barriers : Nat → Nat) (nprocs : Nat)

/-- The barriers of the task of team `T`. -/
def quota (s : State) (T : Nat) : Nat := barriers (s.task T).1

/-- The next access of core `c` in the call that it has made. -/
def stepGo (s : State) (c : Nat) : Option State :=
  match s.pc c with
  | .running => none
  | .enter kind => some (s.goto c (.announce kind (s.exit c)))
  | .announce kind g => some ((s.setFlag c 1).goto c (.spin kind g))
  | .spin kind g =>
    if s.exit c = g then none
    else
      match kind with
      | .dock => some (s.goto c .work)
      | .barrier => (s.g.currTeam c).map fun T => (s.pass T c).goto c .running
  | .work => (s.g.currTeam c).map fun _ => s.goto c .running
  | .startWait fn data specified =>
    if s.lock = none then some ({ s with lock := some c }.goto c (.resolve fn data specified)) else none
  | .resolve fn data specified =>
    let (g, new_team) := teamStartResolve s.g c specified
    some ({ s with
      g := g
      task := Function.update s.task new_team (fn, data)
      passed := Function.update s.passed new_team fun _ => 0
      taken := Function.update s.taken new_team ⟨0, s.g.idleCores - g.idleCores, s.before c⟩ }.goto c (.fetch new_team))
  | .fetch new_team =>
    let g := teamStartFetch nprocs s.g new_team
    some ({ s with
      g := g
      opened := Function.update s.opened c (new_team :: s.opened c)
      taken := Function.update s.taken new_team
        { s.taken new_team with bits := g.threadPool &&& ~~~s.g.threadPool } }.goto c (.startSignal new_team))
  | .startSignal new_team => some ({ s with lock := none }.goto c (.link new_team))
  | .link new_team => some ({ s with g := teamStartLink s.g c new_team }.goto c (.release .dock new_team 1))
  | .release kind team i =>
    if i < (s.g.teams team).nthreads then
      some (s.goto c (.store kind team i (s.exit ((s.g.teams team).proc_ids i))))
    else
      match kind with
      | .dock => some (s.goto c .running)
      | .barrier => some ((s.pass team c).goto c .running)
  | .store kind team i exit =>
    some ((s.setExit ((s.g.teams team).proc_ids i) (exit + 1)).goto c (.release kind team (i + 1)))
  | .gather kind team i =>
    if i < (s.g.teams team).nthreads then
      if s.flag ((s.g.teams team).proc_ids i) = 0 then none else some (s.goto c (.reset kind team i))
    else
      match kind with
      | .dock => (s.g.currTeam c).map fun the_team => s.goto c (.endWait the_team)
      | .barrier => some (s.goto c (.release .barrier team 1))
  | .reset kind team i => some ((s.setFlag ((s.g.teams team).proc_ids i) 0).goto c (.gather kind team (i + 1)))
  | .endWait the_team =>
    if s.lock = none then some ({ s with lock := some c }.goto c (.giveIdle the_team)) else none
  | .giveIdle the_team => some ({ s with g := teamEndIdle s.g the_team }.goto c (.givePool the_team))
  | .givePool the_team =>
    some ({ s with
      g := teamEndPool s.g c the_team
      opened := Function.update s.opened c (s.opened c).tail }.goto c (.endSignal the_team))
  | .endSignal the_team => some ({ s with lock := none }.goto c (.unlink the_team))
  | .unlink the_team => some ({ s with g := teamEndUnlink s.g c the_team }.goto c .running)

/-- User code of core `c` makes a call, returns from its task, or the call goes on. A task returns, and a region is
ended, after all of its barriers. -/
def step (s : State) (a : Act) : Option State :=
  if a.core < nprocs then
    match a with
    | .start c fn data specified =>
      if s.pc c = .running then
        some ({ s with before := Function.update s.before c (s.g.currTeam c) }.goto c (.startWait fn data specified))
      else none
    | .finish c =>
      if s.pc c = .running ∧ s.opened c ≠ [] then
        (s.g.currTeam c).bind fun the_team =>
          if s.passed the_team c = quota barriers s the_team then some (s.goto c (.gather .dock the_team 1)) else none
      else none
    | .barrier c =>
      if s.pc c = .running ∧ (c ≠ MASTER_ID ∨ s.opened c ≠ []) then
        (s.g.currTeam c).bind fun team =>
          if s.passed team c < quota barriers s team then
            if c = (s.g.teams team).proc_ids 0 then some (s.goto c (.gather .barrier team 1))
            else some (s.goto c (.enter .barrier))
          else none
      else none
    | .ret c =>
      if s.pc c = .running ∧ c ≠ MASTER_ID ∧ s.opened c = [] then
        (s.g.currTeam c).bind fun team =>
          if s.passed team c = quota barriers s team then some (s.goto c (.enter .dock)) else none
      else none
    | .go c => stepGo nprocs s c
  else none

/-- After `omp_initenv` and the first gather at the dock (libgomp.c:135); the counters have any values. -/
def init (mem : Nat → Int32) : State where
  g := initenv nprocs
  task := fun _ => (0, 0)
  mem := mem
  lock := none
  pc := Function.update (fun x => .spin .dock (mem (SLAVE_FLAG x))) MASTER_ID .running
  passed := fun _ _ => 0
  opened := fun _ => []
  before := fun _ => none
  taken := fun _ => ⟨0, 0, none⟩

end Step

/-! ## Without the words -/

section Abs

variable (nprocs : Nat)

/-- The place of a core in `TeamAlloc`, where `same` says that its counter is the one sampled. -/
def Pc.abs (same : Int32 → Bool) : Pc → TeamAlloc.Pc
  | .spin .dock g => if same g then .docked else .running
  | .startWait _ _ specified => .startWait specified
  | .resolve _ _ specified => .resolve specified
  | .fetch T => .fetch T
  | .startSignal T => .startSignal T
  | .link T => .link T
  | .release .dock T i | .store .dock T i _ => .release T i
  | .gather .dock T i | .reset .dock T i => .gather T i
  | .endWait T => .endWait T
  | .giveIdle T => .giveIdle T
  | .givePool T => .givePool T
  | .endSignal T => .endSignal T
  | .unlink T => .unlink T
  | _ => .running

/-- Cores that do not exist stay at the dock. -/
def State.absPc (s : State) (c : Nat) : TeamAlloc.Pc :=
  if c < nprocs then (s.pc c).abs fun g => s.exit c == g else .docked

def State.abs (s : State) : TeamAlloc.State where
  g := s.g
  lock := s.lock
  pc := s.absPc nprocs
  opened := s.opened
  before := s.before
  taken := s.taken

end Abs

/-! ## A team as one of its slaves sees it -/

/-- What happens between team `T` and core `x`. -/
inductive Event
  | start (task : Nat × Nat)
  | call (task : Nat × Nat)
  | ret
  | finish
deriving DecidableEq, Repr

inductive Phase
  | absent
  | started (task : Nat × Nat)
  | called
  | returned
  | finished
deriving DecidableEq, Repr

/-- Once each, in this order, and the task that is called is the one that was started. -/
def life : Phase → Event → Option Phase
  | .absent, .start task => some (.started task)
  | .started task, .call task' => if task' = task then some .called else none
  | .called, .ret => some .returned
  | .returned, .finish => some .finished
  | _, _ => none

/-- The team is formed with `x` as a slave, `x` calls the task that it finds in its current team, `x` returns from a
task of the team, and the master of the team is past the gather of `GOMP_parallel_end`. -/
def events (nprocs T x : Nat) (s : State) : Act → List Event
  | .ret c => if c = x ∧ s.g.currTeam c = some T then [.ret] else []
  | .go c =>
    match s.pc c with
    | .fetch new_team =>
      if new_team = T ∧ x ∈ ((teamStartFetch nprocs s.g T).teams T).slaves then [.start (s.task T)] else []
    | .work => if c = x ∧ s.g.currTeam c = some T then [.call (s.task T)] else []
    | .gather .dock team i =>
      if team = T ∧ (s.g.teams T).nthreads ≤ i ∧ x ∈ (s.g.teams T).slaves then [.finish] else []
    | _ => []
  | _ => []

end VirtualSoc.Gomp.Region
