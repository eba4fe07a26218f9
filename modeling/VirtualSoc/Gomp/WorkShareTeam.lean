import Mathlib.Tactic.Common
import VirtualSoc.Lib.Transition
import VirtualSoc.Lib.Count
import VirtualSoc.Gomp.WorkShare

/-!
# A team at its work-sharing constructs (libgomp/loop.c, sections.c, work.c)

All threads of the team meet the same sequence of constructs and share the one descriptor of
`WorkShare`. A step is one critical section of one thread, or one unlocked access of
`gomp_work_share_end_nowait`; the list of the threads that move is the interleaving. A ghost log
records which thread was handed which iteration of which construct.

A thread that is a construct ahead takes the descriptor of the one behind for its own, so the
sharing is right as long as nobody starts a construct that somebody has not got to
(`handedOnce_of_guarded`). The team barrier sees to that (`handedOnce_of_barrier`).
-/

namespace VirtualSoc.Gomp

open WorkShare Loop

/-! ## Constructs -/

/-- The bounds of a loop that the compiler can generate. -/
structure DynLoop extends LoopArgs where
  incr_ne : incr ≠ 0
  chunk_pos : 1 ≤ chunkSize.toInt

structure Sections where
  count : Int32
  count_nonneg : 0 ≤ count.toInt

inductive Body
  | loop (l : DynLoop)
  | sections (c : Sections)

structure Construct where
  body : Body
  nowait : Bool

namespace Body

/-- What the construct has to hand out. -/
def iterations : Body → List Int
  | .loop l => seqLoop l.toLoopArgs
  | .sections c => iters 1 1 (c.count.toInt + 1)

/-- The section number returned, or the end. -/
def handedSection (r : WorkShare × Int32) : WorkShare × Option (List Int) :=
  (r.1, if r.2 = 0 then none else some [r.2.toInt])

def handedChunk (l : DynLoop) (r : WorkShare × Option (Int32 × Int32)) : WorkShare × Option (List Int) :=
  (r.1, r.2.map fun c => chunkIters l.toLoopArgs (some c))

/-- The call that enters the construct, and what it hands to its caller. -/
def start : Body → WorkShare → WorkShare × Option (List Int)
  | .loop l, ws => handedChunk l (callLoop l.toLoopArgs ws .start)
  | .sections c, ws => handedSection (ws.sectionsStart c.count)

/-- The call for more. -/
def next : Body → WorkShare → WorkShare × Option (List Int)
  | .loop l, ws => handedChunk l (callLoop l.toLoopArgs ws .next)
  | .sections _, ws => handedSection ws.sectionsNext

/-- The end of the construct, and whether this thread goes on to `gomp_work_share_end_nowait`. -/
def finish : Body → WorkShare → UInt32 → WorkShare × Bool
  | .loop _, ws, nthreads => (ws.loopEnd nthreads, false)
  | .sections _, ws, nthreads => ws.sectionsEnd nthreads

/-- The chunks of the loop are pieces of it. -/
def Fits : Body → Prop
  | .loop l => l.toLoopArgs.Fits
  | .sections _ => True

instance : ∀ b, Decidable (Fits b)
  | .loop l => inferInstanceAs (Decidable l.toLoopArgs.Fits)
  | .sections _ => inferInstanceAs (Decidable True)

/-! ### What the calls do -/

/-- The descriptor is set up for the construct, and `rest` is still to be handed out. -/
def Running : Body → WorkShare → List Int → Prop
  | .loop l, ws, rest => l.toLoopArgs.Running ws rest
  | .sections _, ws, rest => ∃ N E, Live 1 1 ws N E ∧ (1 ≤ N ∧ E ≤ 2 ^ 31) ∧ rest = iters 1 N E

/-- The call hands out the front of `rest`, or nothing at its end. -/
def Takes (b : Body) (ws : WorkShare) (rest : List Int) (r : WorkShare × Option (List Int)) : Prop :=
  (rest = [] ∧ r = (ws, none)) ∨
  (∃ M l rest', r = ({ ws with next := M }, some l) ∧ rest = l ++ rest' ∧ b.Running { ws with next := M } rest')

variable {b : Body} {ws : WorkShare} {rest : List Int}

theorem handedChunk_takes {l : DynLoop} (h : l.toLoopArgs.Running ws rest) :
    Takes (.loop l) ws rest (handedChunk l (takeChunk ws l.chunkSize l.incr)) := by
  rcases h.take with ⟨hrest, htake⟩ | ⟨M, c, rest', htake, -, hsplit, hrun⟩
  · exact Or.inl ⟨hrest, by rw [htake]; rfl⟩
  · exact Or.inr ⟨M, _, rest', by rw [htake]; rfl, hsplit, hrun⟩

/-- One section at a time. -/
theorem handedSection_takes {c : Sections} (h : Running (.sections c) ws rest) :
    (ws.next = ws.end_ ∧ Takes (.sections c) ws rest (ws, none)) ∨
    (ws.next ≠ ws.end_ ∧ ws.next ≠ 0 ∧
      Takes (.sections c) ws rest ({ ws with next := ws.next + 1 }, some [ws.next.toInt])) := by
  obtain ⟨N, E, hlive, hr, rfl⟩ := h
  have htow := hlive.ahead.toward
  rw [show (1 : Int32).toInt = 1 from rfl] at htow
  by_cases hNE : N = E
  · subst hNE
    exact Or.inl ⟨by rw [hlive.next, hlive.end_], Or.inl ⟨iters_self, rfl⟩⟩
  · have hlt : N < E := by unfold Toward at htow; omega
    have hN : ws.next.toInt = N := by
      rw [hlive.next]
      exact toInt_ofInt_range (by omega) (by omega)
    have hnext : ws.next + 1 = Int32.ofInt (N + 1) := by rw [hlive.next, Int32.ofInt_add]; rfl
    refine Or.inr ⟨?_, ?_, Or.inr ⟨_, _, iters 1 (N + 1) E, rfl, ?_, N + 1, E, ⟨hnext, hlive.end_, hlive.chunkSize,
      hlive.incr, ⟨?_, ?_⟩, fun _ => Or.inl (by decide)⟩, by omega, rfl⟩⟩
    · rw [hlive.next, hlive.end_]
      exact fun h => hNE (ofInt_inj_of_near h (by omega) (by omega))
    · intro h
      rw [h, Int32.toInt_zero] at hN
      omega
    · rw [hN, iters_cons (Or.inl ⟨by omega, hlt⟩)]
      rfl
    · exact Or.inl ⟨by decide, by omega⟩
    · omega

theorem Running.completed_irrel (h : b.Running ws rest) (c : UInt32) : b.Running { ws with completed := c } rest := by
  cases b with
  | loop l =>
    obtain ⟨N, E, hlive, hr⟩ := h
    exact ⟨N, E, ⟨hlive.next, hlive.end_, hlive.chunkSize, hlive.incr, hlive.ahead, hlive.cuts⟩, hr⟩
  | sections c =>
    obtain ⟨N, E, hlive, hr⟩ := h
    exact ⟨N, E, ⟨hlive.next, hlive.end_, hlive.chunkSize, hlive.incr, hlive.ahead, hlive.cuts⟩, hr⟩

/-- The section behind the descriptor's `next`, by `takeChunk` with chunk and step 1. -/
theorem sectionsNext_eq {N E : Int} (h : Live 1 1 ws N E) (hr : 1 ≤ N ∧ E ≤ 2 ^ 31) :
    ws.sectionsNext =
      if ws.next = ws.end_ then (ws, 0) else ({ ws with next := ws.next + 1 }, ws.next) := by
  have htow := h.ahead.toward
  rw [show (1 : Int32).toInt = 1 from rfl] at htow
  simp only [sectionsNext, h.iterDynamicNext]
  by_cases hNE : N = E
  · subst hNE
    simp [takeChunk, h.next, h.end_]
  · have hne : ws.next ≠ ws.end_ := by
      rw [h.next, h.end_]
      exact fun he => hNE (ofInt_inj_of_near he h.ahead.near.2 h.ahead.near.1)
    have hclamp : clampChunk 1 1 (Int32.ofInt E - Int32.ofInt N) = Int32.ofInt 1 := by
      have hleft : (Int32.ofInt E - Int32.ofInt N).toInt = E - N := by
        rw [← Int32.ofInt_sub]
        exact toInt_ofInt_range (by unfold Toward at htow; omega) (by omega)
      have hone : (1 * 1 : Int32).toInt = 1 := rfl
      unfold clampChunk
      rw [if_neg (by decide), if_neg fun h => ?_]
      · rfl
      · rw [Int32.lt_iff_toInt_lt, hleft, hone] at h
        unfold Toward at htow
        omega
    rw [if_neg hne, takeChunk_of_clamp h.next h.end_ h.ahead hNE hclamp, Int32.ofInt_add, ← h.next]
    rfl

/-- **More work**: the next call hands out the front of what is left. -/
theorem next_takes (h : b.Running ws rest) : b.Takes ws rest (b.next ws) := by
  cases b with
  | loop l =>
    obtain ⟨N, E, hlive, hr, rfl⟩ := h
    have hcall : callLoop l.toLoopArgs ws .next = takeChunk ws l.chunkSize l.incr := hlive.iterDynamicNext
    rw [next, hcall]
    exact handedChunk_takes ⟨N, E, hlive, hr, rfl⟩
  | sections c =>
    have hrun := h
    obtain ⟨N, E, hlive, hr, -⟩ := hrun
    rw [next, sectionsNext_eq hlive hr]
    rcases handedSection_takes h with ⟨heq, htake⟩ | ⟨hne, h0, htake⟩
    · simpa [handedSection, heq] using htake
    · simpa [handedSection, hne, h0] using htake

/-- A thread that starts while the construct runs joins it. -/
theorem start_takes (h : b.Running ws rest) (hws : ws.checkfirst = WS_INITED) : b.Takes ws rest (b.start ws) := by
  cases b with
  | loop l =>
    rw [start, LoopArgs.Running.callLoop h hws]
    exact handedChunk_takes h
  | sections c =>
    rcases handedSection_takes h with ⟨heq, htake⟩ | ⟨hne, h0, htake⟩
    · simpa [start, sectionsStart, hws, handedSection, heq] using htake
    · simpa [start, sectionsStart, hws, handedSection, hne, h0] using htake

/-- The first thread sets the construct up and then starts like the others. -/
theorem start_inits (hws : ws.checkfirst ≠ WS_INITED) (hfit : b.Fits) :
    ∃ ws', ws'.checkfirst = WS_INITED ∧ ws'.completed = 0 ∧ b.Running ws' b.iterations ∧
      b.start ws = b.start ws' := by
  cases b with
  | loop l =>
    obtain ⟨ws', hws', hcompl, hrun, hcall⟩ := LoopArgs.start_running hws l.incr_ne hfit
    exact ⟨ws', hws', hcompl, hrun, by rw [start, start, hcall, hrun.callLoop hws']⟩
  | sections c =>
    have hc := c.count_nonneg
    have hc' := c.count.toInt_lt
    refine ⟨sectionsInit { ws with checkfirst := WS_INITED } c.count, rfl, rfl, ⟨1, c.count.toInt + 1,
      ⟨rfl, ?_, rfl, rfl, ⟨Or.inl ⟨by decide, by omega⟩, by omega⟩, fun _ => Or.inl (by decide)⟩, by omega, rfl⟩, ?_⟩
    · rw [Int32.ofInt_add, Int32.ofInt_toInt]
      rfl
    · simp [start, sectionsStart, hws, sectionsInit]

/-- The thread that makes the count full re-arms the descriptor, now or in
`gomp_work_share_end_nowait`. -/
theorem finish_cases (b : Body) (ws : WorkShare) (nthreads : UInt32) :
    (ws.completed + 1 ≠ nthreads ∧ b.finish ws nthreads = ({ ws with completed := ws.completed + 1 }, false)) ∨
    (ws.completed + 1 = nthreads ∧
      (b.finish ws nthreads = ({ ws with completed := 0, checkfirst := WS_NOT_INITED }, false) ∨
        b.finish ws nthreads = ({ ws with completed := ws.completed + 1 }, true))) := by
  by_cases hn : ws.completed + 1 = nthreads
  · refine Or.inr ⟨hn, ?_⟩
    cases b with
    | loop l => exact Or.inl (by simp [finish, loopEnd, hn])
    | sections c => exact Or.inr (by simp [finish, sectionsEnd, hn])
  · refine Or.inl ⟨hn, ?_⟩
    cases b with
    | loop l => simp [finish, loopEnd, hn]
    | sections c => simp [finish, sectionsEnd, hn]

end Body

/-! ## The team -/

/-- Where a thread is: before construct `k`, in it with work in hand, told that there is no more,
in `gomp_work_share_end_nowait` (at its test, at its `j`-th store), or at the team barrier. -/
inductive Pc
  | ready (k : Nat)
  | busy (k : Nat)
  | done (k : Nat)
  | check (k : Nat)
  | store (k j : Nat)
  | barrier (k : Nat)
deriving DecidableEq, Repr

/-- How many constructs the thread has ended. -/
def Pc.passed : Pc → Nat
  | .ready k | .busy k | .done k | .check k | .store k _ => k
  | .barrier k => k + 1

structure Team (n : Nat) where
  ws : WorkShare
  pc : Fin n → Pc
  out : Nat → List (Fin n × Int)

namespace Team

section Step

variable {nthreads : UInt32} (prog : Nat → Construct)

/-- The call of a thread in construct `k` returns. -/
def called {n : Nat} (s : Team n) (t : Fin n) (k : Nat) (r : WorkShare × Option (List Int)) : Team n :=
  match r.2 with
  | none => { s with ws := r.1, pc := Function.update s.pc t (.done k) }
  | some l =>
    { ws := r.1
      pc := Function.update s.pc t (.busy k)
      out := Function.update s.out k (s.out k ++ l.map fun x => (t, x)) }

/-- Past the end of construct `k`. -/
def after (k : Nat) : Pc := if (prog k).nowait then .ready (k + 1) else .barrier k

/-- The next step of thread `t`. The team barrier lets it go when all have arrived. -/
def step (s : Team nthreads.toNat) (t : Fin nthreads.toNat) : Option (Team nthreads.toNat) :=
  match s.pc t with
  | .ready k => some (s.called t k ((prog k).body.start s.ws))
  | .busy k => some (s.called t k ((prog k).body.next s.ws))
  | .done k =>
    let (ws, last) := (prog k).body.finish s.ws nthreads
    some { s with ws := ws, pc := Function.update s.pc t (if last then .check k else after prog k) }
  | .check k =>
    some { s with pc := Function.update s.pc t (if s.ws.completed = nthreads then .store k 0 else after prog k) }
  | .store k j =>
    some { s with
      ws := s.ws.endStore j
      pc := Function.update s.pc t (if j + 1 < END_STORES then .store k (j + 1) else after prog k) }
  | .barrier k =>
    if ∀ d, k < (s.pc d).passed then some { s with pc := Function.update s.pc t (.ready (k + 1)) } else none

/-- The team before its first construct. -/
def init (n : Nat) (ws : WorkShare) : Team n := { ws := ws, pc := fun _ => .ready 0, out := fun _ => [] }

end Step

/-- Nothing is handed out twice, nothing that is not the construct's; and once a thread has ended
the construct, each of its iterations has been handed to exactly one thread. -/
def HandedOnce {n : Nat} (prog : Nat → Construct) (s : Team n) : Prop :=
  ∀ k, ((s.out k).map Prod.snd).Nodup ∧ (∀ x ∈ (s.out k).map Prod.snd, x ∈ (prog k).body.iterations) ∧
    ((∃ d, k < (s.pc d).passed) → ∀ x ∈ (prog k).body.iterations, ∃! t, (t, x) ∈ s.out k)

/-! ## The phases of a construct -/

section Phases

variable {nthreads : UInt32} {prog : Nat → Construct} {s s' : Team nthreads.toNat} {t : Fin nthreads.toNat}
  {K k : Nat} {rest : List Int}

/-- The log up to construct `K`. -/
structure Logged (prog : Nat → Construct) {n : Nat} (s : Team n) (K : Nat) : Prop where
  before : ∀ k < K, (s.out k).map Prod.snd = (prog k).body.iterations
  later : ∀ k, K < k → s.out k = []

/-- About to meet construct `K`, perhaps still held by the barrier of the one before. -/
def Waiting (K : Nat) : Pc → Prop
  | .ready k => k = K
  | .barrier k => k + 1 = K
  | _ => False

/-- Past the end of construct `K`. -/
def Gone (K : Nat) : Pc → Prop
  | .ready k => k = K + 1
  | .barrier k => k = K
  | _ => False

/-- The thread has ended construct `K`. -/
abbrev Ended (K : Nat) (p : Pc) : Prop := K < p.passed

/-- Nobody has started construct `K`. -/
structure Fresh (prog : Nat → Construct) {n : Nat} (s : Team n) (K : Nat) : Prop where
  waiting : ∀ d, Waiting K (s.pc d)
  unset : s.ws.checkfirst ≠ WS_INITED
  rearmed : 0 < K → s.ws.checkfirst = WS_NOT_INITED ∧ s.ws.completed = 0
  logged : Logged prog s K
  empty : s.out K = []

/-- The descriptor is set up for construct `K`, and `rest` of it is not handed out. -/
structure Opened (prog : Nat → Construct) {n : Nat} (s : Team n) (K : Nat) (rest : List Int) : Prop where
  inRound : ∀ d, Waiting K (s.pc d) ∨ s.pc d = .busy K ∨ s.pc d = .done K ∨ Gone K (s.pc d)
  unended : ∃ d, ¬ Ended K (s.pc d)
  inited : s.ws.checkfirst = WS_INITED
  completed : s.ws.completed.toNat = Count.count (Ended K) s.pc
  running : (prog K).body.Running s.ws rest
  drained : ∀ d, s.pc d = .done K ∨ Ended K (s.pc d) → rest = []
  logged : Logged prog s K
  handed : (s.out K).map Prod.snd ++ rest = (prog K).body.iterations

/-- Construct `K` is running. -/
structure Active (prog : Nat → Construct) {n : Nat} (s : Team n) (K : Nat) (rest : List Int) : Prop
    extends Opened prog s K rest where
  entered : ∃ d, ¬ Waiting K (s.pc d)

/-- The last thread `t` is in `gomp_work_share_end_nowait`, all others are past construct `K`. -/
structure Last (prog : Nat → Construct) {nthreads : UInt32} (s : Team nthreads.toNat) (K : Nat)
    (t : Fin nthreads.toNat) : Prop where
  others : ∀ d, d ≠ t → Gone K (s.pc d)
  stores : (s.pc t = .check K ∧ s.ws.completed = nthreads) ∨
    (∃ j < END_STORES, s.pc t = .store K j ∧ (2 < j → s.ws.checkfirst = WS_NOT_INITED) ∧
      (3 < j → s.ws.completed = 0))
  logged : Logged prog s (K + 1)
  empty : s.out (K + 1) = []

inductive Inv (prog : Nat → Construct) {nthreads : UInt32} (s : Team nthreads.toNat) : Prop
  | fresh (K : Nat) (h : Fresh prog s K)
  | active (K : Nat) (rest : List Int) (h : Active prog s K rest)
  | last (K : Nat) (t : Fin nthreads.toNat) (h : Last prog s K t)

theorem Waiting.passed {p : Pc} (h : Waiting K p) : p.passed = K := by
  cases p <;> simp_all [Waiting, Pc.passed]

theorem Gone.passed {p : Pc} (h : Gone K p) : p.passed = K + 1 := by
  cases p <;> simp_all [Gone, Pc.passed]

theorem gone_after (prog : Nat → Construct) (K : Nat) : Gone K (after prog K) := by
  unfold after
  split <;> rfl

theorem waiting_of_gone {p : Pc} (h : Gone K p) : Waiting (K + 1) p := by
  cases p <;> simp_all [Gone, Waiting]

/-- A call made in an open construct. -/
theorem Opened.called (h : Opened prog s K rest) (hpc : Waiting K (s.pc t) ∨ s.pc t = .busy K)
    {r : WorkShare × Option (List Int)} (htake : (prog K).body.Takes s.ws rest r) :
    ∃ rest', Active prog (s.called t K r) K rest' := by
  have hnot : ¬ Ended K (s.pc t) := by
    rcases hpc with hw | hb
    · have := hw.passed
      omega
    · rw [hb]
      simp [Pc.passed]
  have hcount : ∀ p : Pc, p.passed = K → Count.count (Ended K) (Function.update s.pc t p) =
      Count.count (Ended K) s.pc :=
    fun p hp => Count.count_update_same (iff_of_false hnot (by simp [Ended, hp]))
  have hround : ∀ p : Pc, p = .busy K ∨ p = .done K → ∀ d, Waiting K (Function.update s.pc t p d) ∨
      Function.update s.pc t p d = .busy K ∨ Function.update s.pc t p d = .done K ∨
      Gone K (Function.update s.pc t p d) := by
    intro p hp d
    by_cases hd : d = t
    · subst hd
      rw [Function.update_self]
      exact Or.inr (hp.imp_right Or.inl)
    · rw [Function.update_of_ne hd]
      exact h.inRound d
  rcases htake with ⟨rfl, rfl⟩ | ⟨M, l, rest', rfl, rfl, hrun⟩
  · refine ⟨[], ⟨hround _ (Or.inr rfl), ⟨t, by simp [Team.called, Pc.passed]⟩, h.inited, ?_, h.running,
      fun _ _ => rfl, ⟨h.logged.before, h.logged.later⟩, h.handed⟩, t, by simp [Team.called, Waiting]⟩
    simp only [Team.called]
    rw [hcount _ rfl]
    exact h.completed
  · refine ⟨rest', ⟨hround _ (Or.inl rfl), ⟨t, by simp [Team.called, Pc.passed]⟩, h.inited, ?_, hrun, ?_, ⟨?_, ?_⟩,
      ?_⟩, t, by simp [Team.called, Waiting]⟩
    · simp only [Team.called]
      rw [hcount _ rfl]
      exact h.completed
    · intro d hd
      by_cases hdt : d = t
      · subst hdt
        simp [Team.called, Pc.passed] at hd
      · simp only [Team.called, Function.update_of_ne hdt] at hd
        exact (List.append_eq_nil_iff.1 (h.drained d hd)).2
    · intro k hk
      simpa [Team.called, show k ≠ K by omega] using h.logged.before k hk
    · intro k hk
      simpa [Team.called, show k ≠ K by omega] using h.logged.later k hk
    · have hl : (l.map fun x => (t, x)).map Prod.snd = l := by simp [Function.comp_def]
      simp only [Team.called, Function.update_self, List.map_append, hl]
      rw [List.append_assoc]
      exact h.handed

/-- The first call of a construct opens it. -/
theorem Fresh.called (h : Fresh prog s K) (t : Fin nthreads.toNat) (hfit : (prog K).body.Fits) :
    ∃ rest', Active prog (s.called t K ((prog K).body.start s.ws)) K rest' := by
  obtain ⟨ws, hinited, hcompl, hrun, hstart⟩ := Body.start_inits h.unset hfit
  have hpassed : ∀ d, ¬ Ended K (s.pc d) := fun d => by
    have := (h.waiting d).passed
    omega
  have hopen : Opened prog { s with ws := ws } K (prog K).body.iterations :=
    ⟨fun d => Or.inl (h.waiting d), ⟨t, hpassed t⟩, hinited, by rw [Count.count_eq_zero hpassed, hcompl]; rfl, hrun,
      fun d hd => ?_, ⟨h.logged.before, h.logged.later⟩, by simp [h.empty]⟩
  · rw [hstart]
    exact hopen.called (Or.inl (h.waiting t)) (Body.start_takes hrun hinited)
  · rcases hd with hd | hd
    · have := h.waiting d
      rw [show s.pc d = .done K from hd] at this
      exact this.elim
    · exact absurd hd (hpassed d)

/-- The barrier of the construct before lets a thread go. -/
theorem Waiting.leave (h : Waiting K (s.pc t)) (hpc : s.pc t = .barrier k) (d : Fin nthreads.toNat) :
    Waiting K (Function.update s.pc t (.ready (k + 1)) d) ↔ Waiting K (s.pc d) := by
  by_cases hd : d = t
  · subst hd
    rw [Function.update_self, hpc]
    rfl
  · rw [Function.update_of_ne hd]

theorem Fresh.leave (h : Fresh prog s K) (hpc : s.pc t = .barrier k) :
    Fresh prog { s with pc := Function.update s.pc t (.ready (k + 1)) } K :=
  ⟨fun d => ((h.waiting t).leave hpc d).2 (h.waiting d), h.unset, h.rearmed,
    ⟨h.logged.before, h.logged.later⟩, h.empty⟩

theorem Active.leave (h : Active prog s K rest) (hpc : s.pc t = .barrier k)
    (hall : ∀ d, k < (s.pc d).passed) :
    Active prog { s with pc := Function.update s.pc t (.ready (k + 1)) } K rest := by
  have hwait : Waiting K (s.pc t) := by
    rcases h.inRound t with hw | hb | hd | hg
    · exact hw
    · rw [hpc] at hb; cases hb
    · rw [hpc] at hd; cases hd
    · rw [hpc] at hg
      obtain ⟨d, hd⟩ := h.unended
      exact absurd (hall d) (by rw [show k = K from hg]; exact hd)
  have hk : k + 1 = K := by rw [hpc] at hwait; exact hwait
  have hpassed : ∀ d, (Function.update s.pc t (.ready (k + 1)) d).passed = (s.pc d).passed := by
    intro d
    by_cases hd : d = t
    · subst hd
      rw [Function.update_self, hpc]
      rfl
    · rw [Function.update_of_ne hd]
  have hother : ∀ d, ¬ Waiting K (s.pc d) → Function.update s.pc t (.ready (k + 1)) d = s.pc d := by
    intro d hd
    exact Function.update_of_ne (fun hdt => hd (by rw [hdt]; exact hwait)) _ _
  refine ⟨⟨fun d => ?_, ?_, h.inited, ?_, h.running, fun d hd => ?_, ⟨h.logged.before, h.logged.later⟩, h.handed⟩, ?_⟩
  · by_cases hw : Waiting K (s.pc d)
    · exact Or.inl ((hwait.leave hpc d).2 hw)
    · simp only [hother d hw]
      exact h.inRound d
  · obtain ⟨d, hd⟩ := h.unended
    exact ⟨d, by rw [Ended, hpassed d]; exact hd⟩
  · have hne : ¬ Ended K (s.pc t) := by
      have := hwait.passed
      omega
    have hnew : ¬ Ended K (.ready (k + 1)) := by
      simp only [Ended, Pc.passed]
      omega
    exact h.completed.trans (Count.count_update_same (iff_of_false hne hnew)).symm
  · by_cases hw : Waiting K (s.pc d)
    · have hw' := (hwait.leave hpc d).2 hw
      rcases hd with hd | hd
      · rw [show Function.update s.pc t (.ready (k + 1)) d = .done K from hd] at hw'
        exact hw'.elim
      · have := hw'.passed
        simp only at hd
        omega
    · exact h.drained d (by rw [← hother d hw]; exact hd)
  · obtain ⟨d, hd⟩ := h.entered
    exact ⟨d, fun hw => hd ((hwait.leave hpc d).1 hw)⟩

/-! ### The end of a construct -/

/-- What the end of a thread makes of the count. -/
theorem Active.count (h : Active prog s K rest) (hpc : s.pc t = .done K) {p : Pc} (hp : Ended K p) :
    (s.ws.completed + 1).toNat = Count.count (Ended K) (Function.update s.pc t p) := by
  have ht : ¬ Ended K (s.pc t) := by simp [hpc, Ended, Pc.passed]
  have hlt := Count.count_lt (f := s.pc) ht
  have hn := nthreads.toNat_lt
  rw [Fintype.card_fin, ← h.completed] at hlt
  rw [Count.count_update_new ht hp, ← h.completed, UInt32.toNat_add, UInt32.toNat_one]
  omega

theorem Active.logged_succ (h : Active prog s K rest) (hpc : s.pc t = .done K) : Logged prog s (K + 1) := by
  refine ⟨fun k hk => ?_, fun k hk => h.logged.later k (by omega)⟩
  by_cases hkK : k = K
  · subst hkK
    have := h.handed
    rw [h.drained t (Or.inl hpc), List.append_nil] at this
    exact this
  · exact h.logged.before k (by omega)

/-- Before the last thread all others are past the construct. -/
theorem Active.others (h : Active prog s K rest) (hpc : s.pc t = .done K)
    (hfull : s.ws.completed + 1 = nthreads) (d : Fin nthreads.toNat) (hd : d ≠ t) : Gone K (s.pc d) := by
  have hall : ∀ d, Ended K (Function.update s.pc t (after prog K) d) := by
    have hafter : Ended K (after prog K) := by
      have := (gone_after prog K).passed
      simp only [Ended, this]
      omega
    rw [← Count.count_eq_card_iff, Fintype.card_fin, ← h.count hpc hafter, hfull]
  have hend := hall d
  rw [Function.update_of_ne hd] at hend
  rcases h.inRound d with hw | hb | hdone | hg
  · have := hw.passed
    simp only [Ended] at hend
    omega
  · simp [hb, Ended, Pc.passed] at hend
  · simp [hdone, Ended, Pc.passed] at hend
  · exact hg

/-- A thread ends the construct, others are still in it. -/
theorem Active.ended (h : Active prog s K rest) (hpc : s.pc t = .done K)
    (hfull : s.ws.completed + 1 ≠ nthreads) :
    Active prog { s with
      ws := { s.ws with completed := s.ws.completed + 1 }
      pc := Function.update s.pc t (after prog K) } K rest := by
  have hafter : Ended K (after prog K) := by
    have := (gone_after prog K).passed
    simp only [Ended, this]
    omega
  have hcount := h.count hpc hafter
  have hrest := h.drained t (Or.inl hpc)
  refine ⟨⟨fun d => ?_, ?_, h.inited, hcount, ?_, fun d _ => hrest, ⟨h.logged.before, h.logged.later⟩, h.handed⟩,
    ⟨t, ?_⟩⟩
  · by_cases hd : d = t
    · subst hd
      simp only [Function.update_self]
      exact Or.inr (Or.inr (Or.inr (gone_after prog K)))
    · simp only [Function.update_of_ne hd]
      exact h.inRound d
  · by_contra hall
    have hall := Count.count_eq_card_iff.2 fun d => not_not.1 (not_exists.1 hall d)
    rw [← hcount, Fintype.card_fin] at hall
    exact hfull (UInt32.toNat_inj.1 hall)
  · exact h.running.completed_irrel _
  · simp only [Function.update_self]
    intro hw
    have h1 := hw.passed
    have h2 := (gone_after prog K).passed
    omega

/-- The last thread ends a construct and re-arms the descriptor. -/
theorem Active.rearmed (h : Active prog s K rest) (hpc : s.pc t = .done K)
    (hfull : s.ws.completed + 1 = nthreads) :
    Fresh prog { s with
      ws := { s.ws with completed := 0, checkfirst := WS_NOT_INITED }
      pc := Function.update s.pc t (after prog K) } (K + 1) := by
  have hlog := h.logged_succ hpc
  refine ⟨fun d => ?_, show WS_NOT_INITED ≠ WS_INITED by decide, fun _ => ⟨rfl, rfl⟩, ⟨hlog.before, hlog.later⟩,
    h.logged.later _ (by omega)⟩
  by_cases hd : d = t
  · subst hd
    simp only [Function.update_self]
    exact waiting_of_gone (gone_after prog K)
  · simp only [Function.update_of_ne hd]
    exact waiting_of_gone (h.others hpc hfull d hd)

/-- The last thread goes on to `gomp_work_share_end_nowait`. -/
theorem Active.last (h : Active prog s K rest) (hpc : s.pc t = .done K)
    (hfull : s.ws.completed + 1 = nthreads) :
    Last prog { s with
      ws := { s.ws with completed := s.ws.completed + 1 }
      pc := Function.update s.pc t (.check K) } K t := by
  have hlog := h.logged_succ hpc
  refine ⟨fun d hd => ?_, Or.inl ⟨by simp, hfull⟩, ⟨hlog.before, hlog.later⟩, h.logged.later _ (by omega)⟩
  simp only [Function.update_of_ne hd]
  exact h.others hpc hfull d hd

theorem Active.finished (h : Active prog s K rest) (hpc : s.pc t = .done K) (hs : step prog s t = some s') :
    Inv prog s' := by
  simp only [step, hpc, Option.some.injEq] at hs
  rcases Body.finish_cases (prog K).body s.ws nthreads with ⟨hn, hfin⟩ | ⟨hn, hfin | hfin⟩
  · rw [hfin] at hs
    subst hs
    exact .active K rest (h.ended hpc hn)
  · rw [hfin] at hs
    subst hs
    exact .fresh (K + 1) (h.rearmed hpc hn)
  · rw [hfin] at hs
    subst hs
    exact .last K t (h.last hpc hn)

/-- The steps of the last thread in `gomp_work_share_end_nowait`. -/
theorem Last.stepped (h : Last prog s K t) (hs : step prog s t = some s') : Inv prog s' := by
  rcases h.stores with ⟨hpc, hcompl⟩ | ⟨j, hj, hpc, hcf, hzero⟩
  · simp only [step, hpc, hcompl, if_true, Option.some.injEq] at hs
    subst hs
    refine .last K t ⟨fun d hd => ?_, Or.inr ⟨0, by decide, by simp, by omega, by omega⟩,
      ⟨h.logged.before, h.logged.later⟩, h.empty⟩
    simp only [Function.update_of_ne hd]
    exact h.others d hd
  · simp only [step, hpc, Option.some.injEq] at hs
    subst hs
    by_cases hlast : j + 1 < END_STORES
    · simp only [if_pos hlast]
      refine .last K t ⟨fun d hd => ?_, Or.inr ⟨j + 1, hlast, by simp, ?_, ?_⟩,
        ⟨h.logged.before, h.logged.later⟩, h.empty⟩
      · simp only [Function.update_of_ne hd]
        exact h.others d hd
      · intro hj2
        exact endStore_checkfirst s.ws j (by omega) hcf
      · intro hj3
        exact endStore_completed s.ws j (by omega) hzero
    · have hj6 : j = 6 := by unfold END_STORES at *; omega
      subst hj6
      simp only [if_neg hlast]
      refine .fresh (K + 1) ⟨fun d => ?_, ?_, fun _ => ⟨hcf (by omega), hzero (by omega)⟩,
        ⟨h.logged.before, h.logged.later⟩, h.empty⟩
      · by_cases hd : d = t
        · subst hd
          simp only [Function.update_self]
          exact waiting_of_gone (gone_after prog K)
        · simp only [Function.update_of_ne hd]
          exact waiting_of_gone (h.others d hd)
      · have := hcf (by omega)
        simp only [endStore, this]
        decide

theorem Last.self (h : Last prog s K t) : s.pc t = .check K ∨ ∃ j, s.pc t = .store K j := by
  rcases h.stores with ⟨hpc, -⟩ | ⟨j, -, hpc, -⟩
  · exact Or.inl hpc
  · exact Or.inr ⟨j, hpc⟩

theorem Last.behind (h : Last prog s K t) : (s.pc t).passed = K := by
  rcases h.self with hpc | ⟨j, hpc⟩ <;> rw [hpc] <;> rfl

/-- Wherever a thread is in this phase, it is the last one or past the construct. -/
theorem Last.gone (h : Last prog s K t) (d : Fin nthreads.toNat)
    (hpc : ∀ j, s.pc d ≠ .check K ∧ s.pc d ≠ .store K j) : Gone K (s.pc d) := by
  refine h.others d fun hd => ?_
  subst hd
  rcases h.self with hc | ⟨j, hc⟩
  · exact (hpc 0).1 hc
  · exact (hpc j).2 hc

/-! ### Every run -/

/-- The thread that is about to start construct `k` can cut it, and nobody is still behind it. -/
def Guarded (prog : Nat → Construct) {nthreads : UInt32} (s : Team nthreads.toNat) (t : Fin nthreads.toNat) : Prop :=
  ∀ k, s.pc t = .ready k → (prog k).body.Fits ∧ ∀ d, k ≤ (s.pc d).passed

instance (prog : Nat → Construct) (s : Team nthreads.toNat) (t : Fin nthreads.toNat) : Decidable (Guarded prog s t) :=
  match h : s.pc t with
  | .ready k =>
    decidable_of_iff ((prog k).body.Fits ∧ ∀ d, k ≤ (s.pc d).passed)
      ⟨fun hk j hj => by rw [h] at hj; cases hj; exact hk, fun hg => hg k h⟩
  | .busy _ | .done _ | .check _ | .store _ _ | .barrier _ => isTrue fun k hk => by rw [h] at hk; cases hk

/-- **What one step keeps.** -/
theorem step_inv (h : Inv prog s) (hg : Guarded prog s t) (hs : step prog s t = some s') : Inv prog s' := by
  have hs0 := hs
  cases hpc : s.pc t with
  | ready k =>
    obtain ⟨hfit, haligned⟩ := hg k hpc
    simp only [step, hpc, Option.some.injEq] at hs
    subst hs
    cases h with
    | fresh K h =>
      have hw := h.waiting t
      rw [hpc] at hw
      obtain rfl : k = K := hw
      obtain ⟨rest, hact⟩ := h.called t hfit
      exact .active k rest hact
    | active K rest h =>
      obtain ⟨d, hd⟩ := h.unended
      have hkK : k = K := by
        rcases h.inRound t with hw | hb | hdone | hgone
        · rw [hpc] at hw; exact hw
        · rw [hpc] at hb; cases hb
        · rw [hpc] at hdone; cases hdone
        · rw [hpc] at hgone
          have := haligned d
          simp only [Ended] at hd
          simp only [Gone] at hgone
          omega
      subst hkK
      have hw : Waiting k (s.pc t) := by rw [hpc]; rfl
      obtain ⟨rest', hact⟩ := h.toOpened.called (Or.inl hw) (Body.start_takes h.running h.inited)
      exact .active k rest' hact
    | last K t0 h =>
      have hgone := h.gone t (by simp [hpc])
      have := haligned t0
      have := h.behind
      simp only [hpc, Gone] at hgone
      omega
  | busy k =>
    simp only [step, hpc, Option.some.injEq] at hs
    subst hs
    cases h with
    | fresh K h => exact absurd (h.waiting t) (by simp [hpc, Waiting])
    | active K rest h =>
      have hkK : k = K := by simpa [hpc, Waiting, Gone] using h.inRound t
      subst hkK
      obtain ⟨rest', hact⟩ := h.toOpened.called (Or.inr hpc) (Body.next_takes h.running)
      exact .active k rest' hact
    | last K t0 h => exact absurd (h.gone t (by simp [hpc])) (by simp [hpc, Gone])
  | done k =>
    cases h with
    | fresh K h => exact absurd (h.waiting t) (by simp [hpc, Waiting])
    | active K rest h =>
      have hkK : k = K := by simpa [hpc, Waiting, Gone] using h.inRound t
      subst hkK
      exact h.finished hpc hs
    | last K t0 h => exact absurd (h.gone t (by simp [hpc])) (by simp [hpc, Gone])
  | check k =>
    cases h with
    | fresh K h => exact absurd (h.waiting t) (by simp [hpc, Waiting])
    | active K rest h => exact absurd (h.inRound t) (by simp [hpc, Waiting, Gone])
    | last K t0 h =>
      by_cases hne : t = t0
      · subst hne
        exact h.stepped hs
      · exact absurd (h.others t hne) (by simp [hpc, Gone])
  | store k j =>
    cases h with
    | fresh K h => exact absurd (h.waiting t) (by simp [hpc, Waiting])
    | active K rest h => exact absurd (h.inRound t) (by simp [hpc, Waiting, Gone])
    | last K t0 h =>
      by_cases hne : t = t0
      · subst hne
        exact h.stepped hs
      · exact absurd (h.others t hne) (by simp [hpc, Gone])
  | barrier k =>
    simp only [step, hpc] at hs
    split at hs
    · rename_i hall
      cases hs
      cases h with
      | fresh K h => exact .fresh K (h.leave hpc)
      | active K rest h => exact .active K rest (h.leave hpc hall)
      | last K t0 h =>
        have hgone := h.gone t (by simp [hpc])
        have := hall t0
        have := h.behind
        simp only [hpc, Gone] at hgone
        omega
    · cases hs

theorem init_inv {ws : WorkShare} (hws : ws.checkfirst ≠ WS_INITED) :
    Inv prog (init nthreads.toNat ws) :=
  .fresh 0 ⟨fun _ => rfl, hws, fun h => absurd h (by omega), ⟨fun _ hk => absurd hk (by omega), fun _ _ => rfl⟩, rfl⟩

/-- In any phase the log of a construct is the front of it, and all of it once a thread has ended
the construct. -/
theorem Inv.handed (h : Inv prog s) (k : Nat) :
    ∃ rest, (s.out k).map Prod.snd ++ rest = (prog k).body.iterations ∧
      ((∃ d, k < (s.pc d).passed) → rest = []) := by
  cases h with
  | fresh K h =>
    by_cases hk : k < K
    · exact ⟨[], by rw [List.append_nil, h.logged.before k hk], fun _ => rfl⟩
    · have hout : s.out k = [] := by
        by_cases hkK : k = K
        · rw [hkK, h.empty]
        · exact h.logged.later k (by omega)
      refine ⟨_, by rw [hout]; rfl, fun ⟨d, hd⟩ => ?_⟩
      have := (h.waiting d).passed
      omega
  | active K rest h =>
    by_cases hk : k < K
    · exact ⟨[], by rw [List.append_nil, h.logged.before k hk], fun _ => rfl⟩
    · by_cases hkK : k = K
      · subst hkK
        exact ⟨rest, h.handed, fun ⟨d, hd⟩ => h.drained d (Or.inr hd)⟩
      · refine ⟨_, by rw [h.logged.later k (by omega)]; rfl, fun ⟨d, hd⟩ => ?_⟩
        rcases h.inRound d with hw | hb | hdone | hg
        · have := hw.passed
          omega
        · rw [hb, Pc.passed] at hd
          omega
        · rw [hdone, Pc.passed] at hd
          omega
        · have := hg.passed
          omega
  | last K t h =>
    by_cases hk : k < K + 1
    · exact ⟨[], by rw [List.append_nil, h.logged.before k hk], fun _ => rfl⟩
    · have hout : s.out k = [] := by
        by_cases hkK : k = K + 1
        · rw [hkK, h.empty]
        · exact h.logged.later k (by omega)
      refine ⟨_, by rw [hout]; rfl, fun ⟨d, hd⟩ => ?_⟩
      by_cases hdt : d = t
      · rw [hdt, h.behind] at hd
        omega
      · have := (h.others d hdt).passed
        omega

theorem Body.iterations_nodup (b : Body) : b.iterations.Nodup := by
  cases b with
  | loop l => exact iters_nodup _ _ _
  | sections c => exact iters_nodup _ _ _

theorem Inv.handedOnce (h : Inv prog s) : HandedOnce prog s := by
  intro k
  obtain ⟨rest, hout, hrest⟩ := h.handed k
  have hnodup : ((s.out k).map Prod.snd).Nodup := by
    have := Body.iterations_nodup (prog k).body
    rw [← hout] at this
    exact this.of_append_left
  refine ⟨hnodup, fun x hx => ?_, fun hend x hx => ?_⟩
  · rw [← hout]
    exact List.mem_append_left _ hx
  · rw [← hout, hrest hend, List.append_nil, List.mem_map] at hx
    obtain ⟨⟨t, y⟩, hmem, rfl⟩ := hx
    refine ⟨t, hmem, fun u hu => ?_⟩
    have := List.inj_on_of_nodup_map hnodup hu hmem rfl
    exact congrArg Prod.fst this

theorem run_inv {ws : WorkShare} (hws : ws.checkfirst ≠ WS_INITED) {ts : List (Fin nthreads.toNat)}
    (hC : Trans.Along (step prog) (Guarded prog) (init nthreads.toNat ws) ts)
    (hr : Trans.run (step prog) (init nthreads.toNat ws) ts = some s) : Inv prog s :=
  Trans.run_inv_along (Inv prog) (fun _ _ _ h hg hs => step_inv h hg hs) (init_inv hws) hC hr

/-- **Work sharing**: when no thread starts a construct that another has not got to, everything is
handed out to exactly one thread. -/
theorem handedOnce_of_guarded {ws : WorkShare} (hws : ws.checkfirst ≠ WS_INITED)
    {ts : List (Fin nthreads.toNat)}
    (hC : Trans.Along (step prog) (Guarded prog) (init nthreads.toNat ws) ts)
    (hr : Trans.run (step prog) (init nthreads.toNat ws) ts = some s) : HandedOnce prog s :=
  (run_inv hws hC hr).handedOnce

end Phases

section Nowait

/-- The two threads of a team. -/
def t0 : Fin (2 : UInt32).toNat := (Fin.last 0).castSucc
def t1 : Fin (2 : UInt32).toNat := Fin.last 1

/-- Two loops of one iteration each, without a barrier between them. -/
def twoLoops : Nat → Construct := fun _ => ⟨.loop ⟨⟨0, 1, 1, 1⟩, by decide, by decide⟩, true⟩

/-- A loop and a sections construct, without a barrier, as two threads that keep together go
through them. -/
def loopAndSections : Nat → Construct
  | 0 => ⟨.loop ⟨⟨0, 5, 2, 2⟩, by decide, by decide⟩, true⟩
  | _ => ⟨.sections ⟨2, by decide⟩, true⟩

def zeroWs : WorkShare := ⟨0, 0, 0, 0, WS_NOT_INITED, 0⟩

def keepTogether : List (Fin (2 : UInt32).toNat) :=
  [t0, t1, t0, t1, t0, t1, t1, t0, t1, t0, t1, t0, t0, t0, t0, t0, t0, t0, t0, t0]

def runAhead : List (Fin (2 : UInt32).toNat) := [t0, t0, t0, t0, t0, t1]

theorem handedOnce_keepTogether :
    ∃ s, Trans.run (step loopAndSections) (init (2 : UInt32).toNat zeroWs) keepTogether = some s ∧
      HandedOnce loopAndSections s ∧ ((s.out 1).map Prod.snd) = [1, 2] := by
  have hsome : (Trans.run (step loopAndSections) (init (2 : UInt32).toNat zeroWs) keepTogether).isSome := by
    decide +kernel
  have hout : ((Trans.run (step loopAndSections) (init (2 : UInt32).toNat zeroWs) keepTogether).map
      fun s => (s.out 1).map Prod.snd) = some [1, 2] := by
    decide +kernel
  have hrun := (Option.some_get hsome).symm
  refine ⟨_, hrun, handedOnce_of_guarded (by decide) (by decide +kernel) hrun, ?_⟩
  rw [hrun] at hout
  exact Option.some.inj hout

/-- A thread two constructs into the loops makes the other one find the descriptor re-armed, and the
first loop is handed out again. -/
theorem not_handedOnce_nowait :
    ¬ ∀ (prog : Nat → Construct) (ts : List (Fin (2 : UInt32).toNat)) (s : Team (2 : UInt32).toNat),
      (∀ k, (prog k).nowait = true ∧ (prog k).body.Fits) →
      Trans.run (step prog) (init (2 : UInt32).toNat zeroWs) ts = some s → HandedOnce prog s := by
  intro h
  have hsome : (Trans.run (step twoLoops) (init (2 : UInt32).toNat zeroWs) runAhead).isSome := by
    decide +kernel
  have hout : ((Trans.run (step twoLoops) (init (2 : UInt32).toNat zeroWs) runAhead).map
      fun s => (s.out 0).map Prod.snd) = some [0, 0] := by
    decide +kernel
  have hrun := (Option.some_get hsome).symm
  have hfits : Body.Fits (twoLoops 0).body := by decide +kernel
  have hnodup := (h twoLoops _ _ (fun k => ⟨rfl, hfits⟩) hrun 0).1
  rw [hrun] at hout
  have hout := Option.some.inj hout
  simp only at hout
  rw [hout] at hnodup
  revert hnodup
  decide

end Nowait

/-! ## With the team barrier -/

section Barrier

variable {nthreads : UInt32} {prog : Nat → Construct} {s s' : Team nthreads.toNat} {t : Fin nthreads.toNat} {k : Nat}

/-- Nobody is behind a thread that is about to start a construct. -/
def Aligned {n : Nat} (s : Team n) : Prop := ∀ d k, s.pc d = .ready k → ∀ e, k ≤ (s.pc e).passed

/-- A thread never goes back, and starts a construct only when let go by the barrier. -/
theorem step_pc (hbar : ∀ k, (prog k).nowait = false) (hs : step prog s t = some s') :
    ∃ p, s'.pc = Function.update s.pc t p ∧ (s.pc t).passed ≤ p.passed ∧
      ∀ k, p = .ready k → ∀ d, k ≤ (s.pc d).passed := by
  have hafter : ∀ k, after prog k = .barrier k := fun k => by simp [after, hbar k]
  have hcalled : ∀ k r, (s.pc t).passed = k → ∃ p, (s.called t k r).pc = Function.update s.pc t p ∧
      (s.pc t).passed ≤ p.passed ∧ ∀ j, p = .ready j → ∀ d, j ≤ (s.pc d).passed := by
    intro k r hk
    rcases hr : r.2 with - | l
    · exact ⟨.done k, by simp [called, hr], by rw [hk, Pc.passed], fun j hj => by cases hj⟩
    · exact ⟨.busy k, by simp [called, hr], by rw [hk, Pc.passed], fun j hj => by cases hj⟩
  cases hpc : s.pc t with
  | ready k =>
    simp only [step, hpc, Option.some.injEq] at hs
    subst hs
    simpa [hpc] using hcalled k _ (by rw [hpc]; rfl)
  | busy k =>
    simp only [step, hpc, Option.some.injEq] at hs
    subst hs
    simpa [hpc] using hcalled k _ (by rw [hpc]; rfl)
  | done k =>
    simp only [step, hpc, hafter, Option.some.injEq] at hs
    subst hs
    refine ⟨_, rfl, ?_, fun j hj => ?_⟩
    · split <;> simp [Pc.passed]
    · split at hj <;> cases hj
  | check k =>
    simp only [step, hpc, hafter, Option.some.injEq] at hs
    subst hs
    refine ⟨_, rfl, ?_, fun j hj => ?_⟩
    · split <;> simp [Pc.passed]
    · split at hj <;> cases hj
  | store k j =>
    simp only [step, hpc, hafter, Option.some.injEq] at hs
    subst hs
    refine ⟨_, rfl, ?_, fun i hi => ?_⟩
    · split <;> simp [Pc.passed]
    · split at hi <;> cases hi
  | barrier k =>
    simp only [step, hpc] at hs
    split at hs
    · rename_i hall
      cases hs
      exact ⟨_, rfl, by simp [Pc.passed], fun j hj => by cases hj; exact hall⟩
    · cases hs

theorem step_aligned (hbar : ∀ k, (prog k).nowait = false) (h : Aligned s) (hs : step prog s t = some s') :
    Aligned s' := by
  obtain ⟨p, hp, hle, hready⟩ := step_pc hbar hs
  have hmono : ∀ e, (s.pc e).passed ≤ (s'.pc e).passed := by
    intro e
    rw [hp]
    by_cases he : e = t
    · subst he
      rw [Function.update_self]
      exact hle
    · rw [Function.update_of_ne he]
  intro d k hd e
  refine Nat.le_trans ?_ (hmono e)
  rw [hp] at hd
  by_cases hdt : d = t
  · subst hdt
    rw [Function.update_self] at hd
    exact hready k hd e
  · rw [Function.update_of_ne hdt] at hd
    exact h d k hd e

/-- The loop that the thread is about to start can be cut. -/
def CanCut (prog : Nat → Construct) {nthreads : UInt32} (s : Team nthreads.toNat) (t : Fin nthreads.toNat) : Prop :=
  ∀ k, s.pc t = .ready k → (prog k).body.Fits

/-- All threads have ended construct `k` and none has started the next. -/
def Released {n : Nat} (k : Nat) (s : Team n) : Prop := ∀ d, s.pc d = .barrier k ∨ s.pc d = .ready (k + 1)

instance {n : Nat} (k : Nat) (s : Team n) : Decidable (Released k s) := by unfold Released; infer_instance

theorem Inv.released (h : Inv prog s) (hn : 0 < nthreads.toNat) (hrel : Released k s) :
    s.ws.checkfirst = WS_NOT_INITED ∧ s.ws.completed = 0 := by
  have hpassed : ∀ d, (s.pc d).passed = k + 1 := fun d => by
    rcases hrel d with hd | hd <;> rw [hd] <;> rfl
  cases h with
  | fresh K h =>
    have := (h.waiting ⟨0, hn⟩).passed
    rw [hpassed] at this
    exact h.rearmed (by omega)
  | active K rest h =>
    obtain ⟨d, hd⟩ := h.unended
    obtain ⟨e, he⟩ := h.entered
    rw [Ended, hpassed] at hd
    have hpe := hpassed e
    rcases h.inRound e with hw | hb | hdone | hg
    · exact absurd hw he
    · rcases hrel e with h' | h' <;> rw [hb] at h' <;> cases h'
    · rcases hrel e with h' | h' <;> rw [hdone] at h' <;> cases h'
    · have := hg.passed
      omega
  | last K t h =>
    rcases h.self with hc | ⟨j, hc⟩ <;> rcases hrel t with h' | h' <;> rw [hc] at h' <;> cases h'

/-- **Work sharing with barriers**: where the loops can be cut, everything is handed out to exactly
one thread, and the barrier releases the team with the descriptor re-armed. -/
theorem handedOnce_of_barrier (hn : 0 < nthreads.toNat) (hbar : ∀ k, (prog k).nowait = false) {ws : WorkShare}
    (hws : ws.checkfirst = WS_NOT_INITED) {ts : List (Fin nthreads.toNat)}
    (hC : Trans.Along (step prog) (CanCut prog) (init nthreads.toNat ws) ts)
    (hr : Trans.run (step prog) (init nthreads.toNat ws) ts = some s) :
    HandedOnce prog s ∧ ∀ k, Released k s → s.ws.checkfirst = WS_NOT_INITED ∧ s.ws.completed = 0 := by
  have haligned : Aligned (init nthreads.toNat ws) := by
    intro d k hd e
    cases hd
    exact Nat.le_refl 0
  have hA : Trans.Along (step prog) (fun s _ => Aligned s) (init nthreads.toNat ws) ts :=
    Trans.along_of_inv Aligned (fun _ _ _ h hs => step_aligned hbar h hs) (fun _ _ _ h _ => h) haligned hr
  have hG : Trans.Along (step prog) (Guarded prog) (init nthreads.toNat ws) ts :=
    (hC.and hA).mono fun s t h k hk => ⟨h.1 k hk, h.2 t k hk⟩
  have hinv := run_inv (by rw [hws]; decide) hG hr
  exact ⟨hinv.handedOnce, fun k hrel => hinv.released hn hrel⟩

instance (prog : Nat → Construct) (s : Team nthreads.toNat) (t : Fin nthreads.toNat) : Decidable (CanCut prog s t) :=
  match h : s.pc t with
  | .ready k =>
    decidable_of_iff (prog k).body.Fits
      ⟨fun hk j hj => by rw [h] at hj; cases hj; exact hk, fun hg => hg k h⟩
  | .busy _ | .done _ | .check _ | .store _ _ | .barrier _ => isTrue fun k hk => by rw [h] at hk; cases hk

/-- A loop and a sections construct, each with a barrier; two threads. -/
def barrierProg : Nat → Construct
  | 0 => ⟨.loop ⟨⟨0, 5, 2, 2⟩, by decide, by decide⟩, false⟩
  | _ => ⟨.sections ⟨1, by decide⟩, false⟩

def throughBarriers : List (Fin (2 : UInt32).toNat) :=
  [t0, t0, t0, t0, t1, t1, t1, t0, t0, t0, t0, t1, t1, t1, t1, t1, t1, t1, t1, t1, t1]

theorem handedOnce_throughBarriers :
    ∃ s, Trans.run (step barrierProg) (init (2 : UInt32).toNat zeroWs) throughBarriers = some s ∧
      HandedOnce barrierProg s ∧ s.ws.checkfirst = WS_NOT_INITED ∧ s.ws.completed = 0 := by
  have hsome : (Trans.run (step barrierProg) (init (2 : UInt32).toNat zeroWs) throughBarriers).isSome := by
    decide +kernel
  have hrel : (Trans.run (step barrierProg) (init (2 : UInt32).toNat zeroWs) throughBarriers).map
      (fun s => decide (Released 1 s)) = some true := by
    decide +kernel
  have hrun := (Option.some_get hsome).symm
  obtain ⟨honce, hfree⟩ := handedOnce_of_barrier (by decide)
    (fun k => by cases k <;> rfl) rfl (by decide +kernel) hrun
  refine ⟨_, hrun, honce, hfree 1 ?_⟩
  rw [hrun] at hrel
  exact of_decide_eq_true (Option.some.inj hrel)

/-- One loop of four iterations. The product of its chunk size and its step is 2 as an `int`. -/
def wrappedLoop : Nat → Construct := fun _ => ⟨.loop ⟨⟨0, 10, 3, 1431655766⟩, by decide, by decide⟩, false⟩

def twoCalls : List (Fin (1 : UInt32).toNat) := [Fin.last 0, Fin.last 0]

/-- The second chunk starts at 2, which the loop does not visit. -/
theorem not_handedOnce_overflow :
    ¬ ∀ (prog : Nat → Construct) (ts : List (Fin (1 : UInt32).toNat)) (s : Team (1 : UInt32).toNat),
      (∀ k, (prog k).nowait = false) →
      Trans.run (step prog) (init (1 : UInt32).toNat zeroWs) ts = some s → HandedOnce prog s := by
  intro h
  have hsome : (Trans.run (step wrappedLoop) (init (1 : UInt32).toNat zeroWs) twoCalls).isSome := by
    decide +kernel
  have hout : ((Trans.run (step wrappedLoop) (init (1 : UInt32).toNat zeroWs) twoCalls).map
      fun s => (s.out 0).map Prod.snd) = some [0, 2] := by
    decide +kernel
  have hrun := (Option.some_get hsome).symm
  have hmem := (h wrappedLoop _ _ (fun k => rfl) hrun 0).2.1
  rw [hrun] at hout
  have hout := Option.some.inj hout
  simp only at hout
  rw [hout] at hmem
  have hvisit : (2 : Int) ∉ (wrappedLoop 0).body.iterations := by decide +kernel
  exact hvisit (hmem 2 (by simp))

end Barrier

end Team

end VirtualSoc.Gomp
