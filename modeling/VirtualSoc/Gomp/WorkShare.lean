import VirtualSoc.Lib.Loop

/-!
# The work-share descriptor (libgomp/work.c, iter.c, loop.c, sections.c)

One `gomp_work_share_t` a team holds the loop or the sections construct being executed. The
functions below are the bodies of the critical sections that the API functions run under
`ws->lock`, `ws->enter_lock` or `ws->exit_lock`; `int` is `Int32`, and arithmetic wraps.
`checkfirst` is the bit pattern of its `int`, which the code compares as `unsigned`. The lock
words themselves are in `LockAlloc`.

* `takeChunk_spec`: one chunk, whatever the wrap-around, if `chunk_size * incr` is whole steps;
* `loop_partition`: any sequence of `GOMP_loop_dynamic_start` / `GOMP_loop_dynamic_next` on a
  loop hands out its iterations in order, each once, and returns 0 only after the last.
-/

namespace VirtualSoc.Gomp

def WS_INITED : UInt32 := 0xdeadbeef
def WS_NOT_INITED : UInt32 := 0x0

/-- `gomp_work_share_t` (libgomp_globals.h:39) without its locks. -/
structure WorkShare where
  end_ : Int32
  next : Int32
  chunkSize : Int32
  incr : Int32
  checkfirst : UInt32
  completed : UInt32
deriving DecidableEq, Repr

namespace WorkShare

/-- The end of a loop; "canonicalize loops that have zero iterations" (loop.c:107). -/
def canonicalEnd (start end_ incr : Int32) : Int32 :=
  if 0 < incr ∧ end_ < start ∨ incr < 0 ∧ start < end_ then start else end_

/-- `gomp_loop_init`, inlined in `GOMP_loop_dynamic_start` (loop.c:102). -/
def loopInit (ws : WorkShare) (start end_ incr chunkSize : Int32) : WorkShare :=
  { ws with
    chunkSize := chunkSize
    end_ := canonicalEnd start end_ incr
    incr := incr
    next := start
    completed := 0 }

/-- `gomp_sections_init`, inlined in `GOMP_sections_start` (sections.c:94). -/
def sectionsInit (ws : WorkShare) (count : Int32) : WorkShare :=
  { ws with end_ := count + 1, next := 1, completed := 0, chunkSize := 1, incr := 1 }

/-- The chunk cut off at what is left (iter.c:56, and again loop.c:122). -/
def clampChunk (chunkSize incr left : Int32) : Int32 :=
  let chunk := chunkSize * incr
  if incr < 0 then if chunk < left then left else chunk
  else if left < chunk then left else chunk

/-- The next chunk, `[istart, iend)`, or nothing where the code returns 0. -/
def takeChunk (ws : WorkShare) (chunkSize incr : Int32) : WorkShare × Option (Int32 × Int32) :=
  let start := ws.next
  if start = ws.end_ then (ws, none)
  else
    let end_ := start + clampChunk chunkSize incr (ws.end_ - start)
    ({ ws with next := end_ }, some (start, end_))

/-- `gomp_iter_dynamic_next` (iter.c:40): chunk and step come from the descriptor. -/
def iterDynamicNext (ws : WorkShare) : WorkShare × Option (Int32 × Int32) := takeChunk ws ws.chunkSize ws.incr

/-- `GOMP_loop_dynamic_start` (loop.c:75): chunk and step come from the arguments. -/
def loopDynamicStart (ws : WorkShare) (start end_ incr chunkSize : Int32) :
    WorkShare × Option (Int32 × Int32) :=
  let ws :=
    if ws.checkfirst ≠ WS_INITED then loopInit { ws with checkfirst := WS_INITED } start end_ incr chunkSize
    else ws
  takeChunk ws chunkSize incr

/-- `GOMP_loop_dynamic_next` (loop.c:138). -/
def loopDynamicNext (ws : WorkShare) : WorkShare × Option (Int32 × Int32) := iterDynamicNext ws

/-- `GOMP_sections_start` (sections.c:83): the section to run, or 0. -/
def sectionsStart (ws : WorkShare) (count : Int32) : WorkShare × Int32 :=
  let ws := if ws.checkfirst ≠ WS_INITED then sectionsInit { ws with checkfirst := WS_INITED } count else ws
  if ws.next = ws.end_ then (ws, 0) else ({ ws with next := ws.next + 1 }, ws.next)

/-- `gomp_sections_next` (sections.c:39). -/
def sectionsNext (ws : WorkShare) : WorkShare × Int32 :=
  match iterDynamicNext ws with
  | (ws, some (s, _)) => (ws, s)
  | (ws, none) => (ws, 0)

/-- `GOMP_loop_end` and `GOMP_loop_end_nowait` under `exit_lock` (loop.c:162 and :185). -/
def loopEnd (ws : WorkShare) (nthreads : UInt32) : WorkShare :=
  let ws := { ws with completed := ws.completed + 1 }
  if ws.completed = nthreads then { ws with completed := 0, checkfirst := WS_NOT_INITED } else ws

/-- `gomp_sections_end_nowait` under `exit_lock` (sections.c:59), and whether this thread goes
on to `gomp_work_share_end_nowait`. -/
def sectionsEnd (ws : WorkShare) (nthreads : UInt32) : WorkShare × Bool :=
  let ws := { ws with completed := ws.completed + 1 }
  (ws, ws.completed == nthreads)

/-- The stores of `gomp_work_share_end_nowait` in their order (work.c:54-60), made without a
lock. -/
def endStore (ws : WorkShare) : Nat → WorkShare
  | 0 => { ws with end_ := 0 }
  | 1 => { ws with next := 0 }
  | 2 => { ws with checkfirst := 0 }
  | 3 => { ws with completed := 0 }
  | 4 => { ws with checkfirst := WS_NOT_INITED }
  | 5 => { ws with chunkSize := 0 }
  | _ => { ws with incr := 0 }

/-- Number of those stores. -/
def END_STORES : Nat := 7

/-- Once `checkfirst` has been reset it stays so. -/
theorem endStore_checkfirst (ws : WorkShare) (j : Nat) (hj : 2 ≤ j)
    (h : 2 < j → ws.checkfirst = WS_NOT_INITED) : (ws.endStore j).checkfirst = WS_NOT_INITED := by
  match j, hj with
  | 2, _ => rfl
  | 3, _ => exact h (by omega)
  | 4, _ => rfl
  | 5, _ => exact h (by omega)
  | j + 6, _ => exact h (by omega)

theorem endStore_completed (ws : WorkShare) (j : Nat) (hj : 3 ≤ j) (h : 3 < j → ws.completed = 0) :
    (ws.endStore j).completed = 0 := by
  match j, hj with
  | 3, _ => rfl
  | 4, _ => exact h (by omega)
  | 5, _ => exact h (by omega)
  | j + 6, _ => exact h (by omega)

end WorkShare

/-! ## One chunk -/

section Chunk

open WorkShare Loop

variable {ws : WorkShare} {cs inc : Int32} {N E : Int}

/-- `chunk_size * incr` is an `int`. -/
def ChunkFits (cs inc : Int32) : Prop := -2 ^ 31 ≤ cs.toInt * inc.toInt ∧ cs.toInt * inc.toInt < 2 ^ 31

instance (cs inc : Int32) : Decidable (ChunkFits cs inc) := inferInstanceAs (Decidable (_ ∧ _))

/-- What the `int` multiplication gives is some number of whole steps. -/
def WholeSteps (cs inc : Int32) : Prop := inc.toInt ∣ (cs * inc).toInt ∧ 0 < (cs * inc).toInt / inc.toInt

instance (cs inc : Int32) : Decidable (WholeSteps cs inc) := inferInstanceAs (Decidable (_ ∧ _))

/-- What it gives is not short of `left`, so the chunk takes all that is left. -/
def Covers (cs inc left : Int32) : Prop := if inc < 0 then cs * inc ≤ left else left ≤ cs * inc

instance (cs inc left : Int32) : Decidable (Covers cs inc left) := by unfold Covers; infer_instance

theorem ChunkFits.wholeSteps (h : ChunkFits cs inc) (hcs : 1 ≤ cs.toInt) (hinc : inc.toInt ≠ 0) :
    WholeSteps cs inc := by
  have hmul : (cs * inc).toInt = cs.toInt * inc.toInt := by
    rw [Int32.toInt_mul]
    unfold ChunkFits at h
    simp only [Int.bmod_def]
    omega
  unfold WholeSteps
  rw [hmul, Int.mul_ediv_cancel _ hinc]
  exact ⟨Dvd.intro_left _ rfl, by omega⟩

theorem WholeSteps.eq_mul (h : WholeSteps cs inc) : ∃ n : Nat, 0 < n ∧ (cs * inc).toInt = n * inc.toInt := by
  obtain ⟨n, hn⟩ := Int.eq_ofNat_of_zero_le (Int.le_of_lt h.2)
  refine ⟨n, by have := h.2; omega, ?_⟩
  rw [← hn, Int.ediv_mul_cancel h.1]

theorem clampChunk_covers {left : Int32} (h : Covers cs inc left) : clampChunk cs inc left = left := by
  unfold Covers at h
  unfold clampChunk
  simp only [Int32.le_iff_toInt_le, Int32.lt_iff_toInt_lt] at h ⊢
  split at h
  · rename_i hneg
    rw [if_pos hneg]
    split
    · rfl
    · exact Int32.toInt_inj.1 (by omega)
  · rename_i hpos
    rw [if_neg hpos]
    split
    · rfl
    · exact Int32.toInt_inj.1 (by omega)

theorem ofInt_inj_of_near {a b : Int} (h : Int32.ofInt a = Int32.ofInt b) (hab : a - b < 2 ^ 32)
    (hba : b - a < 2 ^ 32) : a = b := by
  have h := congrArg Int32.toInt h
  rw [Int32.toInt_ofInt, Int32.toInt_ofInt] at h
  simp only [Int32.size, Int.bmod_def] at h
  omega

/-- The bounds of the loop are `int`s up to a wrap, and lie the way of the step. -/
structure Ahead (inc : Int32) (N E : Int) : Prop where
  toward : Toward inc.toInt N E
  near : E - N < 2 ^ 32 ∧ N - E < 2 ^ 32

/-- The chunks of the loop from `N` on are pieces of it: whole steps, or one piece only. -/
def Cuts (cs inc : Int32) (N E : Int) : Prop :=
  N ≠ E → WholeSteps cs inc ∨ Covers cs inc (Int32.ofInt E - Int32.ofInt N)

theorem clampChunk_steps (hA : Ahead inc N E) (hw : WholeSteps cs inc) :
    clampChunk cs inc (Int32.ofInt E - Int32.ofInt N) = Int32.ofInt (E - N) ∨
    (∃ n : Nat, 0 < n ∧ clampChunk cs inc (Int32.ofInt E - Int32.ofInt N) = Int32.ofInt (n * inc.toInt) ∧
      Toward inc.toInt (N + n * inc.toInt) E) := by
  obtain ⟨htow, hnear⟩ := hA
  obtain ⟨n, hn, hmul⟩ := hw.eq_mul
  have hleft : Int32.ofInt E - Int32.ofInt N = Int32.ofInt (E - N) := (Int32.ofInt_sub E N).symm
  have hprod : cs * inc = Int32.ofInt (n * inc.toInt) := by rw [← hmul, Int32.ofInt_toInt]
  have hbmod : (Int32.ofInt (E - N)).toInt = (E - N).bmod (2 ^ 32) := Int32.toInt_ofInt
  have hneg : inc < 0 ↔ inc.toInt < 0 := by rw [Int32.lt_iff_toInt_lt, Int32.toInt_zero]
  have hlo := (cs * inc).le_toInt
  have hhi := (cs * inc).toInt_lt
  rw [hleft]
  unfold clampChunk
  by_cases hi : inc.toInt < 0
  · have hle : E ≤ N := by unfold Toward at htow; omega
    have hcneg : (n : Int) * inc.toInt < 0 := Int.mul_neg_of_pos_of_neg (by omega) hi
    simp only [if_pos (hneg.2 hi)]
    by_cases hlt : cs * inc < Int32.ofInt (E - N)
    · exact Or.inl (if_pos hlt)
    · refine Or.inr ⟨n, hn, by rw [if_neg hlt]; exact hprod, ?_⟩
      rw [Int32.lt_iff_toInt_lt, hmul, hbmod, Int.bmod_def] at hlt
      unfold Toward
      right
      refine ⟨hi, ?_⟩
      omega
  · have hpos : 0 < inc.toInt := by unfold Toward at htow; omega
    have hle : N ≤ E := by unfold Toward at htow; omega
    have hcpos : 0 < (n : Int) * inc.toInt := Int.mul_pos (by omega) hpos
    simp only [if_neg fun h => hi (hneg.1 h)]
    by_cases hlt : Int32.ofInt (E - N) < cs * inc
    · exact Or.inl (if_pos hlt)
    · refine Or.inr ⟨n, hn, by rw [if_neg hlt]; exact hprod, ?_⟩
      rw [Int32.lt_iff_toInt_lt, hmul, hbmod, Int.bmod_def] at hlt
      unfold Toward
      left
      refine ⟨hpos, ?_⟩
      omega

theorem takeChunk_of_clamp (hN : ws.next = Int32.ofInt N) (hE : ws.end_ = Int32.ofInt E) (hA : Ahead inc N E)
    (hNE : N ≠ E) {c : Int} (hc : clampChunk cs inc (Int32.ofInt E - Int32.ofInt N) = Int32.ofInt c) :
    takeChunk ws cs inc =
      ({ ws with next := Int32.ofInt (N + c) }, some (Int32.ofInt N, Int32.ofInt (N + c))) := by
  have hne : ws.next ≠ ws.end_ := by
    rw [hN, hE]
    exact fun h => hNE (ofInt_inj_of_near h hA.near.2 hA.near.1)
  simp only [takeChunk, if_neg hne]
  rw [hN, hE, hc, ← Int32.ofInt_add]

/-- **One chunk**: nothing at the end; before it, a piece of the loop from `next` on. -/
theorem takeChunk_spec (hN : ws.next = Int32.ofInt N) (hE : ws.end_ = Int32.ofInt E) (hA : Ahead inc N E)
    (hcut : Cuts cs inc N E) :
    (N = E ∧ takeChunk ws cs inc = (ws, none)) ∨
    (∃ M : Int, takeChunk ws cs inc = ({ ws with next := Int32.ofInt M }, some (Int32.ofInt N, Int32.ofInt M)) ∧
      Runs inc.toInt N M ∧ Toward inc.toInt M E ∧ Cuts cs inc M E ∧
      iters inc.toInt N E = iters inc.toInt N M ++ iters inc.toInt M E) := by
  have htow := hA.toward
  by_cases hNE : N = E
  · refine Or.inl ⟨hNE, ?_⟩
    unfold takeChunk
    rw [if_pos (by rw [hN, hE, hNE])]
  · right
    have hsteps : WholeSteps cs inc ∨ clampChunk cs inc (Int32.ofInt E - Int32.ofInt N) = Int32.ofInt (E - N) :=
      (hcut hNE).imp_right fun h => by rw [clampChunk_covers h, Int32.ofInt_sub]
    by_cases hall : clampChunk cs inc (Int32.ofInt E - Int32.ofInt N) = Int32.ofInt (E - N)
    · refine ⟨E, ?_, htow.runs hNE, Toward.refl ?_, fun h => absurd rfl h, by simp⟩
      · rw [takeChunk_of_clamp hN hE hA hNE hall, show N + (E - N) = E by omega]
      · unfold Toward at htow
        omega
    · have hw := hsteps.resolve_right hall
      obtain ⟨n, hn, hc, hM⟩ := (clampChunk_steps hA hw).resolve_left hall
      refine ⟨N + n * inc.toInt, takeChunk_of_clamp hN hE hA hNE hc, ?_, hM, fun _ => Or.inl hw, iters_split n hM⟩
      unfold Toward at htow
      unfold Runs
      rcases htow with ⟨hpos, -⟩ | ⟨hneg, -⟩
      · have := Int.mul_pos (show 0 < (n : Int) by omega) hpos
        omega
      · have := Int.mul_neg_of_pos_of_neg (show 0 < (n : Int) by omega) hneg
        omega

/-- A descriptor set up with this chunk size and step: `next` at `N`, the end at `E`. -/
structure Live (cs inc : Int32) (ws : WorkShare) (N E : Int) : Prop where
  next : ws.next = Int32.ofInt N
  end_ : ws.end_ = Int32.ofInt E
  chunkSize : ws.chunkSize = cs
  incr : ws.incr = inc
  ahead : Ahead inc N E
  cuts : Cuts cs inc N E

theorem Live.take (h : Live cs inc ws N E) :
    (N = E ∧ takeChunk ws cs inc = (ws, none)) ∨
    (∃ M : Int, takeChunk ws cs inc = ({ ws with next := Int32.ofInt M }, some (Int32.ofInt N, Int32.ofInt M)) ∧
      Runs inc.toInt N M ∧ iters inc.toInt N E = iters inc.toInt N M ++ iters inc.toInt M E ∧
      Live cs inc { ws with next := Int32.ofInt M } M E) := by
  rcases takeChunk_spec h.next h.end_ h.ahead h.cuts with hend | ⟨M, htake, hruns, htow, hcuts, hsplit⟩
  · exact Or.inl hend
  · refine Or.inr ⟨M, htake, hruns, hsplit, ⟨rfl, h.end_, h.chunkSize, h.incr, ⟨htow, ?_⟩, hcuts⟩⟩
    have := h.ahead.near
    have := h.ahead.toward
    unfold Toward at this htow
    unfold Runs at hruns
    omega

theorem Live.iterDynamicNext (h : Live cs inc ws N E) : iterDynamicNext ws = takeChunk ws cs inc := by
  rw [WorkShare.iterDynamicNext, h.chunkSize, h.incr]

/-- Inside the `int` range a chunk is read back as it was cut. -/
theorem toInt_ofInt_range {a : Int} (h1 : -2 ^ 31 ≤ a) (h2 : a < 2 ^ 31) : (Int32.ofInt a).toInt = a :=
  Int32.toInt_ofInt_of_le h1 h2

end Chunk

/-! ## A loop, whoever calls and in whatever order -/

section Partition

open WorkShare Loop

/-- The arguments of `GOMP_loop_dynamic_start`, the same from every thread of the team. -/
structure LoopArgs where
  start : Int32
  end_ : Int32
  incr : Int32
  chunkSize : Int32
deriving DecidableEq, Repr

/-- A call that some thread of the team makes. -/
inductive LoopCall | start | next

variable (args : LoopArgs)

def callLoop (ws : WorkShare) : LoopCall → WorkShare × Option (Int32 × Int32)
  | .start => loopDynamicStart ws args.start args.end_ args.incr args.chunkSize
  | .next => loopDynamicNext ws

/-- What the calls return, in the order in which they get the lock. -/
def runLoop : WorkShare → List LoopCall → List (Option (Int32 × Int32))
  | _, [] => []
  | ws, c :: cs => (callLoop args ws c).2 :: runLoop (callLoop args ws c).1 cs

/-- The iterations of a returned chunk `[istart, iend)`. -/
def chunkIters : Option (Int32 × Int32) → List Int
  | some (istart, iend) => iters args.incr.toInt istart.toInt iend.toInt
  | none => []

/-- The sequential loop. -/
def seqLoop : List Int := iters args.incr.toInt args.start.toInt args.end_.toInt

/-- The results cut `rest` from its front: chunks that are not empty, and 0 only at its end. -/
inductive Hands : List Int → List (Option (Int32 × Int32)) → Prop
  | nil (rest : List Int) : Hands rest []
  | zero {rs} (h : Hands [] rs) : Hands [] (none :: rs)
  | chunk {rest rs} (c : Int32 × Int32) (hne : chunkIters args (some c) ≠ []) (h : Hands rest rs) :
      Hands (chunkIters args (some c) ++ rest) (some c :: rs)

variable {args}

theorem Hands.isPrefix {rest : List Int} {rs : List (Option (Int32 × Int32))} (h : Hands args rest rs) :
    rs.flatMap (chunkIters args) <+: rest := by
  induction h with
  | nil rest => exact List.nil_prefix
  | zero h ih => simpa [chunkIters] using ih
  | chunk c hne h ih =>
    rw [List.flatMap_cons]
    exact (List.prefix_append_right_inj _).2 ih

/-- A call returns 0 only when everything before it has been handed out. -/
theorem Hands.drained {rest : List Int} {rs : List (Option (Int32 × Int32))} (h : Hands args rest rs)
    {pre post : List (Option (Int32 × Int32))} (hrs : rs = pre ++ none :: post) :
    pre.flatMap (chunkIters args) = rest := by
  induction h generalizing pre with
  | nil rest => simp at hrs
  | @zero rs h ih =>
    cases pre with
    | nil => rfl
    | cons r pre =>
      simp only [List.cons_append, List.cons.injEq] at hrs
      obtain ⟨rfl, hrs⟩ := hrs
      simpa [chunkIters] using ih hrs
  | @chunk rest rs c hne h ih =>
    cases pre with
    | nil => simp at hrs
    | cons r pre =>
      simp only [List.cons_append, List.cons.injEq] at hrs
      obtain ⟨rfl, hrs⟩ := hrs
      rw [List.flatMap_cons, ih hrs]

/-- Every success takes at least one iteration. -/
theorem Hands.count {rest : List Int} {rs : List (Option (Int32 × Int32))} (h : Hands args rest rs) :
    rs.countP Option.isSome ≤ rest.length := by
  induction h with
  | nil rest => simp
  | zero h ih => simpa using ih
  | chunk c hne h ih =>
    have := List.length_pos_iff.2 hne
    simp only [List.countP_cons, Option.isSome_some, if_true, List.length_append]
    omega

/-- The first chunk, and so each, is a piece of the loop: a loop that has an iteration is cut
after whole steps, or not at all. -/
def LoopArgs.Fits (args : LoopArgs) : Prop :=
  Runs args.incr.toInt args.start.toInt args.end_.toInt →
    WholeSteps args.chunkSize args.incr ∨ Covers args.chunkSize args.incr (args.end_ - args.start)

instance : Decidable (LoopArgs.Fits args) := by unfold LoopArgs.Fits; infer_instance

/-- The descriptor while the loop runs, and what is left of the loop. -/
def LoopArgs.Running (args : LoopArgs) (ws : WorkShare) (rest : List Int) : Prop :=
  ∃ N E, Live args.chunkSize args.incr ws N E ∧
    (-2 ^ 31 ≤ N ∧ N < 2 ^ 31 ∧ -2 ^ 31 ≤ E ∧ E < 2 ^ 31) ∧ rest = iters args.incr.toInt N E

/-- Taking a chunk keeps the loop running and cuts the chunk off. -/
theorem LoopArgs.Running.take {ws : WorkShare} {rest : List Int} (h : args.Running ws rest) :
    (rest = [] ∧ takeChunk ws args.chunkSize args.incr = (ws, none)) ∨
    (∃ M c rest', takeChunk ws args.chunkSize args.incr = ({ ws with next := M }, some c) ∧
      chunkIters args (some c) ≠ [] ∧ rest = chunkIters args (some c) ++ rest' ∧
      args.Running { ws with next := M } rest') := by
  obtain ⟨N, E, hlive, hr, rfl⟩ := h
  have htow := hlive.ahead.toward
  rcases hlive.take with ⟨rfl, htake⟩ | ⟨M, htake, hruns, hsplit, hlive'⟩
  · exact Or.inl ⟨iters_self, htake⟩
  · right
    have hM : -2 ^ 31 ≤ M ∧ M < 2 ^ 31 := by
      have htow' := hlive'.ahead.toward
      unfold Runs at hruns
      unfold Toward at htow'
      omega
    have hcut : chunkIters args (some (Int32.ofInt N, Int32.ofInt M)) = iters args.incr.toInt N M := by
      simp only [chunkIters]
      rw [toInt_ofInt_range hr.1 hr.2.1, toInt_ofInt_range hM.1 hM.2]
    refine ⟨Int32.ofInt M, (Int32.ofInt N, Int32.ofInt M), _, htake, ?_, ?_, M, E, hlive',
      ⟨hM.1, hM.2, hr.2.2⟩, rfl⟩
    · rw [hcut]
      exact iters_ne_nil hruns
    · rw [hcut]
      exact hsplit

/-- While the loop runs, either call takes the next chunk. -/
theorem LoopArgs.Running.callLoop {ws : WorkShare} {rest : List Int} (h : args.Running ws rest)
    (hws : ws.checkfirst = WS_INITED) (c : LoopCall) :
    callLoop args ws c = takeChunk ws args.chunkSize args.incr := by
  obtain ⟨N, E, hlive, -, -⟩ := h
  cases c with
  | start => simp [Gomp.callLoop, loopDynamicStart, hws]
  | next => exact hlive.iterDynamicNext

/-- The first call sets the loop up; a loop that has no iterations starts at its end. -/
theorem LoopArgs.start_running {ws : WorkShare} (hws : ws.checkfirst ≠ WS_INITED) (hincr : args.incr ≠ 0)
    (hfit : args.Fits) :
    ∃ ws', ws'.checkfirst = WS_INITED ∧ ws'.completed = 0 ∧ args.Running ws' (seqLoop args) ∧
      callLoop args ws .start = takeChunk ws' args.chunkSize args.incr := by
  have h0 : args.incr.toInt ≠ 0 := fun h => hincr (Int32.toInt_inj.1 (by rw [h, Int32.toInt_zero]))
  have hr1 := args.start.toInt_lt
  have hr2 := args.start.le_toInt
  have hr3 := args.end_.toInt_lt
  have hr4 := args.end_.le_toInt
  have hend : canonicalEnd args.start args.end_ args.incr =
      if Runs args.incr.toInt args.start.toInt args.end_.toInt then args.end_ else args.start := by
    unfold canonicalEnd
    simp only [Int32.lt_iff_toInt_lt, Int32.toInt_zero]
    by_cases hruns : Runs args.incr.toInt args.start.toInt args.end_.toInt
    · rw [if_pos hruns, if_neg (by unfold Runs at hruns; omega)]
    · rw [if_neg hruns]
      split
      · rfl
      · exact Int32.toInt_inj.1 (by unfold Runs at hruns; omega)
  refine ⟨loopInit { ws with checkfirst := WS_INITED } args.start args.end_ args.incr args.chunkSize,
    rfl, rfl, ⟨args.start.toInt, (canonicalEnd args.start args.end_ args.incr).toInt,
      ⟨by simp [loopInit], by simp [loopInit], rfl, rfl, ?_, ?_⟩, ?_, ?_⟩, by simp [callLoop, loopDynamicStart, hws]⟩
  · rw [hend]
    refine ⟨?_, by split <;> omega⟩
    split
    · rename_i hruns
      exact hruns.toward
    · exact Toward.refl h0
  · intro hne
    rw [Int32.ofInt_toInt, Int32.ofInt_toInt]
    rw [hend] at hne ⊢
    split at hne
    · rename_i hruns
      rw [if_pos hruns]
      exact hfit hruns
    · exact absurd rfl hne
  · rw [hend]
    split <;> omega
  · rw [hend, seqLoop]
    split
    · rfl
    · rename_i hruns
      rw [iters_self, iters_nil hruns]

theorem runLoop_hands (calls : List LoopCall) {ws : WorkShare} {rest : List Int} (h : args.Running ws rest)
    (hws : ws.checkfirst = WS_INITED) : Hands args rest (runLoop args ws calls) := by
  induction calls generalizing ws rest with
  | nil => exact Hands.nil _
  | cons c calls ih =>
    rw [runLoop, h.callLoop hws c]
    rcases h.take with ⟨rfl, htake⟩ | ⟨M, ch, rest', htake, hne, rfl, hrest⟩
    · rw [htake]
      exact Hands.zero (ih h hws)
    · rw [htake]
      exact Hands.chunk ch hne (ih hrest hws)

/-- **The partition of a dynamic loop**: in the order of the lock, the chunks are the sequential
loop cut in pieces. A call returns 0 only after the last iteration, and no more calls succeed
than there are iterations. -/
theorem loop_partition (ws : WorkShare) (calls : List LoopCall) (hws : ws.checkfirst ≠ WS_INITED)
    (hincr : args.incr ≠ 0) (hcs : 1 ≤ args.chunkSize.toInt) (hfit : ChunkFits args.chunkSize args.incr) :
    (runLoop args ws (.start :: calls)).flatMap (chunkIters args) <+: seqLoop args ∧
    (∀ pre post, runLoop args ws (.start :: calls) = pre ++ none :: post →
      pre.flatMap (chunkIters args) = seqLoop args) ∧
    (none ∈ runLoop args ws (.start :: calls) →
      (runLoop args ws (.start :: calls)).flatMap (chunkIters args) = seqLoop args) ∧
    (runLoop args ws (.start :: calls)).countP Option.isSome ≤ (seqLoop args).length ∧
    (seqLoop args).Nodup := by
  have hinc : args.incr.toInt ≠ 0 := fun h => hincr (Int32.toInt_inj.1 (by rw [h, Int32.toInt_zero]))
  have hands : Hands args (seqLoop args) (runLoop args ws (.start :: calls)) := by
    obtain ⟨ws', hws', -, hrun, hcall⟩ := LoopArgs.start_running hws hincr fun _ => Or.inl (hfit.wholeSteps hcs hinc)
    have h := runLoop_hands (.start :: calls) hrun hws'
    rw [runLoop, hrun.callLoop hws'] at h
    rw [runLoop, hcall]
    exact h
  refine ⟨hands.isPrefix, fun pre post => hands.drained, fun hmem => ?_, hands.count, iters_nodup _ _ _⟩
  obtain ⟨pre, post, hsplit⟩ := List.append_of_mem hmem
  obtain ⟨tl, htl⟩ := hands.isPrefix
  have hpre := hands.drained hsplit
  rw [hsplit, List.flatMap_append, hpre, List.append_assoc] at htl
  have := List.append_eq_nil_iff.1 (List.append_right_eq_self.1 htl)
  rw [hsplit, List.flatMap_append, hpre, this.1, List.append_nil]

/-- A downward loop whose end is not a multiple of the step, cut in chunks of two steps. -/
theorem loop_partition_down :
    none ∈ runLoop ⟨10, -3, -4, 2⟩ ⟨0, 0, 0, 0, WS_NOT_INITED, 0⟩ [.start, .next, .start, .next] ∧
    (runLoop ⟨10, -3, -4, 2⟩ ⟨0, 0, 0, 0, WS_NOT_INITED, 0⟩ [.start, .next, .start, .next]).flatMap
      (chunkIters ⟨10, -3, -4, 2⟩) = seqLoop ⟨10, -3, -4, 2⟩ :=
  have hnone : none ∈ runLoop ⟨10, -3, -4, 2⟩ ⟨0, 0, 0, 0, WS_NOT_INITED, 0⟩ [.start, .next, .start, .next] := by
    decide
  ⟨hnone, (loop_partition ⟨0, 0, 0, 0, WS_NOT_INITED, 0⟩ [.next, .start, .next] (by decide) (by decide)
    (by decide) (by decide)).2.2.1 hnone⟩

end Partition

end VirtualSoc.Gomp
