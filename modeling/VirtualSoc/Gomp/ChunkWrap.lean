import VirtualSoc.Gomp.WorkShare

/-!
# Chunks that wrap around (libgomp/iter.c, loop.c)

The length of a chunk is the `int` product `chunk_size * incr`, and what is left of the loop is the `int` difference of
its end and `next`. Both wrap around: a product that wraps can have the wrong sign, so that `next` goes the
wrong way, and a difference that wraps has the wrong sign, so that a chunk is not cut off at the end.

* `call_advances_iff`: one call;
* `loop_advances_iff`: the arguments with which all calls move `next` on, and then there are finitely many of them.
-/

namespace VirtualSoc.Gomp

open WorkShare Loop

/-! ## One call -/

section Call

variable {cs inc : Int32} {P N E i : Int}

/-- The way of the step from `N` to `E`. -/
def distance (i N E : Int) : Int := if 0 < i then E - N else N - E

/-- The first distance that is not an `int`. -/
def half (i : Int) : Int := if 0 < i then 2 ^ 31 else 2 ^ 31 + 1

/-- The length of a chunk in the way of the step, as an `unsigned`; `P` is `chunk_size * incr`. -/
def chunkLength (i P : Int) : Int := (if 0 < i then P else -P) % 2 ^ 32

/-- `next` after a call, with the values that the operations on `int` give. -/
def nextOf (i P N E : Int) : Int :=
  let chunk := P.bmod (2 ^ 32)
  let left := (E - N).bmod (2 ^ 32)
  (N + if i < 0 then max chunk left else min chunk left).bmod (2 ^ 32)

/-- An `int`. -/
def IsInt (N : Int) : Prop := -2 ^ 31 ≤ N ∧ N < 2 ^ 31

theorem isInt_toInt (x : Int32) : IsInt x.toInt := ⟨x.le_toInt, x.toInt_lt⟩

theorem clampChunk_toInt (left : Int32) :
    (clampChunk cs inc left).toInt = if inc.toInt < 0 then max (cs * inc).toInt left.toInt
      else min (cs * inc).toInt left.toInt := by
  unfold clampChunk
  simp only [Int32.lt_iff_toInt_lt, Int32.toInt_zero]
  split
  · split <;> omega
  · split <;> omega

/-- What a call stores to `next`. -/
theorem next_toInt (start end_ : Int32) :
    (start + clampChunk cs inc (end_ - start)).toInt =
      nextOf inc.toInt (cs.toInt * inc.toInt) start.toInt end_.toInt := by
  rw [Int32.toInt_add, clampChunk_toInt, Int32.toInt_mul, Int32.toInt_sub]
  rfl

/-- **One call** before the end moves `next` on and not past the end if the chunk has the right sign, or if what is left has
the wrong one. -/
theorem call_advances_iff (hi : i ≠ 0) (hN : IsInt N) (hE : IsInt E) (hd : 0 < distance i N E) :
    (Runs i N (nextOf i P N E) ∧ Toward i (nextOf i P N E) E) ↔
      0 < chunkLength i P ∧ chunkLength i P < half i ∨ half i ≤ distance i N E := by
  unfold IsInt at hN hE
  unfold distance at hd ⊢
  unfold Runs Toward half chunkLength nextOf
  simp only [Int.bmod_def]
  by_cases hpos : 0 < i
  · simp only [hpos, if_true, if_neg (show ¬ i < 0 by omega), true_and] at hd ⊢
    omega
  · have hneg : i < 0 := by omega
    simp only [hpos, if_false, hneg, if_true, true_and, false_and, false_or] at hd ⊢
    omega

/-- A call with what is left of the wrong sign takes all of it, or a chunk that passes as positive. -/
theorem distance_far (hi : i ≠ 0) (hN : IsInt N) (hE : IsInt E) (hd : half i ≤ distance i N E) :
    distance i (nextOf i P N E) E =
      if chunkLength i P < half i ∨ distance i N E ≤ chunkLength i P then 0
      else distance i N E - chunkLength i P := by
  unfold IsInt at hN hE
  unfold distance half chunkLength at *
  unfold nextOf
  simp only [Int.bmod_def]
  by_cases hpos : 0 < i
  · simp only [hpos, if_true, if_neg (show ¬ i < 0 by omega)] at hd ⊢
    split <;> omega
  · simp only [hpos, if_false, show i < 0 by omega, if_true] at hd ⊢
    split <;> omega

/-- The arguments with which the loop moves on: no iterations, a chunk of the right sign, or all iterations at
once. -/
def Advancing (i u d : Int) : Prop := d ≤ 0 ∨ 0 < u ∧ u < half i ∨ half i ≤ d ∧ (u = 0 ∨ d ≤ u)

instance (i u d : Int) : Decidable (Advancing i u d) := inferInstanceAs (Decidable (_ ∨ _))

theorem chunkLength_nonneg : 0 ≤ chunkLength i P := by
  unfold chunkLength
  omega

theorem isInt_nextOf : IsInt (nextOf i P N E) := by
  unfold IsInt nextOf
  simp only [Int.bmod_def]
  omega

theorem distance_of_toward (h : Toward i N E) : 0 ≤ distance i N E := by
  unfold Toward at h
  unfold distance
  omega

theorem distance_of_runs {M : Int} (h : Runs i N M) : distance i M E < distance i N E := by
  unfold Runs at h
  unfold distance
  omega

/-- So the next call moves on as well. -/
theorem Advancing.next (h : Advancing i (chunkLength i P) (distance i N E)) (hi : i ≠ 0) (hN : IsInt N) (hE : IsInt E)
    (hd : 0 < distance i N E) :
    Runs i N (nextOf i P N E) ∧ Toward i (nextOf i P N E) E ∧
      Advancing i (chunkLength i P) (distance i (nextOf i P N E) E) := by
  have hcall := (call_advances_iff (P := P) hi hN hE hd).2 (by unfold Advancing at h; omega)
  refine ⟨hcall.1, hcall.2, ?_⟩
  unfold Advancing at h ⊢
  by_cases hfar : half i ≤ distance i N E
  · rw [distance_far hi hN hE hfar]
    split <;> omega
  · omega

/-- Otherwise this call does not, or it comes between, and then the next does not. -/
theorem not_advancing (h : ¬ Advancing i (chunkLength i P) (distance i N E)) (hi : i ≠ 0) (hN : IsInt N)
    (hE : IsInt E) (hruns : Runs i N (nextOf i P N E)) (htow : Toward i (nextOf i P N E) E) :
    0 < distance i (nextOf i P N E) E ∧
      ¬ (Runs i (nextOf i P N E) (nextOf i P (nextOf i P N E) E) ∧
        Toward i (nextOf i P (nextOf i P N E) E) E) := by
  have hu := chunkLength_nonneg (i := i) (P := P)
  have hlt : chunkLength i P < 2 ^ 32 := by
    unfold chunkLength
    omega
  have hbound : distance i N E < 2 ^ 32 := by
    unfold IsInt at hN hE
    unfold distance
    omega
  have hd : 0 < distance i N E := by
    unfold Advancing at h
    omega
  have hfar := (call_advances_iff hi hN hE hd).1 ⟨hruns, htow⟩
  have hdist := distance_far (P := P) hi hN hE (by unfold Advancing at h; omega)
  rw [if_neg (by unfold Advancing at h; omega)] at hdist
  have hpos : 0 < distance i (nextOf i P N E) E := by
    unfold Advancing at h
    omega
  refine ⟨hpos, fun hnext => ?_⟩
  have hnear := (call_advances_iff hi isInt_nextOf hE hpos).1 hnext
  unfold Advancing at h
  unfold half at *
  split at h <;> omega

end Call

/-! ## The loop -/

section Calls

variable {args : LoopArgs} {ws : WorkShare}

/-- What a call that succeeds does: it takes the chunk from `next` on, which is not empty and ends before or at the
end, and moves `next` to where the chunk ends. -/
def Advances (args : LoopArgs) (ws ws' : WorkShare) : Option (Int32 × Int32) → Prop
  | none => True
  | some (istart, iend) =>
    (ws.checkfirst = WS_INITED → istart = ws.next) ∧ ws'.next = iend ∧
    Runs args.incr.toInt istart.toInt iend.toInt ∧ Toward args.incr.toInt iend.toInt ws'.end_.toInt ∧
    chunkIters args (some (istart, iend)) ≠ []

/-- All calls do so. -/
def AllAdvance (args : LoopArgs) : WorkShare → List LoopCall → Prop
  | _, [] => True
  | ws, c :: calls =>
    Advances args ws (callLoop args ws c).1 (callLoop args ws c).2 ∧ AllAdvance args (callLoop args ws c).1 calls

/-- Whatever calls come after the first, they do so, and finitely many of them succeed. -/
structure LoopAdvances (args : LoopArgs) (ws : WorkShare) : Prop where
  advance : ∀ calls, AllAdvance args ws (.start :: calls)
  finite : ∃ n, ∀ calls, (runLoop args ws (.start :: calls)).countP Option.isSome ≤ n

/-- The chunk length of the arguments. -/
def LoopArgs.chunkLength (args : LoopArgs) : Int :=
  Gomp.chunkLength args.incr.toInt (args.chunkSize.toInt * args.incr.toInt)

/-- The descriptor while the loop runs. -/
structure Going (args : LoopArgs) (ws : WorkShare) : Prop where
  checkfirst : ws.checkfirst = WS_INITED
  chunkSize : ws.chunkSize = args.chunkSize
  incr : ws.incr = args.incr
  toward : 0 ≤ distance args.incr.toInt ws.next.toInt ws.end_.toInt

theorem Going.callLoop (h : Going args ws) (c : LoopCall) :
    callLoop args ws c = takeChunk ws args.chunkSize args.incr := by
  cases c with
  | start => simp [Gomp.callLoop, loopDynamicStart, h.checkfirst]
  | next => simp [Gomp.callLoop, loopDynamicNext, iterDynamicNext, h.chunkSize, h.incr]

/-- The step from `next`. -/
def LoopArgs.after (args : LoopArgs) (ws : WorkShare) : WorkShare :=
  { ws with next := ws.next + clampChunk args.chunkSize args.incr (ws.end_ - ws.next) }

theorem after_next : (args.after ws).next.toInt =
    nextOf args.incr.toInt (args.chunkSize.toInt * args.incr.toInt) ws.next.toInt ws.end_.toInt :=
  next_toInt _ _

theorem Going.take (h : Going args ws) :
    distance args.incr.toInt ws.next.toInt ws.end_.toInt = 0 ∧
      takeChunk ws args.chunkSize args.incr = (ws, none) ∨
    0 < distance args.incr.toInt ws.next.toInt ws.end_.toInt ∧
      takeChunk ws args.chunkSize args.incr = (args.after ws, some (ws.next, (args.after ws).next)) := by
  have htow := h.toward
  by_cases hne : ws.next = ws.end_
  · refine Or.inl ⟨?_, if_pos hne⟩
    rw [hne]
    unfold distance
    split <;> omega
  · refine Or.inr ⟨?_, if_neg hne⟩
    have hne' : ws.next.toInt ≠ ws.end_.toInt := fun h => hne (Int32.toInt_inj.1 h)
    unfold distance at htow ⊢
    split <;> rename_i hpos <;> simp only [hpos, if_true, if_false] at htow <;> omega

/-- A call of a loop that moves on. -/
theorem Going.step (h : Going args ws) (hi : args.incr.toInt ≠ 0)
    (hadv : Advancing args.incr.toInt args.chunkLength (distance args.incr.toInt ws.next.toInt ws.end_.toInt))
    (c : LoopCall) :
    Advances args ws (Gomp.callLoop args ws c).1 (Gomp.callLoop args ws c).2 ∧
      Going args (Gomp.callLoop args ws c).1 ∧
      Advancing args.incr.toInt args.chunkLength
        (distance args.incr.toInt (Gomp.callLoop args ws c).1.next.toInt (Gomp.callLoop args ws c).1.end_.toInt) ∧
      (if (Gomp.callLoop args ws c).2.isSome then 1 else 0) +
        distance args.incr.toInt (Gomp.callLoop args ws c).1.next.toInt (Gomp.callLoop args ws c).1.end_.toInt ≤
        distance args.incr.toInt ws.next.toInt ws.end_.toInt := by
  rw [h.callLoop c]
  rcases h.take with ⟨hzero, htake⟩ | ⟨hpos, htake⟩
  · rw [htake]
    exact ⟨trivial, h, hadv, by simp⟩
  · obtain ⟨hruns, htow, hadv'⟩ := hadv.next hi (isInt_toInt _) (isInt_toInt _) hpos
    rw [← after_next] at hruns htow hadv'
    rw [htake]
    refine ⟨⟨fun _ => rfl, rfl, hruns, htow, iters_ne_nil hruns⟩,
      ⟨h.checkfirst, h.chunkSize, h.incr, distance_of_toward htow⟩, hadv', ?_⟩
    have hlt : distance args.incr.toInt (args.after ws).next.toInt ws.end_.toInt <
        distance args.incr.toInt ws.next.toInt ws.end_.toInt := distance_of_runs hruns
    simp only [Option.isSome_some, if_true]
    change 1 + distance args.incr.toInt (args.after ws).next.toInt ws.end_.toInt ≤ _
    omega

theorem Going.advance (hi : args.incr.toInt ≠ 0) (calls : List LoopCall) (h : Going args ws)
    (hadv : Advancing args.incr.toInt args.chunkLength (distance args.incr.toInt ws.next.toInt ws.end_.toInt)) :
    AllAdvance args ws calls ∧ ((runLoop args ws calls).countP Option.isSome : Int) ≤
      distance args.incr.toInt ws.next.toInt ws.end_.toInt := by
  induction calls generalizing ws with
  | nil => exact ⟨trivial, h.toward⟩
  | cons c calls ih =>
    obtain ⟨hcall, hgoing, hadv', hcount⟩ := h.step hi hadv c
    obtain ⟨hall, hrest⟩ := ih hgoing hadv'
    refine ⟨⟨hcall, hall⟩, ?_⟩
    rw [runLoop, List.countP_cons]
    push_cast
    omega

/-- The descriptor that the first call sets up. -/
def LoopArgs.init (args : LoopArgs) (ws : WorkShare) : WorkShare :=
  loopInit { ws with checkfirst := WS_INITED } args.start args.end_ args.incr args.chunkSize

theorem callLoop_start (hws : ws.checkfirst ≠ WS_INITED) :
    callLoop args ws .start = takeChunk (args.init ws) args.chunkSize args.incr := by
  simp [callLoop, loopDynamicStart, hws, LoopArgs.init]

/-- A loop without iterations begins at its end. -/
theorem distance_init (hi : args.incr.toInt ≠ 0) :
    distance args.incr.toInt (args.init ws).next.toInt (args.init ws).end_.toInt =
      max 0 (distance args.incr.toInt args.start.toInt args.end_.toInt) := by
  have hnext : (args.init ws).next = args.start := rfl
  have hend : (args.init ws).end_ = canonicalEnd args.start args.end_ args.incr := rfl
  rw [hnext, hend, canonicalEnd]
  simp only [Int32.lt_iff_toInt_lt, Int32.toInt_zero]
  unfold distance
  split <;> split <;> omega

theorem going_init (hi : args.incr.toInt ≠ 0) : Going args (args.init ws) where
  checkfirst := rfl
  chunkSize := rfl
  incr := rfl
  toward := by
    rw [distance_init hi]
    exact le_max_left _ _

theorem advancing_init (ws : WorkShare) (hi : args.incr.toInt ≠ 0) :
    Advancing args.incr.toInt args.chunkLength
      (distance args.incr.toInt (args.init ws).next.toInt (args.init ws).end_.toInt) ↔
    Advancing args.incr.toInt args.chunkLength (distance args.incr.toInt args.start.toInt args.end_.toInt) := by
  rw [distance_init hi]
  unfold Advancing half
  split <;> omega

/-- **The loops that move on**, for any arguments of 32 bits: each call that succeeds moves `next` towards the end and not
past it and returns a chunk that is not empty, and finitely many do. -/
theorem loop_advances_iff (hws : ws.checkfirst ≠ WS_INITED) (hincr : args.incr ≠ 0) :
    LoopAdvances args ws ↔
      Advancing args.incr.toInt args.chunkLength (distance args.incr.toInt args.start.toInt args.end_.toInt) := by
  have hi : args.incr.toInt ≠ 0 := fun h => hincr (Int32.toInt_inj.1 (by rw [h, Int32.toInt_zero]))
  have hgoing : Going args (args.init ws) := going_init hi
  have hstart : callLoop args ws .start = callLoop args (args.init ws) .start := by
    rw [callLoop_start hws, hgoing.callLoop]
  constructor
  · intro h
    by_contra hnot
    rw [← advancing_init ws hi] at hnot
    -- the first call and the next one
    obtain ⟨hfirst, hsecond, -⟩ := h.advance [.next]
    rw [callLoop_start hws] at hfirst hsecond
    rcases hgoing.take with ⟨hzero, -⟩ | ⟨-, htake⟩
    · exact hnot (Or.inl hzero.le)
    · rw [htake] at hfirst hsecond
      obtain ⟨-, -, hruns, htow, -⟩ := hfirst
      have hgoing' : Going args (args.after (args.init ws)) :=
        ⟨rfl, rfl, rfl, distance_of_toward htow⟩
      rw [after_next] at hruns htow
      obtain ⟨hpos, hfails⟩ := not_advancing hnot hi (isInt_toInt _) (isInt_toInt _) hruns htow
      rw [hgoing'.callLoop] at hsecond
      rcases hgoing'.take with ⟨hzero', -⟩ | ⟨-, htake'⟩
      · rw [after_next] at hzero'
        exact absurd hzero' hpos.ne'
      · rw [htake'] at hsecond
        obtain ⟨-, -, hruns', htow', -⟩ := hsecond
        simp only [after_next] at hruns' htow'
        exact hfails ⟨hruns', htow'⟩
  · intro hadv
    have hadv' := (advancing_init ws hi).2 hadv
    refine ⟨fun calls => ?_, ?_⟩
    · obtain ⟨⟨hcall, hrest⟩, -⟩ := hgoing.advance hi (.start :: calls) hadv'
      rw [AllAdvance, hstart]
      refine ⟨?_, hrest⟩
      revert hcall
      cases (callLoop args (args.init ws) .start).2 with
      | none => exact id
      | some c => exact fun hcall => ⟨fun h => absurd h hws, hcall.2⟩
    · refine ⟨(distance args.incr.toInt (args.init ws).next.toInt (args.init ws).end_.toInt).toNat, fun calls => ?_⟩
      obtain ⟨-, hcount⟩ := hgoing.advance hi (.start :: calls) hadv'
      rw [runLoop, hstart]
      rw [runLoop] at hcount
      omega

/-- A loop from the smallest `int` to the largest; the chunk length and what is left wrap around, and it moves on. -/
theorem loop_advances_iff_wrapped :
    LoopAdvances ⟨-2147483648, 2147483647, 2147483647, 3⟩ ⟨0, 0, 0, 0, WS_NOT_INITED, 0⟩ :=
  (loop_advances_iff (by decide) (by decide)).2 (by decide)

/-- Chunks of the largest size in steps of two: the first call moves `next` to -2. -/
theorem not_advances_largest : ¬ LoopAdvances ⟨0, 10, 2, 2147483647⟩ ⟨0, 0, 0, 0, WS_NOT_INITED, 0⟩ := by
  intro h
  obtain ⟨⟨-, -, hruns, -, -⟩, -⟩ := h.advance []
  exact absurd hruns (by decide)

end Calls

end VirtualSoc.Gomp
