import Mathlib.Logic.Function.Basic
import Mathlib.Tactic.IntervalCases
import VirtualSoc.Lib.Transition
import VirtualSoc.Core.Bus

/-!
# The cache refill unit (cluster/cl_cru.cpp, cluster/cl_cru.h)

The refills of the `n` instruction caches go through one unit with a buffer of `depth` lines. A request for a
line that is in the buffer is streamed from there, one beat every second clock (`HIT`); another one goes to
the L3 memory, and its beats are put in the line `curr_buff_line` as they come (`MISS`).

A word of the buffer always belongs to the address beside it. But a stream keeps only the number of its line,
and nothing keeps a refill from that line: then the beats that are still to come are words of another line. If
no refill writes an entry that a stream has still to deliver, every beat is right (`cru_beats`).

One action is one stimulus: an edge of the clock, a request, or an edge of a ready of the L3 memory, which
answers with the word at the address of the request plus four times the beat. Statistics are left out.
-/

namespace VirtualSoc.Cru

/-- The words of an `ICACHE_LINE`. -/
def LINE_WORDS : Nat := 4

/-- `miss_buff_depth`, and what the L3 memory holds. -/
structure Config where
  depth : Nat
  l3 : Nat → UInt32
  depth_pos : 0 < depth

/-- `ctrl_state`, split at the `wait`s, with the loop variables of the thread. -/
inductive CtrlState
  | idle
  /-- Before the beat `burstCtr`, and while its ready is up. -/
  | hitNext (hitLine burstCtr : Nat)
  | hitHigh (hitLine burstCtr : Nat)
  /-- Waits for the rise of the ready of the beat `burstCtr`, and for its fall. -/
  | missPos (burstCtr : Nat) (fillLine : Bool)
  | missNeg (burstCtr : Nat) (fillLine : Bool)
deriving DecidableEq, Repr

/-- `pinout` is the request that the thread has read, `pinoutCache` and `pinoutL3` are the ports. -/
structure State (n : Nat) where
  cs : Fin n → CtrlState
  pinout : Fin n → Pinout
  readyCache : Fin n → Bool
  pinoutCache : Fin n → Pinout
  requestL3 : Fin n → Bool
  pinoutL3 : Fin n → Pinout
  missBuffer : Nat → Nat → Pinout
  currBuffLine : Nat

inductive Action (n : Nat)
  | clock
  | request (id : Fin n) (pinout : Pinout)
  | readyPos (id : Fin n)
  | readyNeg (id : Fin n)
deriving DecidableEq, Repr

variable {n : Nat}

def init : State n where
  cs _ := .idle
  pinout _ := {}
  readyCache _ := false
  pinoutCache _ := {}
  requestL3 _ := false
  pinoutL3 _ := {}
  missBuffer _ _ := {}
  currBuffLine := 0

/-- What the caches ask for: a line of 16 bytes. -/
def LineRequest (p : Pinout) : Prop :=
  p.address % 16 = 0 ∧ p.address < 2 ^ 32 ∧ p.rw = false ∧ p.burst = LINE_WORDS

instance (p : Pinout) : Decidable (LineRequest p) := inferInstanceAs (Decidable (_ ∧ _))

/-- `IsInMissBuffer`: the first line with all the words of the line at the address. -/
def isInMissBuffer (c : Config) (s : State n) (address : Nat) : Option Nat :=
  (List.range c.depth).find? fun i =>
    (s.missBuffer i 0).address = address ∧ (s.missBuffer i 1).address = address + 0x4 ∧
      (s.missBuffer i 2).address = address + 0x8 ∧ (s.missBuffer i 3).address = address + 0xC

/-- The edge of the clock, for the thread of one core. -/
def clockCs (p : Pinout) : CtrlState → CtrlState
  | .hitNext line ctr => .hitHigh line ctr
  | .hitHigh line ctr => if ctr + 1 < p.burst then .hitNext line (ctr + 1) else .idle
  | cs => cs

def clockReady (ready : Bool) : CtrlState → Bool
  | .hitNext .. => true
  | .hitHigh .. => false
  | _ => ready

def clockPinout (missBuffer : Nat → Nat → Pinout) (pinout : Pinout) : CtrlState → Pinout
  | .hitNext line ctr => missBuffer line ctr
  | _ => pinout

def clock (s : State n) : State n :=
  { s with
    cs := fun i => clockCs (s.pinout i) (s.cs i)
    readyCache := fun i => clockReady (s.readyCache i) (s.cs i)
    pinoutCache := fun i => clockPinout s.missBuffer (s.pinoutCache i) (s.cs i) }

/-- `case IDLE`, and the start of `case MISS`. -/
def request (c : Config) (s : State n) (id : Fin n) (p : Pinout) : State n :=
  match isInMissBuffer c s p.address with
  | some line =>
    { s with
      cs := Function.update s.cs id (.hitNext line 0)
      pinout := Function.update s.pinout id p }
  | none =>
    { s with
      cs := Function.update s.cs id (.missPos 0 false)
      pinout := Function.update s.pinout id p
      requestL3 := Function.update s.requestL3 id true
      pinoutL3 := Function.update s.pinoutL3 id p }

/-- The answer of the L3 memory: the request with the word of the beat. -/
def answer (c : Config) (p : Pinout) (ctr : Nat) : Pinout := { p with data := c.l3 (p.address + 4 * ctr) }

/-- A word is put in the current line of the buffer. -/
def fill (s : State n) (ctr : Nat) (p : Pinout) : Nat → Nat → Pinout :=
  Function.update s.missBuffer s.currBuffLine
    (Function.update (s.missBuffer s.currBuffLine) ctr { p with address := p.address + ctr * 0x4 })

def step (c : Config) (s : State n) : Action n → Option (State n)
  | .clock => some (clock s)
  | .request id p => if s.cs id = .idle ∧ LineRequest p then some (request c s id p) else none
  | .readyPos id =>
    match s.cs id with
    | .missPos ctr _ =>
      let pinoutTemp := answer c (s.pinoutL3 id) ctr
      let fillLine := isInMissBuffer c s (s.pinout id).address = none
      some { s with
        cs := Function.update s.cs id (.missNeg ctr fillLine)
        missBuffer := if fillLine then fill s ctr pinoutTemp else s.missBuffer
        pinoutL3 := Function.update s.pinoutL3 id pinoutTemp
        pinoutCache := Function.update s.pinoutCache id pinoutTemp
        readyCache := Function.update s.readyCache id true }
    | _ => none
  | .readyNeg id =>
    match s.cs id with
    | .missNeg ctr fillLine =>
      let s' := { s with
        requestL3 := Function.update s.requestL3 id false
        readyCache := Function.update s.readyCache id false }
      if ctr + 1 < (s.pinout id).burst then
        some { s' with cs := Function.update s.cs id (.missPos (ctr + 1) fillLine) }
      else
        some { s' with
          cs := Function.update s.cs id .idle
          currBuffLine := if fillLine then (s.currBuffLine + 1) % c.depth else s.currBuffLine }
    | _ => none

/-! ## Streams and refills -/

/-- The beat whose ready is up. -/
def CtrlState.beat : CtrlState → Option Nat
  | .hitHigh _ ctr => some ctr
  | .missNeg ctr _ => some ctr
  | _ => none

/-- The thread has still to deliver the entry. -/
def CtrlState.awaits (line ctr : Nat) : CtrlState → Bool
  | .hitNext l k => l = line ∧ k ≤ ctr
  | .hitHigh l k => l = line ∧ k < ctr
  | _ => false

/-- The entry of the current line that the next beat of the refill is written to, if it is. -/
def fills (c : Config) (s : State n) (id : Fin n) : Option Nat :=
  match s.cs id with
  | .missPos ctr _ => if isInMissBuffer c s (s.pinout id).address = none then some ctr else none
  | _ => none

/-- The step writes no word of another line where a stream has still to read. -/
def Spares (c : Config) (s : State n) : Action n → Prop
  | .readyPos id => ∀ ctr ∈ fills c s id, ∀ j : Fin n, (s.cs j).awaits s.currBuffLine ctr = true →
      (s.pinout j).address = (s.pinout id).address
  | _ => True

instance (c : Config) (s : State n) : ∀ a, Decidable (Spares c s a)
  | .clock => isTrue trivial
  | .request .. => isTrue trivial
  | .readyPos id => inferInstanceAs (Decidable (∀ ctr ∈ fills c s id, _))
  | .readyNeg _ => isTrue trivial

/-- A ready core has the word at its address plus four times the beat. -/
def Answered (c : Config) (s : State n) (id : Fin n) : Prop :=
  s.readyCache id = true → ∃ ctr, (s.cs id).beat = some ctr ∧
    (s.pinoutCache id).data = c.l3 ((s.pinout id).address + 4 * ctr)

/-! ## The invariant -/

/-- An entry of the buffer is as the constructor left it, or has the word of its address. -/
def Entry (c : Config) (p : Pinout) : Prop := p = {} ∨ p.data = c.l3 p.address

/-- The entries of a line, from one on, are those of the request. -/
def Holds (missBuffer : Nat → Nat → Pinout) (line ctr : Nat) (p : Pinout) : Prop :=
  ∀ k, ctr ≤ k → k < LINE_WORDS → (missBuffer line k).address = p.address + 4 * k

/-- What holds where a thread waits: `p` is its request, `pc` and `pl` are its ports. -/
def CtrlOk (c : Config) (missBuffer : Nat → Nat → Pinout) (p pc pl : Pinout) (ready : Bool) : CtrlState → Prop
  | .idle => ready = false
  | .hitNext line ctr => ready = false ∧ LineRequest p ∧ ctr < LINE_WORDS ∧ Holds missBuffer line ctr p
  | .hitHigh line ctr =>
    LineRequest p ∧ pc.data = c.l3 (p.address + 4 * ctr) ∧ Holds missBuffer line (ctr + 1) p
  | .missPos _ _ => ready = false ∧ LineRequest p ∧ pl.address = p.address
  | .missNeg ctr _ => LineRequest p ∧ pc.data = c.l3 (p.address + 4 * ctr) ∧ pl.address = p.address

structure Inv (c : Config) (s : State n) : Prop where
  entry : ∀ line k, Entry c (s.missBuffer line k)
  ctrl : ∀ id, CtrlOk c s.missBuffer (s.pinout id) (s.pinoutCache id) (s.pinoutL3 id) (s.readyCache id) (s.cs id)

variable {c : Config} {s s' : State n} {id : Fin n} {p pc pl : Pinout} {mb mb' : Nat → Nat → Pinout}
  {ready : Bool} {line ctr : Nat}

theorem init_inv (c : Config) : Inv c (init : State n) where
  entry _ _ := Or.inl rfl
  ctrl _ := rfl

/-- The address that the constructor gives is no address of a word of a line. -/
theorem Entry.data_eq (h : Entry c pc) (hp : LineRequest p) (ha : pc.address = p.address + 4 * ctr) :
    pc.data = c.l3 (p.address + 4 * ctr) := by
  rcases h with rfl | h
  · have hinit : (0xDEADBEEF : Nat) = p.address + 4 * ctr := ha
    have := hp.1
    omega
  · rw [h, ha]

theorem isInMissBuffer_some (h : isInMissBuffer c s p.address = some line) : Holds s.missBuffer line 0 p := by
  have hline := List.find?_some h
  obtain ⟨h0, h1, h2, h3⟩ := of_decide_eq_true hline
  intro k _ hk
  unfold LINE_WORDS at hk
  interval_cases k
  · exact h0
  · exact h1
  · exact h2
  · exact h3

/-- A thread does not see a write to an entry that it does not await, nor one of its own line. -/
theorem CtrlOk.fill {cs : CtrlState} (h : CtrlOk c s.missBuffer p pc pl ready cs) {q : Pinout}
    (hspare : cs.awaits s.currBuffLine ctr = true → p.address = q.address) :
    CtrlOk c (fill s ctr q) p pc pl ready cs := by
  have hholds : ∀ line k, Holds s.missBuffer line k p →
      (line = s.currBuffLine → k ≤ ctr → p.address = q.address) → Holds (Cru.fill s ctr q) line k p := by
    intro line k hh hs k' hle hlt
    unfold Cru.fill
    by_cases hline : line = s.currBuffLine
    · rw [hline, Function.update_self]
      by_cases hk : k' = ctr
      · rw [hk, Function.update_self, hs hline (by omega), Nat.mul_comm]
      · rw [Function.update_of_ne hk, ← hline]
        exact hh k' hle hlt
    · rw [Function.update_of_ne hline]
      exact hh k' hle hlt
  cases cs with
  | idle => exact h
  | hitNext line k =>
    obtain ⟨hready, hp, hk, hh⟩ := h
    exact ⟨hready, hp, hk, hholds line k hh fun hl hle => hspare (decide_eq_true ⟨hl, hle⟩)⟩
  | hitHigh line k =>
    obtain ⟨hp, hdata, hh⟩ := h
    exact ⟨hp, hdata, hholds line (k + 1) hh fun hl hle => hspare (decide_eq_true ⟨hl, hle⟩)⟩
  | missPos k f => exact h
  | missNeg k f => exact h

theorem fill_entry (h : ∀ line k, Entry c (s.missBuffer line k)) (p : Pinout) (ctr line k : Nat) :
    Entry c (fill s ctr (answer c p ctr) line k) := by
  unfold fill
  by_cases hline : line = s.currBuffLine
  · rw [hline, Function.update_self]
    by_cases hk : k = ctr
    · rw [hk, Function.update_self]
      right
      change c.l3 (p.address + 4 * ctr) = c.l3 (p.address + ctr * 0x4)
      rw [Nat.mul_comm]
    · rw [Function.update_of_ne hk]
      exact h _ k
  · rw [Function.update_of_ne hline]
    exact h line k

theorem clock_ctrl {cs : CtrlState} (hentry : ∀ line k, Entry c (mb line k))
    (h : CtrlOk c mb p pc pl ready cs) :
    CtrlOk c mb p (clockPinout mb pc cs) pl (clockReady ready cs) (clockCs p cs) := by
  cases cs with
  | idle => exact h
  | hitNext line ctr =>
    obtain ⟨-, hp, hctr, hh⟩ := h
    exact ⟨hp, (hentry line ctr).data_eq hp (hh ctr le_rfl hctr), fun k hk => hh k (by omega)⟩
  | hitHigh line ctr =>
    obtain ⟨hp, -, hh⟩ := h
    unfold clockCs
    dsimp only
    split
    · rename_i hlt
      exact ⟨rfl, hp, by rw [← hp.2.2.2]; exact hlt, hh⟩
    · exact rfl
  | missPos ctr f => exact h
  | missNeg ctr f => exact h

/-- A step of one core that leaves the buffer alone. -/
theorem Inv.core (h : Inv c s) (id : Fin n) (hbuffer : s'.missBuffer = s.missBuffer)
    (hother : ∀ j, j ≠ id → s'.pinout j = s.pinout j ∧ s'.pinoutCache j = s.pinoutCache j ∧
      s'.pinoutL3 j = s.pinoutL3 j ∧ s'.readyCache j = s.readyCache j ∧ s'.cs j = s.cs j)
    (hid : CtrlOk c s.missBuffer (s'.pinout id) (s'.pinoutCache id) (s'.pinoutL3 id) (s'.readyCache id) (s'.cs id)) :
    Inv c s' := by
  refine ⟨fun line k => ?_, fun j => ?_⟩
  · rw [hbuffer]
    exact h.entry line k
  · rw [hbuffer]
    by_cases hj : j = id
    · rw [hj]
      exact hid
    · obtain ⟨hp, hpc, hpl, hready, hcs⟩ := hother j hj
      rw [hp, hpc, hpl, hready, hcs]
      exact h.ctrl j

theorem request_inv (h : Inv c s) (hidle : s.cs id = .idle) (hp : LineRequest p) : Inv c (request c s id p) := by
  have hready : s.readyCache id = false := by
    have := h.ctrl id
    rwa [hidle] at this
  unfold request
  cases hin : isInMissBuffer c s p.address with
  | some line =>
    refine h.core id rfl (fun j hj => by simp [hj]) ?_
    simp only [Function.update_self]
    exact ⟨hready, hp, by decide, isInMissBuffer_some hin⟩
  | none =>
    refine h.core id rfl (fun j hj => by simp [hj]) ?_
    simp only [Function.update_self]
    exact ⟨hready, hp, rfl⟩

theorem readyPos_inv (h : Inv c s) (hspare : Spares c s (.readyPos id)) (hs : step c s (.readyPos id) = some s') :
    Inv c s' := by
  unfold step at hs
  cases hcs : s.cs id with
  | missPos ctr f =>
    have hid := h.ctrl id
    rw [hcs] at hid
    obtain ⟨-, hp, hpl⟩ := hid
    simp only [hcs, Option.some.injEq] at hs
    subst hs
    have hfills : isInMissBuffer c s (s.pinout id).address = none → ctr ∈ fills c s id := by
      intro hnone
      unfold fills
      simp only [hcs, hnone, if_true]
      rfl
    refine ⟨fun line k => ?_, fun j => ?_⟩
    · dsimp only
      split
      · exact fill_entry h.entry _ ctr line k
      · exact h.entry line k
    · by_cases hj : j = id
      · subst hj
        simp only [Function.update_self]
        exact ⟨hp, by rw [← hpl]; rfl, hpl⟩
      · simp only [Function.update_of_ne hj]
        split
        · rename_i hnone
          exact (h.ctrl j).fill fun haw => (hspare ctr (hfills hnone) j haw).trans hpl.symm
        · exact h.ctrl j
  | _ => simp only [hcs, reduceCtorEq] at hs

theorem readyNeg_inv (h : Inv c s) (hs : step c s (.readyNeg id) = some s') : Inv c s' := by
  unfold step at hs
  cases hcs : s.cs id with
  | missNeg ctr f =>
    have hid := h.ctrl id
    rw [hcs] at hid
    obtain ⟨hp, -, hpl⟩ := hid
    simp only [hcs] at hs
    split at hs
    · cases hs
      refine h.core id rfl (fun j hj => by simp [hj]) ?_
      simp only [Function.update_self]
      exact ⟨rfl, hp, hpl⟩
    · cases hs
      refine h.core id rfl (fun j hj => by simp [hj]) ?_
      simp only [Function.update_self]
      exact rfl
  | _ => simp only [hcs, reduceCtorEq] at hs

/-- **One step keeps the invariant**, if it writes no word where a stream has still to read. -/
theorem step_inv {a : Action n} (h : Inv c s) (hspare : Spares c s a) (hs : step c s a = some s') :
    Inv c s' := by
  cases a with
  | clock =>
    cases hs
    exact ⟨h.entry, fun id => clock_ctrl h.entry (h.ctrl id)⟩
  | request id p =>
    obtain ⟨⟨hidle, hp⟩, hs⟩ := Option.ite_none_right_eq_some.1 hs
    cases hs
    exact request_inv h hidle hp
  | readyPos id => exact readyPos_inv h hspare hs
  | readyNeg id => exact readyNeg_inv h hs

theorem CtrlOk.beat {cs : CtrlState} (h : CtrlOk c mb p pc pl true cs) :
    ∃ ctr, cs.beat = some ctr ∧ pc.data = c.l3 (p.address + 4 * ctr) := by
  cases cs with
  | idle => cases h
  | hitNext line ctr => cases h.1
  | hitHigh line ctr => exact ⟨ctr, rfl, h.2.1⟩
  | missPos ctr f => cases h.1
  | missNeg ctr f => exact ⟨ctr, rfl, h.2.1⟩

/-- **Every beat is right** in a run in which no refill writes a word of another line where a stream has
still to read: in every state, a ready core has the word at its address plus four times the beat. -/
theorem cru_beats (c : Config) {as : List (Action n)} {s : State n}
    (hC : Trans.Along (step c) (Spares c) init as) (hr : Trans.run (step c) init as = some s) :
    ∀ id, Answered c s id := by
  have hI : Inv c s :=
    Trans.run_inv_along (Inv c) (fun s a t h hspare hs => step_inv h hspare hs) (init_inv c) hC hr
  intro id hready
  have hid := hI.ctrl id
  rw [hready] at hid
  exact hid.beat

/-! Three cores and a buffer of two lines. -/

def twoLines : Config where
  depth := 2
  l3 := fun address => UInt32.ofNat address
  depth_pos := Nat.zero_lt_two

def core0 : Fin 3 := ⟨0, by decide⟩

def core1 : Fin 3 := ⟨1, by decide⟩

def core2 : Fin 3 := ⟨2, by decide⟩

def lineAt (address : Nat) : Pinout := { address := address, burst := LINE_WORDS }

/-- One beat of a refill: the edges of its ready come at two edges of the clock. -/
def beat (id : Fin 3) : List (Action 3) := [.clock, .readyPos id, .clock, .readyNeg id]

/-- Core 0 fills the two lines; then it begins a refill of the first. -/
def begun : List (Action 3) :=
  [.request core0 (lineAt 0x100)] ++ beat core0 ++ beat core0 ++ beat core0 ++ beat core0 ++
    [.request core0 (lineAt 0x200)] ++ beat core0 ++ beat core0 ++ beat core0 ++ beat core0 ++
    [.request core0 (lineAt 0x300)] ++ beat core0 ++ beat core0

/-- Core 2 streams the second line while the refill of the first goes on. -/
def streamed : List (Action 3) :=
  begun ++ [.request core2 (lineAt 0x200)] ++ beat core0 ++ beat core0 ++ [.clock]

/-- Before that, a refill of core 1 ends in the first line, so core 0 goes on in the second. -/
def moved : List (Action 3) :=
  begun ++ [.request core1 (lineAt 0x400)] ++ beat core1 ++ beat core1 ++ beat core1 ++ beat core1 ++
    [.request core2 (lineAt 0x200)] ++ beat core0 ++ [.clock, .clock, .clock]

theorem streamed_isSome : (Trans.run (step twoLines) init streamed).isSome := by decide +kernel

theorem cru_beats_streamed :
    ((Trans.run (step twoLines) init streamed).get streamed_isSome).readyCache core2 = true ∧
      Answered twoLines ((Trans.run (step twoLines) init streamed).get streamed_isSome) core2 :=
  ⟨by decide +kernel, cru_beats twoLines (by decide +kernel) (Option.some_get streamed_isSome).symm core2⟩

theorem moved_isSome : (Trans.run (step twoLines) init moved).isSome := by decide +kernel

/-- The third beat of core 2 is the word at 0x308. -/
theorem not_answered_moved :
    ¬ ∀ (as : List (Action 3)) (s : State 3), Trans.run (step twoLines) init as = some s →
      ∀ id, Answered twoLines s id := by
  intro h
  obtain ⟨ctr, hctr, hdata⟩ := h moved _ (Option.some_get moved_isSome).symm core2 (by decide +kernel)
  have hbeat : (((Trans.run (step twoLines) init moved).get moved_isSome).cs core2).beat = some 2 := by
    decide +kernel
  rw [hbeat] at hctr
  cases hctr
  exact absurd hdata (by decide +kernel)

end VirtualSoc.Cru
