import VirtualSoc.Cluster.HwsHold
import VirtualSoc.Cluster.HwsPort

/-!
# The mask width of an event (cluster/cl_hws.cpp)

An ask says whether the masks of the event are of 16 bits, one word, or of 64, two words. The machine keeps
one `mask_type` for the core, that of its last ask, and takes the words of every release by it; so a release
honours its event if the core has asked with no other width since (`honours_iff`). The first word of two is kept
in the signal `mask` of the event, where `notify`, `signal` and other machines may overwrite it before the
second comes.

`Widths` is a history beside the system: the width of the last ask of the core, the width with which it
obtained each event, and the first word of its last release.
-/

namespace VirtualSoc.Hws

variable {p q : Nat}

/-- The request of the core on the programming ports. -/
def heard (prg : Fin p → Option Request) (core : Core) : Option Request :=
  (List.finRange p).findSome? fun port => (prg port).filter fun var => var.id == core.val

structure Widths where
  asked : Nat := 0
  width : Event → Nat := fun _ => 0
  first : Nat := 0

def Widths.next (core : Core) (s : State p q) (a : Edge p q) (g : Widths) : Widths :=
  match heard a.prg core with
  | none => g
  | some var =>
    match (s.prog core).state with
    | .askEvent => { g with asked := byte var.data 3 }
    | .waitEvent => { g with width := fun e => if freeEvent s = some e then g.asked else g.width e }
    | .releaseOrFreeEvent => { g with first := var.data.toNat }
    | _ => g

/-- The writes wake the slaves of the mask for the event, and nobody else. -/
def WakesFor (cfg : Config) (ws : List (Write p q)) (e : Event) (maskVar : Nat) : Prop :=
  ∀ i c, .wake i c ∈ ws ↔ i = e ∧ c.val < cfg.nSlaves ∧ maskVar.testBit c.val = true

section Release

variable (cfg : Config) (core : Core)

/-- The core writes a word while its machine manages the event. -/
structure Word (x : State p q × Widths) (a : Edge p q) (port : Fin p) (var : Request) (e : Event) : Prop where
  alone : Alone a.prg core port var
  write : var.rw = true
  managing : (x.1.prog core).evManaging = some e

/-- A release takes one word and wakes its 16 bits if the event was obtained with width 1. With width 2 it takes
a second word, wakes nobody at the first, and wakes the 64 bits of both at the second. -/
def Honours (x : State p q × Widths) (a : Edge p q) : Prop :=
  ∀ port var e m' ws, Word core x a port var e →
    machineStep (q := q) cfg x.1 a.prg core (x.1.prog core) = some (m', ws) →
      ((x.1.prog core).state = .releaseOrFreeEvent →
        (x.2.width e = 1 → m'.nextNext = .requestType ∧ WakesFor cfg ws e (var.data.toNat % 2 ^ 16)) ∧
          (x.2.width e = 2 → m'.nextNext = .releaseEvent ∧ WakesFor cfg ws e 0)) ∧
        ((x.1.prog core).state = .releaseEvent →
          m'.state = .releaseAcc ∧ WakesFor cfg ws e (x.2.first ||| var.data.toNat <<< 32))

/-- The last ask of the core had the width of the event that it releases, and at the second word the mask of the
event still has the first one, as far as there are slaves. -/
def SameWidth (x : State p q × Widths) (a : Edge p q) : Prop :=
  ∀ port var e, Word core x a port var e →
    ((x.1.prog core).state = .releaseOrFreeEvent → x.2.asked = x.2.width e) ∧
      ((x.1.prog core).state = .releaseEvent →
        ∀ c : Core, c.val < cfg.nSlaves → (x.1.mask e).testBit c.val = x.2.first.testBit c.val)

end Release

variable {cfg : Config} {s t : State p q} {a : Edge p q} {prg : Fin p → Option Request} {core : Core} {port : Fin p}
  {var : Request} {m m' : Machine p} {ws : List (Write p q)} {e : Event} {x y : State p q × Widths}

/-! ## What a word does -/

theorem mem_wakes {maskVar : Nat} {i : Event} {c : Core} : .wake i c ∈ (wakes cfg e maskVar : List (Write p q)) ↔
    i = e ∧ c.val < cfg.nSlaves ∧ maskVar.testBit c.val = true := by
  simp only [wakes, List.mem_map, List.mem_filter, List.mem_finRange, true_and, Bool.and_eq_true, decide_eq_true_eq,
    Write.wake.injEq]
  constructor
  · rintro ⟨d, hd, rfl, rfl⟩
    exact ⟨rfl, hd⟩
  · rintro ⟨rfl, hc⟩
    exact ⟨c, hc, rfl, rfl⟩

theorem release_wakes (maskVar : Nat) :
    WakesFor cfg (release cfg core e maskVar ++ [.prRdy port true] : List (Write p q)) e maskVar := by
  intro i c
  simp [release, mem_wakes]

theorem WakesFor.cons {w : Write p q} {maskVar : Nat} (h : WakesFor cfg ws e maskVar) (hw : ∀ i c, w ≠ .wake i c) :
    WakesFor cfg (w :: ws) e maskVar := by
  intro i c
  rw [List.mem_cons, ← h i c]
  exact or_iff_right fun heq => hw i c heq.symm

theorem WakesFor.none (h : ∀ w ∈ ws, ∀ i c, w ≠ .wake i c) : WakesFor cfg ws e 0 := by
  intro i c
  refine iff_of_false (fun hw => h _ hw i c rfl) ?_
  rintro ⟨-, -, hbit⟩
  rw [Nat.zero_testBit] at hbit
  cases hbit

/-- The same writes wake two masks if they agree on the slaves. -/
theorem WakesFor.congr_iff {maskVar maskVar' : Nat} (h : WakesFor cfg ws e maskVar) :
    WakesFor cfg ws e maskVar' ↔
      ∀ c : Core, c.val < cfg.nSlaves → maskVar.testBit c.val = maskVar'.testBit c.val := by
  constructor
  · intro h' c hc
    have hiff := (h e c).symm.trans (h' e c)
    simp only [true_and, hc] at hiff
    exact Bool.eq_iff_iff.2 hiff
  · intro heq i c
    rw [h i c]
    refine and_congr_right fun _ => and_congr_right fun hc => ?_
    rw [heq c hc]

/-- The first word: the width that the machine remembers decides. -/
theorem releaseOrFree_word (he : m.evManaging = some e) (hrw : var.rw = true)
    (h : releaseOrFree cfg core m port var = some (m', ws)) :
    (m.maskType = 1 ∧ m'.nextNext = .requestType ∧ WakesFor cfg ws e (var.data.toNat % 2 ^ 16)) ∨
      m.maskType = 2 ∧ m'.nextNext = .releaseEvent ∧ WakesFor cfg ws e 0 := by
  obtain ⟨i, hi, ⟨-, h1, rfl, rfl⟩ | ⟨-, h2, rfl, rfl⟩ | ⟨hread, -⟩⟩ := releaseOrFree_cases h
  · obtain rfl : i = e := Option.some.inj (hi.symm.trans he)
    exact .inl ⟨h1, rfl, (release_wakes _).cons nofun⟩
  · exact .inr ⟨h2, rfl, WakesFor.none (by simp)⟩
  · rw [hrw] at hread
    cases hread

theorem releaseEvent_word (he : m.evManaging = some e)
    (h : releaseEvent cfg s core m port var = some (m', ws)) :
    m'.state = .releaseAcc ∧ WakesFor cfg ws e (s.mask e &&& 0xFFFFFFFF ||| var.data.toNat <<< 32) := by
  obtain ⟨i, hi, -, rfl, rfl⟩ := releaseEvent_cases h
  obtain rfl : i = e := Option.some.inj (hi.symm.trans he)
  exact ⟨rfl, release_wakes _⟩

/-- The slaves are in the first word. -/
theorem low_testBit (v w : Nat) (c : Core) :
    (v ||| w <<< 32).testBit c.val = v.testBit c.val ∧ (v &&& 0xFFFFFFFF).testBit c.val = v.testBit c.val := by
  have hc : c.val < 16 := c.isLt
  constructor
  · rw [Nat.testBit_or, Nat.testBit_shiftLeft]
    simp
    omega
  · rw [show (0xFFFFFFFF : Nat) = 2 ^ 32 - 1 from rfl, Nat.testBit_and, Nat.testBit_two_pow_sub_one]
    simp
    omega

/-! ## What the machine remembers -/

/-- 16 bits or 64 bits. -/
def IsType (n : Nat) : Prop := n = 1 ∨ n = 2

/-- From the ask to the end of its answer. -/
def ProgramState.awaits : ProgramState → Bool
  | .askAcc | .waitEvent | .waitAcc => true
  | _ => false

/-- The machine remembers the width of the last ask; the events that it lists were obtained with a width. -/
structure Remembers (m : Machine p) (g : Widths) : Prop where
  type : m.maskType = g.asked
  next : m.nextNext.awaits = false
  waits : m.state.awaits = true → IsType g.asked
  listed : ∀ slot e, m.ev slot = some e → IsType (g.width e)
  managed : ∀ e, m.evManaging = some e → IsType (g.width e)

theorem init_remembers : Remembers ((init : State p q).prog core) {} where
  type := rfl
  next := rfl
  waits := nofun
  listed := nofun
  managed := nofun

theorem heard_silent (h : Silent prg core) : heard prg core = none := by
  rw [heard, List.findSome?_eq_none_iff]
  intro port _
  rw [Option.filter_eq_none_iff]
  intro var hvar hid
  exact h port var hvar (beq_iff_eq.1 hid)

theorem heard_alone (h : Alone prg core port var) : heard prg core = some var := by
  cases hh : heard prg core with
  | none =>
    have hno := List.findSome?_eq_none_iff.1 hh port (List.mem_finRange port)
    simp [h.here, h.own] at hno
  | some var' =>
    obtain ⟨port', -, hf⟩ := List.exists_of_findSome?_eq_some hh
    obtain ⟨hvar', hid⟩ := Option.filter_eq_some_iff.1 hf
    obtain rfl := h.only port' var' hvar' (beq_iff_eq.1 hid)
    exact congrArg some (Option.some.inj (hvar'.symm.trans h.here))

/-- An acknowledgement changes no more than the state. -/
theorem Remembers.acknowledged {g : Widths} (h : Remembers m g) :
    Remembers { m with state := m.acknowledged } g where
  type := h.type
  next := h.next
  waits := by
    intro hw
    have hnext := h.next
    simp only [Machine.acknowledged] at hw
    cases hs : m.state <;> rw [hs] at hw <;> simp only [] at hw
    case askAcc | waitAcc => exact h.waits (by rw [hs]; rfl)
    case requestAcc | releaseOrFreeAcc =>
      rw [hnext] at hw
      cases hw
    all_goals cases hw
  listed := h.listed
  managed := h.managed

/-- A request that asks for nothing: the list only shrinks, and what is managed was listed. -/
theorem Remembers.of_same {g g' : Widths} (h : Remembers m g) (ha : g'.asked = g.asked) (hw : g'.width = g.width)
    (ht : m'.maskType = m.maskType) (hn : m'.nextNext.awaits = false) (hs : m'.state.awaits = false)
    (hev : ∀ slot e, m'.ev slot = some e → m.ev slot = some e)
    (hman : ∀ e, m'.evManaging = some e → m.evManaging = some e ∨ ∃ slot, m.ev slot = some e) : Remembers m' g' where
  type := by rw [ht, ha, h.type]
  next := hn
  waits := by
    intro h'
    rw [hs] at h'
    cases h'
  listed := by
    intro slot e he
    rw [hw]
    exact h.listed slot e (hev slot e he)
  managed := by
    intro e he
    rw [hw]
    rcases hman e he with hm | ⟨slot, hslot⟩
    · exact h.managed e hm
    · exact h.listed slot e hslot

theorem Remembers.requestType {g : Widths} (h : Remembers m g) (hr : requestType core m port var = some (m', ws)) :
    Remembers m' g := by
  obtain ⟨next, hnext, rfl, -⟩ := requestType_cases hr
  refine h.of_same rfl rfl rfl ?_ rfl (fun _ _ => id) fun _ => .inl
  obtain rfl | rfl := hnext
  · rfl
  · rfl

theorem Remembers.askEvent {g : Widths} (h : Remembers m g) (hr : askEvent core m port var = some (m', ws)) :
    Remembers m' { g with asked := byte var.data 3 } := by
  obtain ⟨htype, rfl, -⟩ := askEvent_cases hr
  exact ⟨rfl, h.next, fun _ => htype, h.listed, h.managed⟩

theorem Remembers.waitEvent {g : Widths} (h : Remembers m g) (hst : m.state = .waitEvent)
    (hr : waitEvent s core m port var = some (m', ws)) :
    Remembers m' { g with width := fun e => if freeEvent s = some e then g.asked else g.width e } := by
  have hasked : IsType g.asked := h.waits (by rw [hst]; rfl)
  have hwidth : ∀ e, IsType (g.width e) → IsType (if freeEvent s = some e then g.asked else g.width e) := by
    intro e he
    split
    · exact hasked
    · exact he
  obtain ⟨slot, -, ⟨i, hi, rfl, -⟩ | ⟨-, rfl, -⟩⟩ := waitEvent_cases hr
  · refine ⟨h.type, h.next, fun _ => hasked, fun slot' e he => ?_, fun e he => hwidth e (h.managed e he)⟩
    -- the new entry is the free event, the others keep their width or become it
    by_cases hs' : slot' = slot
    · simp only [hs', Function.update_self, Option.some.injEq] at he
      rw [he] at hi
      simp only [hi, if_true]
      exact hasked
    · simp only [Function.update_of_ne hs'] at he
      exact hwidth e (h.listed slot' e he)
  · exact ⟨h.type, h.next, fun _ => hasked, fun slot' e he => hwidth e (h.listed slot' e he),
      fun e he => hwidth e (h.managed e he)⟩

theorem Remembers.manageEvent {g : Widths} (h : Remembers m g) (hr : manageEvent core m port var = some (m', ws)) :
    Remembers m' g := by
  obtain ⟨i, slot, hslot, rfl, -⟩ := manageEvent_cases hr
  refine h.of_same rfl rfl rfl h.next rfl (fun _ _ => id) fun e he => .inr ⟨slot, ?_⟩
  rw [hslot, ← he]

theorem Remembers.releaseOrFree {g : Widths} {n : Nat} (h : Remembers m g)
    (hr : releaseOrFree cfg core m port var = some (m', ws)) : Remembers m' { g with first := n } := by
  obtain ⟨i, -, ⟨-, -, rfl, -⟩ | ⟨-, -, rfl, -⟩ | ⟨-, slot, -, rfl, -⟩⟩ := releaseOrFree_cases hr
  · exact h.of_same rfl rfl rfl rfl rfl (fun _ _ => id) fun _ => .inl
  · exact h.of_same rfl rfl rfl rfl rfl (fun _ _ => id) fun _ => .inl
  · refine h.of_same rfl rfl rfl rfl rfl (fun slot' e he => ?_) fun _ => .inl
    by_cases hs' : slot' = slot
    · simp [hs'] at he
    · simpa [Function.update_of_ne hs'] using he

theorem Remembers.releaseEvent {g : Widths} (h : Remembers m g)
    (hr : releaseEvent cfg s core m port var = some (m', ws)) : Remembers m' g := by
  obtain ⟨-, -, -, rfl, -⟩ := releaseEvent_cases hr
  exact h.of_same rfl rfl rfl h.next rfl (fun _ _ => id) fun _ => .inl

/-- **One edge**: the machine keeps remembering the last ask. -/
theorem remembers_step {g : Widths} (hone : OnePort a.prg core) (h : Remembers (s.prog core) g)
    (hm : machineStep cfg s a.prg core (s.prog core) = some (m', ws)) : Remembers m' (Widths.next core s a g) := by
  rcases machineStep_cases hone hm with ⟨-, hsilent, rfl, -⟩ | ⟨ht, port, var, halone, hserve⟩ | ⟨ht, rfl⟩
  · rw [Widths.next, heard_silent hsilent]
    exact h
  · rw [Widths.next, heard_alone halone]
    unfold serve at hserve
    cases hst : (s.prog core).state <;> rw [hst] at hserve ht <;> simp only [] at hserve ⊢
    case requestType => exact h.requestType hserve
    case askEvent => exact h.askEvent hserve
    case waitEvent => exact h.waitEvent hst hserve
    case manageEvent => exact h.manageEvent hserve
    case releaseOrFreeEvent => exact h.releaseOrFree hserve
    case releaseEvent => exact h.releaseEvent hserve
    all_goals cases ht
  · have hnext : Widths.next core s a g = g := by
      unfold Widths.next
      cases heard a.prg core with
      | none => rfl
      | some var => cases hst : (s.prog core).state <;> first | rfl | (rw [hst] at ht; cases ht)
    rw [hnext]
    exact h.acknowledged

/-! ## The releases of a run -/

/-- **One edge**: a release honours its event if the machine remembers the width of that event, and, at the second
word, if the mask has not been overwritten. -/
theorem honours_iff (h : Remembers (x.1.prog core) x.2) (hs : step cfg x.1 a = some t) :
    Honours cfg core x a ↔ SameWidth cfg core x a := by
  have hm := step_machine hs core
  constructor
  · intro hhon port var e hword
    obtain ⟨hfree, hsecond⟩ := hhon port var e _ _ hword hm
    have hserve := hm
    constructor
    · intro hst
      rw [machineStep_alone hword.alone (by rw [hst]; rfl), serve, hst] at hserve
      rcases releaseOrFree_word hword.managing hword.write hserve with ⟨ht, hnext, -⟩ | ⟨ht, hnext, -⟩
      · rcases h.managed e hword.managing with hw | hw
        · rw [← h.type, ht, hw]
        · rw [((hfree hst).2 hw).1] at hnext
          cases hnext
      · rcases h.managed e hword.managing with hw | hw
        · rw [((hfree hst).1 hw).1] at hnext
          cases hnext
        · rw [← h.type, ht, hw]
    · intro hst c hc
      rw [machineStep_alone hword.alone (by rw [hst]; rfl), serve, hst] at hserve
      have hbit := ((releaseEvent_word hword.managing hserve).2.congr_iff).1 (hsecond hst).2 c hc
      rw [(low_testBit _ _ c).1, (low_testBit _ 0 c).2, (low_testBit _ _ c).1] at hbit
      exact hbit
  · intro hsame port var e m' ws hword hm'
    obtain ⟨hfree, hsecond⟩ := hsame port var e hword
    constructor
    · intro hst
      rw [machineStep_alone hword.alone (by rw [hst]; rfl), serve, hst] at hm'
      have hasked := hfree hst
      rw [← h.type] at hasked
      rcases releaseOrFree_word hword.managing hword.write hm' with ⟨ht, hdone⟩ | ⟨ht, hdone⟩
      · refine ⟨fun _ => hdone, fun hw => ?_⟩
        omega
      · refine ⟨fun hw => ?_, fun _ => hdone⟩
        omega
    · intro hst
      rw [machineStep_alone hword.alone (by rw [hst]; rfl), serve, hst] at hm'
      obtain ⟨hacc, hwakes⟩ := releaseEvent_word hword.managing hm'
      refine ⟨hacc, hwakes.congr_iff.2 fun c hc => ?_⟩
      rw [(low_testBit _ _ c).1, (low_testBit _ 0 c).2, (low_testBit _ _ c).1]
      exact hsecond hst c hc

/-- **The releases of a run**: all of them honour their events exactly if, at each release, the core has last asked
with the width of the event, and the mask still has the first word when the second comes. -/
theorem releases_honour_iff {as : List (Edge p q)} (hone : ∀ a ∈ as, OnePort a.prg core)
    (hr : Trans.run (Trans.withHistory (step cfg) (Widths.next core)) (init, {}) as = some y) :
    Trans.Along (Trans.withHistory (step cfg) (Widths.next core)) (Honours cfg core) (init, {}) as ↔
      Trans.Along (Trans.withHistory (step cfg) (Widths.next core)) (SameWidth cfg core) (init, {}) as := by
  refine Trans.along_congr_of_run (E := fun _ a => OnePort a.prg core)
    (fun x : State p q × Widths => Remembers (x.1.prog core) x.2) ?_ ?_ init_remembers
    (Trans.along_of_forall hone _) hr
  · intro x a y h hport hs
    obtain ⟨hs, hy⟩ := Trans.withHistory_some.1 hs
    rw [hy]
    exact remembers_step hport h (step_machine hs core)
  · intro x a y h _ hs
    exact honours_iff h (Trans.withHistory_some.1 hs).1

/-! Core 0 obtains event 0 with 16-bit masks and event 1 with 64-bit masks, and releases the one before it asks for
the other, or after. -/

/-- The words of core 0, one at every other edge. -/
def wordEdges (words : List Request) : List (Edge 1 1) :=
  words.flatMap fun var => [some var, none].map (programmeEdge [.signal, .programme, .notify])

/-- `fourthByte` is the width. -/
def askWords (fourthByte : UInt32) : List Request := [⟨0, true, 0⟩, ⟨0, true, fourthByte <<< 24⟩, ⟨0, false, 0⟩]

def manageWords (ev : UInt32) : List Request := [⟨0, true, 1⟩, ⟨0, true, ev⟩]

/-- The mask of event 0 is `{1, 2}`, that of event 1 is `{3}`. -/
def releaseInTurn : List (Edge 1 1) :=
  wordEdges (askWords 1 ++ manageWords 0 ++ [⟨0, true, 6⟩] ++ askWords 2 ++ manageWords 1 ++
    [⟨0, true, 8⟩, ⟨0, true, 0⟩])

def askTwice : List (Edge 1 1) := wordEdges (askWords 1 ++ askWords 2 ++ manageWords 0)

def releaseAfterAsk : Edge 1 1 := programmeEdge [.signal, .programme, .notify] (some ⟨0, true, 6⟩)

/-- Whatever the core sends. -/
theorem sameWidth_of (h : ∀ e, (x.1.prog core).evManaging = some e →
    ((x.1.prog core).state = .releaseOrFreeEvent → x.2.asked = x.2.width e) ∧
      ((x.1.prog core).state = .releaseEvent →
        ∀ c : Core, c.val < cfg.nSlaves → (x.1.mask e).testBit c.val = x.2.first.testBit c.val)) :
    SameWidth cfg core x a :=
  fun _ _ e hword => h e hword.managing

theorem onePort_one (prg : Fin 1 → Option Request) : OnePort prg core := fun _ _ _ _ => Subsingleton.elim _ _

theorem releaseInTurn_runs :
    (Trans.run (Trans.withHistory (step ⟨16⟩) (Widths.next core0)) (init, {}) releaseInTurn).isSome = true := by
  decide +kernel

theorem releases_honour_inTurn :
    Trans.Along (Trans.withHistory (step ⟨16⟩) (Widths.next core0)) (Honours ⟨16⟩ core0) (init, {}) releaseInTurn :=
  (releases_honour_iff (fun a _ => onePort_one a.prg) (Option.some_get releaseInTurn_runs).symm).2
    (Trans.Along.mono (fun _ _ => sameWidth_of) (by decide +kernel))

/-- The machine waits for a second word, and event 0 was obtained with width 1. -/
theorem releaseAfterAsk_waits :
    ((Trans.run (Trans.withHistory (step ⟨16⟩) (Widths.next core0)) (init, {}) askTwice).map fun x =>
      ((x.1.prog core0).state, (x.1.prog core0).evManaging, x.2.width event0,
        (machineStep ⟨16⟩ x.1 releaseAfterAsk.prg core0 (x.1.prog core0)).map (·.1.nextNext))) =
      some (.releaseOrFreeEvent, some event0, 1, some .releaseEvent) := by
  decide +kernel

/-- **The width of another event**: the one word of the release of event 0 is not the whole of it. -/
theorem not_honours_afterAsk :
    ¬ Trans.Along (Trans.withHistory (step ⟨16⟩) (Widths.next core0)) (Honours ⟨16⟩ core0) (init, {})
      (askTwice ++ [releaseAfterAsk]) := by
  intro h
  obtain ⟨x, hx, hwaits⟩ := Option.map_eq_some_iff.1 releaseAfterAsk_waits
  simp only [Prod.mk.injEq, Option.map_eq_some_iff] at hwaits
  obtain ⟨hstate, hmanaging, hwidth, ⟨m', ws⟩, hm, hnext⟩ := hwaits
  have hword : Word core0 x releaseAfterAsk (Fin.last 0) ⟨0, true, 6⟩ event0 :=
    ⟨⟨rfl, rfl, fun _ _ _ _ => Subsingleton.elim _ _⟩, rfl, hmanaging⟩
  have hone := (((Trans.along_append hx h).2.1 _ _ _ _ _ hword hm).1 hstate).1 hwidth
  rw [hone.1] at hnext
  cases hnext

end VirtualSoc.Hws
