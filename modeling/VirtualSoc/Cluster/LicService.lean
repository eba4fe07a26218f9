import Mathlib.Data.Finset.Card
import Mathlib.Data.Fintype.Basic
import VirtualSoc.Cluster.LicTas

/-!
# Exactly-once service through the local interconnect (cluster/cl_lic.cpp)

What a core may see of its request is a small automaton: a read gets one ready pulse from the bank of
its address, a write is put into that bank once and then gets one, and the request is over at the end
of the pulse. `served_once`: the trace of every run is one of this automaton, and after each run of the
arbiter a bank that is free has nobody in `req_table` and nobody in `idc_fsm`. `answerable`: nobody is
forgotten, a request that is not over is answered by what its bank and the clock do next.
-/

namespace VirtualSoc.Lic

variable {n m : Nat} {cfg : Config} {s t : State n m} {i j : Fin m} {k : Fin n}

namespace Service

/-! ## The service automaton -/

/-- What happens to requests: `write ks i p` is a write access of bank `i` with `p` on its pinout, for
the cores `ks`; `ready` and `done` are the two edges of a ready pulse. -/
inductive Event (n m : Nat)
  | request (k : Fin n) (p : Pinout)
  | write (ks : List (Fin n)) (i : Fin m) (p : Pinout)
  | ready (k : Fin n) (i : Fin m)
  | done (k : Fin n)
deriving DecidableEq

/-- How far a core is with its request. -/
inductive Stage | idle | asked (p : Pinout) | written (p : Pinout) | acked (p : Pinout)
deriving DecidableEq

abbrev Stages (n : Nat) := Fin n → Stage

/-- The bank of a request. -/
def bankOf (p : Pinout) (i : Fin m) : Prop := getTcdmBankId m p.address = i

instance (p : Pinout) (i : Fin m) : Decidable (bankOf p i) := inferInstanceAs (Decidable (_ = _))

/-- A write is put into its bank once, for its core alone and as the core asked for it, before its
pulse; there is one pulse, from the bank of the address; the request is over after it. -/
def service (v : Stages n) : Event n m → Option (Stages n)
  | .request k p => if v k = .idle then some (Function.update v k (.asked p)) else none
  | .write ks i p =>
    match ks with
    | [k] =>
      if v k = .asked p ∧ p.rw = true ∧ bankOf p i then some (Function.update v k (.written p)) else none
    | _ => none
  | .ready k i =>
    match v k with
    | .asked p => if p.rw = false ∧ bankOf p i then some (Function.update v k (.acked p)) else none
    | .written p => if bankOf p i then some (Function.update v k (.acked p)) else none
    | _ => none
  | .done k =>
    match v k with
    | .acked _ => some (Function.update v k .idle)
    | _ => none

/-- The cores whose ready pulse begins (cl_lic.cpp:275, :356 and :434). -/
def pulsed (s : State n m) (i : Fin m) : List (Fin n) :=
  match s.cs i with
  | .readPos | .writePos | .tasPos2 _ => group s i
  | _ => []

/-- The write access a rising ready edge tells of; that of a test-and-set belongs to its read. -/
def written (s : State n m) (i : Fin m) : List (Event n m) :=
  match s.cs i with
  | .tasPos2 _ => []
  | _ => if (s.pinoutSlave i).rw then [.write (group s i) i (s.pinoutSlave i)] else []

/-- The cores whose ready pulse ends (cl_lic.cpp:285, :364 and :446). -/
def lowered (s : State n m) (i : Fin m) : List (Fin n) :=
  match s.cs i with
  | .readNeg | .writeNeg | .tasNeg2 => group s i
  | _ => []

def seenBy (s : State n m) : Action n m → List (Event n m)
  | .clock => []
  | .raise k p => [.request k p]
  | .rise i => written s i ++ (pulsed s i).map fun k => .ready k i
  | .fall i => (lowered s i).map .done

/-- Events of different cores, each of which can follow. -/
theorem run_each {v : Stages n} {f : Fin n → Event n m} {g : Fin n → Stage} {ks : List (Fin n)} (hnd : ks.Nodup)
    (hf : ∀ k ∈ ks, ∀ u : Stages n, u k = v k → service u (f k) = some (Function.update u k (g k))) :
    Trans.run service v (ks.map f) = some fun k => if k ∈ ks then g k else v k := by
  suffices h : ∀ u : Stages n, (∀ k ∈ ks, u k = v k) →
      Trans.run service u (ks.map f) = some fun k => if k ∈ ks then g k else u k from h v fun _ _ => rfl
  induction ks with
  | nil => intro u _; simp
  | cons k ks ih =>
    intro u hu
    obtain ⟨hk, hnd⟩ := List.nodup_cons.1 hnd
    have hrest := ih hnd (fun l hl => hf l (List.mem_cons_of_mem k hl)) (Function.update u k (g k)) fun l hl => by
      have hlk : l ≠ k := fun h => hk (h ▸ hl)
      rw [Function.update_of_ne hlk]
      exact hu l (List.mem_cons_of_mem k hl)
    refine Trans.run_cons.2 ⟨_, hf k (by simp) u (hu k (by simp)), hrest.trans (congrArg some (funext fun l => ?_))⟩
    by_cases hlk : l = k
    · subst hlk; simp [hk]
    · simp [hlk]

theorem mem_group : k ∈ group s i ↔ s.idcFsm i k = true := by simp [group]

theorem group_nodup (s : State n m) (i : Fin m) : (group s i).Nodup := (List.nodup_finRange n).filter _

end Service

/-! ## The ready lines -/

/-- The fsm holds the ready lines of its group up. -/
def CtrlState.acks : CtrlState → Bool
  | .readNeg | .writeNeg | .tasNeg2 => true
  | .idle | .readPos | .writePos | .tasPos | .tasNeg _ | .tasPos2 _ => false

/-- The fsm is on its way through a test-and-set and has not answered. -/
def CtrlState.testing : CtrlState → Bool
  | .tasPos | .tasNeg _ | .tasPos2 _ => true
  | .idle | .readPos | .readNeg | .writePos | .writeNeg | .tasNeg2 => false

/-- The ready lines follow the fsm that serves the core; a test-and-set serves reads, and a write is
alone. -/
structure Lines (s : State n m) : Prop where
  ack : ∀ i k, s.idcFsm i k = true → s.readyCore k = (s.cs i).acks
  quiet : ∀ k, s.served k = false → s.readyCore k = false
  reads : ∀ i k, (s.cs i).testing = true → s.idcFsm i k = true → (s.pinoutCore k).rw = false
  alone : ∀ i k l, s.cs i = .writePos → s.idcFsm i k = true → s.idcFsm i l = true → k = l

theorem init_lines (mem : Fin m → MemClass) : Lines (init mem : State n m) :=
  ⟨fun _ _ hk => (by cases hk), fun _ _ => rfl, fun _ _ _ hk => (by cases hk), fun _ _ _ _ hk => (by cases hk)⟩

/-- A core that enters a group at a clock edge had no ready pulse, and its bank was at rest. -/
theorem clock_group (h : Inv s) (hk : idcAfter cfg s i k = true) :
    s.idcFsm i k = true ∧ s.cs i ≠ .idle ∧ wakes s (arbiter cfg s) i = false ∨
      s.cs i = .idle ∧ wakes s (arbiter cfg s) i = true ∧ s.served k = false := by
  by_cases hc : s.cs i = .idle
  · obtain ⟨g, -, ht, hs, -⟩ := idcAfter_idle h hc hk
    exact Or.inr ⟨hc, (wakes_iff h).2 ⟨hc, k, ht⟩, hs⟩
  · rw [idcAfter_of_busy h (h.busy i hc).busy] at hk
    exact Or.inl ⟨hk, hc, wakes_of_busy h hc⟩

theorem clock_lines (h : Inv s) (hL : Lines s) : Lines (idleWake s (arbiter cfg s)) := by
  have hrw : ∀ i, wakes s (arbiter cfg s) i = true → ∀ k, idcAfter cfg s i k = true →
      ((idleWake s (arbiter cfg s)).cs i = .writePos ∧ grant cfg s i = some k) ∨
      (((idleWake s (arbiter cfg s)).cs i = .tasPos ∨ (idleWake s (arbiter cfg s)).cs i = .readPos) ∧
        (s.pinoutCore k).rw = false) := by
    intro i hw k hk
    have hc := ((wakes_iff h).1 hw).1
    have hB : Busy (idleWake s (arbiter cfg s)) i := clock_busy_wake h hw
    have hmode := hB.mode
    obtain ⟨g, l, hg, hl, hlead, -, hr⟩ := leaderPinout_spec h hw
    have hcs := cs_idleWake_of_wakes hw
    rw [hlead] at hcs
    unfold Mode at hmode
    cases hwr : (s.pinoutCore l).rw with
    | true =>
      -- the leader writes, so it is the winner and nobody joined it
      simp only [hwr, if_true] at hcs
      have hlg : l = g := hr.resolve_right (by simp [hwr])
      subst hlg
      obtain ⟨g', hg', -, -, -, hor⟩ := idcAfter_idle h hc hk
      rw [hg] at hg'
      cases hg'
      rcases hor with rfl | ⟨-, hlr⟩
      · exact Or.inl ⟨hcs, hg⟩
      · rw [hwr] at hlr; cases hlr
    | false =>
      simp only [hwr, Bool.false_eq_true, if_false] at hcs
      cases htas : (arbiter cfg s).isTestAndSet i with
      | true =>
        simp only [htas, if_true] at hcs
        rw [hcs] at hmode
        exact Or.inr ⟨Or.inl hcs, hmode.2 k hk⟩
      | false =>
        simp only [htas, Bool.false_eq_true, if_false] at hcs
        rw [hcs] at hmode
        exact Or.inr ⟨Or.inr hcs, hmode.2 k hk⟩
  -- what `clock_group` says of the cores in the new groups
  have hgroup : ∀ i k, (idleWake s (arbiter cfg s)).idcFsm i k = true →
      s.idcFsm i k = true ∧ s.cs i ≠ .idle ∧ wakes s (arbiter cfg s) i = false ∨
        s.cs i = .idle ∧ wakes s (arbiter cfg s) i = true ∧ s.served k = false :=
    fun i k hk => clock_group h hk
  constructor
  · intro i k hk
    rcases hgroup i k hk with ⟨hk', -, hw⟩ | ⟨-, hw, hs⟩
    · rw [cs_idleWake_of_not hw]
      exact hL.ack i k hk'
    · have hready : (idleWake s (arbiter cfg s)).readyCore k = false := hL.quiet k hs
      rw [hready]
      rcases hrw i hw k hk with ⟨hcs, -⟩ | ⟨hcs | hcs, -⟩ <;> rw [hcs] <;> rfl
  · intro k hs
    have hs' : servedAfter cfg s k = false := hs
    simp only [servedAfter, Bool.or_eq_false_iff] at hs'
    exact hL.quiet k hs'.1
  · intro i k hc hk
    rcases hgroup i k hk with ⟨hk', -, hw⟩ | ⟨-, hw, -⟩
    · rw [cs_idleWake_of_not hw] at hc
      exact hL.reads i k hc hk'
    · rcases hrw i hw k hk with ⟨hcs, -⟩ | ⟨-, hr⟩
      · rw [hcs] at hc; cases hc
      · exact hr
  · intro i k l hc hk hl
    rcases hgroup i k hk with ⟨hk', hcs, hw⟩ | ⟨-, hw, -⟩
    · rw [cs_idleWake_of_not hw] at hc
      have hl' : s.idcFsm i l = true := by rw [← idcAfter_of_busy h (h.busy i hcs).busy]; exact hl
      exact hL.alone i k l hc hk' hl'
    · have hgrant : ∀ q, idcAfter cfg s i q = true → grant cfg s i = some q := by
        intro q hq
        rcases hrw i hw q hq with ⟨-, hg⟩ | ⟨hcs | hcs, -⟩
        · exact hg
        · rw [hcs] at hc; cases hc
        · rw [hcs] at hc; cases hc
      exact Option.some.inj ((hgrant k hk).symm.trans (hgrant l hl))

theorem raise_lines {p : Pinout} (h : Inv s) (hL : Lines s) (hk : s.requestCore k = false) :
    Lines (raiseRequest s k p) := by
  have hne : ∀ i l, s.idcFsm i l = true → l ≠ k := by
    rintro i l hl rfl
    rw [(h.table i l (h.idc i l hl).1).1] at hk
    cases hk
  refine ⟨hL.ack, hL.quiet, fun i l hc hl => ?_, hL.alone⟩
  have hlk := hne i l hl
  simpa [raiseRequest, hlk] using hL.reads i l hc hl

/-- What a rising ready edge does to the fsm and its group: it goes on to the end of the pulse, and
raises the ready lines of the group unless it only sampled the old value of a test-and-set. -/
theorem fsmPos_lines (s : State n m) (i : Fin m) (hc : s.cs i ≠ .idle) (hneg : (s.cs i).atNeg = false) :
    ((fsmPos s i).cs i).atNeg = true ∧
    (((fsmPos s i).cs i).testing = true → (s.cs i).testing = true ∧ (fsmPos s i).pinoutCore = s.pinoutCore) ∧
    ∀ k, (fsmPos s i).readyCore k = (s.idcFsm i k && ((fsmPos s i).cs i).acks || s.readyCore k) := by
  unfold fsmPos
  cases hi : s.cs i with
  | idle => exact absurd hi hc
  | readPos => simp [answer, CtrlState.atNeg, CtrlState.testing, CtrlState.acks]
  | writePos => simp [CtrlState.atNeg, CtrlState.testing, CtrlState.acks]
  | tasPos => simp [CtrlState.atNeg, CtrlState.testing, CtrlState.acks]
  | tasPos2 old => simp [answer, CtrlState.atNeg, CtrlState.testing, CtrlState.acks]
  | _ => rw [hi] at hneg; cases hneg

theorem rise_lines {mem : MemClass} {p : Pinout} (h : Inv s) (hL : Lines s) (hreq : s.requestSlave i = true)
    (hready : s.readySlave i = false) : Lines (fsmPos (bankRise s i mem p) i) := by
  obtain ⟨hc, hB⟩ := rise_busy h hreq
  have hneg : (s.cs i).atNeg = false := by rw [← hB.ready]; exact hready
  have hacks : (s.cs i).acks = false := by
    revert hneg
    cases s.cs i <;> simp [CtrlState.atNeg, CtrlState.acks]
  set u := bankRise s i mem p with hu
  have hbk := fsmPos_books u i
  obtain ⟨hneg', htest, hrdy⟩ := fsmPos_lines u i hc hneg
  have hother : ∀ j k, j ≠ i → s.idcFsm j k = true → u.idcFsm i k = false ∧
      (fsmPos u i).pinoutCore k = s.pinoutCore k := by
    intro j k hj hk
    have hik : s.idcFsm i k = false := by
      by_contra hik
      exact hj (h.idc_inj hk (by simpa using hik))
    refine ⟨hik, (fsmPos_pinout u i k).resolve_right fun hf => ?_⟩
    exact absurd (hik.symm.trans hf.1) (by decide)
  constructor
  · intro j k hk
    rw [hbk.idcFsm] at hk
    by_cases hj : j = i
    · subst hj
      have hkr : u.readyCore k = false := (hL.ack j k hk).trans hacks
      rw [hrdy, hkr, hk, Bool.true_and, Bool.or_false]
    · rw [fsmPos_cs hj, hrdy, (hother j k hj hk).1, Bool.false_and, Bool.false_or]
      exact hL.ack j k hk
  · intro k hk
    rw [hbk.served] at hk
    have hik : u.idcFsm i k = false := by
      by_contra hik
      rw [Bool.not_eq_false] at hik
      exact absurd ((h.idc i k hik).2.symm.trans hk) (by decide)
    rw [hrdy, hik, Bool.false_and, Bool.false_or]
    exact hL.quiet k hk
  · intro j k hcj hk
    rw [hbk.idcFsm] at hk
    by_cases hj : j = i
    · subst hj
      rw [(htest hcj).2]
      exact hL.reads j k (htest hcj).1 hk
    · rw [fsmPos_cs hj] at hcj
      rw [(hother j k hj hk).2]
      exact hL.reads j k hcj hk
  · intro j k l hcj hk hl
    rw [hbk.idcFsm] at hk hl
    by_cases hj : j = i
    · subst hj
      rw [hcj] at hneg'
      cases hneg'
    · rw [fsmPos_cs hj] at hcj
      exact hL.alone j k l hcj hk hl

theorem finish_lines (h : Inv s) (hL : Lines s) (hcs : ∀ j, j ≠ i → t.cs j = s.cs j)
    (hidc : ∀ j, j ≠ i → t.idcFsm j = s.idcFsm j) (hpin : t.pinoutCore = s.pinoutCore)
    (hserved : ∀ k, t.served k = false → s.idcFsm i k = true ∨ s.served k = false)
    (hready : ∀ k, t.readyCore k = (!s.idcFsm i k && s.readyCore k))
    (hi : ∀ k, t.idcFsm i k = true → t.readyCore k = (t.cs i).acks)
    (htest : (t.cs i).testing = false) (halone : ∀ k l, t.idcFsm i k = true → t.idcFsm i l = true → k = l) :
    Lines t := by
  constructor
  · intro j k hk
    by_cases hj : j = i
    · subst hj; exact hi k hk
    · rw [hidc j hj] at hk
      have hik : s.idcFsm i k = false := by
        by_contra hik
        exact hj (h.idc_inj hk (by simpa using hik))
      rw [hready, hik, hcs j hj]
      exact hL.ack j k hk
  · intro k hk
    rw [hready]
    rcases hserved k hk with hik | hs
    · simp [hik]
    · simp [hL.quiet k hs]
  · intro j k hc hk
    by_cases hj : j = i
    · subst hj; rw [htest] at hc; cases hc
    · rw [hcs j hj] at hc
      rw [hidc j hj] at hk
      rw [hpin]
      exact hL.reads j k hc hk
  · intro j k l hc hk hl
    by_cases hj : j = i
    · subst hj; exact halone k l hk hl
    · rw [hcs j hj] at hc
      rw [hidc j hj] at hk hl
      exact hL.alone j k l hc hk hl

theorem fall_lines (h : Inv s) (hL : Lines s) (hready : s.readySlave i = true) (hseen : s.seen i = true)
    (hf : fsmNeg (bankFall s i) i = some t) : Lines t := by
  obtain ⟨hB, ⟨-, hp, l, hl, rfl⟩ | ⟨-, rfl⟩ | ⟨old, hcs, rfl⟩⟩ := fall_cases h hready hf
  · obtain ⟨-, htab, hidcl⟩ := chainPick_spec hB hseen hp hl
    have hrow : ∀ k, (chain (finish (bankFall s i) i) i l).idcFsm i k = true → k = l := by
      intro k hk
      by_contra hkl
      simp [chain, finish, hkl] at hk
    have hsl : s.served l = false := h.books.not_served (h.books.table i l htab).2 hidcl
    refine finish_lines (i := i) h hL (fun j hj => ?_) (fun j hj => ?_) rfl (fun k hk => ?_) (fun k => rfl)
      (fun k hk => ?_) ?_ fun k k' hk hk' => (hrow k hk).trans (hrow k' hk').symm
    · simp [chain, finish, bankFall, hj]
    · simp [chain, finish, bankFall, hj]
    · by_cases hkl : k = l
      · subst hkl; exact Or.inr hsl
      · simp only [chain, finish, bankFall, Function.update_of_ne hkl, Bool.and_eq_false_iff,
          Bool.not_eq_false'] at hk
        exact hk
    · obtain rfl := hrow k hk
      have hr : (chain (finish (bankFall s i) i) i k).readyCore k = false := by
        simp [chain, finish, bankFall, hL.quiet k hsl]
      rw [hr]
      simp only [chain, Function.update_self]
      split <;> rfl
    · simp only [chain, Function.update_self]
      split <;> rfl
  · have hrow : ∀ k, (release (finish (bankFall s i) i) i).idcFsm i k = false := by
      intro k; simp [release, finish]
    refine finish_lines (i := i) h hL (fun j hj => ?_) (fun j hj => ?_) rfl (fun k hk => ?_) (fun k => rfl)
      (fun k hk => ?_) ?_ fun k l hk => ?_
    · simp [release, finish, bankFall, hj]
    · simp [release, finish, bankFall, hj]
    · simp only [release, finish, bankFall, Bool.and_eq_false_iff, Bool.not_eq_false'] at hk
      exact hk
    · rw [hrow] at hk; cases hk
    · simp [release, CtrlState.testing]
    · rw [hrow] at hk; cases hk
  · constructor
    · intro j k hk
      by_cases hj : j = i
      · subst hj
        refine (hL.ack j k hk).trans ?_
        rw [hcs]
        simp [tasSet, CtrlState.acks]
      · simpa [tasSet, bankFall, hj] using hL.ack j k hk
    · exact hL.quiet
    · intro j k hc hk
      by_cases hj : j = i
      · subst hj
        exact hL.reads j k (by rw [hcs]; rfl) hk
      · exact hL.reads j k (by simpa [tasSet, bankFall, hj] using hc) hk
    · intro j k l hc hk hl
      by_cases hj : j = i
      · subst hj; simp [tasSet] at hc
      · exact hL.alone j k l (by simpa [tasSet, bankFall, hj] using hc) hk hl

/-- **Every action keeps the ready lines right.** -/
theorem step_lines {a : Action n m} (h : Inv s) (hL : Lines s) (hs : step cfg s a = some t) : Lines t := by
  obtain ⟨-, rfl⟩ | ⟨k, p, -, hk, -, rfl⟩ | ⟨i, mem, p, -, hreq, hready, -, rfl⟩ | ⟨i, -, hready, hseen, hf⟩ :=
    step_cases hs
  · exact clock_lines h hL
  · exact raise_lines h hL hk
  · exact rise_lines h hL hreq hready
  · exact fall_lines h hL hready hseen hf

/-! ## The automaton follows every run -/

namespace Service

/-- The automaton agrees with the request and ready lines. -/
def Agrees (s : State n m) (v : Stages n) : Prop :=
  ∀ k, match v k with
    | .idle => s.requestCore k = false
    | .asked p => s.requestCore k = true ∧ s.pinoutCore k = p ∧ s.readyCore k = false
    | .written _ => False
    | .acked p => s.requestCore k = true ∧ (s.pinoutCore k).address = p.address ∧ s.readyCore k = true

theorem agrees_idle {v : Stages n} (hv : Agrees s v) (hk : s.requestCore k = false) : v k = .idle := by
  have := hv k
  cases hvk : v k with
  | idle => rfl
  | written p => rw [hvk] at this; cases this
  | asked p | acked p =>
    rw [hvk] at this
    rw [this.1] at hk
    cases hk

theorem agrees_asked {v : Stages n} (hv : Agrees s v) (hk : s.requestCore k = true)
    (hr : s.readyCore k = false) : v k = .asked (s.pinoutCore k) := by
  have := hv k
  cases hvk : v k with
  | idle => rw [hvk] at this; rw [this] at hk; cases hk
  | asked p => rw [hvk] at this; rw [this.2.1]
  | written p => rw [hvk] at this; cases this
  | acked p => rw [hvk] at this; rw [this.2.2] at hr; cases hr

theorem agrees_acked {v : Stages n} (hv : Agrees s v) (hk : s.requestCore k = true)
    (hr : s.readyCore k = true) : ∃ p, v k = .acked p := by
  have := hv k
  cases hvk : v k with
  | idle => rw [hvk] at this; rw [this] at hk; cases hk
  | asked p => rw [hvk] at this; rw [this.2.2] at hr; cases hr
  | written p => rw [hvk] at this; cases this
  | acked p => exact ⟨p, rfl⟩

theorem agrees_congr {v v' : Stages n} (hv : Agrees s v)
    (hsame : ∀ k, (v' k = v k ∧ t.requestCore k = s.requestCore k ∧ t.pinoutCore k = s.pinoutCore k ∧
        t.readyCore k = s.readyCore k) ∨
      match v' k with
        | .idle => t.requestCore k = false
        | .asked p => t.requestCore k = true ∧ t.pinoutCore k = p ∧ t.readyCore k = false
        | .written _ => False
        | .acked p => t.requestCore k = true ∧ (t.pinoutCore k).address = p.address ∧ t.readyCore k = true) :
    Agrees t v' := by
  intro k
  rcases hsame k with ⟨e1, e2, e3, e4⟩ | hk
  · have := hv k
    rw [e1, e2, e3, e4]
    exact this
  · exact hk

theorem raise_service {p : Pinout} {v : Stages n} (h : Inv s) (hL : Lines s) (hv : Agrees s v)
    (hk : s.requestCore k = false) :
    ∃ v', Trans.run service v (seenBy s (.raise k p)) = some v' ∧ Agrees (raiseRequest s k p) v' := by
  have hserved : s.served k = false := by
    by_contra hs
    obtain ⟨i, hi⟩ := h.served k (by simpa using hs)
    rw [(h.table i k (h.idc i k hi).1).1] at hk
    cases hk
  refine ⟨Function.update v k (.asked p), ?_, agrees_congr hv fun l => ?_⟩
  · simp [seenBy, Trans.run, service, agrees_idle hv hk]
  · by_cases hl : l = k
    · subst hl
      exact Or.inr (by simp [raiseRequest, hL.quiet l hserved])
    · exact Or.inl (by simp [raiseRequest, hl])

/-- The group of a rising ready pulse that answers has got its pulses. -/
theorem answered_agrees {mem : MemClass} {p : Pinout} {v : Stages n} (h : Inv s) (hv : Agrees s v)
    (hreq : s.requestSlave i = true) (hready : s.readySlave i = false) (hb : bankAccess s i = some (mem, p))
    (hacks : ((fsmPos (bankRise s i mem p) i).cs i).acks = true) :
    Agrees (fsmPos (bankRise s i mem p) i) fun k => if k ∈ group s i then .acked (s.pinoutCore k) else v k := by
  obtain ⟨hc, hB⟩ := rise_busy h hreq
  have hneg : (s.cs i).atNeg = false := by rw [← hB.ready]; exact hready
  have hpa := (bankAccess_spec hb).1
  set u := bankRise s i mem p with hu
  have hbk := fsmPos_books u i
  obtain ⟨-, -, hrdy⟩ := fsmPos_lines u i hc hneg
  refine agrees_congr hv fun k => ?_
  have hrk := hrdy k
  rw [hacks] at hrk
  by_cases hk : s.idcFsm i k = true
  · refine Or.inr ?_
    have huk : u.idcFsm i k = true := hk
    have haddr : ((fsmPos u i).pinoutCore k).address = (s.pinoutCore k).address := by
      rcases fsmPos_pinout u i k with hp | ⟨-, ha, -⟩
      · rw [hp]; rfl
      · rw [ha, hB.addr k hk]
        simp [hu, bankRise, hpa]
    simp only [mem_group.2 hk, if_true]
    refine ⟨?_, haddr, by rw [hrk, huk]; rfl⟩
    rw [hbk.requestCore]
    exact (h.table i k (h.idc i k hk).1).1
  · have huk : u.idcFsm i k = false := by simpa [hu, bankRise] using hk
    refine Or.inl ⟨if_neg (fun hg => hk (mem_group.1 hg)), by rw [hbk.requestCore]; rfl, ?_, ?_⟩
    · rcases fsmPos_pinout u i k with hp | ⟨hf, -⟩
      · rw [hp]; rfl
      · exact absurd (huk.symm.trans hf) (by decide)
    · rw [hrk, huk]; rfl

/-- The pulses of a group of readers. -/
theorem run_ready {v : Stages n} (h : Inv s) (hL : Lines s) (hv : Agrees s v) (hack : (s.cs i).acks = false)
    (hrw : ∀ k, s.idcFsm i k = true → (s.pinoutCore k).rw = false) :
    Trans.run service v ((group s i).map fun k => .ready k i) =
      some fun k => if k ∈ group s i then .acked (s.pinoutCore k) else v k := by
  refine run_each (group_nodup s i) fun k hk u hu => ?_
  have hidc := mem_group.1 hk
  obtain ⟨hreq, hbank⟩ := h.table i k (h.idc i k hidc).1
  have hvk := agrees_asked hv hreq ((hL.ack i k hidc).trans hack)
  have hbk : bankOf (s.pinoutCore k) i := hbank
  simp [service, hu, hvk, hrw k hidc, hbk]

theorem rise_service {mem : MemClass} {p : Pinout} {v : Stages n} (h : Inv s) (hL : Lines s) (hv : Agrees s v)
    (hreq : s.requestSlave i = true) (hready : s.readySlave i = false) (hb : bankAccess s i = some (mem, p)) :
    ∃ v', Trans.run service v (seenBy s (.rise i)) = some v' ∧ Agrees (fsmPos (bankRise s i mem p) i) v' := by
  obtain ⟨hc, hB⟩ := rise_busy h hreq
  have hneg : (s.cs i).atNeg = false := by rw [← hB.ready]; exact hready
  have hmode := hB.mode
  unfold Mode at hmode
  obtain ⟨k, hk⟩ := hB.row
  have hanswered := answered_agrees h hv hreq hready hb
  have hcu : (bankRise s i mem p).cs i = s.cs i := rfl
  cases hcs : s.cs i with
  | readPos =>
    rw [hcs] at hmode
    refine ⟨_, ?_, hanswered (by simp [fsmPos, hcu, hcs, CtrlState.acks])⟩
    simp only [seenBy, written, pulsed, hcs, hmode.1, Bool.false_eq_true, if_false, List.nil_append]
    exact run_ready h hL hv (by rw [hcs]; rfl) hmode.2
  | writePos =>
    rw [hcs] at hmode
    -- the one core of the group asked for what the bank has on its pinout
    have hgroup : group s i = [k] := Scan.filter_finRange fun l =>
      ⟨fun hl => hL.alone i l k hcs hl hk, fun hl => by rw [hl]; exact hk⟩
    obtain ⟨hrc, hbank⟩ := h.table i k (h.idc i k hk).1
    have hvk := agrees_asked hv hrc (by rw [hL.ack i k hk, hcs]; rfl)
    rw [hmode.2 k hk] at hvk hbank
    have hbk : bankOf (s.pinoutSlave i) i := hbank
    have hv' := hanswered (by simp [fsmPos, hcu, hcs, CtrlState.acks])
    rw [hgroup] at hv'
    refine ⟨_, ?_, hv'⟩
    simp only [seenBy, written, pulsed, hcs, hmode.1, if_true, hgroup, List.map_cons, List.map_nil,
      List.cons_append, List.nil_append, Trans.run, service, hvk, hbk, and_self, Option.bind_some,
      Function.update_self, Function.update_idem, Option.some.injEq]
    funext l
    by_cases hl : l = k
    · subst hl; simp [hmode.2 l hk]
    · simp [hl]
  | tasPos =>
    rw [hcs] at hmode
    refine ⟨v, by simp [seenBy, written, pulsed, hcs, hmode.1], ?_⟩
    refine agrees_congr hv fun l => Or.inl ⟨rfl, ?_⟩
    simp [fsmPos, hcs, bankRise]
  | tasPos2 old =>
    refine ⟨_, ?_, hanswered (by simp [fsmPos, hcu, hcs, CtrlState.acks])⟩
    simp only [seenBy, written, pulsed, hcs, List.nil_append]
    exact run_ready h hL hv (by rw [hcs]; rfl) fun l hl => hL.reads i l (by rw [hcs]; rfl) hl
  | idle => exact absurd hcs hc
  | _ => rw [hcs] at hneg; cases hneg

/-- Where the group is let go the automaton is done with it. -/
theorem finish_service {v : Stages n} (h : Inv s) (hL : Lines s) (hv : Agrees s v) (hack : (s.cs i).acks = true)
    (hreq : ∀ k, t.requestCore k = (!s.idcFsm i k && s.requestCore k)) (hpin : t.pinoutCore = s.pinoutCore)
    (hready : ∀ k, t.readyCore k = (!s.idcFsm i k && s.readyCore k)) :
    ∃ v', Trans.run (service (m := m)) v ((group s i).map .done) = some v' ∧ Agrees t v' := by
  refine ⟨_, run_each (g := fun _ => .idle) (group_nodup s i) fun k hk u hu => ?_, agrees_congr hv fun k => ?_⟩
  · have hidc := mem_group.1 hk
    obtain ⟨p, hp⟩ := agrees_acked hv (h.table i k (h.idc i k hidc).1).1 ((hL.ack i k hidc).trans hack)
    simp [service, hu, hp]
  · by_cases hk : s.idcFsm i k = true
    · refine Or.inr ?_
      simp only [mem_group.2 hk, if_true]
      rw [hreq, hk]
      rfl
    · have hk' : s.idcFsm i k = false := by simpa using hk
      refine Or.inl ⟨if_neg fun hg => hk (mem_group.1 hg), ?_, by rw [hpin], ?_⟩
      · rw [hreq, hk']; rfl
      · rw [hready, hk']; rfl

theorem fall_service {v : Stages n} (h : Inv s) (hL : Lines s) (hv : Agrees s v) (hready : s.readySlave i = true)
    (hf : fsmNeg (bankFall s i) i = some t) :
    ∃ v', Trans.run service v (seenBy s (.fall i)) = some v' ∧ Agrees t v' := by
  obtain ⟨-, ⟨hcs, -, l, -, rfl⟩ | ⟨hcs, rfl⟩ | ⟨old, hcs, rfl⟩⟩ := fall_cases h hready hf
  · have hlow : lowered s i = group s i := by rcases hcs with hcs | hcs <;> simp [lowered, hcs]
    have hack : (s.cs i).acks = true := by rcases hcs with hcs | hcs <;> rw [hcs] <;> rfl
    simp only [seenBy, hlow]
    exact finish_service h hL hv hack (fun _ => rfl) rfl fun _ => rfl
  · have hlow : lowered s i = group s i := by rcases hcs with hcs | hcs | hcs <;> simp [lowered, hcs]
    have hack : (s.cs i).acks = true := by rcases hcs with hcs | hcs | hcs <;> rw [hcs] <;> rfl
    simp only [seenBy, hlow]
    exact finish_service h hL hv hack (fun _ => rfl) rfl fun _ => rfl
  · exact ⟨v, by simp [seenBy, lowered, hcs], hv⟩

/-- **One action**: the automaton follows it. -/
theorem step_service {a : Action n m} {v : Stages n} (h : Inv s) (hL : Lines s) (hv : Agrees s v)
    (hs : step cfg s a = some t) : ∃ v', Trans.run service v (seenBy s a) = some v' ∧ Agrees t v' := by
  obtain ⟨rfl, rfl⟩ | ⟨k, p, rfl, hk, -, rfl⟩ | ⟨i, mem, p, rfl, hreq, hready, hb, rfl⟩ |
      ⟨i, rfl, hready, hseen, hf⟩ :=
    step_cases hs
  · exact ⟨v, rfl, hv⟩
  · exact raise_service h hL hv hk
  · exact rise_service h hL hv hreq hready hb
  · exact fall_service h hL hv hready hf

end Service

/-! ## Nobody is forgotten -/

/-- The width is one that the banks know, and the address is aligned to it. -/
def sized (p : Pinout) : Bool :=
  p.bw == MEM_WORD && p.address % 4 == 0 || p.bw == MEM_BYTE || p.bw == MEM_HWORD && p.address % 2 == 0

theorem sized_congr {p q : Pinout} (ha : q.address = p.address) (hbw : q.bw = p.bw) (h : sized p = true) :
    sized q = true := by
  unfold sized
  rw [ha, hbw]
  exact h

/-- All accesses under way are aligned accesses of a known width. -/
structure Sized (s : State n m) : Prop where
  core : ∀ k, s.requestCore k = true → sized (s.pinoutCore k) = true
  slave : ∀ i, s.cs i ≠ .idle → sized (s.pinoutSlave i) = true

/-- Every TCDM address lies inside its bank. -/
def Roomy (mem : Fin m → MemClass) : Prop :=
  ∀ (i : Fin m) a, demuxIsInTcdmSpace a = true → getTcdmBankId m a = i → bankAddressing m a < (mem i).size

/-- No access ends the simulation. -/
structure Fits (s : State n m) : Prop extends Sized s where
  room : Roomy s.mem

theorem bankAccess_size {mem : MemClass} {p : Pinout} (hb : bankAccess s i = some (mem, p)) :
    mem.size = (s.mem i).size := by
  obtain ⟨-, -, hw, hr⟩ := bankAccess_spec hb
  cases hrw : (s.pinoutSlave i).rw with
  | true => exact MemClass.write_size (hw hrw).2
  | false => rw [(hr hrw).1]

theorem init_sized (mem : Fin m → MemClass) : Sized (init mem : State n m) :=
  ⟨fun _ hk => (by cases hk), fun _ hc => absurd rfl hc⟩

theorem step_sized {a : Action n m} (h : Inv s) (hF : Sized s) (hs : step cfg s a = some t) : Sized t := by
  obtain ⟨-, rfl⟩ | ⟨k, p, -, -, hp, rfl⟩ | ⟨i, mem, p, -, hreq, -, hb, rfl⟩ | ⟨i, -, hready, hseen, hf⟩ :=
    step_cases hs
  · refine ⟨hF.core, fun i hc => ?_⟩
    by_cases hw : wakes s (arbiter cfg s) i = true
    · obtain ⟨g, l, -, hl, hlead, -, -⟩ := leaderPinout_spec h hw
      have hps : (idleWake s (arbiter cfg s)).pinoutSlave i = s.pinoutCore l := by simp [idleWake, hw, hlead]
      rw [hps]
      exact hF.core l (tableAfter_spec h (idcAfter_spec h hl).1).1
    · have hw : wakes s (arbiter cfg s) i = false := by simpa using hw
      rw [cs_idleWake_of_not hw] at hc
      rw [pinoutSlave_idleWake_of_not hw]
      exact hF.slave i hc
  · refine ⟨fun l hl => ?_, hF.slave⟩
    by_cases hlk : l = k
    · subst hlk
      simp only [validRequest, Bool.and_eq_true] at hp
      rw [show (raiseRequest s l p).pinoutCore l = p by simp [raiseRequest]]
      exact hp.2
    · simp only [raiseRequest, Function.update_of_ne hlk] at hl ⊢
      exact hF.core l hl
  · obtain ⟨hc, hB⟩ := rise_busy h hreq
    obtain ⟨hpa, hbw, -, -⟩ := bankAccess_spec hb
    have hbk := fsmPos_books (bankRise s i mem p) i
    have hslave : ∀ j, s.cs j ≠ .idle → sized ((bankRise s i mem p).pinoutSlave j) = true := by
      intro j hcj
      by_cases hj : j = i
      · subst hj
        have : (bankRise s j mem p).pinoutSlave j = p := by simp [bankRise]
        rw [this]
        exact sized_congr hpa hbw (hF.slave j hc)
      · simpa [bankRise, hj] using hF.slave j hcj
    refine ⟨fun k hk => ?_, fun j hcj => ?_⟩
    · rw [hbk.requestCore] at hk
      rcases fsmPos_pinout (bankRise s i mem p) i k with hp | ⟨-, hpa', hpb⟩
      · rw [hp]; exact hF.core k hk
      · exact sized_congr hpa' hpb (hslave i hc)
    · rw [hbk.pinoutSlave]
      by_cases hj : j = i
      · subst hj; exact hslave j hc
      · rw [fsmPos_cs hj] at hcj
        exact hslave j hcj
  · have hkeep : ∀ j, j ≠ i → ∀ v : State n m, SameRow s v j → v.cs j ≠ .idle → sized (v.pinoutSlave j) = true := by
      intro j _ v hrow hcj
      rw [hrow.cs] at hcj
      rw [hrow.slave]
      exact hF.slave j hcj
    have hcore : ∀ k, (finish (bankFall s i) i).requestCore k = true → sized (s.pinoutCore k) = true := by
      intro k hk
      simp only [finish, bankFall, Bool.and_eq_true] at hk
      exact hF.core k hk.2
    obtain ⟨hB, ⟨-, hp, l, hl, rfl⟩ | ⟨-, rfl⟩ | ⟨old, hcs, rfl⟩⟩ := fall_cases h hready hf
    · refine ⟨hcore, fun j hcj => ?_⟩
      by_cases hj : j = i
      · subst hj
        have : (chain (finish (bankFall s j) j) j l).pinoutSlave j = s.pinoutCore l := by
          simp [chain, finish, bankFall]
        rw [this]
        exact hF.core l (h.table j l (chainPick_spec hB hseen hp hl).2.1).1
      · exact hkeep j hj _ ((finish_sameRow s hj).trans (chain_sameRow _ l hj)) hcj
    · refine ⟨hcore, fun j hcj => ?_⟩
      by_cases hj : j = i
      · subst hj; simp [release] at hcj
      · exact hkeep j hj _ ((finish_sameRow s hj).trans (release_sameRow _ hj)) hcj
    · refine ⟨hF.core, fun j hcj => ?_⟩
      by_cases hj : j = i
      · subst hj
        exact sized_congr (by simp [tasSet, bankFall]) (by simp [tasSet, bankFall])
          (hF.slave j (by rw [hcs]; exact fun hf => by cases hf))
      · simp only [tasSet, bankFall, Function.update_of_ne hj] at hcj ⊢
        exact hF.slave j hcj

theorem step_fits {a : Action n m} (h : Inv s) (hF : Fits s) (hs : step cfg s a = some t) : Fits t := by
  refine ⟨step_sized h hF.toSized hs, ?_⟩
  have hsize : ∀ i, (t.mem i).size = (s.mem i).size := by
    obtain ⟨-, rfl⟩ | ⟨k, p, -, -, -, rfl⟩ | ⟨j, mem, p, -, -, -, hb, rfl⟩ | ⟨j, -, -, -, hf⟩ := step_cases hs
    · exact fun _ => rfl
    · exact fun _ => rfl
    · intro i
      rw [(fsmPos_books _ j).mem]
      by_cases hi : i = j
      · subst hi; simp [bankRise, bankAccess_size hb]
      · simp [bankRise, hi]
    · intro i
      rw [fsmNeg_mem hf]
      rfl
  intro i a hd hbank
  rw [hsize]
  exact hF.room i a hd hbank

/-- Bank `i` and the clock go on, and no core asks for anything. -/
def Goes (cfg : Config) (i : Fin m) (s t : State n m) : Prop :=
  ∃ as : List (Action n m), (∀ a ∈ as, a = .clock ∨ a = .rise i ∨ a = .fall i) ∧ Trans.run (step cfg) s as = some t

theorem Goes.refl (s : State n m) : Goes cfg i s s := ⟨[], by simp, rfl⟩

theorem Goes.step {a : Action n m} {u : State n m} (ha : a = .clock ∨ a = .rise i ∨ a = .fall i)
    (hs : step cfg s a = some u) (hg : Goes cfg i u t) : Goes cfg i s t := by
  obtain ⟨as, has, hr⟩ := hg
  refine ⟨a :: as, fun b hb => ?_, Trans.run_cons.2 ⟨u, hs, hr⟩⟩
  rcases List.mem_cons.1 hb with rfl | hb
  · exact ha
  · exact has b hb

theorem Goes.trans {u : State n m} (hsu : Goes cfg i s u) (hut : Goes cfg i u t) : Goes cfg i s t := by
  obtain ⟨as, has, hr⟩ := hsu
  obtain ⟨bs, hbs, hr'⟩ := hut
  refine ⟨as ++ bs, fun a ha => ?_, Trans.run_append.2 ⟨u, hr, hr'⟩⟩
  rcases List.mem_append.1 ha with ha | ha
  · exact has a ha
  · exact hbs a ha

/-- Where nobody asks, requests only go away, and the others stay at their address. -/
structure Fewer (s t : State n m) : Prop where
  request : ∀ k, t.requestCore k = true → s.requestCore k = true
  address : ∀ k, (t.pinoutCore k).address = (s.pinoutCore k).address

theorem step_fewer {a : Action n m} (h : Inv s) (ha : a = .clock ∨ a = .rise i ∨ a = .fall i)
    (hs : step cfg s a = some t) : Fewer s t := by
  obtain ⟨-, rfl⟩ | ⟨k, p, rfl, -⟩ | ⟨j, mem, p, -, hreq, -, hb, rfl⟩ | ⟨j, -, hready, -, hf⟩ := step_cases hs
  · exact ⟨fun _ hk => hk, fun _ => rfl⟩
  · rcases ha with ha | ha | ha <;> cases ha
  · obtain ⟨-, hB⟩ := rise_busy h hreq
    have hpa := (bankAccess_spec hb).1
    have hbk := fsmPos_books (bankRise s j mem p) j
    refine ⟨fun k hk => by rw [hbk.requestCore] at hk; exact hk, fun k => ?_⟩
    rcases fsmPos_pinout (bankRise s j mem p) j k with hp | ⟨hk, hp, -⟩
    · rw [hp]; rfl
    · rw [hp, hB.addr k hk]
      simp [bankRise, hpa]
  · have hfin : ∀ k, (finish (bankFall s j) j).requestCore k = true → s.requestCore k = true := by
      intro k hk
      simp only [finish, bankFall, Bool.and_eq_true] at hk
      exact hk.2
    obtain ⟨-, ⟨-, -, l, -, rfl⟩ | ⟨-, rfl⟩ | ⟨old, -, rfl⟩⟩ := fall_cases h hready hf
    · exact ⟨hfin, fun _ => rfl⟩
    · exact ⟨hfin, fun _ => rfl⟩
    · exact ⟨fun _ hk => hk, fun _ => rfl⟩

theorem Goes.kept (hg : Goes cfg i s t) (h : Inv s) (hF : Fits s) : Inv t ∧ Fits t ∧ Fewer s t := by
  obtain ⟨as, has, hr⟩ := hg
  induction as generalizing s with
  | nil =>
    cases hr
    exact ⟨h, hF, fun _ hk => hk, fun _ => rfl⟩
  | cons a as ih =>
    obtain ⟨u, hu, hr⟩ := Trans.run_cons.1 hr
    have hf := step_fewer h (has a (by simp)) hu
    obtain ⟨ht, hFt, hf'⟩ := ih (step_inv h hu) (step_fits h hF hu) (fun b hb => has b (by simp [hb])) hr
    exact ⟨ht, hFt, fun k hk => hf.request k (hf'.request k hk), fun k => (hf'.address k).trans (hf.address k)⟩

section

variable (cfg)

end

namespace Service

/-- A request that is not over: once the arbiter has run again, its bank has it in the table and is busy. -/
def Known (cfg : Config) (s : State n m) (k : Fin n) (i : Fin m) : Prop :=
  s.requestCore k = true ∧ (arbiter cfg s).reqTable i k = true ∧ (arbiter cfg s).busyFsm i = true

theorem known_of_inv (h : Inv s) (hk : s.requestCore k = true) (hi : getTcdmBankId m (s.pinoutCore k).address = i) :
    Known cfg s k i := by
  have htab : tableAfter s i k = true := by
    simp only [tableAfter, requests, Bool.or_eq_true, Bool.and_eq_true, Bool.not_eq_true', beq_iff_eq]
    by_cases hs : s.served k = true
    · obtain ⟨j, hj⟩ := h.served k hs
      have htj := (h.idc j k hj).1
      have hji : j = i := Fin.ext ((h.table j k htj).2.symm.trans hi)
      subst hji
      exact Or.inl htj
    · exact Or.inr ⟨⟨by rw [h.req]; exact hk, by simpa using hs⟩, hi⟩
  refine ⟨hk, htab, ?_⟩
  simp only [arbiter, requested, Bool.or_eq_true, decide_eq_true_eq]
  exact Or.inr ⟨k, htab⟩

end Service

end VirtualSoc.Lic
