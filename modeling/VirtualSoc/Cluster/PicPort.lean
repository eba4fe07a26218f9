import Mathlib.Tactic.Common
import VirtualSoc.Cluster.PicInv

/-!
# One port of the interconnect (cluster/cl_pic.cpp)

What the device at a port and the masters that ask for it see of a step of `cl_pic`: the steps at other ports leave
them as they are (`SamePort`), a clock edge may wake the port with the request of the winner, and a pulse of the
device reaches the one master that the port serves. No step that the device may take is refused.

* `guarded_of_single`: masters that ask the shared slaves for single beats meet the condition on chained requests.
-/

namespace VirtualSoc.Pic

variable {n m : Nat} {cfg : Config n} {s t : State n m} {i j : Fin m} {k l : Fin n}

/-- Master `k` has a request to slave `i`. -/
def Asks (cfg : Config n) (s : State n m) (i : Fin m) (k : Fin n) : Prop :=
  s.requestCore k = true ∧ slaveOf cfg s k = some i

instance (cfg : Config n) (s : State n m) (i : Fin m) (k : Fin n) : Decidable (Asks cfg s i k) :=
  inferInstanceAs (Decidable (_ ∧ _))

/-- Port `i` and the requests to it are as before. -/
structure SamePort (cfg : Config n) (s t : State n m) (i : Fin m) : Prop where
  cs : t.cs i = s.cs i
  request : t.requestSlave i = s.requestSlave i
  ready : t.readySlave i = s.readySlave i
  slave : t.pinoutSlave i = s.pinoutSlave i
  seen : t.seen i = s.seen i
  idc : t.idcFsm i = s.idcFsm i
  asks : ∀ k, Asks cfg t i k ↔ Asks cfg s i k
  core : ∀ k, Asks cfg s i k → t.pinoutCore k = s.pinoutCore k ∧ t.readyCore k = s.readyCore k

theorem Asks.ne (hk : Asks cfg s i k) (hl : Asks cfg s j l) (hij : i ≠ j) : k ≠ l := by
  rintro rfl
  exact hij (Option.some.inj (hk.2.symm.trans hl.2))

theorem Inv.asks (h : Inv cfg s) (hk : s.idcFsm i k = true) : Asks cfg s i k := by
  obtain ⟨hreq, -, hroute⟩ := h.table (h.books.grp i k hk).1
  exact ⟨hreq, hroute⟩

theorem Busy.asks (h : Inv cfg s) (hB : Busy s i k) : Asks cfg s i k := h.asks ((hB.row k).2 rfl)

theorem step_rise {d : UInt32} (hs : step cfg s (.rise i d) = some t) :
    s.readySlave i = false ∧ (s.requestSlave i = true ∨ 0 < s.owed i) ∧ fsmPos (slaveRise s i d) i = some t := by
  obtain ⟨_, he, -⟩ | ⟨_, _, he, -⟩ | ⟨_, _, he, -⟩ | ⟨i, d, he, hready, hg, hf⟩ | ⟨_, he, -⟩ := step_cases hs <;> cases he
  exact ⟨hready, hg, hf⟩

theorem step_fall (hs : step cfg s (.fall i) = some t) :
    s.readySlave i = true ∧ s.seen i = true ∧ fsmNeg cfg (slaveFall s i) i = some t := by
  obtain ⟨_, he, -⟩ | ⟨_, _, he, -⟩ | ⟨_, _, he, -⟩ | ⟨_, _, he, -⟩ | ⟨i, he, hready, hseen, hf⟩ := step_cases hs <;> cases he
  exact ⟨hready, hseen, hf⟩

/-! ## The other ports -/

theorem raise_port {p : Pinout} (hk : s.requestCore k = false) (hp : decode m cfg.ID k p.address ≠ some i) :
    SamePort cfg s (raiseRequest s k p) i := by
  refine ⟨rfl, rfl, rfl, rfl, rfl, rfl, fun l => ?_, fun l hl => ?_⟩
  · by_cases hlk : l = k
    · subst hlk
      simp [Asks, raiseRequest, slaveOf, hk, hp]
    · simp [Asks, raiseRequest, slaveOf, hlk]
  · have hlk : l ≠ k := by
      rintro rfl
      exact Bool.false_ne_true (hk.symm.trans hl.1)
    simp [raiseRequest, hlk]

theorem beat_port {d : UInt32} (hk : slaveOf cfg s k ≠ some i) :
    SamePort cfg s { s with pinoutCore := Function.update s.pinoutCore k { s.pinoutCore k with data := d } } i := by
  refine ⟨rfl, rfl, rfl, rfl, rfl, rfl, fun l => ?_, fun l hl => ?_⟩
  · by_cases hlk : l = k
    · subst hlk
      simp [Asks, slaveOf]
    · simp [Asks, slaveOf, hlk]
  · have hlk : l ≠ k := by
      rintro rfl
      exact hk hl.2
    simp [hlk]

theorem rise_port {d : UInt32} (h : Inv cfg s) (hij : i ≠ j) (hready : s.readySlave j = false)
    (hg : s.requestSlave j = true ∨ 0 < s.owed j) (hs : fsmPos (slaveRise s j d) j = some t) : SamePort cfg s t i := by
  obtain ⟨k, hB, hc⟩ := rise_busy h hready hg
  obtain ⟨c, pc, ps, -, -, hpc, -, -, -, rfl⟩ := rise_spec hB hc hs
  have hk := hB.asks h
  refine ⟨?_, rfl, ?_, ?_, ?_, rfl, fun l => ?_, fun l hl => ?_⟩
  · simp [hij]
  · simp [slaveRise, hij]
  · simp [hij]
  · simp [slaveRise, hij]
  · by_cases hlk : l = k
    · subst hlk
      simp [Asks, slaveOf, slaveRise, hpc]
    · simp [Asks, slaveOf, slaveRise, hlk]
  · simp [hl.ne hk hij]

/-- A pulse changes no more of a request than its data. -/
theorem rise_requests {d : UInt32} (h : Inv cfg s) (hready : s.readySlave j = false)
    (hg : s.requestSlave j = true ∨ 0 < s.owed j) (hs : fsmPos (slaveRise s j d) j = some t) (l : Fin n) :
    t.requestCore l = s.requestCore l ∧ (t.pinoutCore l).address = (s.pinoutCore l).address ∧
      (t.pinoutCore l).burst = (s.pinoutCore l).burst := by
  obtain ⟨k, hB, hc⟩ := rise_busy h hready hg
  obtain ⟨c, pc, ps, -, -, haddr, hburst, -, -, rfl⟩ := rise_spec hB hc hs
  refine ⟨rfl, ?_⟩
  by_cases hlk : l = k
  · subst hlk
    simp [haddr, hburst]
  · simp [hlk]

/-- The lines of the masters when the pulse of port `j` to master `k` is over. -/
theorem pulseOver_lines (hl : l ≠ k) :
    (pulseOver s j k).requestCore l = s.requestCore l ∧ (pulseOver s j k).readyCore l = s.readyCore l := by
  simp [pulseOver, dropReady, slaveFall, hl]

theorem fall_requests (h : Inv cfg s) (hready : s.readySlave j = true)
    (hf : fsmNeg cfg (slaveFall s j) j = some t) (l : Fin n) (hl : t.requestCore l = true) :
    s.requestCore l = true ∧ t.pinoutCore l = s.pinoutCore l := by
  obtain ⟨k, hB, -, -, hcases⟩ := fall_cases h hready hf
  have hlines : t.requestCore = (pulseOver s j k).requestCore ∧ t.pinoutCore = s.pinoutCore := by
    rcases hcases with ⟨-, c, -, -, rfl⟩ | ⟨-, -, q, -, rfl⟩ | ⟨-, rfl⟩ <;> exact ⟨rfl, rfl⟩
  rw [hlines.1] at hl
  rw [hlines.2]
  by_cases hlk : l = k
  · subst hlk
    exact ⟨(hB.asks h).1, rfl⟩
  · exact ⟨(pulseOver_lines hlk).1 ▸ hl, rfl⟩

theorem fall_port (h : Inv cfg s) (hij : i ≠ j) (hready : s.readySlave j = true)
    (hf : fsmNeg cfg (slaveFall s j) j = some t) : SamePort cfg s t i := by
  obtain ⟨k, hB, -, -, hcases⟩ := fall_cases h hready hf
  have hk := hB.asks h
  -- the lines of the masters after the pulse, in every case
  have hlines : t.requestCore = (pulseOver s j k).requestCore ∧ t.pinoutCore = s.pinoutCore ∧
      t.readyCore = (pulseOver s j k).readyCore := by
    rcases hcases with ⟨-, c, -, -, rfl⟩ | ⟨-, -, q, -, rfl⟩ | ⟨-, rfl⟩ <;> exact ⟨rfl, rfl, rfl⟩
  obtain ⟨hreq, hpin, hrdy⟩ := hlines
  have hport : t.cs i = s.cs i ∧ t.requestSlave i = s.requestSlave i ∧ t.readySlave i = s.readySlave i ∧
      t.pinoutSlave i = s.pinoutSlave i ∧ t.seen i = s.seen i ∧ t.idcFsm i = s.idcFsm i := by
    rcases hcases with ⟨-, c, -, -, rfl⟩ | ⟨-, -, q, -, rfl⟩ | ⟨-, rfl⟩ <;>
      simp [chain, release, burstOver, statistics, clear, pulseOver, dropReady, slaveFall, hij]
  obtain ⟨h1, h2, h3, h4, h5, h6⟩ := hport
  have hroute : ∀ l, slaveOf cfg t l = slaveOf cfg s l := fun l => by simp only [slaveOf, hpin]
  refine ⟨h1, h2, h3, h4, h5, h6, fun l => ?_, fun l hl => ?_⟩
  · by_cases hlk : l = k
    · subst hlk
      have hne : slaveOf cfg s l ≠ some i := by
        rw [hk.2]
        exact fun he => hij (Option.some.inj he).symm
      simp [Asks, hroute, hne]
    · rw [Asks, Asks, hreq, (pulseOver_lines hlk).1, hroute]
  · have hlk := hl.ne hk hij
    exact ⟨by rw [hpin], by rw [hrdy, (pulseOver_lines hlk).2]⟩

/-! ## The port at a clock edge -/

/-- Nothing but the request of the winner comes to a port at a clock edge, and only if it was at rest. -/
theorem clock_port {early : Fin n → Bool} (h : Inv cfg s) (hs : step cfg s (.clock early) = some t) :
    (s.cs i ≠ .idle ∧ t.cs i = s.cs i ∧ t.requestSlave i = s.requestSlave i ∧ t.pinoutSlave i = s.pinoutSlave i ∧
        t.idcFsm i = s.idcFsm i ∧ t.seen i = true) ∨
    (s.cs i = .idle ∧ t.cs i = .idle) ∨
    (s.cs i = .idle ∧ ∃ k, t.idcFsm i k = true ∧ t.pinoutSlave i = s.pinoutCore k ∧
      t.cs i = if (s.pinoutCore k).rw then .writePos else .readPos) := by
  obtain ⟨early', he, rfl⟩ | ⟨k, p, he, -⟩ | ⟨k, d, he, -⟩ | ⟨i, d, he, -⟩ | ⟨i, he, -⟩ := step_cases hs <;> cases he
  have h' := pollClock_inv h early
  set u := pollClock s early with hu
  have hcs : u.cs = s.cs := rfl
  by_cases hidle : s.cs i = .idle
  · right
    by_cases hw : wakes u (arbiter cfg u) i = true
    · right
      obtain ⟨g, hg, hlead⟩ := leaderPinout_spec h' hw
      refine ⟨hidle, g, (idcAfter_idle h' hidle g).2 hg, ?_, ?_⟩
      · change (if wakes u (arbiter cfg u) i then leaderPinout (arbiter cfg u) i else _) = _
        rw [if_pos hw, hlead]
        rfl
      · change (if wakes u (arbiter cfg u) i then if (leaderPinout (arbiter cfg u) i).rw then _ else _ else _) = _
        rw [if_pos hw, hlead]
        rfl
    · left
      refine ⟨hidle, ?_⟩
      change (if wakes u (arbiter cfg u) i then _ else u.cs i) = _
      rw [if_neg hw]
      exact hidle
  · left
    have hw := wakes_of_busy h' (i := i) (by rw [hcs]; exact hidle)
    obtain ⟨k, hB⟩ := h'.busy i (by rw [hcs]; exact hidle)
    refine ⟨hidle, ?_, ?_, ?_, ?_, ?_⟩
    · change (if wakes u (arbiter cfg u) i then _ else u.cs i) = _
      rw [hw]
      rfl
    · change (wakes u (arbiter cfg u) i || u.requestSlave i) = _
      rw [hw]
      rfl
    · change (if wakes u (arbiter cfg u) i then _ else u.pinoutSlave i) = _
      rw [hw]
      rfl
    · funext l
      exact idcAfter_of_busy hB.busy
    · change (!wakes u (arbiter cfg u) i) = true
      rw [hw]
      rfl

/-- The lines of the masters do not change at a clock edge. -/
theorem clock_lines {early : Fin n → Bool} (hs : step cfg s (.clock early) = some t) :
    t.requestCore = s.requestCore ∧ t.pinoutCore = s.pinoutCore ∧ t.readyCore = s.readyCore ∧
      t.readySlave = s.readySlave := by
  obtain ⟨early', he, rfl⟩ | ⟨k, p, he, -⟩ | ⟨k, d, he, -⟩ | ⟨i, d, he, -⟩ | ⟨i, he, -⟩ := step_cases hs <;> cases he
  exact ⟨rfl, rfl, rfl, rfl⟩

/-- The clock goes on. -/
theorem clock_isSome (h : Inv cfg s) (early : Fin n → Bool) : (step cfg s (.clock early)).isSome = true := by
  have hmapped : unmapped cfg (pollClock s early) = false := by
    rw [unmapped, decide_eq_false_iff_not]
    rintro ⟨k, hk⟩
    simp only [Bool.and_eq_true, Option.isNone_iff_eq_none] at hk
    have h' := pollClock_inv h early
    have hsome := (h'.mapped k (h'.requested hk.1.1).1).1
    rw [hk.2] at hsome
    cases hsome
  simp only [step]
  rw [hmapped]
  rfl

/-! ## A pulse of the device at the port -/

/-- The pulse reaches the master that the port serves, with the data of a read. -/
theorem rise_own {d : UInt32} (hB : Busy s i k) (hsame : s.pinoutSlave i = s.pinoutCore k)
    (hc : s.cs i = .readPos ∧ (s.pinoutCore k).rw = false ∨ s.cs i = .writePos ∧ (s.pinoutCore k).rw = true)
    (hs : fsmPos (slaveRise s i d) i = some t) :
    (t.cs i).atNeg = true ∧ t.idcFsm = s.idcFsm ∧ t.requestCore = s.requestCore ∧ t.requestSlave = s.requestSlave ∧
      t.seen i = false ∧ t.readyCore = Function.update s.readyCore k true ∧
      t.pinoutSlave i = t.pinoutCore k ∧
      t.pinoutCore = Function.update s.pinoutCore k
        { s.pinoutCore k with data := if (s.pinoutCore k).rw then (s.pinoutCore k).data else d } := by
  have hrow : s.idcFsm i = fun l => decide (l = k) := by
    funext l
    rw [Bool.eq_iff_iff, hB.row l, decide_eq_true_eq]
  have hrdy : (fun l => s.idcFsm i l || s.readyCore l) = Function.update s.readyCore k true := by
    funext l
    by_cases hl : l = k
    · subst hl
      simp [hrow]
    · simp [hrow, hl]
  rcases hc with ⟨hc, hrw⟩ | ⟨hc, hrw⟩
  · have hps : (slaveRise s i d).pinoutSlave i = { s.pinoutCore k with data := d } := by
      simp [slaveRise, hsame, hrw]
    have hcs : (slaveRise s i d).cs i = .readPos := hc
    have hpin : (fun l => if s.idcFsm i l then (slaveRise s i d).pinoutSlave i else s.pinoutCore l) =
        Function.update s.pinoutCore k { s.pinoutCore k with data := d } := by
      funext l
      by_cases hl : l = k
      · subst hl
        simp [hrow, hps]
      · simp [hrow, hl]
    unfold fsmPos at hs
    simp only [hcs] at hs
    cases hs
    refine ⟨by simp [CtrlState.atNeg], rfl, rfl, rfl, by simp [slaveRise], hrdy, ?_, ?_⟩
    · change (slaveRise s i d).pinoutSlave i =
        (fun l => if s.idcFsm i l then (slaveRise s i d).pinoutSlave i else s.pinoutCore l) k
      rw [hpin, hps, Function.update_self]
    · rw [hrw, if_neg Bool.false_ne_true]
      exact hpin
  · have hcs : (slaveRise s i d).cs i = .writePos := hc
    have hfirst : Scan.first ((slaveRise s i d).idcFsm i) = some k := Scan.first_unique hB.row
    unfold fsmPos at hs
    simp only [hcs, hfirst, Option.map_some, Option.some_inj] at hs
    subst hs
    refine ⟨by simp [CtrlState.atNeg], rfl, rfl, rfl, by simp [slaveRise], rfl, ?_, ?_⟩
    · exact Function.update_self ..
    · rw [hrw, if_pos rfl]
      exact (Function.update_eq_self k s.pinoutCore).symm

theorem rise_isSome (d : UInt32) (hB : Busy s i k) (hc : s.cs i = .readPos ∨ s.cs i = .writePos)
    (hseen : s.seen i = true) : (step cfg s (.rise i d)).isSome = true := by
  have hready : s.readySlave i = false := by
    rw [hB.ready]
    rcases hc with hc | hc <;> rw [hc] <;> rfl
  simp only [step, hready, hseen, hB.request, Bool.not_false, Bool.true_and, Bool.true_or, if_true]
  unfold fsmPos
  rcases hc with hc | hc
  · have hcs : (slaveRise s i d).cs i = .readPos := hc
    simp [hcs]
  · have hcs : (slaveRise s i d).cs i = .writePos := hc
    have hfirst : Scan.first ((slaveRise s i d).idcFsm i) = some k := Scan.first_unique hB.row
    simp [hcs, hfirst]

/-- The end of a pulse that was the only one of its request: the master withdraws it, and the port goes on with a
pending request or to rest. -/
theorem fall_own (h : Inv cfg s) (hB : Busy s i k) (hready : s.readySlave i = true) (hone : s.burst i = 1)
    (hseen : s.seen i = true) (hf : fsmNeg cfg (slaveFall s i) i = some t) :
    t.requestCore = Function.update s.requestCore k false ∧ t.readyCore = Function.update s.readyCore k false ∧
      t.pinoutCore = s.pinoutCore ∧ t.seen i = false ∧
      (t.cs i = .idle ∧ t.requestSlave i = false ∨
        t.requestSlave i = true ∧ ∃ l, l ≠ k ∧ t.idcFsm i l = true ∧ t.pinoutSlave i = s.pinoutCore l ∧
          t.cs i = if (s.pinoutCore l).rw then .writePos else .readPos) := by
  obtain ⟨q, hBq, hneg, hlast, hcases⟩ := fall_cases h hready hf
  obtain rfl : q = k := (hB.row q).1 ((hBq.row q).2 rfl)
  have hcount := hB.count
  have hbeats := hB.beats
  have hcore : s.readyCore q = true := by rw [hB.core]; exact hneg
  have h1 : s.beats q = 1 := by omega
  have hreq : (pulseOver s i q).requestCore = Function.update s.requestCore q false := by
    funext l
    by_cases hl : l = q
    · subst hl
      simp [pulseOver, dropReady, slaveFall, hcore, h1]
    · simp [pulseOver, dropReady, slaveFall, hl]
  have hrdy : (pulseOver s i q).readyCore = Function.update s.readyCore q false := by
    funext l
    by_cases hl : l = q
    · subst hl
      simp [pulseOver, dropReady, slaveFall]
    · simp [pulseOver, dropReady, slaveFall, hl]
  have hsn : (pulseOver s i q).seen i = false := by simp [pulseOver, dropReady, slaveFall]
  rcases hcases with ⟨hl, -⟩ | ⟨-, hp, l, hpick, rfl⟩ | ⟨-, rfl⟩
  · omega
  · obtain ⟨hlq, -, -⟩ := chainPick_spec hB hseen hp hpick
    refine ⟨hreq, hrdy, rfl, hsn, Or.inr ⟨by simp [chain], l, hlq, by simp [chain], by simp [chain]; rfl, by
      simp [chain]; rfl⟩⟩
  · exact ⟨hreq, hrdy, rfl, hsn, Or.inl ⟨by simp [release], by simp [release]⟩⟩

theorem fall_isSome (h : Inv cfg s) (hready : s.readySlave i = true) (hseen : s.seen i = true) :
    (step cfg s (.fall i)).isSome = true := by
  obtain ⟨k, hB, hneg, hlast⟩ := fall_busy h hready
  have hend : ∀ pos, (beatEnd cfg (slaveFall s i) i (· == k) pos).isSome = true := by
    intro pos
    unfold beatEnd
    split
    · change (if s.pendingReq i then (chainPick (burstOver cfg s i k) i).map _ else some _).isSome = true
      split
      · rename_i hp
        obtain ⟨q, hq, hqi⟩ := hB.pending hseen hp
        have hqk : q ≠ k := by
          rintro rfl
          rw [(hB.row q).2 rfl] at hqi
          cases hqi
        rw [Option.isSome_map]
        unfold chainPick
        cases hf : Scan.firstFrom ((burstOver cfg s i k).next i + 1) ((burstOver cfg s i k).reqTable i) with
        | some l => rfl
        | none =>
          have := Scan.firstFrom_none.1 hf q
          simp [burstOver, statistics, clear, pulseOver, dropReady, slaveFall, hqk, hq] at this
      · rfl
    · rfl
  simp only [step, hready, hseen, Bool.and_self, if_true]
  unfold lastGroup at hlast
  unfold fsmNeg
  have hcf : (slaveFall s i).cs i = s.cs i := rfl
  rw [hcf]
  cases hcs : s.cs i with
  | readNeg =>
    simp only [hcs] at hlast ⊢
    have hidc : (slaveFall s i).idcFsm i = (· == k) := hlast
    rw [hidc]
    exact hend .readPos
  | writeNeg l =>
    simp only [hcs] at hlast ⊢
    rw [hlast]
    exact hend .writePos
  | _ => rfl

/-- The one master whose ready line rises with the pulse. -/
theorem pulsed_own (hB : Busy s i k) (hc : s.cs i = .readPos ∨ s.cs i = .writePos) : pulsed s i = [k] := by
  unfold pulsed
  rcases hc with hc | hc
  · rw [hc]
    exact Scan.filter_finRange hB.row
  · simp [hc, Scan.first_unique hB.row]

/-- The master of a request of one beat is done with the pulse. -/
theorem lowering_own (hB : Busy s i k) (hneg : (s.cs i).atNeg = true) (hone : s.burst i = 1) : lowering s i = [k] := by
  have hcount := hB.count
  have hbeats := hB.beats
  have hcore : s.readyCore k = true := by rw [hB.core]; exact hneg
  have h1 : s.beats k = 1 := by omega
  have hends : ∀ p : Fin n → Bool, (∀ l, p l = true ↔ l = k) →
      ((List.finRange n).filter fun l => p l && s.readyCore l && s.beats l == 1) = [k] := by
    intro p hp
    refine Scan.filter_finRange fun l => ?_
    simp only [Bool.and_eq_true, beq_iff_eq, hp]
    constructor
    · rintro ⟨⟨hl, -⟩, -⟩
      exact hl
    · rintro rfl
      exact ⟨⟨rfl, hcore⟩, h1⟩
  unfold lowering
  cases hcs : s.cs i with
  | readNeg => exact hends _ hB.row
  | writeNeg l =>
    obtain rfl : l = k := hB.mode l hcs
    exact hends _ fun q => beq_iff_eq
  | _ =>
    rw [hcs] at hneg
    cases hneg

/-! ## Single beats at the shared ports -/

theorem slavePort_some {ids : Int} (h : slavePort m ids = some j) : ids = j.val := by
  unfold slavePort at h
  split at h
  · cases h
    simp only
    omega
  · cases h

/-- The ports of the L3 are private, and the first `n`. -/
theorem decode_port {address : Nat} (hm : n + 4 ≤ m) (h : decode m cfg.ID k address = some j) :
    if isInL3Space address cfg.ID then j.val = k.val else n ≤ j.val := by
  unfold decode at h
  split at h
  · rename_i hL3
    rw [if_pos hL3]
    have := slavePort_some h
    omega
  · rename_i hL3
    rw [if_neg hL3]
    split_ifs at h <;> have := slavePort_some h <;> omega

/-- **The condition on chained requests** is met where only the private ports are asked for bursts. -/
theorem guarded_of_single (h : Inv cfg s) (hm : n + 4 ≤ m)
    (hsingle : ∀ k, s.requestCore k = true → (s.pinoutCore k).burst = 1 ∨ isInL3Space (s.pinoutCore k).address cfg.ID = true)
    (hready : s.readySlave j = true) (hseen : s.seen j = true) : Guarded s (.fall j) := by
  intro _ hp l hpick
  obtain ⟨k, hB, -, hlast⟩ := fall_busy h hready
  have hpick' : chainPick (burstOver cfg s j k) j = some l := (chainPick_burstOver hlast).trans hpick
  obtain ⟨hlk, htab, -⟩ := chainPick_spec hB hseen hp hpick'
  obtain ⟨hlreq, -, hlroute⟩ := h.table htab
  obtain ⟨hkreq, hkroute⟩ := hB.asks h
  have hl := decode_port hm hlroute
  have hk := decode_port hm hkroute
  have hne : l.val ≠ k.val := fun he => hlk (Fin.ext he)
  have hshared : isInL3Space (s.pinoutCore l).address cfg.ID = false := by
    by_contra hL3
    rw [Bool.not_eq_false] at hL3
    rw [if_pos hL3] at hl
    split at hk
    · omega
    · have := l.isLt
      omega
  rw [hshared, if_neg Bool.false_ne_true] at hl
  have hshared' : isInL3Space (s.pinoutCore k).address cfg.ID = false := by
    by_contra hL3
    rw [Bool.not_eq_false] at hL3
    rw [if_pos hL3] at hk
    have := k.isLt
    omega
  rw [← hB.burst]
  have h1 := hsingle l hlreq
  have h2 := hsingle k hkreq
  rw [hshared] at h1
  rw [hshared'] at h2
  exact (h1.resolve_right Bool.false_ne_true).trans (h2.resolve_right Bool.false_ne_true).symm

end VirtualSoc.Pic
