import VirtualSoc.Cluster.PicInv

/-!
# Exactly-once service through the peripheral interconnect (cluster/cl_pic.cpp)

What a master may see of its request is a small automaton: it goes to the slave of its
address, gets that many ready pulses from that slave as its burst has beats, and is lowered at
the end of the last. `served_of_guarded`: in every run whose steps are `Guarded` the trace of
all masters is one of this automaton, at most one master is served by a slave, one exactly
when the slave is busy, and a request that is not over is still known to the interconnect.

Without the guard this fails: the fsm reads `pinout.burst` in `IDLE` only (cl_pic.cpp:317), so
a pending request that is chained from `READ` or `WRITE` is counted with the burst of the
request before it. `not_served_chained` is such a run.
-/

namespace VirtualSoc.Pic

variable {n m : Nat} {cfg : Config n} {s t : State n m} {i : Fin m} {k : Fin n}

/-- For each master the slave of its outstanding request and the pulses it has not seen. -/
abbrev Outstanding (n m : Nat) := Fin n → Option (Fin m × Nat)

/-- The service of every master: a request is not repeated before it is over, each pulse comes
from the slave of the request, and the request is over after exactly `burst` pulses. -/
def service (v : Outstanding n m) : Event n m → Option (Outstanding n m)
  | .request k i burst => if v k = none then some (Function.update v k (some (i, burst))) else none
  | .ready k i =>
    match v k with
    | some (j, r + 1) => if j = i then some (Function.update v k (some (j, r))) else none
    | _ => none
  | .done k =>
    match v k with
    | some (_, 0) => some (Function.update v k none)
    | _ => none

/-- A request that is not over: it is served, it is in the table, it will be scanned at the
next clock edge, or it will be sampled at the next clock edge. -/
def Known (cfg : Config n) (s : State n m) (k : Fin n) (i : Fin m) : Prop :=
  s.requestCore k = true ∧ slaveOf cfg s k = some i ∧
    (s.poll k = .waitClock ∨
      s.req k = true ∧ (s.served k = false ∨ s.idcFsm i k = true ∧ s.requestSlave i = true))

/-- The service automaton agrees with the request lines and the masters' pulse counts. -/
def Agrees (cfg : Config n) (s : State n m) (v : Outstanding n m) : Prop :=
  ∀ k, match v k with
    | none => s.requestCore k = false
    | some (i, r) => s.requestCore k = true ∧ slaveOf cfg s k = some i ∧ r + (s.readyCore k).toNat = s.beats k

theorem agrees_none {v : Outstanding n m} (h : Agrees cfg s v) (hk : s.requestCore k = false) : v k = none := by
  have := h k
  cases hv : v k with
  | none => rfl
  | some p =>
    rw [hv] at this
    rw [this.1] at hk
    cases hk

theorem agrees_some {v : Outstanding n m} (h : Agrees cfg s v) (hk : s.requestCore k = true) :
    ∃ i r, v k = some (i, r) ∧ slaveOf cfg s k = some i ∧ r + (s.readyCore k).toNat = s.beats k := by
  have := h k
  cases hv : v k with
  | none => rw [hv] at this; rw [this] at hk; cases hk
  | some p => rw [hv] at this; exact ⟨p.1, p.2, rfl, this.2⟩

/-- Where a master's lines and counts do not change, its part of the automaton need not. -/
theorem agrees_congr {v : Outstanding n m} (h : Agrees cfg s v) {v' : Outstanding n m}
    (hsame : ∀ l, l ≠ k → v' l = v l ∧ t.requestCore l = s.requestCore l ∧ slaveOf cfg t l = slaveOf cfg s l ∧
      t.readyCore l = s.readyCore l ∧ t.beats l = s.beats l)
    (hk : match v' k with
      | none => t.requestCore k = false
      | some (i, r) => t.requestCore k = true ∧ slaveOf cfg t k = some i ∧
          r + (t.readyCore k).toNat = t.beats k) : Agrees cfg t v' := by
  intro l
  by_cases hl : l = k
  · subst hl; exact hk
  · obtain ⟨e1, e2, e3, e4, e5⟩ := hsame l hl
    have := h l
    rw [e1, e2, e3, e4, e5]
    exact this

theorem raise_service {p : Pinout} {v : Outstanding n m} (h : Inv cfg s) (hv : Agrees cfg s v)
    (hk : s.requestCore k = false) (hp : (decode m cfg.ID k p.address).isSome = true) :
    ∃ v', Trans.run service v (obs cfg s (.raise k p)) = some v' ∧ Agrees cfg (raiseRequest s k p) v' := by
  obtain ⟨i, hi⟩ := Option.isSome_iff_exists.1 hp
  have hserved : s.served k = false := by
    by_contra hs
    obtain ⟨j, hj⟩ := h.books.served k (by simpa using hs)
    rw [(h.table (h.books.grp j k hj).1).1] at hk
    cases hk
  refine ⟨Function.update v k (some (i, p.burst)), ?_, agrees_congr (k := k) hv (fun l hl => ?_) ?_⟩
  · simp [obs, hi, Trans.run, service, agrees_none hv hk]
  · simp [raiseRequest, slaveOf, hl]
  · simp [raiseRequest, slaveOf, hi, h.quiet k hserved]

/-- A pulse of slave `i` reaches the one master that `i` serves. -/
theorem rise_service {d : UInt32} {v : Outstanding n m} (h : Inv cfg s) (hv : Agrees cfg s v)
    (hready : s.readySlave i = false) (hg : s.requestSlave i = true ∨ 0 < s.owed i)
    (hs : fsmPos (slaveRise s i d) i = some t) :
    ∃ v', Trans.run service v (obs cfg s (.rise i d)) = some v' ∧ Agrees cfg t v' := by
  obtain ⟨k, hB, hc⟩ := rise_busy h hready hg
  have hk := (hB.row k).2 rfl
  obtain ⟨hreq, -, hroute⟩ := h.table (h.books.grp i k hk).1
  obtain ⟨j, r, hvk, hj, hr⟩ := agrees_some hv hreq
  obtain rfl : i = j := Option.some.inj (hroute.symm.trans hj)
  have hneg : (s.cs i).atNeg = false := by rw [← hB.ready]; exact hready
  have hcore : s.readyCore k = false := by rw [hB.core]; exact hneg
  have hcount := hB.count
  have hbeats := hB.beats
  rw [hcore, Bool.toNat_false, Nat.add_zero] at hr
  have hpulsed : pulsed s i = [k] := by
    unfold pulsed
    rcases hc with hc | hc
    · rw [hc]; exact Scan.filter_finRange hB.row
    · simp [hc, Scan.first_unique hB.row]
  obtain ⟨c, pc, ps, -, -, hpca, -, -, -, rfl⟩ := rise_spec hB hc hs
  obtain ⟨r', rfl⟩ : ∃ r', r = r' + 1 := ⟨r - 1, by omega⟩
  refine ⟨Function.update v k (some (i, r')), ?_, agrees_congr (k := k) hv (fun l hl => ?_) ?_⟩
  · simp [obs, hpulsed, Trans.run, service, hvk]
  · simp [slaveOf, slaveRise, hl]
  · have hslave : decode m cfg.ID k pc.address = some i := by rw [hpca]; exact hroute
    simp [slaveOf, slaveRise, hreq, hslave, hr]

/-- At the end of a pulse its master is done exactly when the fsm is. -/
theorem fall_service {v : Outstanding n m} (h : Inv cfg s) (hv : Agrees cfg s v) (hready : s.readySlave i = true)
    (hf : fsmNeg cfg (slaveFall s i) i = some t) :
    ∃ v', Trans.run service v (obs cfg s (.fall i)) = some v' ∧ Agrees cfg t v' := by
  obtain ⟨k, hB, hneg, hlast, hcases⟩ := fall_cases h hready hf
  have hk := (hB.row k).2 rfl
  obtain ⟨hreq, -, hroute⟩ := h.table (h.books.grp i k hk).1
  obtain ⟨j, r, hvk, hj, hr⟩ := agrees_some hv hreq
  have hcore : s.readyCore k = true := by rw [hB.core]; exact hneg
  have hcount := hB.count
  have hbeats := hB.beats
  rw [hcore, Bool.toNat_true] at hr
  have hlow : lowering s i = (List.finRange n).filter fun l => l == k && s.readyCore l && s.beats l == 1 := by
    unfold lastGroup at hlast
    unfold lowering
    cases hcs : s.cs i with
    | readNeg => simp only [hcs] at hlast ⊢; rw [hlast]
    | writeNeg l =>
      simp only [hcs] at hlast ⊢
      obtain rfl : l = k := hB.mode l hcs
      rfl
    | _ => rw [hcs] at hneg; cases hneg
  -- the lines of the masters after the pulse, in every case
  have hlines : ∀ l, t.requestCore l = (pulseOver s i k).requestCore l ∧ slaveOf cfg t l = slaveOf cfg s l ∧
      t.readyCore l = (pulseOver s i k).readyCore l ∧ t.beats l = (pulseOver s i k).beats l := by
    intro l
    rcases hcases with ⟨-, c, -, -, rfl⟩ | ⟨-, -, q, -, rfl⟩ | ⟨-, rfl⟩ <;> exact ⟨rfl, rfl, rfl, rfl⟩
  have hother : ∀ l, l ≠ k → t.requestCore l = s.requestCore l ∧ slaveOf cfg t l = slaveOf cfg s l ∧
      t.readyCore l = s.readyCore l ∧ t.beats l = s.beats l := by
    intro l hl
    obtain ⟨e1, e2, e3, e4⟩ := hlines l
    rw [e1, e2, e3, e4]
    simp [pulseOver, dropReady, slaveFall, hl]
  obtain ⟨e1, e2, e3, e4⟩ := hlines k
  by_cases h1 : s.beats k = 1
  · have hlow' : lowering s i = [k] := by
      rw [hlow]
      refine Scan.filter_finRange fun l => ?_
      simp only [Bool.and_eq_true, beq_iff_eq]
      exact ⟨fun hl => hl.1.1, fun hl => by subst hl; exact ⟨⟨rfl, hcore⟩, h1⟩⟩
    obtain rfl : r = 0 := by omega
    refine ⟨Function.update v k none, ?_, agrees_congr (k := k) hv (fun l hl => ?_) ?_⟩
    · simp [obs, hlow', Trans.run, service, hvk]
    · simpa [hl] using hother l hl
    · simp [e1, pulseOver, dropReady, slaveFall, hcore, h1]
  · have hlow' : lowering s i = [] := by
      rw [hlow, List.filter_eq_nil_iff]
      intro l _
      simp only [Bool.and_eq_true, beq_iff_eq]
      rintro ⟨⟨rfl, -⟩, h2⟩
      exact h1 h2
    refine ⟨v, by simp [obs, hlow'], agrees_congr (k := k) hv (fun l hl => ⟨rfl, hother l hl⟩) ?_⟩
    have hnow : (pulseOver s i k).requestCore k = true ∧ (pulseOver s i k).readyCore k = false ∧
        (pulseOver s i k).beats k = s.beats k - 1 := by
      simp [pulseOver, dropReady, slaveFall, hcore, h1, hreq]
    rw [hvk]
    refine ⟨by rw [e1]; exact hnow.1, by rw [e2]; exact hj, ?_⟩
    rw [e3, e4, hnow.2.1, hnow.2.2, Bool.toNat_false]
    omega

/-- **One action**: the service automaton follows it. -/
theorem step_service {a : Action n m} {v : Outstanding n m} (h : Inv cfg s) (hv : Agrees cfg s v)
    (hs : step cfg s a = some t) : ∃ v', Trans.run service v (obs cfg s a) = some v' ∧ Agrees cfg t v' := by
  obtain ⟨early, rfl, rfl⟩ | ⟨k, p, rfl, hk, hp, hb, rfl⟩ | ⟨k, d, rfl, rfl⟩ | ⟨i, d, rfl, hready, hg, hf⟩ |
    ⟨i, rfl, hready, hseen, hf⟩ := step_cases hs
  · exact ⟨v, rfl, fun l => hv l⟩
  · exact raise_service h hv hk hp
  · refine ⟨v, rfl, agrees_congr (k := k) hv (fun l hl => by simp [slaveOf, hl]) ?_⟩
    have := hv k
    cases hvk : v k with
    | none => rw [hvk] at this; exact this
    | some p => rw [hvk] at this; simpa [slaveOf] using this
  · exact rise_service h hv hready hg hf
  · exact fall_service h hv hready hf

/-- What the invariant says about an outstanding request. -/
theorem known_of_inv (h : Inv cfg s) (hreq : s.requestCore k = true) (hi : slaveOf cfg s k = some i) :
    Known cfg s k i := by
  refine ⟨hreq, hi, ?_⟩
  have hp := h.poll k
  unfold Polled at hp
  cases hpk : s.poll k with
  | waitRequest => rw [hpk] at hp; rw [hp.1] at hreq; cases hreq
  | waitClock => exact Or.inl rfl
  | waitServed =>
    rw [hpk] at hp
    refine Or.inr ⟨hp.2, ?_⟩
    by_cases hs : s.served k = true
    · obtain ⟨j, hj⟩ := h.books.served k hs
      obtain rfl : j = i := Option.some.inj ((h.table (h.books.grp j k hj).1).2.2.symm.trans hi)
      obtain ⟨l, hB⟩ := h.busy j (h.not_idle hj)
      exact Or.inr ⟨hj, hB.request⟩
    · exact Or.inl (by simpa using hs)

/-- At most one master a slave, one exactly when it is busy. -/
theorem exclusive_of_inv (h : Inv cfg s) (i : Fin m) :
    (∀ k l, s.idcFsm i k = true → s.idcFsm i l = true → k = l) ∧
      ((∃ k, s.idcFsm i k = true) ↔ s.busyFsm i = true) := by
  by_cases hc : s.cs i = .idle
  · have hI := h.idle i hc
    refine ⟨fun k l hk => ?_, fun ⟨k, hk⟩ => ?_, fun hb => ?_⟩
    · rw [hI.row k] at hk; cases hk
    · rw [hI.row k] at hk; cases hk
    · rw [hI.busy] at hb; cases hb
  · obtain ⟨q, hB⟩ := h.busy i hc
    exact ⟨fun k l hk hl => ((hB.row k).1 hk).trans ((hB.row l).1 hl).symm,
      fun _ => hB.busy, fun _ => ⟨q, (hB.row q).2 rfl⟩⟩

/-- **Exactly-once service** in every run whose chained requests have the burst that their fsm
counts to: in the state reached each slave serves at most one master, and one exactly when it
is busy; the trace is one of the service automaton; and every request that is not over is
known to the interconnect. -/
theorem served_of_guarded {as : List (Action n m)} (hr : Trans.run (step cfg) (init : State n m) as = some t)
    (hG : Trans.Along (step cfg) Guarded (init : State n m) as) :
    (∀ i, (∀ k l, t.idcFsm i k = true → t.idcFsm i l = true → k = l) ∧
      ((∃ k, t.idcFsm i k = true) ↔ t.busyFsm i = true)) ∧
    ∃ v, Trans.run service (fun _ => none) (Trans.trace (step cfg) (obs cfg) (init : State n m) as) = some v ∧
      ∀ k, match v k with
        | none => t.requestCore k = false
        | some (i, _) => Known cfg t k i := by
  have hsim : ∀ (s : State n m) a t v, (Inv cfg s ∧ Agrees cfg s v) → Guarded s a → step cfg s a = some t →
      ∃ v', Trans.run service v (obs cfg s a) = some v' ∧ (Inv cfg t ∧ Agrees cfg t v') := by
    rintro s a t v ⟨hI, hv⟩ hG hs
    obtain ⟨v', hv', hA⟩ := step_service hI hv hs
    exact ⟨v', hv', step_inv hI hG hs, hA⟩
  have h0 : Inv cfg (init : State n m) ∧ Agrees cfg (init : State n m) (fun _ => none) := ⟨init_inv, fun _ => rfl⟩
  obtain ⟨v, hv, hI, hA⟩ := Trans.accepts_of_sim (fun s v => Inv cfg s ∧ Agrees cfg s v) hsim h0 hG hr
  refine ⟨exclusive_of_inv hI, v, hv, fun k => ?_⟩
  have hk := hA k
  cases hvk : v k with
  | none => rw [hvk] at hk; exact hk
  | some p =>
    rw [hvk] at hk
    exact known_of_inv hI hk.1 hk.2.1

/-! ## Two masters at the semaphores -/

/-- A request to the first semaphore. -/
def semRead (burst : Nat) : Pinout := { address := CL_SEM_BASE, burst := burst }

def master0 : Fin 2 := (Fin.last 0).castSucc
def master1 : Fin 2 := Fin.last 1

def twoMasters : Config 2 := ⟨0, .roundRobin, fun _ => true⟩

/-- Both masters ask for the semaphores: slave 2 of six. -/
def askBoth (b0 b1 : Nat) : List (Action 2 6) :=
  [.raise master0 (semRead b0), .raise master1 (semRead b1), .clock fun _ => false]

/-- One ready pulse of slave 2. -/
def pulse : List (Action 2 6) := [.clock fun _ => true, .rise 2 0, .clock fun _ => true, .fall 2]

/-- Two single-beat requests, the second chained. -/
def singleBeats : List (Action 2 6) := askBoth 1 1 ++ pulse ++ pulse

theorem served_singleBeats :
    ∃ v, Trans.run service (fun _ => none)
      (Trans.trace (step twoMasters) (obs twoMasters) (init : State 2 6) singleBeats) = some v :=
  have hsome : (Trans.run (step twoMasters) (init : State 2 6) singleBeats).isSome = true := by decide +kernel
  let ⟨v, hv, _⟩ := (served_of_guarded (Option.some_get hsome).symm (by decide +kernel)).2
  ⟨v, hv⟩

/-- Master 0 reads two words, master 1 one: the second is chained and gets two pulses. -/
def chainedShorter : List (Action 2 6) := askBoth 2 1 ++ pulse ++ pulse ++ pulse ++ pulse

/-- **The stale burst**: master 1 is answered again after its request is over. -/
theorem not_served_chained :
    Trans.trace (step twoMasters) (obs twoMasters) (init : State 2 6) chainedShorter =
      [.request 0 2 2, .request 1 2 1, .ready 0 2, .ready 0 2, .done 0, .ready 1 2, .done 1, .ready 1 2] ∧
    Trans.run service (fun _ => none)
      (Trans.trace (step twoMasters) (obs twoMasters) (init : State 2 6) chainedShorter) = none := by
  have htrace : Trans.trace (step twoMasters) (obs twoMasters) (init : State 2 6) chainedShorter =
      [.request 0 2 2, .request 1 2 1, .ready 0 2, .ready 0 2, .done 0, .ready 1 2, .done 1, .ready 1 2] := by
    decide +kernel
  refine ⟨htrace, ?_⟩
  rw [htrace]
  decide

end VirtualSoc.Pic
