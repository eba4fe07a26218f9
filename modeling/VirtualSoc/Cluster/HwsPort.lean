import VirtualSoc.Cluster.HwsWrites

/-!
# A core on one programming port (cluster/cl_hws.cpp)

`programme` looks at all ports for the requests of a core. A core is a bus master with one access at a time, so
it is on one port at most (`OnePort`), and then the machine either takes its one request (`serve`), waits, or
acknowledges the request before.
-/

namespace VirtualSoc.Hws

variable {p q : Nat}

/-- The only request of the core on the programming ports. -/
structure Alone (prg : Fin p → Option Request) (core : Core) (port : Fin p) (var : Request) : Prop where
  here : prg port = some var
  own : var.id = core.val
  only : ∀ port' var', prg port' = some var' → var'.id = core.val → port' = port

/-- No request of the core. -/
def Silent (prg : Fin p → Option Request) (core : Core) : Prop := ∀ port, ∀ var ∈ prg port, var.id ≠ core.val

/-- The core is on one port at most. -/
def OnePort (prg : Fin p → Option Request) (core : Core) : Prop :=
  ∀ port port', (prg port).any (·.id == core.val) = true → (prg port').any (·.id == core.val) = true → port' = port

instance (prg : Fin p → Option Request) (core : Core) : Decidable (OnePort prg core) :=
  inferInstanceAs (Decidable (∀ port port' : Fin p, _ → _ → port' = port))

/-- The states that take a request. -/
def ProgramState.takes : ProgramState → Bool
  | .requestType | .askEvent | .waitEvent | .manageEvent | .releaseOrFreeEvent | .releaseEvent => true
  | _ => false

/-- What the machine does with a request. -/
def serve (cfg : Config) (s : State p q) (core : Core) (m : Machine p) :
    Fin p → Request → Option (Machine p × List (Write p q)) :=
  match m.state with
  | .requestType => requestType core m
  | .askEvent => askEvent core m
  | .waitEvent => waitEvent s core m
  | .manageEvent => manageEvent core m
  | .releaseOrFreeEvent => releaseOrFree cfg core m
  | .releaseEvent => releaseEvent cfg s core m
  | _ => fun _ _ => none

/-- The state after an acknowledgement. -/
def Machine.acknowledged (m : Machine p) : ProgramState :=
  match m.state with
  | .requestAcc | .releaseOrFreeAcc => m.nextNext
  | .askAcc => .waitEvent
  | .waitAcc => if !m.gotEvent && m.inQueue then .waitEvent else .requestType
  | .manageAcc => .releaseOrFreeEvent
  | _ => .requestType

variable {cfg : Config} {s t : State p q} {a : Edge p q} {prg : Fin p → Option Request} {core : Core} {port : Fin p}
  {var : Request} {m m' : Machine p} {ws : List (Write p q)}

theorem OnePort.cases (h : OnePort prg core) : Silent prg core ∨ ∃ port var, Alone prg core port var := by
  by_cases hany : ∃ port, ∃ var ∈ prg port, var.id = core.val
  · obtain ⟨port, var, hv, hid⟩ := hany
    refine .inr ⟨port, var, hv, hid, fun port' var' hv' hid' => h port port' ?_ ?_⟩
    · rw [show prg port = some var from hv, Option.any_some, beq_iff_eq]
      exact hid
    · rw [hv', Option.any_some, beq_iff_eq]
      exact hid'
  · exact .inl fun port var hv hid => hany ⟨port, var, hv, hid⟩

theorem scanPorts_silent {body : Machine p → Fin p → Request → Option (Machine p × List (Write p q))}
    (h : Silent prg core) (ports : List (Fin p)) : scanPorts prg core body ports m = some (m, []) := by
  induction ports with
  | nil => rfl
  | cons port ports ih =>
    simp only [scanPorts]
    cases hv : prg port with
    | none => exact ih
    | some var =>
      simp only []
      rw [if_neg (h port var hv)]
      exact ih

/-- The loop serves the one port. -/
theorem scanPorts_alone {body : Machine p → Fin p → Request → Option (Machine p × List (Write p q))}
    (h : Alone prg core port var) : scanPorts prg core body (List.finRange p) m = body m port var := by
  have hloop : ∀ (ports : List (Fin p)) (m : Machine p), ports.Nodup →
      scanPorts prg core body ports m = if port ∈ ports then body m port var else some (m, []) := by
    intro ports
    induction ports with
    | nil => exact fun m _ => (if_neg List.not_mem_nil).symm
    | cons port' ports ih =>
      intro m hnodup
      obtain ⟨hnot, hnodup⟩ := List.nodup_cons.1 hnodup
      simp only [scanPorts]
      by_cases heq : port' = port
      · subst heq
        simp only [h.here, if_pos h.own, ih _ hnodup, if_neg hnot, if_pos List.mem_cons_self]
        cases body m port' var with
        | none => rfl
        | some r => simp
      · have hmem : port ∈ port' :: ports ↔ port ∈ ports := by
          rw [List.mem_cons]
          exact or_iff_right (Ne.symm heq)
        simp only [hmem]
        rw [← ih m hnodup]
        cases hv : prg port' with
        | none => rfl
        | some var' => exact if_neg fun hid => heq (h.only port' var' hv hid)
  rw [hloop _ _ (List.nodup_finRange p), if_pos (List.mem_finRange port)]

/-! ## The machine -/

theorem machineStep_silent (h : Silent prg core) (ht : m.state.takes = true) :
    machineStep (q := q) cfg s prg core m = some (m, []) := by
  unfold machineStep
  cases hs : m.state with
  | requestType | waitEvent | manageEvent | releaseOrFreeEvent | releaseEvent => exact scanPorts_silent h _
  | askEvent => exact scanPorts_silent h _
  | _ =>
    rw [hs] at ht
    cases ht

theorem machineStep_alone (h : Alone prg core port var) (ht : m.state.takes = true) :
    machineStep cfg s prg core m = serve cfg s core m port var := by
  unfold machineStep serve
  cases hs : m.state with
  | requestType | waitEvent | manageEvent | releaseOrFreeEvent | releaseEvent => exact scanPorts_alone h
  | askEvent =>
    -- this loop stops at the port of the core
    have hfind : (List.finRange p).find? (fun port => (prg port).any fun var => var.id == core.val) = some port := by
      cases hf : (List.finRange p).find? fun port => (prg port).any fun var => var.id == core.val with
      | none =>
        have hno := List.find?_eq_none.1 hf port (List.mem_finRange port)
        simp [h.here, h.own] at hno
      | some port' =>
        have hany : (prg port').any (fun var => var.id == core.val) = true := by simpa using List.find?_some hf
        cases hv : prg port' with
        | none =>
          rw [hv] at hany
          cases hany
        | some var' =>
          rw [hv, Option.any_some, beq_iff_eq] at hany
          rw [h.only port' var' hv hany]
    simp only [hfind, Option.toList_some, scanPorts, h.here, if_pos h.own]
    cases askEvent (q := q) core m port var with
    | none => rfl
    | some r => simp
  | _ =>
    rw [hs] at ht
    cases ht

theorem machineStep_acknowledge (ht : m.state.takes = false) :
    machineStep (q := q) cfg s prg core m = some (acknowledge m m.acknowledged) := by
  unfold machineStep Machine.acknowledged
  cases hs : m.state with
  | requestType | askEvent | waitEvent | manageEvent | releaseOrFreeEvent | releaseEvent =>
    rw [hs] at ht
    cases ht
  | _ => rfl

/-- The machine of a core that is on one port: it waits, takes the request, or acknowledges. -/
theorem machineStep_cases (hone : OnePort prg core) (h : machineStep cfg s prg core m = some (m', ws)) :
    m.state.takes = true ∧ Silent prg core ∧ m' = m ∧ ws = [] ∨
    (m.state.takes = true ∧ ∃ port var, Alone prg core port var ∧ serve cfg s core m port var = some (m', ws)) ∨
    m.state.takes = false ∧ m' = { m with state := m.acknowledged } := by
  cases ht : m.state.takes with
  | true =>
    rcases hone.cases with hsilent | ⟨port, var, halone⟩
    · rw [machineStep_silent hsilent ht] at h
      obtain ⟨rfl, rfl⟩ := Prod.mk.inj (Option.some.inj h)
      exact .inl ⟨rfl, hsilent, rfl, rfl⟩
    · rw [machineStep_alone halone ht] at h
      exact .inr (.inl ⟨rfl, port, var, halone, h⟩)
  | false =>
    rw [machineStep_acknowledge ht] at h
    exact .inr (.inr ⟨rfl, (Prod.mk.inj (Option.some.inj h)).1.symm⟩)

end VirtualSoc.Hws
