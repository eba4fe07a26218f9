import VirtualSoc.Cluster.Hws

/-!
# What the processes of the synchroniser write (cluster/cl_hws.cpp)

One lemma a process: what `programme` may store in a counter (`programme_write`), what `notify` does to
an event that it reloads (`mem_notifyWrites`), and what `signal` counts off (`countOffAll_at`). The counters
stay bytes (`step_bytes`).
-/

namespace VirtualSoc.Hws

variable {p q : Nat} {cfg : Config} {s t : State p q} {a : Edge p q} {e : Event} {core : Core}

/-! ## The counter word -/

theorem reserved_iff (v : Nat) : v &&& 0x80 = 0 ↔ v.testBit 7 = false := by
  rw [show (0x80 : Nat) = 2 ^ 7 from rfl, Nat.and_two_pow]
  cases v.testBit 7 <;> simp

theorem reserved_shift {v : Nat} (h : (v &&& 0x80) >>> 7 = 0) : v &&& 0x80 = 0 := by
  rw [show (0x80 : Nat) = 2 ^ 7 from rfl, Nat.and_two_pow] at h ⊢
  revert h
  cases v.testBit 7 <;> simp

/-- Bit 7 and the low seven bits of a byte. -/
theorem counter_iff {v : Nat} (hv : v < 256) :
    (v &&& 0x80 ≠ 0 ↔ 128 ≤ v) ∧ v &&& 0x7F = v % 128 ∧ v &&& 0xFF = v := by
  revert v
  decide +kernel

theorem decrement_eq {v : Nat} (hv : v < 256) (hr : v &&& 0x80 ≠ 0) (hp : v &&& 0x7F ≠ 0) : decrement v = v - 1 := by
  revert v
  decide +kernel

/-- The word of a reservation. -/
theorem reserve_eq {n : Nat} : (0x80 ||| n) % 256 = 0x80 ||| n % 256 :=
  Nat.or_mod_two_pow (n := 8)

theorem reserve_bit (n : Nat) : (0x80 ||| n) % 256 &&& 0x80 ≠ 0 ∧ (0x80 ||| n) % 256 < 256 := by
  refine ⟨?_, Nat.mod_lt _ (by decide)⟩
  rw [Ne, reserved_iff, reserve_eq, Nat.testBit_or, show Nat.testBit 0x80 7 = true from by decide]
  simp

/-! ## The order of the processes -/

theorem order_cases {l : List Process} (h : l.Perm [.programme, .notify, .signal]) :
    l = [.programme, .notify, .signal] ∨ l = [.notify, .programme, .signal] ∨ l = [.programme, .signal, .notify] ∨
      l = [.notify, .signal, .programme] ∨ l = [.signal, .programme, .notify] ∨
        l = [.signal, .notify, .programme] := by
  obtain ⟨x, y, z, rfl⟩ := List.length_eq_three.1 h.length_eq
  revert h
  cases x <;> cases y <;> cases z <;> decide

/-- The processes that run before `signal`, and those that run after it. -/
def before (a : Edge p q) : List Process := a.order.takeWhile (· != .signal)

def after (a : Edge p q) : List Process := (a.order.dropWhile (· != .signal)).tail

theorem order_split (h : a.order.Perm [.programme, .notify, .signal]) :
    a.order = before a ++ .signal :: after a ∧ .signal ∉ before a ∧ .signal ∉ after a := by
  unfold before after
  obtain h | h | h | h | h | h := order_cases h <;> rw [h] <;> decide

/-! ## `programme` -/

/-- What a machine may write: a counter is freed, or it gets a reservation that it did not have. No core is
stopped. -/
def ProgrammeWrite (s : State p q) : Write p q → Prop
  | .counter e v => v = 0 ∨ s.atomicCounters e &&& 0x80 = 0 ∧ v &&& 0x80 ≠ 0 ∧ v < 256
  | .setValue _ v => v < 256
  | .halt _ => False
  | _ => True

/-- What a machine is at work on: the states that answer, release or free an event keep it. -/
def Machine.SameTask (m m' : Machine p) : Prop :=
  m'.nslTemp = m.nslTemp ∧ m'.evManaging = m.evManaging ∧ m'.maskType = m.maskType

/-- What each request that the loop serves does to the machine and writes, the whole loop does. -/
theorem scanPorts_rel {prg : Fin p → Option Request} {R : Machine p → Machine p → List (Write p q) → Prop}
    {J : Machine p → Prop} {body : Machine p → Fin p → Request → Option (Machine p × List (Write p q))}
    (hnil : ∀ m, R m m []) (happ : ∀ m m₁ m₂ ws us, R m m₁ ws → R m₁ m₂ us → R m m₂ (ws ++ us))
    (hbody : ∀ m port var m' ws, J m → prg port = some var → var.id = core.val → body m port var = some (m', ws) →
      J m' ∧ R m m' ws)
    {ports : List (Fin p)} {m m' : Machine p} {ws : List (Write p q)} (hm : J m)
    (h : scanPorts prg core body ports m = some (m', ws)) : R m m' ws := by
  induction ports generalizing m m' ws with
  | nil =>
    simp only [scanPorts, Option.some.injEq, Prod.mk.injEq] at h
    obtain ⟨rfl, rfl⟩ := h
    exact hnil m
  | cons port ports ih =>
    simp only [scanPorts] at h
    cases hv : prg port with
    | none =>
      rw [hv] at h
      exact ih hm h
    | some var =>
      simp only [hv] at h
      split at h
      · rename_i hid
        simp only [Option.bind_eq_some_iff, Option.map_eq_some_iff, Prod.mk.injEq, Prod.exists] at h
        obtain ⟨m₁, ws₁, h₁, m₂, ws₂, h₂, rfl, rfl⟩ := h
        obtain ⟨hm₁, hw₁⟩ := hbody m port var m₁ ws₁ hm hv hid h₁
        exact happ m m₁ m₂ ws₁ ws₂ hw₁ (ih hm₁ h₂)
      · exact ih hm h

/-- A property of the writes for each request is one of the writes of the loop over the ports. -/
theorem scanPorts_spec {prg : Fin p → Option Request} {Q : List (Write p q) → Prop} {J : Machine p → Prop}
    {body : Machine p → Fin p → Request → Option (Machine p × List (Write p q))} (hnil : Q [])
    (happ : ∀ ws us, Q ws → Q us → Q (ws ++ us))
    (hbody : ∀ m port var m' ws, J m → prg port = some var → var.id = core.val → body m port var = some (m', ws) →
      J m' ∧ Q ws)
    {ports : List (Fin p)} {m m' : Machine p} {ws : List (Write p q)} (hm : J m)
    (h : scanPorts prg core body ports m = some (m', ws)) : Q ws :=
  scanPorts_rel (R := fun _ _ ws => Q ws) (fun _ => hnil) (fun _ _ _ => happ) hbody hm h

/-- The loop serves each port with a request of its core. -/
theorem scanPorts_served {prg : Fin p → Option Request} {J : Machine p → Prop}
    {body : Machine p → Fin p → Request → Option (Machine p × List (Write p q))}
    (hbody : ∀ m port var m' ws, J m → body m port var = some (m', ws) → J m')
    {ports : List (Fin p)} {port : Fin p} {var : Request} {m m' : Machine p} {ws : List (Write p q)} (hm : J m)
    (h : scanPorts prg core body ports m = some (m', ws)) (hport : port ∈ ports) (hv : prg port = some var)
    (hid : var.id = core.val) : ∃ m₁ m₂ us, J m₁ ∧ body m₁ port var = some (m₂, us) ∧ us ⊆ ws := by
  induction ports generalizing m m' ws with
  | nil => cases hport
  | cons port' ports ih =>
    simp only [scanPorts] at h
    by_cases heq : port' = port
    · subst heq
      simp only [hv, if_pos hid, Option.bind_eq_some_iff, Option.map_eq_some_iff, Prod.mk.injEq, Prod.exists] at h
      obtain ⟨m₁, ws₁, h₁, m₂, ws₂, -, -, rfl⟩ := h
      exact ⟨m, m₁, ws₁, hm, h₁, List.subset_append_left ws₁ ws₂⟩
    · have hport : port ∈ ports := (List.mem_cons.1 hport).resolve_left (Ne.symm heq)
      cases hv' : prg port' with
      | none =>
        rw [hv'] at h
        exact ih hm h hport
      | some var' =>
        simp only [hv'] at h
        split at h
        · simp only [Option.bind_eq_some_iff, Option.map_eq_some_iff, Prod.mk.injEq, Prod.exists] at h
          obtain ⟨m₁, ws₁, h₁, m₂, ws₂, h₂, -, rfl⟩ := h
          obtain ⟨m₃, m₄, us, hJ, hb, hsub⟩ := ih (hbody m port' var' m₁ ws₁ hm h₁) h₂ hport
          exact ⟨m₃, m₄, us, hJ, hb, fun w hw => List.mem_append_right ws₁ (hsub hw)⟩
        · exact ih hm h hport

/-! ### What a request does

One lemma a state that takes a request: the machine after it and what it writes, in each of its branches that no
`assert` ends. -/

section Requests

variable {m m' : Machine p} {port : Fin p} {var : Request} {ws : List (Write p q)}

theorem requestType_cases (h : requestType core m port var = some (m', ws)) :
    ∃ next, (next = .askEvent ∨ next = .manageEvent) ∧
      m' = { m with state := .requestAcc, nextNext := next, port := some port } ∧ ws = [.prRdy port true] := by
  unfold requestType at h
  split at h
  · split at h
    · cases h
      exact ⟨_, .inl rfl, rfl, rfl⟩
    · split at h
      · cases h
        exact ⟨_, .inr rfl, rfl, rfl⟩
      · cases h
  · cases h

theorem askEvent_cases (h : askEvent core m port var = some (m', ws)) :
    (byte var.data 3 = 1 ∨ byte var.data 3 = 2) ∧
      m' = { m with
        state := .askAcc, nslTemp := byte var.data 0, inQueue := byte var.data 2 != 0
        maskType := byte var.data 3, port := some port } ∧ ws = [.prRdy port true] := by
  unfold askEvent at h
  split at h
  · rename_i hc
    simp only [Bool.and_eq_true, Bool.or_eq_true, beq_iff_eq] at hc
    cases h
    exact ⟨hc.2, rfl, rfl⟩
  · cases h

theorem waitEvent_cases (h : waitEvent s core m port var = some (m', ws)) :
    ∃ slot, m.ev slot = none ∧
      ((∃ i, freeEvent s = some i ∧
        m' = { m with
          state := .waitAcc, gotEvent := true, port := some port
          nsl := Function.update m.nsl i m.nslTemp, ev := Function.update m.ev slot (some i) } ∧
        ws = [.prgPort port (answerWord core (some i)), .counter i ((0x80 ||| m.nslTemp) % 256),
          .setValue i ((0x80 ||| m.nslTemp) % 256), .prRdy port true]) ∨
      freeEvent s = none ∧ m' = { m with state := .waitAcc, gotEvent := false, port := some port } ∧
        ws = [.prgPort port (answerWord core none), .prRdy port true]) := by
  unfold waitEvent at h
  split at h
  · cases h
  · split at h
    · cases h
    · rename_i slot hslot
      refine ⟨slot, Option.isNone_iff_eq_none.1 (Scan.first_some hslot), ?_⟩
      split at h
      · rename_i i hi
        cases h
        exact .inl ⟨i, hi, rfl, rfl⟩
      · rename_i hi
        cases h
        exact .inr ⟨hi, rfl, rfl⟩

theorem manageEvent_cases (h : manageEvent core m port var = some (m', ws)) :
    ∃ e slot, m.ev slot = some e ∧ m' = { m with state := .manageAcc, evManaging := some e, port := some port } ∧
      ws = [.prRdy port true] := by
  unfold manageEvent at h
  split at h
  · split at h
    · rename_i hc
      simp only [Bool.and_eq_true, decide_eq_true_eq] at hc
      obtain ⟨-, slot, hslot⟩ := hc
      cases h
      exact ⟨_, slot, hslot, rfl, rfl⟩
    · cases h
  · cases h

/-- A release with the one word of its mask, the first word of two, or a free. -/
theorem releaseOrFree_cases (h : releaseOrFree cfg core m port var = some (m', ws)) :
    ∃ i, m.evManaging = some i ∧
      ((var.rw = true ∧ m.maskType = 1 ∧
          m' = { m with state := .releaseOrFreeAcc, nextNext := .requestType, port := some port } ∧
          ws = .mask i (var.data.toNat % 2 ^ 16) ::
            release cfg core i (var.data.toNat % 2 ^ 16) ++ [.prRdy port true]) ∨
        (var.rw = true ∧ m.maskType = 2 ∧
          m' = { m with state := .releaseOrFreeAcc, nextNext := .releaseEvent, port := some port } ∧
          ws = [.mask i var.data.toNat, .prRdy port true]) ∨
        var.rw = false ∧ ∃ slot, m.ev slot = some i ∧
          m' = { m with
            state := .releaseOrFreeAcc, nextNext := .requestType, port := some port
            ev := Function.update m.ev slot none } ∧
          ws = [.mask i 0, .maskDefault i 0, .counter i 0, .setValue i 0, .notifyCore i false,
            .prgPort port (answerWord core none), .prRdy port true]) := by
  unfold releaseOrFree at h
  split at h
  · cases h
  · rename_i i hi
    refine ⟨i, hi, ?_⟩
    split at h
    · rename_i hrw
      split at h
      · rename_i h1
        split at h
        · cases h
          exact .inl ⟨hrw, beq_iff_eq.1 h1, rfl, rfl⟩
        · cases h
      · split at h
        · rename_i h2
          cases h
          exact .inr (.inl ⟨hrw, beq_iff_eq.1 h2, rfl, rfl⟩)
        · cases h
    · rename_i hrw
      split at h
      · cases h
      · rename_i slot hslot
        cases h
        exact .inr (.inr ⟨Bool.eq_false_of_not_eq_true hrw, slot, beq_iff_eq.1 (Scan.first_some hslot), rfl, rfl⟩)

theorem releaseEvent_cases (h : releaseEvent cfg s core m port var = some (m', ws)) :
    ∃ i, m.evManaging = some i ∧ var.rw = true ∧ m' = { m with state := .releaseAcc, port := some port } ∧
      ws = release cfg core i (s.mask i &&& 0xFFFFFFFF ||| var.data.toNat <<< 32) ++ [.prRdy port true] := by
  unfold releaseEvent at h
  split at h
  · cases h
  · rename_i i hi
    split at h
    · rename_i hg
      simp only [Bool.and_eq_true] at hg
      cases h
      exact ⟨i, hi, hg.1.1, rfl, rfl⟩
    · cases h

end Requests

theorem wakes_write {maskVar : Nat} {w : Write p q} (hw : w ∈ wakes cfg e maskVar) : ∃ c, w = .wake e c := by
  simp only [wakes, List.mem_map] at hw
  obtain ⟨c, -, rfl⟩ := hw
  exact ⟨c, rfl⟩

theorem release_write {maskVar : Nat} {w : Write p q} (hw : w ∈ release cfg core e maskVar) : ProgrammeWrite s w := by
  simp only [release, List.mem_append, List.mem_cons, List.not_mem_nil, or_false] at hw
  obtain ((rfl | rfl) | hw) | rfl := hw
  · trivial
  · trivial
  · obtain ⟨c, rfl⟩ := wakes_write hw
    trivial
  · trivial

theorem waitEvent_write {m m' : Machine p} {port : Fin p} {var : Request} {ws : List (Write p q)}
    (h : waitEvent s core m port var = some (m', ws)) : ∀ w ∈ ws, ProgrammeWrite s w := by
  obtain ⟨-, -, ⟨i, hi, -, rfl⟩ | ⟨-, -, rfl⟩⟩ := waitEvent_cases h
  · have hfree := reserved_shift (beq_iff_eq.1 (Scan.first_some hi))
    obtain ⟨hbit, hlt⟩ := reserve_bit m.nslTemp
    simp [ProgrammeWrite, hfree, hbit, hlt]
  · simp [ProgrammeWrite]

theorem waitEvent_task {m m' : Machine p} {port : Fin p} {var : Request} {ws : List (Write p q)}
    (h : waitEvent s core m port var = some (m', ws)) : m.SameTask m' := by
  obtain ⟨-, -, ⟨_, -, rfl, -⟩ | ⟨-, rfl, -⟩⟩ := waitEvent_cases h
  · exact ⟨rfl, rfl, rfl⟩
  · exact ⟨rfl, rfl, rfl⟩

theorem releaseOrFree_write {m m' : Machine p} {port : Fin p} {var : Request} {ws : List (Write p q)}
    (h : releaseOrFree cfg core m port var = some (m', ws)) : ∀ w ∈ ws, ProgrammeWrite s w := by
  obtain ⟨i, -, ⟨-, -, -, rfl⟩ | ⟨-, -, -, rfl⟩ | ⟨-, -, -, -, rfl⟩⟩ := releaseOrFree_cases h
  · intro w hw
    simp only [List.mem_append, List.mem_cons, List.not_mem_nil, or_false] at hw
    obtain (rfl | hw) | rfl := hw
    · trivial
    · exact release_write hw
    · trivial
  · simp [ProgrammeWrite]
  · simp [ProgrammeWrite]

theorem releaseOrFree_task {m m' : Machine p} {port : Fin p} {var : Request} {ws : List (Write p q)}
    (h : releaseOrFree cfg core m port var = some (m', ws)) : m.SameTask m' := by
  obtain ⟨_, -, ⟨-, -, rfl, -⟩ | ⟨-, -, rfl, -⟩ | ⟨-, _, -, rfl, -⟩⟩ := releaseOrFree_cases h
  · exact ⟨rfl, rfl, rfl⟩
  · exact ⟨rfl, rfl, rfl⟩
  · exact ⟨rfl, rfl, rfl⟩

theorem releaseEvent_write {m m' : Machine p} {port : Fin p} {var : Request} {ws : List (Write p q)}
    (h : releaseEvent cfg s core m port var = some (m', ws)) : ∀ w ∈ ws, ProgrammeWrite s w := by
  obtain ⟨i, -, -, -, rfl⟩ := releaseEvent_cases h
  intro w hw
  simp only [List.mem_append, List.mem_cons, List.not_mem_nil, or_false] at hw
  obtain hw | rfl := hw
  · exact release_write hw
  · trivial

theorem releaseEvent_task {m m' : Machine p} {port : Fin p} {var : Request} {ws : List (Write p q)}
    (h : releaseEvent cfg s core m port var = some (m', ws)) : m.SameTask m' := by
  obtain ⟨-, -, -, rfl, -⟩ := releaseEvent_cases h
  exact ⟨rfl, rfl, rfl⟩

/-- The states that only take a word from their core. -/
theorem requestType_write {m m' : Machine p} {port : Fin p} {var : Request} {ws : List (Write p q)}
    (h : requestType core m port var = some (m', ws)) : m'.ev = m.ev ∧ ws = [.prRdy port true] := by
  obtain ⟨_, -, rfl, rfl⟩ := requestType_cases h
  exact ⟨rfl, rfl⟩

theorem askEvent_write {m m' : Machine p} {port : Fin p} {var : Request} {ws : List (Write p q)}
    (h : askEvent core m port var = some (m', ws)) : m'.ev = m.ev ∧ ws = [.prRdy port true] := by
  obtain ⟨-, rfl, rfl⟩ := askEvent_cases h
  exact ⟨rfl, rfl⟩

theorem manageEvent_write {m m' : Machine p} {port : Fin p} {var : Request} {ws : List (Write p q)}
    (h : manageEvent core m port var = some (m', ws)) : m'.ev = m.ev ∧ ws = [.prRdy port true] := by
  obtain ⟨_, _, -, rfl, rfl⟩ := manageEvent_cases h
  exact ⟨rfl, rfl⟩

theorem acknowledge_write (m : Machine p) (next : ProgramState) :
    (acknowledge m next : Machine p × List (Write p q)).2 = [] ∨
      ∃ port, (acknowledge m next : Machine p × List (Write p q)).2 = [.prRdy port false] := by
  unfold acknowledge
  cases m.port with
  | none => exact Or.inl rfl
  | some port => exact Or.inr ⟨port, rfl⟩

/-- A relation between machine and writes that the handshake keeps up, the answers, and the changes of events. -/
theorem machineStep_rel {prg : Fin p → Option Request} {m m' : Machine p} {ws : List (Write p q)}
    {R : Machine p → Machine p → List (Write p q) → Prop} (h : machineStep cfg s prg core m = some (m', ws))
    (hnil : ∀ m m', m'.ev = m.ev → R m m' []) (hrdy : ∀ m m' port b, m'.ev = m.ev → R m m' [.prRdy port b])
    (happ : ∀ m m₁ m₂ ws us, R m m₁ ws → R m₁ m₂ us → R m m₂ (ws ++ us))
    (hwait : m.state = .waitEvent → scanPorts prg core (waitEvent s core) (List.finRange p) m = some (m', ws) →
      R m m' ws)
    (hrelease : m.state = .releaseOrFreeEvent → ∀ m₁ port var m₂ us, m.SameTask m₁ → prg port = some var →
      var.id = core.val → releaseOrFree cfg core m₁ port var = some (m₂, us) → R m₁ m₂ us)
    (hsecond : m.state = .releaseEvent → ∀ m₁ port var m₂ us, m.SameTask m₁ → prg port = some var →
      var.id = core.val → releaseEvent cfg s core m₁ port var = some (m₂, us) → R m₁ m₂ us) : R m m' ws := by
  have hack : ∀ next, some (acknowledge m next) = some (m', ws) → R m m' ws := by
    intro next heq
    have hm' : (acknowledge m next : Machine p × List (Write p q)).1 = m' := congrArg Prod.fst (Option.some.inj heq)
    have hws : (acknowledge m next : Machine p × List (Write p q)).2 = ws := congrArg Prod.snd (Option.some.inj heq)
    have hev : m'.ev = m.ev := by
      rw [← hm']
      rfl
    obtain hw | ⟨port, hw⟩ := acknowledge_write (q := q) m next
    · rw [← hws, hw]
      exact hnil m m' hev
    · rw [← hws, hw]
      exact hrdy m m' port false hev
  have hword : ∀ m₁ m₂ port us, m₂.ev = m₁.ev ∧ us = [.prRdy port true] → R m₁ m₂ us := by
    rintro m₁ m₂ port us ⟨hev, rfl⟩
    exact hrdy m₁ m₂ port true hev
  have htrans : ∀ m₁ m₂ : Machine p, m.SameTask m₁ → m₁.SameTask m₂ → m.SameTask m₂ :=
    fun m₁ m₂ h₁ h₂ => ⟨h₂.1.trans h₁.1, h₂.2.1.trans h₁.2.1, h₂.2.2.trans h₁.2.2⟩
  unfold machineStep at h
  cases hs : m.state with
  | requestType =>
    rw [hs] at h
    refine scanPorts_rel (J := fun _ => True) (fun m => hnil m m rfl) happ (fun m₁ port _ m₂ us _ _ _ hb => ?_)
      trivial h
    exact ⟨trivial, hword m₁ m₂ port us (requestType_write hb)⟩
  | askEvent =>
    rw [hs] at h
    refine scanPorts_rel (J := fun _ => True) (fun m => hnil m m rfl) happ (fun m₁ port _ m₂ us _ _ _ hb => ?_)
      trivial h
    exact ⟨trivial, hword m₁ m₂ port us (askEvent_write hb)⟩
  | manageEvent =>
    rw [hs] at h
    refine scanPorts_rel (J := fun _ => True) (fun m => hnil m m rfl) happ (fun m₁ port _ m₂ us _ _ _ hb => ?_)
      trivial h
    exact ⟨trivial, hword m₁ m₂ port us (manageEvent_write hb)⟩
  | waitEvent =>
    rw [hs] at h
    exact hwait hs h
  | releaseOrFreeEvent =>
    rw [hs] at h
    refine scanPorts_rel (J := m.SameTask) (fun m => hnil m m rfl) happ
      (fun m₁ port var m₂ us hJ hv hid hb => ?_) ⟨rfl, rfl, rfl⟩ h
    exact ⟨htrans m₁ m₂ hJ (releaseOrFree_task hb), hrelease hs m₁ port var m₂ us hJ hv hid hb⟩
  | releaseEvent =>
    rw [hs] at h
    refine scanPorts_rel (J := m.SameTask) (fun m => hnil m m rfl) happ
      (fun m₁ port var m₂ us hJ hv hid hb => ?_) ⟨rfl, rfl, rfl⟩ h
    exact ⟨htrans m₁ m₂ hJ (releaseEvent_task hb), hsecond hs m₁ port var m₂ us hJ hv hid hb⟩
  | _ =>
    rw [hs] at h
    exact hack _ h

/-- A property of lists of writes that the handshake has, the answers, and the changes of events. -/
theorem machineStep_spec {prg : Fin p → Option Request} {m m' : Machine p} {ws : List (Write p q)}
    {Q : List (Write p q) → Prop} (h : machineStep cfg s prg core m = some (m', ws)) (hnil : Q [])
    (happ : ∀ ws us, Q ws → Q us → Q (ws ++ us)) (hrdy : ∀ port b, Q [.prRdy port b])
    (hwait : m.state = .waitEvent → ∀ m₁ port var m₂ us, m.SameTask m₁ → prg port = some var → var.id = core.val →
      waitEvent s core m₁ port var = some (m₂, us) → Q us)
    (hrelease : m.state = .releaseOrFreeEvent → ∀ m₁ port var m₂ us, m.SameTask m₁ → prg port = some var →
      var.id = core.val → releaseOrFree cfg core m₁ port var = some (m₂, us) → Q us)
    (hsecond : m.state = .releaseEvent → ∀ m₁ port var m₂ us, m.SameTask m₁ → prg port = some var →
      var.id = core.val → releaseEvent cfg s core m₁ port var = some (m₂, us) → Q us) : Q ws := by
  refine machineStep_rel (R := fun _ _ ws => Q ws) h (fun _ _ _ => hnil) (fun _ _ port b _ => hrdy port b)
    (fun _ _ _ => happ) (fun hs hscan => ?_) hrelease hsecond
  refine scanPorts_spec (J := m.SameTask) hnil happ (fun m₁ port var m₂ us hJ hv hid hb => ?_) ⟨rfl, rfl, rfl⟩ hscan
  obtain ⟨h₁, h₂, h₃⟩ := waitEvent_task hb
  exact ⟨⟨h₁.trans hJ.1, h₂.trans hJ.2.1, h₃.trans hJ.2.2⟩, hwait hs m₁ port var m₂ us hJ hv hid hb⟩

/-- The same for a property of each write. -/
theorem machineStep_forall {prg : Fin p → Option Request} {m m' : Machine p} {ws : List (Write p q)}
    {P : Write p q → Prop} (h : machineStep cfg s prg core m = some (m', ws)) (hrdy : ∀ port b, P (.prRdy port b))
    (hwait : m.state = .waitEvent → ∀ m₁ port var m₂ us, m.SameTask m₁ → prg port = some var → var.id = core.val →
      waitEvent s core m₁ port var = some (m₂, us) → ∀ w ∈ us, P w)
    (hrelease : m.state = .releaseOrFreeEvent → ∀ m₁ port var m₂ us, m.SameTask m₁ → prg port = some var →
      var.id = core.val → releaseOrFree cfg core m₁ port var = some (m₂, us) → ∀ w ∈ us, P w)
    (hsecond : m.state = .releaseEvent → ∀ m₁ port var m₂ us, m.SameTask m₁ → prg port = some var →
      var.id = core.val → releaseEvent cfg s core m₁ port var = some (m₂, us) → ∀ w ∈ us, P w) : ∀ w ∈ ws, P w := by
  refine machineStep_spec (Q := fun ws => ∀ w ∈ ws, P w) h (fun _ hw => absurd hw List.not_mem_nil) ?_ ?_ hwait hrelease
    hsecond
  · intro ws us hws hus w hw
    rcases List.mem_append.1 hw with hw | hw
    · exact hws w hw
    · exact hus w hw
  · intro port b w hw
    obtain rfl := List.mem_singleton.1 hw
    exact hrdy port b

theorem machineStep_write {prg : Fin p → Option Request} {m m' : Machine p} {ws : List (Write p q)}
    (h : machineStep cfg s prg core m = some (m', ws)) : ∀ w ∈ ws, ProgrammeWrite s w := by
  refine machineStep_forall h (fun _ _ => trivial) ?_ ?_ ?_
  · intro _ _ _ _ _ _ _ _ _ hb
    exact waitEvent_write hb
  · intro _ _ _ _ _ _ _ _ _ hb
    exact releaseOrFree_write hb
  · intro _ _ _ _ _ _ _ _ _ hb
    exact releaseEvent_write hb

/-- A write of `programme` is one of a machine that fails no `assert`. -/
theorem programme_machine {prg : Fin p → Option Request} {w : Write p q} (hw : w ∈ programmeWrites cfg s prg) :
    ∃ core m' ws, machineStep cfg s prg core (s.prog core) = some (m', ws) ∧ w ∈ ws := by
  simp only [programmeWrites, List.mem_flatMap, machineWrites] at hw
  obtain ⟨core, -, hw⟩ := hw
  cases hm : machineStep (q := q) cfg s prg core (s.prog core) with
  | none =>
    rw [hm] at hw
    cases hw
  | some r =>
    rw [hm] at hw
    exact ⟨core, r.1, r.2, hm, hw⟩

theorem programme_write {prg : Fin p → Option Request} {w : Write p q} (hw : w ∈ programmeWrites cfg s prg) :
    ProgrammeWrite s w := by
  obtain ⟨core, m', ws, hm, hw⟩ := programme_machine hw
  exact machineStep_write hm w hw

/-! ## `notify` -/

theorem mem_notifyWrites {w : Write p q} : w ∈ notifyWrites cfg s ↔ ∃ i, reloads s i = true ∧
    ((∃ c : Core, w = .wake i c ∧ c.val < cfg.nSlaves ∧ (s.mask i).testBit c = true) ∨
      w = .counter i (s.atomicCountersSetValue i) ∨ w = .mask i (s.maskDefault i)) := by
  simp only [notifyWrites, List.mem_flatMap, List.mem_finRange, true_and]
  constructor
  · rintro ⟨i, hw⟩
    split at hw
    · rename_i hr
      refine ⟨i, hr, ?_⟩
      simp only [List.mem_append, wakes, List.mem_map, List.mem_filter, List.mem_finRange, true_and, Bool.and_eq_true,
        decide_eq_true_eq, List.mem_cons, List.not_mem_nil, or_false] at hw
      exact hw.imp_left fun ⟨c, hc, he⟩ => ⟨c, he.symm, hc⟩
    · cases hw
  · rintro ⟨i, hr, hw⟩
    refine ⟨i, ?_⟩
    rw [if_pos hr]
    simp only [List.mem_append, wakes, List.mem_map, List.mem_filter, List.mem_finRange, true_and, Bool.and_eq_true,
      decide_eq_true_eq, List.mem_cons, List.not_mem_nil, or_false]
    exact hw.imp_left fun ⟨c, he, hc⟩ => ⟨c, hc, he.symm⟩

/-! ## `signal` -/

/-- The notifications of event `e` among those taken. -/
def notified (e : Event) (xs : List (Notification q)) : List (Notification q) :=
  xs.filter fun x => byte x.var.data 0 == e.val

theorem notified_cons {x : Notification q} {xs : List (Notification q)} :
    notified e (x :: xs) = if byte x.var.data 0 = e.val then x :: notified e xs else notified e xs := by
  simp [notified, List.filter_cons]

/-- What a notification that passes its `assert`s does. -/
theorem countOff_ok {varAc varAc' : Event → Nat} {x : Notification q} (h : countOff varAc x = .ok varAc') :
    ∃ e : Event, byte x.var.data 0 = e.val ∧ varAc e &&& 0x80 ≠ 0 ∧ varAc e &&& 0x7F ≠ 0 ∧
      varAc' = Function.update varAc e (decrement (varAc e)) := by
  unfold countOff at h
  dsimp only at h
  split at h
  · cases h
  · split at h
    · rename_i hlt
      split at h
      · cases h
      · rename_i hr
        split at h
        · cases h
        · rename_i hp
          split at h
          · cases h
          · cases h
            exact ⟨⟨_, hlt⟩, rfl, hr, hp, rfl⟩
    · cases h

/-- The `assert`s about event `e` that fail are those that the counter or the notification breaks. -/
theorem countOff_error {varAc : Event → Nat} {x : Notification q} {f : Fired} (h : countOff varAc x = .error f)
    (he : f.event = e.val) : byte x.var.data 0 = e.val ∧
      (x.var.rw = false ∨ varAc e &&& 0x80 = 0 ∨ varAc e &&& 0x7F = 0 ∨ byte x.var.data 1 ≠ x.core) := by
  unfold countOff at h
  dsimp only at h
  split at h
  · rename_i hrw
    cases h
    exact ⟨he, Or.inl (by simpa using hrw)⟩
  · split at h
    · rename_i hlt
      have hval : ∀ n, n = byte x.var.data 0 → n = e.val → (⟨byte x.var.data 0, hlt⟩ : Event) = e :=
        fun n h₁ h₂ => Fin.ext (h₁.symm.trans h₂)
      split at h
      · rename_i hr
        cases h
        rw [hval _ rfl he] at hr
        exact ⟨he, Or.inr (Or.inl hr)⟩
      · split at h
        · rename_i hp
          cases h
          rw [hval _ rfl he] at hp
          exact ⟨he, Or.inr (Or.inr (Or.inl hp))⟩
        · split at h
          · rename_i hc
            cases h
            exact ⟨he, Or.inr (Or.inr (Or.inr hc))⟩
          · cases h
    · rename_i hlt
      cases h
      have he : byte x.var.data 0 = e.val := he
      exact absurd e.isLt (by rw [← he]; exact hlt)

/-- **What is counted off** an event: one for each of its notifications. -/
theorem countOffAll_at {varAc varAc' : Event → Nat} {xs : List (Notification q)}
    (h : countOffAll varAc xs = .ok varAc') (hv : varAc e < 256) :
    varAc' e + (notified e xs).length = varAc e ∧ (notified e xs ≠ [] → 128 + (notified e xs).length ≤ varAc e) := by
  induction xs generalizing varAc with
  | nil =>
    cases h
    simp [notified]
  | cons x xs ih =>
    simp only [countOffAll] at h
    cases hx : countOff varAc x with
    | error f => rw [hx] at h; cases h
    | ok varAc₁ =>
      rw [hx] at h
      have h : countOffAll varAc₁ xs = .ok varAc' := h
      obtain ⟨e₁, hb, hr, hp, rfl⟩ := countOff_ok hx
      rw [notified_cons]
      by_cases he : e = e₁
      · subst he
        have hd := decrement_eq hv hr hp
        have hge := (counter_iff hv).1.1 hr
        rw [(counter_iff hv).2.1] at hp
        have hlt : Function.update varAc e (decrement (varAc e)) e < 256 := by
          rw [Function.update_self]
          omega
        obtain ⟨h1, h2⟩ := ih h hlt
        rw [Function.update_self, hd] at h1 h2
        rw [if_pos hb, List.length_cons]
        refine ⟨by omega, fun _ => ?_⟩
        by_cases hnil : notified e xs = []
        · rw [hnil, List.length_nil]
          omega
        · have := h2 hnil
          omega
      · have hne : byte x.var.data 0 ≠ e.val := fun heq => he (Fin.ext (heq.symm.trans hb))
        have hlt : Function.update varAc e₁ (decrement (varAc e₁)) e < 256 := by
          rw [Function.update_of_ne he]
          exact hv
        have := ih h hlt
        rw [Function.update_of_ne he] at this
        rw [if_neg hne]
        exact this

/-- No `assert` about event `e` fails while its counter lasts and its notifications are as `notify` sends them. -/
theorem countOffAll_error {varAc : Event → Nat} {xs : List (Notification q)} {f : Fired}
    (h : countOffAll varAc xs = .error f) (hv : varAc e < 256)
    (hlast : notified e xs ≠ [] → 128 + (notified e xs).length ≤ varAc e)
    (hform : ∀ x ∈ notified e xs, x.var.rw = true ∧ byte x.var.data 1 = x.core) : f.event ≠ e.val := by
  intro he
  induction xs generalizing varAc with
  | nil => cases h
  | cons x xs ih =>
    simp only [countOffAll] at h
    rw [notified_cons] at hlast hform
    cases hx : countOff varAc x with
    | error f' =>
      rw [hx] at h
      cases h
      obtain ⟨hb, hbad⟩ := countOff_error hx he
      rw [if_pos hb] at hlast hform
      obtain ⟨hrw, hcore⟩ := hform x List.mem_cons_self
      have hge := hlast (by simp)
      rw [List.length_cons] at hge
      have hr := (counter_iff hv).1.2 (by omega)
      have hp : varAc e &&& 0x7F ≠ 0 := by
        rw [(counter_iff hv).2.1]
        omega
      obtain hbad | hbad | hbad | hbad := hbad
      · rw [hrw] at hbad
        cases hbad
      · exact hr hbad
      · exact hp hbad
      · exact hbad hcore
    | ok varAc₁ =>
      rw [hx] at h
      have h : countOffAll varAc₁ xs = .error f := h
      obtain ⟨e₁, hb, hr, hp, rfl⟩ := countOff_ok hx
      by_cases hee : e = e₁
      · subst hee
        have hd := decrement_eq hv hr hp
        rw [if_pos hb] at hlast hform
        have hge := hlast (by simp)
        rw [List.length_cons] at hge
        refine ih h ?_ (fun hne => ?_) fun y hy => hform y (List.mem_cons_of_mem x hy)
        · rw [Function.update_self, hd]
          omega
        · rw [Function.update_self, hd]
          omega
      · have hne : byte x.var.data 0 ≠ e.val := fun heq => hee (Fin.ext (heq.symm.trans hb))
        rw [if_neg hne] at hlast hform
        refine ih h ?_ ?_ hform
        · rw [Function.update_of_ne hee]
          exact hv
        · rw [Function.update_of_ne hee]
          exact hlast

/-! ## The counters after an edge -/

theorem mem_counter {ws : List (Write p q)} {v : Nat} : (e, v) ∈ ws.filterMap Write.counter? ↔ .counter e v ∈ ws := by
  simp only [List.mem_filterMap]
  constructor
  · rintro ⟨w, hw, he⟩
    cases w <;> simp only [Write.counter?, Option.some.injEq, Prod.mk.injEq, reduceCtorEq] at he
    obtain ⟨rfl, rfl⟩ := he
    exact hw
  · intro hw
    exact ⟨_, hw, rfl⟩

/-- What `signal` writes: the handshake, wake bits, the stop flag of a core in state 1, and the counters. -/
theorem signal_write {slv : Fin q → Option Request} {varAc : Event → Nat} {w : Write p q}
    (hw : w ∈ signalWrites s slv varAc) : (∃ port b, w = .slRdy port b) ∨ (∃ i v, w = .mask i v) ∨
      (∃ c, (s.sig c).isSome = true ∧ w = .halt c) ∨ ∃ i, w = .counter i (varAc i % 256) := by
  simp only [signalWrites, List.mem_append, List.mem_flatMap, List.mem_map] at hw
  obtain ⟨c, -, hw⟩ | ⟨i, -, rfl⟩ := hw
  · unfold coreWrites at hw
    split at hw
    · rename_i port hsig
      simp only [List.mem_cons, List.not_mem_nil, or_false] at hw
      obtain rfl | rfl := hw
      · exact Or.inl ⟨port, false, rfl⟩
      · exact Or.inr (Or.inr (Or.inl ⟨c, by rw [hsig]; rfl, rfl⟩))
    · simp only [List.mem_flatMap, takeWrites, List.mem_append, List.mem_singleton] at hw
      obtain ⟨x, -, hw | rfl⟩ := hw
      · split at hw
        · obtain rfl := List.mem_singleton.1 hw
          exact Or.inr (Or.inl ⟨_, _, rfl⟩)
        · cases hw
      · exact Or.inl ⟨x.port, true, rfl⟩
  · exact Or.inr (Or.inr (Or.inr ⟨i, rfl⟩))

/-- `signal` writes each counter, once. -/
theorem signal_counter {slv : Fin q → Option Request} {varAc : Event → Nat} {v : Nat} :
    .counter e v ∈ (signalWrites s slv varAc : List (Write p q)) ↔ v = varAc e % 256 := by
  constructor
  · intro hw
    obtain ⟨_, _, h⟩ | ⟨_, _, h⟩ | ⟨_, -, h⟩ | ⟨i, h⟩ := signal_write hw
    · cases h
    · cases h
    · cases h
    · simp only [Write.counter.injEq] at h
      rw [h.2, h.1]
  · rintro rfl
    exact List.mem_append_right _ (List.mem_map.2 ⟨e, List.mem_finRange e, rfl⟩)

/-- What an edge is. -/
theorem step_spec (hs : step cfg s a = some t) : a.order.Perm [.programme, .notify, .signal] ∧
    programmeFails cfg s a.prg = false ∧ ∃ varAc, countOffAll s.atomicCounters (accepted s a.slv) = .ok varAc ∧
      t = commit { s with prog := machineNext cfg s a, sig := signalNext s a.slv }
        (a.order.flatMap (processWrites cfg s a varAc)) := by
  unfold step at hs
  split at hs
  · rename_i hg
    simp only [Bool.and_eq_true, decide_eq_true_eq, Bool.not_eq_true'] at hg
    split at hs
    · rename_i varAc hv
      exact ⟨hg.1, hg.2, varAc, hv, (Option.some.inj hs).symm⟩
    · cases hs
  · cases hs

theorem process_mem_order (h : a.order.Perm [.programme, .notify, .signal]) : ∀ x : Process, x ∈ a.order := by
  intro x
  rw [h.mem_iff]
  cases x <;> decide

/-- The writes of one kind at an edge: those before `signal`, its own, and those after it. -/
theorem writes_split {β : Type} {varAc : Event → Nat} (h : a.order.Perm [.programme, .notify, .signal])
    (f : Write p q → Option β) : (a.order.flatMap (processWrites cfg s a varAc)).filterMap f =
      ((before a).flatMap (processWrites cfg s a varAc)).filterMap f ++
        ((signalWrites s a.slv varAc).filterMap f ++ ((after a).flatMap (processWrites cfg s a varAc)).filterMap f) := by
  conv_lhs => rw [(order_split h).1]
  simp only [List.flatMap_append, List.flatMap_cons, List.filterMap_append, processWrites]

/-- The counters and the values that they are reloaded with are bytes. -/
def Bytes (s : State p q) : Prop := ∀ e, s.atomicCounters e < 256 ∧ s.atomicCountersSetValue e < 256

theorem init_bytes : Bytes (init : State p q) := fun _ => ⟨by simp [init], by simp [init]⟩

theorem mem_setValue {ws : List (Write p q)} {v : Nat} :
    (e, v) ∈ ws.filterMap Write.setValue? ↔ .setValue e v ∈ ws := by
  simp only [List.mem_filterMap]
  constructor
  · rintro ⟨w, hw, he⟩
    cases w <;> simp only [Write.setValue?, Option.some.injEq, Prod.mk.injEq, reduceCtorEq] at he
    obtain ⟨rfl, rfl⟩ := he
    exact hw
  · intro hw
    exact ⟨_, hw, rfl⟩

/-- Only `programme` sets the value for the reload. -/
theorem setValue_programme {varAc : Event → Nat} {x : Process} {v : Nat}
    (hw : .setValue e v ∈ (processWrites cfg s a varAc x : List (Write p q))) : x = .programme := by
  cases x with
  | programme => rfl
  | notify =>
    obtain ⟨i, -, ⟨c, hc, -⟩ | hc | hc⟩ := mem_notifyWrites.1 hw <;> cases hc
  | signal =>
    obtain ⟨_, _, h⟩ | ⟨_, _, h⟩ | ⟨_, -, h⟩ | ⟨_, h⟩ := signal_write hw <;> cases h

theorem step_bytes (h : Bytes s) (hs : step cfg s a = some t) : Bytes t := by
  obtain ⟨-, -, varAc, hv, rfl⟩ := step_spec hs
  intro e
  constructor
  · -- a counter that is written gets what one of the processes stores
    by_cases hw : ∃ v, (e, v) ∈ (a.order.flatMap (processWrites cfg s a varAc)).filterMap Write.counter?
    · obtain ⟨v, hw⟩ := hw
      have hmem := mem_counter.1 (Delta.commit_mem (f := s.atomicCounters) hw)
      obtain ⟨x, -, hx⟩ := List.mem_flatMap.1 hmem
      cases x with
      | programme =>
        obtain h0 | ⟨-, -, hlt⟩ := programme_write hx
        · exact lt_of_eq_of_lt h0 (by decide)
        · exact hlt
      | notify =>
        obtain ⟨i, -, ⟨c, hc, -⟩ | hc | hc⟩ := mem_notifyWrites.1 hx
        · cases hc
        · simp only [Write.counter.injEq] at hc
          exact lt_of_eq_of_lt hc.2 (h i).2
        · cases hc
      | signal =>
        exact lt_of_eq_of_lt (signal_counter.1 hx) (Nat.mod_lt _ (by decide))
    · exact lt_of_eq_of_lt (Delta.commit_of_not_mem fun v hv => hw ⟨v, hv⟩) (h e).1
  · by_cases hw : ∃ v, (e, v) ∈ (a.order.flatMap (processWrites cfg s a varAc)).filterMap Write.setValue?
    · obtain ⟨v, hw⟩ := hw
      have hmem := mem_setValue.1 (Delta.commit_mem (f := s.atomicCountersSetValue) hw)
      obtain ⟨x, -, hx⟩ := List.mem_flatMap.1 hmem
      obtain rfl := setValue_programme hx
      exact programme_write hx
    · exact lt_of_eq_of_lt (Delta.commit_of_not_mem fun v hv => hw ⟨v, hv⟩) (h e).2

end VirtualSoc.Hws
