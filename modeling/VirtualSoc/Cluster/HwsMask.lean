import Mathlib.Data.Finset.Max
import VirtualSoc.Cluster.HwsHold

/-!
# Who is in the wake mask (cluster/cl_hws.cpp)

A notification with a third byte (`notify_and_set`) also asks for the wake bit of its core: `signal` reads the
mask of the event, sets the bit and writes the mask. It counts all notifications of an edge off in `var_ac`,
but it reads the mask for each of them as it was before the edge, so the last one hides the bits of the others
(`signal_mask`). A release in the middle of a round also puts another mask in the place of the one that the
waiting cores are in. In the runs without either the mask has every core that waits (`waiters_kept`).
-/

namespace VirtualSoc.Hws

variable {p q : Nat}

/-- The mask has the bit of each of the cores. -/
def HasAll (mask : Nat) (cores : List Core) : Prop := ∀ c ∈ cores, mask.testBit c = true

instance (mask : Nat) (cores : List Core) : Decidable (HasAll mask cores) :=
  inferInstanceAs (Decidable (∀ c ∈ cores, _))

section Waiters

variable (e : Event) (s : State p q) (a : Edge p q)

/-- The cores whose `notify_and_set` of the event is taken at the edge. -/
def setters : List Core :=
  ((notified e (accepted s a.slv)).filter fun x => byte x.var.data 2 != 0).map Notification.core

/-- The cores that have asked for their wake bit in the round: since the event was reloaded or freed. -/
def waitersNext (waiters : List Core) : List Core :=
  if ∃ core : Fin MAX_CORES, frees s a.prg e core = true then []
  else (if reloads s e then [] else waiters) ++ setters e s a

/-- Core `core` releases the event with the word, the first or the second of its mask. -/
def Releases (core : Core) (var : Request) : Prop :=
  (s.prog core).evManaging = some e ∧
    ((s.prog core).state = .releaseOrFreeEvent ∨ (s.prog core).state = .releaseEvent) ∧
      var.id = core.val ∧ var.rw = true

instance (core : Core) (var : Request) : Decidable (Releases e s core var) :=
  inferInstanceAs (Decidable (_ ∧ _ ∧ _ ∧ _))

/-- What the command leaves in the mask: the first word of two, or the bit of the core itself. -/
def maskLeft (core : Core) (var : Request) : Nat :=
  if (s.prog core).state = .releaseOrFreeEvent ∧ (s.prog core).maskType = 2 then var.data.toNat
  else 1 <<< core.val

/-- Of the cores whose `notify_and_set` is taken at one edge, only the last may lack its bit in the mask; and a
release whose mask is not overwritten at the edge leaves the bits of the cores that wait. -/
structure Undisturbed (x : State p q × List Core) (a : Edge p q) : Prop where
  together : ∀ c ∈ setters e x.1 a, ∀ c' ∈ setters e x.1 a, c < c' → (x.1.mask e).testBit c = true
  release : ∀ core port, ∀ var ∈ a.prg port, Releases e x.1 core var →
    .programme ∈ after a ∨ setters e x.1 a = [] → HasAll (maskLeft x.1 core var) (x.2 ++ setters e x.1 a)

instance (x : State p q × List Core) (a : Edge p q) : Decidable (Undisturbed e x a) :=
  decidable_of_iff ((∀ c ∈ setters e x.1 a, ∀ c' ∈ setters e x.1 a, c < c' → (x.1.mask e).testBit c = true) ∧
      ∀ core : Fin MAX_CORES, ∀ port : Fin p, ∀ var ∈ a.prg port, Releases e x.1 core var →
        .programme ∈ after a ∨ setters e x.1 a = [] → HasAll (maskLeft x.1 core var) (x.2 ++ setters e x.1 a))
    ⟨fun ⟨h₁, h₂⟩ => ⟨h₁, h₂⟩, fun h => ⟨h.together, h.release⟩⟩

/-- When `notify` wakes the event, its mask has the bit of every core that waits. -/
def KeepsWaiters (x : State p q × List Core) (_ : Edge p q) : Prop :=
  reloads x.1 e = true → HasAll (x.1.mask e) x.2

instance (x : State p q × List Core) (a : Edge p q) : Decidable (KeepsWaiters e x a) :=
  inferInstanceAs (Decidable (_ → _))

end Waiters

variable {cfg : Config} {s t : State p q} {a : Edge p q} {e : Event} {core c : Core} {varAc : Event → Nat}

/-! ## What `signal` writes to a mask -/

theorem mem_mask {ws : List (Write p q)} {v : Nat} : (e, v) ∈ ws.filterMap Write.mask? ↔ .mask e v ∈ ws := by
  simp only [List.mem_filterMap]
  constructor
  · rintro ⟨w, hw, he⟩
    cases w <;> simp only [Write.mask?, Option.some.injEq, Prod.mk.injEq, reduceCtorEq] at he
    obtain ⟨rfl, rfl⟩ := he
    exact hw
  · intro hw
    exact ⟨_, hw, rfl⟩

theorem mem_acceptedBy {slv : Fin q → Option Request} {x : Notification q} (hx : x ∈ acceptedBy s slv core) :
    x.core = core := by
  unfold acceptedBy at hx
  split at hx
  · cases hx
  · simp only [List.mem_filterMap, Option.bind_eq_some_iff] at hx
    obtain ⟨port, -, var, -, hx⟩ := hx
    obtain ⟨-, hx⟩ := Option.ite_none_right_eq_some.1 hx
    rw [← Option.some.inj hx]

theorem mem_setters : c ∈ setters e s a ↔
    ∃ x ∈ acceptedBy s a.slv c, byte x.var.data 0 = e.val ∧ byte x.var.data 2 ≠ 0 := by
  simp only [setters, notified, accepted, List.mem_map, List.mem_filter, List.mem_flatMap, List.mem_finRange,
    true_and, beq_iff_eq, bne_iff_ne]
  constructor
  · rintro ⟨x, ⟨⟨⟨d, hx⟩, h0⟩, h2⟩, rfl⟩
    have hd := mem_acceptedBy hx
    exact ⟨x, hd ▸ hx, h0, h2⟩
  · rintro ⟨x, hx, h0, h2⟩
    exact ⟨x, ⟨⟨⟨c, hx⟩, h0⟩, h2⟩, mem_acceptedBy hx⟩

/-- The second byte of a notification that is taken is its core. -/
theorem countOffAll_core {varAc' : Event → Nat} {xs : List (Notification q)} (h : countOffAll varAc xs = .ok varAc') :
    ∀ x ∈ xs, byte x.var.data 1 = x.core.val := by
  induction xs generalizing varAc with
  | nil => nofun
  | cons x xs ih =>
    simp only [countOffAll] at h
    cases hx : countOff varAc x with
    | error f => rw [hx] at h; cases h
    | ok varAc₁ =>
      rw [hx] at h
      have hcore : byte x.var.data 1 = x.core.val := by
        by_contra hne
        unfold countOff at hx
        dsimp only at hx
        split at hx
        · cases hx
        · split at hx
          · split at hx
            · cases hx
            · split at hx
              · cases hx
              · cases hx
          · cases hx
      intro y hy
      rcases List.mem_cons.1 hy with rfl | hy
      · exact hcore
      · exact ih h y hy

/-- A core writes the mask of the event for each of its `notify_and_set`s. -/
theorem mem_coreWrites_mask (hcore : ∀ x ∈ accepted s a.slv, byte x.var.data 1 = x.core.val) {v : Nat} :
    .mask e v ∈ (coreWrites s a.slv c : List (Write p q)) ↔ c ∈ setters e s a ∧ v = s.mask e ||| 1 <<< c.val := by
  have hbyte : ∀ x ∈ acceptedBy s a.slv c, byte x.var.data 1 = c.val := by
    intro x hx
    rw [hcore x (List.mem_flatMap.2 ⟨c, List.mem_finRange c, hx⟩), mem_acceptedBy hx]
  have hevent : ∀ n (hn : n < N_HWS_EVENTS), n = e.val → (⟨n, hn⟩ : Event) = e := fun n hn h => Fin.ext h
  rw [mem_setters]
  unfold coreWrites
  cases hsig : s.sig c with
  | some port =>
    have hnone : acceptedBy s a.slv c = [] := if_pos (by rw [hsig]; rfl)
    simp [hnone]
  | none =>
    simp only [List.mem_flatMap, takeWrites, List.mem_append, List.mem_singleton, reduceCtorEq, or_false]
    constructor
    · rintro ⟨x, hx, hw⟩
      split at hw
      · rename_i h
        obtain ⟨he, hv⟩ := Write.mask.inj (List.mem_singleton.1 hw)
        subst he
        rw [hbyte x hx] at hv
        exact ⟨⟨x, hx, rfl, h.1⟩, hv⟩
      · cases hw
    · rintro ⟨⟨x, hx, h0, h2⟩, rfl⟩
      refine ⟨x, hx, ?_⟩
      have hlt : byte x.var.data 0 < N_HWS_EVENTS := h0 ▸ e.isLt
      rw [dif_pos ⟨h2, hlt⟩, hevent _ hlt h0, hbyte x hx]
      exact List.mem_singleton_self _

theorem signal_mask_writes : (signalWrites s a.slv varAc : List (Write p q)).filterMap Write.mask? =
    (List.finRange MAX_CORES).flatMap fun c => (coreWrites s a.slv c : List (Write p q)).filterMap Write.mask? := by
  unfold signalWrites
  rw [List.filterMap_append, List.filterMap_flatMap]
  simp [List.filterMap_map, Function.comp_def, Write.mask?]

/-- **The mask after `signal`**: as it was before the edge, with the bit of the last core only. -/
theorem signal_mask (varAc : Event → Nat) (hcore : ∀ x ∈ accepted s a.slv, byte x.var.data 1 = x.core.val)
    (f : Event → Nat) :
    (setters e s a = [] ∧
      Delta.commit f ((signalWrites s a.slv varAc : List (Write p q)).filterMap Write.mask?) e = f e) ∨
    ∃ c ∈ setters e s a, (∀ d ∈ setters e s a, d ≤ c) ∧
      Delta.commit f ((signalWrites s a.slv varAc : List (Write p q)).filterMap Write.mask?) e =
        s.mask e ||| 1 <<< c.val := by
  rw [signal_mask_writes]
  by_cases hnil : setters e s a = []
  · refine .inl ⟨hnil, Delta.commit_of_not_mem fun v hv => ?_⟩
    obtain ⟨d, -, hd⟩ := List.mem_flatMap.1 hv
    have hmem := ((mem_coreWrites_mask hcore).1 (mem_mask.1 hd)).1
    rw [hnil] at hmem
    cases hmem
  · obtain ⟨d, hd⟩ := List.exists_mem_of_ne_nil _ hnil
    obtain ⟨c, hc, hmax⟩ := Finset.exists_max_image (setters e s a).toFinset id ⟨d, List.mem_toFinset.2 hd⟩
    have hc := List.mem_toFinset.1 hc
    have hle : ∀ d ∈ setters e s a, d ≤ c := fun d hd => hmax d (List.mem_toFinset.2 hd)
    refine .inr ⟨c, hc, hle, ?_⟩
    -- the cores behind the last one write the mask no more
    obtain ⟨is, js, hsplit⟩ := List.append_of_mem (List.mem_finRange c)
    have hlater : ∀ d ∈ js, c < d := by
      have hsorted := List.pairwise_lt_finRange MAX_CORES
      rw [hsplit] at hsorted
      exact fun d hd => List.rel_of_pairwise_cons (List.pairwise_append.1 hsorted).2.1 hd
    have hwrite : (e, s.mask e ||| 1 <<< c.val) ∈
        (coreWrites s a.slv c : List (Write p q)).filterMap Write.mask? :=
      mem_mask.2 ((mem_coreWrites_mask hcore).2 ⟨hc, rfl⟩)
    have hlast : ∀ d ∈ js, ∀ v, (e, v) ∉ (coreWrites s a.slv d : List (Write p q)).filterMap Write.mask? :=
      fun d hd v hv => absurd (hle d ((mem_coreWrites_mask hcore).1 (mem_mask.1 hv)).1) (not_le.2 (hlater d hd))
    rw [hsplit]
    have hmem := Delta.commit_flatMap (f := f) (fun c => (coreWrites s a.slv c : List (Write p q)).filterMap Write.mask?)
      is hwrite hlast
    exact ((mem_coreWrites_mask hcore).1 (mem_mask.1 hmem)).2

/-! ## What `programme` writes to a mask -/

/-- A release leaves this value in the mask, or the event is freed. -/
def Commanded (e : Event) (s : State p q) (prg : Fin p → Option Request) (v : Nat) : Prop :=
  (∃ core port, ∃ var ∈ prg port, Releases e s core var ∧ v = maskLeft s core var) ∨
    ∃ core, frees s prg e core = true

variable {prg : Fin p → Option Request} {m m' : Machine p} {ws : List (Write p q)} {port : Fin p} {var : Request}

theorem wakes_mask (e : Event) (maskVar : Nat) :
    (wakes cfg e maskVar : List (Write p q)).filterMap Write.mask? = [] := by
  simp [wakes, List.filterMap_map, Function.comp_def, Write.mask?]

theorem release_mask (i : Event) (maskVar : Nat) :
    (release cfg core i maskVar ++ [.prRdy port true] : List (Write p q)).filterMap Write.mask? =
      [(i, 1 <<< core.val)] := by
  simp only [release, List.filterMap_append, wakes_mask]
  rfl

/-- A write of the mask of `i`, and none after it. -/
theorem settles_single {Q : Nat → Prop} {i : Event} {v : Nat} (us : List (Event × Nat))
    (hus : ∀ w ∈ us, w.1 = i) (h : i = e → Q v) : Delta.Settles Q e (us ++ [(i, v)]) := by
  by_cases hi : i = e
  · subst hi
    exact Delta.Settles.of_last (h rfl) fun u => List.not_mem_nil
  · refine Delta.Settles.of_not_mem fun u hu => hi ?_
    rcases List.mem_append.1 hu with hu | hu
    · exact (hus _ hu).symm
    · exact (Prod.mk.inj (List.mem_singleton.1 hu)).1.symm

theorem releaseOrFree_settles (hstate : (s.prog core).state = .releaseOrFreeEvent)
    (htask : (s.prog core).SameTask m) (hvar : prg port = some var) (hid : var.id = core.val)
    (h : releaseOrFree cfg core m port var = some (m', ws)) :
    Delta.Settles (Commanded e s prg) e (ws.filterMap Write.mask?) := by
  obtain ⟨i, hi, hcases⟩ := releaseOrFree_cases h
  have hmanaged : i = e → (s.prog core).evManaging = some e := fun hie => htask.2.1.symm.trans (hie ▸ hi)
  have hcommand : ∀ v, var.rw = true → v = maskLeft s core var → i = e → Commanded e s prg v :=
    fun v hrw hv hie => .inl ⟨core, port, var, hvar, ⟨hmanaged hie, .inl hstate, hid, hrw⟩, hv⟩
  obtain ⟨hrw, h1, -, rfl⟩ | ⟨hrw, h2, -, rfl⟩ | ⟨hrw, -, -, -, rfl⟩ := hcases
  · have hone : 1 <<< core.val = maskLeft s core var := by
      rw [maskLeft, if_neg]
      rintro ⟨-, h2⟩
      rw [← htask.2.2, h1] at h2
      cases h2
    show Delta.Settles _ e ((i, var.data.toNat % 2 ^ 16) ::
      (release cfg core i (var.data.toNat % 2 ^ 16) ++ [.prRdy port true] : List (Write p q)).filterMap Write.mask?)
    rw [release_mask]
    exact settles_single [_] (by simp) (hcommand _ hrw hone)
  · have htwo : var.data.toNat = maskLeft s core var := by
      rw [maskLeft, if_pos ⟨hstate, htask.2.2.symm.trans h2⟩]
    exact settles_single [] nofun (hcommand _ hrw htwo)
  · refine settles_single [] nofun fun hie => .inr ⟨core, ?_⟩
    simp only [frees, hstate, hmanaged hie, decide_true, Bool.true_and, decide_eq_true_eq]
    exact ⟨port, by simp [hvar, hid, hrw]⟩

theorem releaseEvent_settles (hstate : (s.prog core).state = .releaseEvent) (htask : (s.prog core).SameTask m)
    (hvar : prg port = some var) (hid : var.id = core.val)
    (h : releaseEvent cfg s core m port var = some (m', ws)) :
    Delta.Settles (Commanded e s prg) e (ws.filterMap Write.mask?) := by
  obtain ⟨i, hi, hrw, -, rfl⟩ := releaseEvent_cases h
  rw [release_mask]
  refine settles_single [] nofun fun hie => .inl ⟨core, port, var, hvar, ?_, ?_⟩
  · exact ⟨htask.2.1.symm.trans (hie ▸ hi), .inr hstate, hid, hrw⟩
  · rw [maskLeft, if_neg]
    rintro ⟨h1, -⟩
    rw [hstate] at h1
    cases h1

theorem machine_settles (h : machineStep cfg s prg core (s.prog core) = some (m', ws)) :
    Delta.Settles (Commanded e s prg) e (ws.filterMap Write.mask?) := by
  have hnone : ∀ us : List (Write p q), us.filterMap Write.mask? = [] →
      Delta.Settles (Commanded e s prg) e (us.filterMap Write.mask?) := fun us hus =>
    Delta.Settles.of_not_mem fun v hv => by rw [hus] at hv; cases hv
  refine machineStep_spec (Q := fun ws => Delta.Settles (Commanded e s prg) e (ws.filterMap Write.mask?)) h ?_ ?_ ?_
    ?_ ?_ ?_
  · exact hnone [] rfl
  · intro ws us hws hus
    rw [List.filterMap_append]
    exact hws.append hus
  · intro port b
    exact hnone _ rfl
  · intro _ m₁ port var m₂ us _ _ _ hb
    obtain ⟨-, -, ⟨-, -, -, rfl⟩ | ⟨-, -, rfl⟩⟩ := waitEvent_cases hb
    · exact hnone _ rfl
    · exact hnone _ rfl
  · intro hstate m₁ port var m₂ us htask hvar hid hb
    exact releaseOrFree_settles hstate htask hvar hid hb
  · intro hstate m₁ port var m₂ us htask hvar hid hb
    exact releaseEvent_settles hstate htask hvar hid hb

theorem programme_settles :
    Delta.Settles (Commanded e s prg) e ((programmeWrites cfg s prg : List (Write p q)).filterMap Write.mask?) := by
  unfold programmeWrites
  rw [List.filterMap_flatMap]
  refine Delta.Settles.flatMap fun core _ => ?_
  unfold machineWrites
  cases h : machineStep (q := q) cfg s prg core (s.prog core) with
  | none => exact Delta.Settles.of_not_mem fun v => List.not_mem_nil
  | some r => exact machine_settles h

/-- Processes that run on one side of `signal`: only a command changes the mask of an event that is not
reloaded. -/
theorem others_settle (cfg : Config) (varAc : Event → Nat) {l : List Process} (hsignal : .signal ∉ l)
    (hr : reloads s e = false) :
    Delta.Settles (fun v => .programme ∈ l ∧ Commanded e s a.prg v) e
      ((l.flatMap (processWrites cfg s a varAc)).filterMap Write.mask?) := by
  rw [List.filterMap_flatMap]
  refine Delta.Settles.flatMap fun x hx => ?_
  cases x with
  | programme =>
    intro f
    exact (programme_settles f).imp_right fun hQ => ⟨hx, hQ⟩
  | notify =>
    refine Delta.Settles.of_not_mem fun v hv => ?_
    obtain ⟨i, hi, ⟨c, hc, -⟩ | hc | hc⟩ := mem_notifyWrites.1 (mem_mask.1 hv)
    · cases hc
    · cases hc
    · obtain ⟨rfl, -⟩ := Write.mask.inj hc
      rw [hr] at hi
      cases hi
  | signal => exact absurd hx hsignal

/-! ## The edge -/

theorem testBit_self (n : Nat) : (1 <<< n).testBit n = true := by
  rw [Nat.one_shiftLeft, Nat.testBit_two_pow_self]

theorem HasAll.or {mask v : Nat} {cores : List Core} (h : HasAll mask cores) : HasAll (mask ||| v) cores := by
  intro c hc
  rw [Nat.testBit_or, h c hc, Bool.true_or]

theorem HasAll.append {mask : Nat} {cores cores' : List Core} (h : HasAll mask cores) (h' : HasAll mask cores') :
    HasAll mask (cores ++ cores') := by
  intro c hc
  exact (List.mem_append.1 hc).elim (h c) (h' c)

/-- The mask has the bits of the cores that wait. -/
structure Waiting (e : Event) (x : State p q × List Core) : Prop where
  bytes : Bytes x.1
  bits : HasAll (x.1.mask e) x.2

/-- At the edge of a reload nobody notifies: the counter has run down. -/
theorem setters_of_reloads (hb : Bytes s) (hv : countOffAll s.atomicCounters (accepted s a.slv) = .ok varAc)
    (hr : reloads s e = true) : setters e s a = [] := by
  have hcounter : s.atomicCounters e = 128 := by
    unfold reloads at hr
    rw [Bool.and_eq_true, beq_iff_eq, (counter_iff (hb e).1).2.2] at hr
    exact hr.1
  have hnone : notified e (accepted s a.slv) = [] := by
    by_contra hne
    have hge := (countOffAll_at hv (hb e).1).2 hne
    have hpos := List.length_pos_of_ne_nil hne
    omega
  unfold setters
  rw [hnone]
  rfl

/-- **The mask after an edge** at which the event is neither reloaded nor freed. -/
theorem step_mask {waiters : List Core} (hD : Undisturbed e (s, waiters) a) (hbits : HasAll (s.mask e) waiters)
    (hs : step cfg s a = some t) (hr : reloads s e = false) (hfree : ∀ core, frees s a.prg e core = false) :
    HasAll (t.mask e) (waiters ++ setters e s a) := by
  obtain ⟨hperm, -, varAc, hv, rfl⟩ := step_spec hs
  have hcore := countOffAll_core hv
  obtain ⟨-, hbefore, hafter⟩ := order_split hperm
  have hcommanded : ∀ v, Commanded e s a.prg v → .programme ∈ after a ∨ setters e s a = [] →
      HasAll v (waiters ++ setters e s a) := by
    rintro v (⟨core, port, var, hvar, hrel, rfl⟩ | ⟨core, hf⟩) hkept
    · exact hD.release core port var hvar hrel hkept
    · rw [hfree core] at hf
      cases hf
  show HasAll (Delta.commit s.mask ((a.order.flatMap (processWrites cfg s a varAc)).filterMap Write.mask?) e) _
  rw [writes_split hperm, Delta.commit_append, Delta.commit_append]
  -- the processes after `signal` have the last word
  rcases others_settle cfg varAc hafter hr _ with hkeep | ⟨hprog, hlast⟩
  · rw [hkeep]
    rcases signal_mask varAc hcore _ with ⟨hnil, hsame⟩ | ⟨c, hc, hmax, hmask⟩
    · rw [hsame]
      rcases others_settle cfg varAc hbefore hr s.mask with hkeep | ⟨-, hfirst⟩
      · rw [hkeep, hnil, List.append_nil]
        exact hbits
      · exact hcommanded _ hfirst (.inr hnil)
    · rw [hmask]
      refine hbits.or.append fun d hd => ?_
      rcases lt_or_eq_of_le (hmax d hd) with hlt | rfl
      · rw [Nat.testBit_or, hD.together d hd c hc hlt, Bool.true_or]
      · rw [Nat.testBit_or, testBit_self, Bool.or_true]
  · exact hcommanded _ hlast (.inl hprog)

theorem Waiting.next {x y : State p q × List Core} (h : Waiting e x) (hD : Undisturbed e x a)
    (hs : Trans.withHistory (step cfg) (waitersNext e) x a = some y) : Waiting e y := by
  obtain ⟨hs, hy⟩ := Trans.withHistory_some.1 hs
  refine ⟨step_bytes h.bytes hs, ?_⟩
  rw [hy]
  unfold waitersNext
  split
  · nofun
  · rename_i hno
    have hfree : ∀ core, frees x.1 a.prg e core = false := fun core => by
      rw [← Bool.not_eq_true]
      exact fun hf => hno ⟨core, hf⟩
    cases hr : reloads x.1 e with
    | true =>
      obtain ⟨-, -, varAc, hv, -⟩ := step_spec hs
      rw [if_pos rfl, setters_of_reloads h.bytes hv hr]
      nofun
    | false =>
      rw [if_neg (by decide)]
      exact step_mask hD h.bits hs hr hfree

/-- **`notify_and_set` keeps every waiter**: in every run whose edges are undisturbed, whenever the event is
woken its mask has the bit of every core that has asked for it in the round. -/
theorem waiters_kept {as : List (Edge p q)}
    (h : Trans.Along (Trans.withHistory (step cfg) (waitersNext e)) (Undisturbed e) (init, []) as) :
    Trans.Along (Trans.withHistory (step cfg) (waitersNext e)) (KeepsWaiters e) (init, []) as :=
  h.of_inv (Waiting e) ⟨init_bytes, nofun⟩ (fun _ _ _ hI hD hs => hI.next hD hs) fun _ _ hI _ _ => hI.bits

/-! Core 0 has an event for two notifications and releases it with an empty mask; the cores 1 and 2 ask for
their wake bits one after the other, or at one edge. -/

def released : List (Edge 1 2) :=
  askTwo ++ obtainTwo ::
    [none, some ⟨0, true, 1⟩, none, some ⟨0, true, 0⟩, none, some ⟨0, true, 0⟩, none].map (barrierEdge · none none)

def setInTurn : List (Edge 1 2) :=
  released ++ [barrierEdge none (some ⟨1, true, 0x010100⟩) none, barrierEdge none none (some ⟨2, true, 0x010200⟩),
    barrierEdge none none none]

theorem waiters_kept_setInTurn :
    Trans.Along (Trans.withHistory (step ⟨16⟩) (waitersNext event0)) (KeepsWaiters event0) (init, []) setInTurn :=
  waiters_kept (by decide +kernel)

def setTogether : List (Edge 1 2) :=
  released ++ [barrierEdge none (some ⟨1, true, 0x010100⟩) (some ⟨2, true, 0x010200⟩), barrierEdge none none none]

/-- **The lost waiter**: the mask that wakes the event has core 2, but not core 1. -/
theorem not_waiters_setTogether :
    ¬ Trans.Along (Trans.withHistory (step ⟨16⟩) (waitersNext event0)) (KeepsWaiters event0) (init, [])
      setTogether := by
  decide +kernel

end VirtualSoc.Hws
