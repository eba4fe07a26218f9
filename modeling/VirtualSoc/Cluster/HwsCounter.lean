import VirtualSoc.Lib.Transition
import VirtualSoc.Cluster.HwsWrites

/-!
# Updates of the synchroniser's counters (cluster/cl_hws.cpp)

At one clock edge `programme` reserves and frees events, `notify` reloads them and `signal` counts their
notifications off. An edge loses no update of a counter if its new value is the result of all operations
accepted at the edge, one after another in some order (`NoLoss`).

`signal` writes back every counter from the values at the edge (cl_hws.cpp:591). So what a process that ran
before it stored is lost, unless a later process stores as well (`Kept`); `noLoss_iff` says that this is
the only way to lose an update.
-/

namespace VirtualSoc.Hws

variable {p q : Nat}

/-! ## Operations in some order -/

/-- An operation on a counter. A reservation, a free and a reload store a value. A notification needs a
reserved counter that is not run down. -/
inductive CounterOp
  | store (v : Nat)
  | decrement
deriving DecidableEq, Repr

def CounterOp.apply (v : Nat) : CounterOp → Option Nat
  | store u => some u
  | decrement => if v &&& 0x80 ≠ 0 ∧ v &&& 0x7F ≠ 0 then some (Hws.decrement v) else none

/-- The operations one after another. -/
def applyAll : Nat → List CounterOp → Option Nat
  | v, [] => some v
  | v, op :: ops => (op.apply v).bind fun u => applyAll u ops

/-- Stores of `us` and `k` decrements can be ordered such that the counter goes from `v` to `u`. -/
def InSomeOrder (us : List Nat) (k v u : Nat) : Prop :=
  ∃ ops : List CounterOp, ops.Perm (us.map .store ++ List.replicate k .decrement) ∧ applyAll v ops = some u

section Order

variable {c k u v : Nat} {us : List Nat} {ops : List CounterOp}

theorem applyAll_append {ops' : List CounterOp} :
    applyAll v (ops ++ ops') = (applyAll v ops).bind fun u => applyAll u ops' := by
  induction ops generalizing v with
  | nil => rfl
  | cons op ops ih =>
    simp only [List.cons_append, applyAll, Option.bind_assoc]
    exact congrArg _ (funext fun u => ih)

theorem applyAll_stores (v : Nat) : applyAll v ((us ++ [u]).map .store) = some u := by
  induction us generalizing v with
  | nil => rfl
  | cons u' us ih => exact ih u'

theorem apply_decrement (hc : c < 256) (h : 128 < c) : CounterOp.decrement.apply c = some (c - 1) := by
  have hr := (counter_iff hc).1.2 (by omega)
  have hp : c &&& 0x7F ≠ 0 := by
    rw [(counter_iff hc).2.1]
    omega
  rw [CounterOp.apply, if_pos ⟨hr, hp⟩, decrement_eq hc hr hp]

theorem apply_decrement_inv (hc : c < 256) (h : CounterOp.decrement.apply c = some u) : 128 < c ∧ u + 1 = c := by
  simp only [CounterOp.apply] at h
  split at h
  · rename_i hrp
    have hge := (counter_iff hc).1.1 hrp.1
    have hp := hrp.2
    rw [(counter_iff hc).2.1] at hp
    rw [decrement_eq hc hrp.1 hrp.2] at h
    have := Option.some.inj h
    omega
  · cases h

theorem applyAll_decrements (hc : c < 256) (hk : k ≠ 0 → 128 + k ≤ c) :
    applyAll c (List.replicate k .decrement) = some (c - k) := by
  induction k generalizing c with
  | zero => rfl
  | succ k ih =>
    have hge := hk (Nat.succ_ne_zero k)
    rw [List.replicate_succ, applyAll, apply_decrement hc (by omega), Option.bind_some,
      ih (by omega) (fun _ => by omega)]
    congr 1
    omega

/-- A store may come last. -/
theorem inSomeOrder_of_mem (hc : c < 256) (hk : k ≠ 0 → 128 + k ≤ c) (hu : u ∈ us) : InSomeOrder us k c u := by
  refine ⟨List.replicate k .decrement ++ (us.erase u ++ [u]).map .store, ?_, ?_⟩
  · have hperm : (us.erase u ++ [u]).Perm us := List.perm_append_comm.trans (List.perm_cons_erase hu).symm
    exact List.perm_append_comm.trans ((hperm.map _).append_right _)
  · rw [applyAll_append, applyAll_decrements hc hk]
    exact applyAll_stores (c - k)

/-- Without stores, and where one stores what is there, all decrements come through. -/
theorem inSomeOrder_of_same (hc : c < 256) (hk : k ≠ 0 → 128 + k ≤ c) (hus : us = [] ∨ c ∈ us) :
    InSomeOrder us k c (c - k) := by
  obtain rfl | hmem := hus
  · exact ⟨List.replicate k .decrement, List.Perm.refl _, applyAll_decrements hc hk⟩
  · refine ⟨(us.erase c ++ [c]).map .store ++ List.replicate k .decrement, ?_, ?_⟩
    · have hperm : (us.erase c ++ [c]).Perm us := List.perm_append_comm.trans (List.perm_cons_erase hmem).symm
      exact (hperm.map _).append_right _
    · rw [applyAll_append, applyAll_stores, Option.bind_some]
      exact applyAll_decrements hc hk

/-- The last store and the decrements after it give the value. -/
theorem applyAll_last (hc : c < 256) (hus : ∀ w, .store w ∈ ops → w < 256) (h : applyAll c ops = some u) :
    ∃ j, j ≤ ops.count .decrement ∧ (j ≠ 0 → 128 ≤ u) ∧
      ((∀ w, .store w ∉ ops) ∧ u + j = c ∨ .store (u + j) ∈ ops) := by
  induction ops generalizing c with
  | nil =>
    obtain rfl := Option.some.inj h
    exact ⟨0, by simp⟩
  | cons op ops ih =>
    simp only [applyAll, Option.bind_eq_some_iff] at h
    obtain ⟨c', hop, h⟩ := h
    have hus' : ∀ w, .store w ∈ ops → w < 256 := fun w hw => hus w (List.mem_cons_of_mem op hw)
    cases op with
    | store w =>
      obtain rfl := Option.some.inj hop
      obtain ⟨j, hj, hpos, hlast⟩ := ih (hus w List.mem_cons_self) hus' h
      refine ⟨j, by simpa [List.count_cons] using hj, hpos, Or.inr ?_⟩
      obtain ⟨-, rfl⟩ | hmem := hlast
      · exact List.mem_cons_self
      · exact List.mem_cons_of_mem _ hmem
    | decrement =>
      obtain ⟨hlt, hc'⟩ := apply_decrement_inv hc hop
      obtain ⟨j, hj, hpos, hlast⟩ := ih (by omega) hus' h
      obtain ⟨hno, hj'⟩ | hmem := hlast
      · refine ⟨j + 1, by simpa [List.count_cons] using hj, fun _ => ?_, Or.inl ⟨?_, by omega⟩⟩
        · by_cases hj0 : j = 0
          · omega
          · have := hpos hj0
            omega
        · intro w hw
          exact hno w (by simpa using hw)
      · exact ⟨j, le_trans hj (by simp), hpos, Or.inr (List.mem_cons_of_mem _ hmem)⟩

/-- If the counter ends with the decrements alone, no store has changed it. -/
theorem same_of_inSomeOrder (hc : c < 256) (hk : k ≠ 0 → 128 + k ≤ c) (hlt : ∀ w ∈ us, w < 256)
    (hus : ∀ w ∈ us, w = 0 ∨ c ≤ 128) (h : InSomeOrder us k c (c - k)) : us = [] ∨ c ∈ us := by
  obtain ⟨ops, hperm, h⟩ := h
  have hmem : ∀ w, .store w ∈ ops ↔ w ∈ us := by
    intro w
    rw [hperm.mem_iff]
    simp
  have hcount : ops.count .decrement = k := by
    rw [hperm.count_eq]
    simp [List.count_append, List.count_replicate_self, List.count_eq_zero]
  obtain ⟨j, hj, hpos, ⟨hno, -⟩ | hlast⟩ := applyAll_last hc (fun w hw => hlt w ((hmem w).1 hw)) h
  · refine Or.inl (List.eq_nil_iff_forall_not_mem.2 fun w hw => ?_)
    exact hno w ((hmem w).2 hw)
  · have hw := (hmem _).1 hlast
    rw [hcount] at hj
    have hval : c - k + j = c := by
      obtain h0 | hle := hus _ hw
      · -- a freed counter is not counted off
        by_cases hk0 : k = 0
        · omega
        · have := hk hk0
          omega
      · by_cases hk0 : k = 0
        · omega
        · have := hk hk0
          omega
    rw [hval] at hw
    exact Or.inr hw

end Order

/-! ## The operations of an edge -/

section Edge

variable (cfg : Config) (s : State p q) (a : Edge p q) (e : Event)

/-- The values that a process stores in the counter of `e`. `signal` only writes back what it counted. -/
def stores : Process → List Nat
  | .programme =>
    (programmeWrites cfg s a.prg : List (Write p q)).filterMap fun w => (w.counter?.filter (·.1 == e)).map Prod.snd
  | .notify => (notifyWrites cfg s).filterMap fun w => (w.counter?.filter (·.1 == e)).map Prod.snd
  | .signal => []

/-- After the edge each counter has the value that the reservations, frees and reloads stored, and the
notifications counted off, in some order. -/
def NoLoss : Prop :=
  ∀ t, step cfg s a = some t → ∀ e, InSomeOrder (stores cfg s a e .programme ++ stores cfg s a e .notify)
    (notified e (accepted s a.slv)).length (s.atomicCounters e) (t.atomicCounters e)

/-- A counter that is stored before `signal` is stored again after it, or what is stored is the value that
the counter has. -/
def Kept : Prop :=
  ∀ e, (after a).flatMap (stores cfg s a e) ≠ [] ∨ (before a).flatMap (stores cfg s a e) = [] ∨
    s.atomicCounters e ∈ (before a).flatMap (stores cfg s a e)

instance : Decidable (Kept cfg s a) :=
  inferInstanceAs (Decidable (∀ e : Fin N_HWS_EVENTS, (after a).flatMap (stores cfg s a e) ≠ [] ∨
    (before a).flatMap (stores cfg s a e) = [] ∨ s.atomicCounters e ∈ (before a).flatMap (stores cfg s a e)))

end Edge

variable {cfg : Config} {s t : State p q} {a : Edge p q} {e : Event} {varAc : Event → Nat} {v : Nat}

theorem mem_storesOf {ws : List (Write p q)} :
    v ∈ ws.filterMap (fun w => (w.counter?.filter (·.1 == e)).map Prod.snd) ↔ .counter e v ∈ ws := by
  simp only [List.mem_filterMap, Option.map_eq_some_iff, Option.filter_eq_some_iff, beq_iff_eq, Prod.exists]
  constructor
  · rintro ⟨w, hw, i, u, ⟨hwu, rfl⟩, rfl⟩
    exact mem_counter.1 (List.mem_filterMap.2 ⟨w, hw, hwu⟩)
  · intro hw
    exact ⟨_, hw, e, v, ⟨rfl, rfl⟩, rfl⟩

theorem mem_stores {x : Process} (hx : x ≠ .signal) :
    v ∈ stores cfg s a e x ↔ .counter e v ∈ processWrites cfg s a varAc x := by
  cases x with
  | programme => exact mem_storesOf
  | notify => exact mem_storesOf
  | signal => exact absurd rfl hx

/-- What is stored: nothing but a free stores in a counter that still counts. -/
theorem stores_spec {x : Process} (hb : Bytes s) (hv : v ∈ stores cfg s a e x) :
    v < 256 ∧ (v = 0 ∨ s.atomicCounters e ≤ 128) := by
  cases x with
  | programme =>
    obtain rfl | ⟨hfree, -, hlt⟩ := programme_write (mem_storesOf.1 hv)
    · exact ⟨by decide, Or.inl rfl⟩
    · have hnot := mt (counter_iff (hb e).1).1.2 (not_not.2 hfree)
      exact ⟨hlt, Or.inr (by omega)⟩
  | notify =>
    obtain ⟨i, hr, ⟨c, hc, -⟩ | hc | hc⟩ := mem_notifyWrites.1 (mem_storesOf.1 hv)
    · cases hc
    · simp only [Write.counter.injEq] at hc
      obtain ⟨rfl, rfl⟩ := hc
      simp only [reloads, Bool.and_eq_true, beq_iff_eq, (counter_iff (hb e).1).2.2] at hr
      exact ⟨(hb e).2, Or.inr (le_of_eq hr.1)⟩
    · cases hc
  | signal => cases hv

/-- Before or after `signal`, that is every store. -/
theorem stores_perm (h : a.order.Perm [.programme, .notify, .signal]) :
    ((before a).flatMap (stores cfg s a e) ++ (after a).flatMap (stores cfg s a e)).Perm
      (stores cfg s a e .programme ++ stores cfg s a e .notify) := by
  have hsplit : a.order.flatMap (stores cfg s a e) =
      (before a).flatMap (stores cfg s a e) ++ (after a).flatMap (stores cfg s a e) := by
    rw [(order_split h).1, List.flatMap_append, List.flatMap_cons]
    rfl
  rw [← hsplit]
  refine (h.flatMap_right _).trans (List.Perm.of_eq ?_)
  simp [stores]

/-- The counter after the edge: what a process stored after `signal`, or else what `signal` counted. -/
theorem step_counter (hb : Bytes s) (hs : step cfg s a = some t) :
    t.atomicCounters e ∈ (after a).flatMap (stores cfg s a e) ∨ (after a).flatMap (stores cfg s a e) = [] ∧
      t.atomicCounters e + (notified e (accepted s a.slv)).length = s.atomicCounters e := by
  obtain ⟨hperm, -, varAc, hv, rfl⟩ := step_spec hs
  have hafter := (order_split hperm).2.2
  have hcount := (countOffAll_at hv (hb e).1).1
  have hlt := (hb e).1
  have hmem : ∀ u, u ∈ (after a).flatMap (stores cfg s a e) ↔
      (e, u) ∈ ((after a).flatMap (processWrites cfg s a varAc)).filterMap Write.counter? := by
    intro u
    rw [mem_counter, List.mem_flatMap, List.mem_flatMap]
    refine exists_congr fun x => and_congr_right fun hx => mem_stores ?_
    rintro rfl
    exact hafter hx
  have hsignal : (e, varAc e % 256) ∈ (signalWrites s a.slv varAc : List (Write p q)).filterMap Write.counter? :=
    mem_counter.2 (signal_counter.2 rfl)
  simp only [commit, writes_split hperm]
  rw [Delta.commit_append_of_mem (List.mem_append_left _ hsignal)]
  by_cases hnil : (after a).flatMap (stores cfg s a e) = []
  · refine Or.inr ⟨hnil, ?_⟩
    have hno : ∀ u, (e, u) ∉ ((after a).flatMap (processWrites cfg s a varAc)).filterMap Write.counter? := by
      intro u hu
      rw [← hmem, hnil] at hu
      cases hu
    rw [Delta.commit_append_of_not_mem hno, signal_counter.1 (mem_counter.1 (Delta.commit_mem hsignal))]
    omega
  · obtain ⟨u, hu⟩ := List.exists_mem_of_ne_nil _ hnil
    rw [Delta.commit_append_of_mem ((hmem u).1 hu)]
    exact Or.inl ((hmem _).2 (Delta.commit_mem ((hmem u).1 hu)))

/-- **Exactly when an edge loses no update.** -/
theorem noLoss_iff (hb : Bytes s) : NoLoss cfg s a ↔ ((step cfg s a).isSome → Kept cfg s a) := by
  cases hs : step cfg s a with
  | none =>
    simp only [NoLoss, hs, Option.isSome_none, Bool.false_eq_true, false_imp_iff, iff_true]
    intro t ht
    cases ht
  | some t =>
    obtain ⟨hperm, -, varAc, hv, -⟩ := step_spec hs
    have hlt := fun e => (hb e).1
    have hk : ∀ e, (notified e (accepted s a.slv)).length ≠ 0 →
        128 + (notified e (accepted s a.slv)).length ≤ s.atomicCounters e := fun e hne =>
      (countOffAll_at hv (hlt e)).2 fun hnil => hne (by rw [hnil]; rfl)
    simp only [NoLoss, hs, Option.some.injEq, forall_eq', Option.isSome_some, true_imp_iff]
    refine forall_congr' fun e => ?_
    have hst : ((before a).flatMap (stores cfg s a e) ++ (after a).flatMap (stores cfg s a e)).Perm
        (stores cfg s a e .programme ++ stores cfg s a e .notify) := stores_perm hperm
    have hspec : ∀ w ∈ stores cfg s a e .programme ++ stores cfg s a e .notify,
        w < 256 ∧ (w = 0 ∨ s.atomicCounters e ≤ 128) := by
      intro w hw
      rcases List.mem_append.1 hw with hw | hw
      · exact stores_spec hb hw
      · exact stores_spec hb hw
    obtain hlast | ⟨hnil, hlast⟩ := step_counter (e := e) hb hs
    · -- a store after `signal` may come last
      have hne : (after a).flatMap (stores cfg s a e) ≠ [] := List.ne_nil_of_mem hlast
      refine iff_of_true ?_ (Or.inl hne)
      exact inSomeOrder_of_mem (hlt e) (hk e) (hst.subset (List.mem_append_right _ hlast))
    · rw [hnil, List.append_nil] at hst
      rw [show t.atomicCounters e = s.atomicCounters e - (notified e (accepted s a.slv)).length by omega]
      constructor
      · intro h
        obtain hsame | hsame := same_of_inSomeOrder (hlt e) (hk e) (fun w hw => (hspec w hw).1)
          (fun w hw => (hspec w hw).2) h
        · rw [hsame] at hst
          exact Or.inr (Or.inl (List.perm_nil.1 hst))
        · exact Or.inr (Or.inr (hst.mem_iff.2 hsame))
      · intro h
        refine inSomeOrder_of_same (hlt e) (hk e) ?_
        obtain h | h | h := h
        · exact absurd hnil h
        · rw [h] at hst
          exact Or.inl (List.nil_perm.1 hst)
        · exact Or.inr (hst.mem_iff.1 h)

/-- **No update of a counter is lost** in the runs in which `signal` writes back no counter that a process
stored before it, and only in these. -/
theorem noLoss_along_iff (as : List (Edge p q)) :
    Trans.Along (step cfg) (NoLoss cfg) init as ↔
      Trans.Along (step cfg) (fun s a => (step cfg s a).isSome → Kept cfg s a) init as :=
  Trans.along_congr Bytes (fun _ _ _ h _ hs => step_bytes h hs) (fun _ _ h => noLoss_iff h) init_bytes

/-- An edge at which only core 0 is on the programming port. -/
def programmeEdge (order : List Process) (var : Option Request) : Edge 1 1 := ⟨order, fun _ => var, fun _ => none⟩

/-- Core 0 asks for an event with two notifications and reads the answer, while `signal` runs last. -/
def askSignalLast : List (Edge 1 1) :=
  [some ⟨0, true, 0⟩, none, some ⟨0, true, 0x01010002⟩, none, some ⟨0, false, 0⟩].map
    (programmeEdge [.programme, .notify, .signal])

theorem not_noLoss_askSignalLast : ¬ Trans.Along (step ⟨16⟩) (NoLoss ⟨16⟩) init askSignalLast := by
  rw [Trans.along_congr Bytes (fun _ _ _ h _ hs => step_bytes h hs) (fun _ _ h => noLoss_iff h) init_bytes]
  decide +kernel

end VirtualSoc.Hws
