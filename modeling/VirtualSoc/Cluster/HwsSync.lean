import Mathlib.Tactic.Common
import VirtualSoc.Lib.Count
import VirtualSoc.Lib.Transition

/-!
# The barrier of `sync_cores` (cluster/cl_hws.cpp, `idle_mngr` and `sync_mngr`)

A core that writes to `SYNC_PROC_ADDRESS` raises its flag in `ARM11_IDLE`, and executes nothing till the flag is down
again. At a clock edge `sync_mngr` lists in `sent_idle` the cores whose flag is up and counts them; one edge after the
last of them it takes all flags down.

A round of a core is a request and the release after it. All cores are in the same round, some before their request and
some after it (`Inv.rounds`), so nobody is released from a round that another core has not asked for.
-/

namespace VirtualSoc.HwsSync

open Trans

variable {n : Nat}

/-- The flags of the cores, and what `sync_mngr` keeps between two clock edges. `n` is `N_CORES`, in a single cluster
`n_slaves` too. -/
structure State (n : Nat) where
  arm11Stop : Fin n → Bool
  arm11Idle : Fin n → Bool
  sentIdle : Fin n → Bool
  slaveInt : Fin n → Bool
  idleCores : Int
  /-- `sync_mngr` is in its inner `wait`. -/
  releasing : Bool

def init : State n where
  arm11Stop _ := false
  arm11Idle _ := false
  sentIdle _ := false
  slaveInt _ := false
  idleCores := 0
  releasing := false

section Processes

variable (s : State n) (i : Fin n)

/-- `SYNC_PROC_ADDRESS` (sim_support.cpp:103). -/
def syncProc : State n :=
  { s with arm11Idle := Function.update s.arm11Idle i true }

/-- A turn of the first loop of `sync_mngr` (cl_hws.cpp:622); `none` where the assertion fails. -/
def countCore : Option (State n) :=
  if s.arm11Idle i && !s.sentIdle i then
    let s : State n := { s with
      slaveInt := Function.update s.slaveInt i true, sentIdle := Function.update s.sentIdle i true
      idleCores := s.idleCores + 1 }
    if 0 < s.idleCores ∧ s.idleCores ≤ (n : Int) then some s else none
  else some s

/-- A turn of the second (cl_hws.cpp:641). -/
def releaseCore : State n :=
  { s with
    slaveInt := Function.update s.slaveInt i false, sentIdle := Function.update s.sentIdle i false
    arm11Idle := Function.update s.arm11Idle i false, idleCores := 0 }

/-- `sync_mngr` from one `wait` to the next. -/
def syncMngr : Option (State n) :=
  if s.releasing then
    some { (List.finRange n).foldl releaseCore s with releasing := false }
  else
    ((List.finRange n).foldlM countCore s).map fun s => { s with releasing := decide (s.idleCores = n) }

/-- `idle_mngr` from one `wait` to the next. -/
def idleMngr : State n :=
  { s with slaveInt := fun i => s.arm11Stop i || s.arm11Idle i }

end Processes

/-- What happens next. `others` is whatever the machines of the synchroniser and the other messages do to `ARM11_STOP`
and `slave_int`. -/
inductive Action (n : Nat)
  | syncProc (i : Fin n)
  | syncMngr
  | idleMngr
  | others (arm11Stop slaveInt : Fin n → Bool)

/-- A core whose flag is up has no request. -/
def step (s : State n) : Action n → Option (State n)
  | .syncProc i => if s.arm11Idle i then none else some (syncProc s i)
  | .syncMngr => syncMngr s
  | .idleMngr => some (idleMngr s)
  | .others arm11Stop slaveInt => some { s with arm11Stop := arm11Stop, slaveInt := slaveInt }

/-- How often each core has requested the barrier, and how often it has been released from it. -/
structure Rounds (n : Nat) where
  requested : Fin n → Nat := fun _ => 0
  released : Fin n → Nat := fun _ => 0

/-- The step takes the flag of the core down. -/
def releases (s : State n) (a : Action n) (i : Fin n) : Bool :=
  s.arm11Idle i && (step s a).any fun t => !t.arm11Idle i

def Rounds.next (s : State n) (a : Action n) (g : Rounds n) : Rounds n where
  requested :=
    match a with
    | .syncProc i => Function.update g.requested i (g.requested i + 1)
    | _ => g.requested
  released i := if releases s a i then g.released i + 1 else g.released i

/-- What the barrier promises in a state and at the next activation of `sync_mngr`. -/
structure Barrier (x : State n × Rounds n) : Prop where
  count : x.1.idleCores = Count.count (fun b => b = true) x.1.sentIdle
  nonneg : 0 ≤ x.1.idleCores
  le_cores : x.1.idleCores ≤ n
  asserts : (syncMngr x.1).isSome = true
  /-- Who has been released `k` times has left a barrier to which everybody has come `k` times. -/
  order : ∀ k i j, k ≤ x.2.released i → k ≤ x.2.requested j

variable {s t : State n} {a : Action n} {i j : Fin n} {g : Rounds n} {x y : State n × Rounds n}

/-! ## Counting and releasing -/

/-- A core that is listed has its flag up, and `idle_cores` is their number. -/
structure Listed (s : State n) : Prop where
  idle : ∀ i, s.sentIdle i = true → s.arm11Idle i = true
  count : s.idleCores = Count.count (fun b => b = true) s.sentIdle

theorem countCore_spec (h : Listed s) (i : Fin n) :
    ∃ t, countCore s i = some t ∧ Listed t ∧ t.arm11Idle = s.arm11Idle ∧
      (∀ j, s.sentIdle j = true → t.sentIdle j = true) ∧ (s.arm11Idle i = true → t.sentIdle i = true) := by
  unfold countCore
  split
  next hi =>
    obtain ⟨hidle, hsent⟩ : s.arm11Idle i = true ∧ ¬ s.sentIdle i = true := by simpa using hi
    have hlt : Count.count (fun b => b = true) s.sentIdle < n := by
      simpa using Count.count_lt (p := fun b => b = true) hsent
    have hnew := Count.count_update_new (p := fun b => b = true) (x := true) hsent rfl
    have hcount := h.count
    -- there was room for one more
    have hassert : 0 < s.idleCores + 1 ∧ s.idleCores + 1 ≤ (n : Int) := ⟨by omega, by omega⟩
    refine ⟨_, if_pos hassert, ⟨fun j hj => ?_, ?_⟩, rfl, fun j hj => ?_, fun _ => Function.update_self ..⟩
    · by_cases hji : j = i
      · rw [hji]
        exact hidle
      · exact h.idle j (by simpa [Function.update_of_ne hji] using hj)
    · show s.idleCores + 1 = _
      rw [hnew, hcount]
      push_cast
      rfl
    · by_cases hji : j = i
      · rw [hji]
        exact Function.update_self ..
      · exact (Function.update_of_ne hji ..).trans hj
  next hi =>
    refine ⟨s, rfl, h, rfl, fun _ => id, fun hidle => ?_⟩
    simpa [hidle] using hi

theorem countCores_spec (l : List (Fin n)) (h : Listed s) :
    ∃ t, l.foldlM countCore s = some t ∧ Listed t ∧ t.arm11Idle = s.arm11Idle ∧
      (∀ j, s.sentIdle j = true → t.sentIdle j = true) ∧ ∀ j ∈ l, s.arm11Idle j = true → t.sentIdle j = true := by
  induction l generalizing s with
  | nil => exact ⟨s, rfl, h, rfl, fun _ => id, by simp⟩
  | cons i l ih =>
    obtain ⟨u, hu, hlisted, hidle, hmono, hi⟩ := countCore_spec h i
    obtain ⟨t, ht, hlisted', hidle', hmono', hl⟩ := ih hlisted
    refine ⟨t, by simp [List.foldlM_cons, hu, ht], hlisted', hidle'.trans hidle, fun j hj => hmono' j (hmono j hj), ?_⟩
    intro j hj hup
    cases hj with
    | head => exact hmono' i (hi hup)
    | tail _ hj => exact hl j hj (by rw [hidle]; exact hup)

theorem releaseCores (l : List (Fin n)) (s : State n) :
    (∀ j ∈ l, (l.foldl releaseCore s).arm11Idle j = false ∧ (l.foldl releaseCore s).sentIdle j = false) ∧
      (∀ j, s.arm11Idle j = false ∧ s.sentIdle j = false →
        (l.foldl releaseCore s).arm11Idle j = false ∧ (l.foldl releaseCore s).sentIdle j = false) ∧
      (s.idleCores = 0 ∨ l ≠ [] → (l.foldl releaseCore s).idleCores = 0) := by
  induction l generalizing s with
  | nil => exact ⟨by simp, fun _ => id, by simp⟩
  | cons i l ih =>
    obtain ⟨hmem, hdown, hcount⟩ := ih (releaseCore s i)
    have hself : (releaseCore s i).arm11Idle i = false ∧ (releaseCore s i).sentIdle i = false :=
      ⟨Function.update_self .., Function.update_self ..⟩
    refine ⟨fun j hj => ?_, fun j hj => hdown j ?_, fun _ => hcount (.inl rfl)⟩
    · cases hj with
      | head => exact hdown i hself
      | tail _ hj => exact hmem j hj
    · by_cases hji : j = i
      · rw [hji]
        exact hself
      · exact ⟨(Function.update_of_ne hji ..).trans hj.1, (Function.update_of_ne hji ..).trans hj.2⟩

/-- In its inner `wait` the process takes all flags down. -/
theorem syncMngr_releasing (h : Listed s) (hrel : s.releasing = true) :
    ∃ t, syncMngr s = some t ∧ Listed t ∧ t.releasing = false ∧ ∀ i, t.arm11Idle i = false := by
  obtain ⟨hmem, -, hcount⟩ := releaseCores (List.finRange n) s
  have hsent : ∀ i, ¬ ((List.finRange n).foldl releaseCore s).sentIdle i = true := by
    intro i
    rw [(hmem i (List.mem_finRange i)).2]
    exact Bool.false_ne_true
  have hzero : ((List.finRange n).foldl releaseCore s).idleCores = 0 := by
    refine hcount ?_
    cases n with
    | zero =>
      -- without cores the loop does nothing, and the count is that of nobody
      left
      rw [h.count, Count.count_eq_zero fun i => i.elim0]
      rfl
    | succ n =>
      right
      exact List.ne_nil_of_mem (List.mem_finRange (Fin.last n))
  refine ⟨_, if_pos hrel, ⟨fun i hi => absurd hi (hsent i), ?_⟩, rfl, fun i => (hmem i (List.mem_finRange i)).1⟩
  show ((List.finRange n).foldl releaseCore s).idleCores = _
  rw [hzero, Count.count_eq_zero hsent]
  rfl

/-- Otherwise it lists the cores whose flag is up, and goes into the inner `wait` if that is all of them. -/
theorem syncMngr_counting (h : Listed s) (hrel : s.releasing = false) :
    ∃ t, syncMngr s = some t ∧ Listed t ∧ t.arm11Idle = s.arm11Idle ∧
      (t.releasing = true ↔ ∀ i, t.sentIdle i = true) ∧ ∀ i, s.arm11Idle i = true → t.sentIdle i = true := by
  obtain ⟨u, hu, hlisted, hidle, -, hsent⟩ := countCores_spec (List.finRange n) h
  refine ⟨{ u with releasing := decide (u.idleCores = n) }, ?_, ⟨hlisted.idle, hlisted.count⟩, hidle, ?_,
    fun i => hsent i (List.mem_finRange i)⟩
  · simp [syncMngr, hrel, hu]
  · have hall := Count.count_eq_card_iff (p := fun b => b = true) (f := u.sentIdle)
    rw [Fintype.card_fin] at hall
    show decide (u.idleCores = n) = true ↔ ∀ i, u.sentIdle i = true
    rw [decide_eq_true_iff, hlisted.count, Int.natCast_inj, hall]

/-! ## Rounds -/

theorem releases_eq (h : step s a = some t) : releases s a i = (s.arm11Idle i && !t.arm11Idle i) := by
  simp [releases, h]

/-- A step that takes no flag down releases nobody. -/
theorem released_same (h : step s a = some t) (hup : ∀ i, s.arm11Idle i = true → t.arm11Idle i = true) :
    (Rounds.next s a g).released = g.released := by
  funext i
  refine if_neg ?_
  rw [releases_eq h]
  cases hi : s.arm11Idle i with
  | false => simp
  | true => simp [hup i hi]

structure Inv (x : State n × Rounds n) : Prop where
  listed : Listed x.1
  full : x.1.releasing = true → ∀ i, x.1.sentIdle i = true
  /-- All cores have been released equally often, and those with their flag up have one request more. -/
  rounds : ∃ k, ∀ i, x.2.released i = k ∧ x.2.requested i = k + (x.1.arm11Idle i).toNat

theorem Inv.init : Inv ((init, {}) : State n × Rounds n) where
  listed := ⟨fun _ => id, (congrArg Nat.cast (Count.count_eq_zero fun _ => Bool.false_ne_true)).symm⟩
  full h := absurd h Bool.false_ne_true
  rounds := ⟨0, fun _ => ⟨rfl, rfl⟩⟩

/-- A step that touches neither the flags nor the list. -/
theorem Inv.frame (h : Inv (s, g)) (hlisted : Listed t) (hfull : t.releasing = true → ∀ i, t.sentIdle i = true)
    (ht : step s a = some t) (hidle : t.arm11Idle = s.arm11Idle) (ha : ∀ i, a ≠ .syncProc i) :
    Inv (t, Rounds.next s a g) := by
  obtain ⟨k, hk⟩ := h.rounds
  refine ⟨hlisted, hfull, k, fun i => ?_⟩
  have hrequested : (Rounds.next s a g).requested = g.requested := by
    cases a with
    | syncProc i => exact absurd rfl (ha i)
    | _ => rfl
  show (Rounds.next s a g).released i = k ∧ (Rounds.next s a g).requested i = k + (t.arm11Idle i).toNat
  rw [released_same ht fun i hi => by rw [hidle]; exact hi, hrequested, hidle]
  exact hk i

theorem Inv.syncProc (h : Inv (s, g)) (hi : s.arm11Idle i = false) :
    Inv (syncProc s i, Rounds.next s (.syncProc i) g) := by
  have hstep : step s (.syncProc i) = some (HwsSync.syncProc s i) := by
    simp [step, hi]
  have hup : ∀ j, s.arm11Idle j = true → (HwsSync.syncProc s i).arm11Idle j = true := by
    intro j hj
    have hji : j ≠ i := by
      rintro rfl
      rw [hi] at hj
      cases hj
    exact (Function.update_of_ne hji ..).trans hj
  obtain ⟨k, hk⟩ := h.rounds
  refine ⟨⟨fun j hj => hup j (h.listed.idle j hj), h.listed.count⟩, h.full, k, fun j => ⟨?_, ?_⟩⟩
  · show (Rounds.next s (.syncProc i) g).released j = k
    rw [released_same hstep hup]
    exact (hk j).1
  · show Function.update g.requested i (g.requested i + 1) j = k + (Function.update s.arm11Idle i true j).toNat
    by_cases hji : j = i
    · subst hji
      have hbefore : g.requested j = k + (s.arm11Idle j).toNat := (hk j).2
      rw [Function.update_self, Function.update_self, hbefore, hi]
      rfl
    · rw [Function.update_of_ne hji, Function.update_of_ne hji]
      exact (hk j).2

/-- The release: everybody has come, and everybody leaves. -/
theorem Inv.release (h : Inv (s, g)) (hrel : s.releasing = true) (ht : syncMngr s = some t) :
    Inv (t, Rounds.next s .syncMngr g) := by
  obtain ⟨u, hu, hlisted, hrel', hdown⟩ := syncMngr_releasing h.listed hrel
  obtain rfl : u = t := Option.some.inj (hu.symm.trans ht)
  obtain ⟨k, hk⟩ := h.rounds
  refine ⟨hlisted, fun hr => ?_, k + 1, fun i => ?_⟩
  · have hr : u.releasing = true := hr
    rw [hrel'] at hr
    cases hr
  · have hup : s.arm11Idle i = true := h.listed.idle i (h.full hrel i)
    obtain ⟨hreleased, hrequested⟩ : g.released i = k ∧ g.requested i = k + (s.arm11Idle i).toNat := hk i
    constructor
    · show (if releases s .syncMngr i then g.released i + 1 else g.released i) = k + 1
      rw [releases_eq (a := .syncMngr) ht, hup, hdown i, hreleased]
      rfl
    · show g.requested i = k + 1 + (u.arm11Idle i).toNat
      rw [hrequested, hup, hdown i]
      rfl

/-- **One step** keeps the rounds together. -/
theorem Inv.next (h : Inv x) (hy : withHistory step Rounds.next x a = some y) : Inv y := by
  obtain ⟨s, g⟩ := x
  obtain ⟨t, g'⟩ := y
  obtain ⟨ht, hg⟩ := withHistory_some.1 hy
  obtain rfl : g' = Rounds.next s a g := hg
  have ht : step s a = some t := ht
  cases a with
  | syncProc i =>
    simp only [step] at ht
    split at ht
    next => cases ht
    next hi =>
      obtain rfl := Option.some.inj ht
      exact h.syncProc (Bool.eq_false_iff.2 hi)
  | syncMngr =>
    cases hrel : s.releasing with
    | true => exact h.release hrel ht
    | false =>
      obtain ⟨u, hu, hlisted, hidle, hfull, -⟩ := syncMngr_counting h.listed hrel
      obtain rfl : u = t := Option.some.inj (hu.symm.trans ht)
      exact h.frame hlisted hfull.1 ht hidle nofun
  | idleMngr =>
    obtain rfl := Option.some.inj ht
    exact h.frame ⟨h.listed.idle, h.listed.count⟩ h.full ht rfl nofun
  | others arm11Stop slaveInt =>
    obtain rfl := Option.some.inj ht
    exact h.frame ⟨h.listed.idle, h.listed.count⟩ h.full ht rfl nofun

theorem Inv.syncMngr_isSome (h : Inv x) : (syncMngr x.1).isSome = true := by
  cases hrel : x.1.releasing with
  | true =>
    obtain ⟨t, ht, -⟩ := syncMngr_releasing h.listed hrel
    rw [ht]
    rfl
  | false =>
    obtain ⟨t, ht, -⟩ := syncMngr_counting h.listed hrel
    rw [ht]
    rfl

theorem Inv.barrier (h : Inv x) : Barrier x where
  count := h.listed.count
  nonneg := by
    rw [h.listed.count]
    exact Int.natCast_nonneg _
  le_cores := by
    have hle : Count.count (fun b => b = true) x.1.sentIdle ≤ n := card_finset_fin_le _
    rw [h.listed.count]
    exact_mod_cast hle
  asserts := h.syncMngr_isSome
  order k i j hk := by
    obtain ⟨m, hm⟩ := h.rounds
    have hi := (hm i).1
    have hj := (hm j).2
    omega

theorem Inv.run {as : List (Action n)} (hr : run (withHistory step Rounds.next) (HwsSync.init, {}) as = some x) : Inv x :=
  run_inv Inv (fun _ _ _ hI hy => hI.next hy) Inv.init hr

/-- **The barrier of the cores.** However the requests of the cores and the processes interleave: `idle_cores` is the
number of the cores that `sync_mngr` has listed, between 0 and `N_CORES`; the assertion holds; and no core is released
from its `k`-th request before all have made theirs. -/
theorem sync_cores (as : List (Action n)) (hr : run (withHistory step Rounds.next) (init, {}) as = some x) : Barrier x :=
  (Inv.run hr).barrier

/-- Core `i` is first in the first round, core `j` in the second. -/
def twoRounds (i j : Fin n) : List (Action n) :=
  [.syncProc i, .idleMngr, .syncMngr, .others (fun _ => true) (fun _ => false), .syncProc j, .syncMngr, .idleMngr,
    .syncMngr, .syncProc j, .syncMngr]

theorem sync_cores_two :
    ∃ x : State 2 × Rounds 2, run (withHistory step Rounds.next) (init, {}) (twoRounds 0 1) = some x ∧
      x.2.released 0 = 1 ∧ x.2.requested 1 = 2 ∧ x.1.idleCores = 1 ∧ Barrier x :=
  ⟨_, rfl, rfl, rfl, rfl, sync_cores (twoRounds 0 1) rfl⟩

/-- **The barrier opens.** When all cores have come, two activations of `sync_mngr` release them. -/
theorem opens {as : List (Action n)} (hr : run (withHistory step Rounds.next) (init, {}) as = some x)
    (hall : ∀ i, x.1.arm11Idle i = true) :
    ∃ t, run step x.1 [.syncMngr, .syncMngr] = some t ∧ ∀ i, t.arm11Idle i = false := by
  have h := Inv.run hr
  cases hrel : x.1.releasing with
  | true =>
    -- it was in the inner `wait` already, and at its second activation finds nobody
    obtain ⟨u, hu, hlisted, hrel', hdown⟩ := syncMngr_releasing h.listed hrel
    obtain ⟨t, ht, -, hidle, -⟩ := syncMngr_counting hlisted hrel'
    refine ⟨t, run_cons.2 ⟨u, hu, run_cons.2 ⟨t, ht, rfl⟩⟩, fun i => ?_⟩
    rw [hidle]
    exact hdown i
  | false =>
    obtain ⟨u, hu, hlisted, -, hfull, hsent⟩ := syncMngr_counting h.listed hrel
    obtain ⟨t, ht, -, -, hdown⟩ := syncMngr_releasing hlisted (hfull.2 fun i => hsent i (hall i))
    exact ⟨t, run_cons.2 ⟨u, hu, run_cons.2 ⟨t, ht, rfl⟩⟩, hdown⟩

end VirtualSoc.HwsSync
