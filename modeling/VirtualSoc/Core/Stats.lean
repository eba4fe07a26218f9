import Mathlib.Algebra.GroupWithZero.Nat
import Mathlib.Tactic.Common
import VirtualSoc.Lib.Count
import VirtualSoc.Lib.Transition

/-!
# Which cores are measuring (`stats.cpp`)

`Statistics` keeps a status for each core and, beside it, `core_measuring`: how many cores
are measuring. `startMeasuring` and `stopMeasuring` change both. `quit` lets a measuring core go
on measuring. `clear` sets the number back to zero and leaves every status as it is, so the two
part exactly there: `measuring_iff`.

A call that ends in `exit(1)` has no successor. The counters and times that the calls also keep
(`core_c`, `start_time_crit` and the like) are read by none of them and left out.
-/

namespace VirtualSoc.Stats

open Trans Count

variable {n : Nat}

/-- `CORE_STATUS` -/
inductive CoreStatus
  | readyToMeasure
  | isMeasuring
  | readyToShutdown
deriving DecidableEq, Repr

structure Statistics (n : Nat) where
  status : Fin n → CoreStatus
  statusGlobal : CoreStatus
  /-- `unsigned short` -/
  readytoterm : BitVec 16
  /-- `unsigned short` -/
  coreMeasuring : BitVec 16
  /-- `sc_stop` has been called. -/
  stopped : Bool

namespace Statistics

/-- How many cores have the status `IS_MEASURING`. -/
def measuring (s : Statistics n) : Nat := count (· = .isMeasuring) s.status

def setStatus (s : Statistics n) (i : Fin n) (x : CoreStatus) : Statistics n :=
  { s with status := Function.update s.status i x }

def startMeasuring (auto : Bool) (s : Statistics n) (i : Fin n) : Option (Statistics n) :=
  match s.status i with
  | .readyToMeasure =>
    some { s.setStatus i .isMeasuring with statusGlobal := .isMeasuring, coreMeasuring := s.coreMeasuring + 1 }
  | .isMeasuring => if auto then some { s with statusGlobal := .isMeasuring } else none
  | .readyToShutdown => some { s with statusGlobal := .isMeasuring }

def stopMeasuring (s : Statistics n) (i : Fin n) : Option (Statistics n) :=
  match s.status i with
  | .isMeasuring =>
    some { s.setStatus i .readyToMeasure with statusGlobal := .readyToMeasure, coreMeasuring := s.coreMeasuring - 1 }
  | .readyToShutdown => some { s with statusGlobal := .readyToMeasure }
  | .readyToMeasure => none

/-- `readytoterm++`, and the end of the simulation with the last core. -/
def finish (s : Statistics n) : Statistics n :=
  { s with readytoterm := s.readytoterm + 1, stopped := s.stopped || (s.readytoterm + 1).toNat == n }

/-- A core that is measuring keeps its status, so it may quit again. -/
def quit (s : Statistics n) (i : Fin n) : Option (Statistics n) :=
  match s.status i with
  | .readyToMeasure => some (s.setStatus i .readyToShutdown).finish
  | .isMeasuring => some s.finish
  | .readyToShutdown => none

/-- `resetValues`: of the fields here it sets `core_measuring` only. -/
def clear (s : Statistics n) : Statistics n := { s with coreMeasuring := 0 }

/-- One round of the constructor's loop. -/
def constructCore (auto : Bool) (s : Statistics n) (i : Fin n) : Option (Statistics n) :=
  let s := { s.setStatus i .readyToMeasure with statusGlobal := .readyToMeasure }
  if auto then s.startMeasuring auto i else some s

/-- The constructor. What `new CORE_STATUS[N_CORES]` holds before the loop is `memory`. -/
def construct (auto : Bool) (memory : Fin n → CoreStatus) : Option (Statistics n) :=
  (List.finRange n).foldlM (constructCore auto)
    (clear { status := memory, statusGlobal := .readyToMeasure, readytoterm := 0, coreMeasuring := 0, stopped := false })

end Statistics

open Statistics

inductive Call (n : Nat)
  | startMeasuring (i : Fin n)
  | stopMeasuring (i : Fin n)
  | quit (i : Fin n)
  | clear
deriving DecidableEq

def step (auto : Bool) (s : Statistics n) : Call n → Option (Statistics n)
  | .startMeasuring i => s.startMeasuring auto i
  | .stopMeasuring i => s.stopMeasuring i
  | .quit i => s.quit i
  | .clear => some s.clear

/-- The number is the number of cores that are measuring. -/
def Counted (s : Statistics n) : Prop := s.coreMeasuring.toNat = s.measuring

instance (s : Statistics n) : Decidable (Counted s) := inferInstanceAs (Decidable (_ = _))

/-! ## What the calls do to the number -/

variable {auto : Bool} {s t : Statistics n} {i : Fin n} {c : Call n}

theorem toNat_one : (1 : BitVec 16).toNat = 1 := rfl

theorem measuring_le (s : Statistics n) : s.measuring ≤ n := by
  simpa [measuring, count] using Finset.card_filter_le Finset.univ fun i => s.status i = .isMeasuring

theorem measuring_start (h : s.status i ≠ .isMeasuring) :
    (s.setStatus i .isMeasuring).measuring = s.measuring + 1 :=
  count_update_new h rfl

theorem measuring_stop {x : CoreStatus} (h : s.status i = .isMeasuring) (hx : x ≠ .isMeasuring) :
    (s.setStatus i x).measuring + 1 = s.measuring :=
  count_update_old h hx

theorem measuring_same {x : CoreStatus} (h : s.status i ≠ .isMeasuring) (hx : x ≠ .isMeasuring) :
    (s.setStatus i x).measuring = s.measuring :=
  count_update_same (by simp [h, hx])

/-- Starting one more core counts it, if the number still has room. -/
theorem counted_start (hn : n < 2 ^ 16) (hs : Counted s) (h : s.startMeasuring auto i = some t) : Counted t := by
  unfold startMeasuring at h
  split at h
  next hi =>
    obtain rfl := Option.some.inj h
    have hm := measuring_start (s := s) (i := i) (by simp [hi])
    have hle := measuring_le (s.setStatus i .isMeasuring)
    have hs : s.coreMeasuring.toNat = s.measuring := hs
    show (s.coreMeasuring + 1).toNat = (s.setStatus i .isMeasuring).measuring
    rw [hm, BitVec.toNat_add, hs, toNat_one]
    exact Nat.mod_eq_of_lt (by omega)
  next =>
    split at h
    · obtain rfl := Option.some.inj h
      exact hs
    · cases h
  next =>
    obtain rfl := Option.some.inj h
    exact hs

theorem counted_stop (hs : Counted s) (h : s.stopMeasuring i = some t) : Counted t := by
  unfold stopMeasuring at h
  split at h
  next hi =>
    obtain rfl := Option.some.inj h
    have hm := measuring_stop (s := s) (x := .readyToMeasure) hi (by decide)
    have hs : s.coreMeasuring.toNat = s.measuring := hs
    show (s.coreMeasuring - 1).toNat = (s.setStatus i .readyToMeasure).measuring
    -- the core itself is counted, so there is something to take away
    have hpos : (1 : BitVec 16) ≤ s.coreMeasuring := by
      rw [BitVec.le_def, toNat_one]
      omega
    rw [BitVec.toNat_sub_of_le hpos, hs, toNat_one]
    omega
  next =>
    obtain rfl := Option.some.inj h
    exact hs
  next => cases h

theorem counted_quit (hs : Counted s) (h : s.quit i = some t) : Counted t := by
  unfold quit at h
  split at h
  next hi =>
    obtain rfl := Option.some.inj h
    exact hs.trans (measuring_same (by simp [hi]) (by decide)).symm
  next =>
    obtain rfl := Option.some.inj h
    exact hs
  next => cases h

/-- `clear` is right exactly when there is nothing to count. -/
theorem counted_clear : Counted s.clear ↔ s.measuring = 0 := eq_comm

/-- **One call.** Only a `clear` while some core is measuring breaks the count. -/
theorem counted_step (hn : n < 2 ^ 16) (hs : Counted s) :
    (∀ t, step auto s c = some t → Counted t) ↔ (c = .clear → s.measuring = 0) := by
  cases c with
  | startMeasuring i => exact iff_of_true (fun t h => counted_start hn hs h) nofun
  | stopMeasuring i => exact iff_of_true (fun t h => counted_stop hs h) nofun
  | quit i => exact iff_of_true (fun t h => counted_quit hs h) nofun
  | clear => simpa [step] using counted_clear

/-! ## The constructor -/

/-- A round counts the core it starts; the cores of the rounds to come hold what the memory held. -/
theorem constructCore_spec (h : constructCore auto s i = some t) :
    t.status = Function.update s.status i (if auto then .isMeasuring else .readyToMeasure) ∧
      t.coreMeasuring = s.coreMeasuring + if auto then 1 else 0 := by
  cases auto with
  | false =>
    obtain rfl := Option.some.inj h
    exact ⟨rfl, (BitVec.add_zero _).symm⟩
  | true =>
    simp only [constructCore, if_true, startMeasuring, setStatus, Function.update_self] at h
    obtain rfl := Option.some.inj h
    exact ⟨by simp, rfl⟩

theorem construct_loop (l : List (Fin n)) (h : l.foldlM (constructCore auto) s = some t) :
    (∀ i ∈ l, t.status i = if auto then .isMeasuring else .readyToMeasure) ∧ (∀ i ∉ l, t.status i = s.status i) ∧
      t.coreMeasuring = s.coreMeasuring + if auto then BitVec.ofNat 16 l.length else 0 := by
  induction l generalizing s with
  | nil =>
    obtain rfl := Option.some.inj h
    simp
  | cons i l ih =>
    obtain ⟨u, hu, h⟩ := Option.bind_eq_some_iff.1 (by simpa [List.foldlM_cons] using h)
    obtain ⟨hstatus, hnum⟩ := constructCore_spec hu
    obtain ⟨hin, hout, hrest⟩ := ih h
    refine ⟨fun j hj => ?_, fun j hj => ?_, ?_⟩
    · by_cases hjl : j ∈ l
      · exact hin j hjl
      · obtain rfl := (List.mem_cons.1 hj).resolve_right hjl
        rw [hout j hjl, hstatus, Function.update_self]
    · rw [List.mem_cons, not_or] at hj
      rw [hout j hj.2, hstatus, Function.update_of_ne hj.1]
    · rw [hrest, hnum, BitVec.add_assoc]
      cases auto with
      | false => simp
      | true => simp [BitVec.ofNat_add, BitVec.add_comm]

/-- The number is right at the start, whether or not the cores start to measure at boot. -/
theorem counted_construct (hn : n < 2 ^ 16) {memory : Fin n → CoreStatus} (h : construct auto memory = some s) :
    Counted s := by
  obtain ⟨hin, -, hnum⟩ := construct_loop _ h
  have hstatus : s.status = fun _ => if auto then .isMeasuring else .readyToMeasure :=
    funext fun i => hin i (List.mem_finRange i)
  unfold Counted measuring
  rw [hnum, hstatus]
  cases auto with
  | false => simp [clear, count]
  | true => simpa [clear, count] using Nat.mod_eq_of_lt hn

/-- **The count along a run.** From the constructor on, the number is right after every call exactly
when every `clear` comes while no core is measuring. -/
theorem measuring_iff (hn : n < 2 ^ 16) {memory : Fin n → CoreStatus} (h : construct auto memory = some s)
    (calls : List (Call n)) :
    Along (step auto) (fun u c => ∀ t, step auto u c = some t → Counted t) s calls ↔
      Along (step auto) (fun u c => c = .clear → u.measuring = 0) s calls :=
  along_congr Counted (fun _ _ t _ hC ht => hC t ht) (fun _ _ hu => counted_step hn hu) (counted_construct hn h)

/-! ## A `clear` in the middle of a measurement -/

/-- One core that is not started at boot. -/
def ready : Statistics 1 :=
  { status := fun _ => .readyToMeasure, statusGlobal := .readyToMeasure, readytoterm := 0, coreMeasuring := 0, stopped := false }

theorem construct_ready : construct false (fun _ : Fin 1 => .readyToMeasure) = some ready := by
  simp [construct, constructCore, setStatus, clear, ready, List.finRange_succ]

/-- A core starts, clears the statistics and stops: after `clear` the number says that nobody is
measuring while the core still is, and its stop takes the number below zero. -/
theorem clear_wraps : construct false (fun _ : Fin 1 => .readyToMeasure) = some ready ∧
    ∃ t u, run (step false) ready [.startMeasuring 0, .clear] = some t ∧ t.coreMeasuring = 0 ∧ t.measuring = 1 ∧
      run (step false) ready [.startMeasuring 0, .clear, .stopMeasuring 0] = some u ∧
      u.coreMeasuring.toNat = 65535 ∧ u.measuring = 0 :=
  ⟨construct_ready, _, _, rfl, by decide, by decide, rfl, by decide, by decide⟩

/-- A run that clears between two measurements. -/
theorem measuring_iff_ready :
    Along (step false) (fun u c => ∀ t, step false u c = some t → Counted t) ready
      [.startMeasuring 0, .stopMeasuring 0, .clear, .startMeasuring 0, .quit 0] :=
  (measuring_iff (by decide) construct_ready _).2 (by decide)

end VirtualSoc.Stats
