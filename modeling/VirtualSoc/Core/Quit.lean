import Mathlib.Tactic.Common
import VirtualSoc.Core.Stats

/-!
# When the simulation stops (`stats.cpp`)

`readytoterm` counts the calls of `quit` that do not end in `exit(1)`, and the simulation is stopped when it is
`N_CORES`. A core that is measuring goes on measuring after its `quit`, and nothing else tells that it has quit: its
next `quit` counts again. So the number is right as long as no such core comes back: `quits_iff`.

The history beside the system is the set of the cores that have quit.
-/

namespace VirtualSoc.Stats

open Trans Statistics

variable {n : Nat}

/-- The cores that have called `quit`. -/
def quitters (_ : Statistics n) (c : Call n) (g : Finset (Fin n)) : Finset (Fin n) :=
  match c with
  | .quit i => insert i g
  | _ => g

/-- `readytoterm` is the number of cores that have quit, and the simulation is stopped when all of them have. -/
structure Ended (x : Statistics n × Finset (Fin n)) : Prop where
  count : x.1.readytoterm.toNat = x.2.card
  stop : x.1.stopped = true ↔ 0 < n ∧ ∀ i, i ∈ x.2

abbrev quitting (auto : Bool) := withHistory (step auto) (quitters (n := n))

/-- Right after the call. -/
def CountsQuits (auto : Bool) (x : Statistics n × Finset (Fin n)) (c : Call n) : Prop :=
  ∀ y, quitting auto x c = some y → Ended y

/-- No core that has quit quits again, unless its status says that it has. -/
def QuitsOnce (x : Statistics n × Finset (Fin n)) (c : Call n) : Prop :=
  ∀ i, c = .quit i → x.1.status i ≠ .readyToShutdown → i ∉ x.2

instance (x : Statistics n × Finset (Fin n)) (c : Call n) : Decidable (QuitsOnce x c) :=
  inferInstanceAs (Decidable (∀ i, c = .quit i → x.1.status i ≠ .readyToShutdown → i ∉ x.2))

variable {auto : Bool} {s t : Statistics n} {i j : Fin n} {c : Call n} {x y : Statistics n × Finset (Fin n)}

/-! ## What the calls do to `readytoterm` and to a core that has quit -/

/-- A core that is ready to shut down is not the one whose status changes. -/
theorem shutdown_update {f : Fin n → CoreStatus} {status : CoreStatus} (hi : f i ≠ .readyToShutdown)
    (hj : f j = .readyToShutdown) : Function.update f i status j = .readyToShutdown := by
  rw [Function.update_of_ne]
  · exact hj
  · rintro rfl
    exact hi hj

/-- The calls other than `quit` leave the end of the simulation alone, and so the status of a core that is ready
to shut down. -/
theorem step_other (hc : ∀ i, c ≠ .quit i) (h : step auto s c = some t) :
    t.readytoterm = s.readytoterm ∧ t.stopped = s.stopped ∧
      ∀ j, s.status j = .readyToShutdown → t.status j = .readyToShutdown := by
  cases c with
  | startMeasuring i =>
    simp only [step, startMeasuring] at h
    split at h
    next hi =>
      obtain rfl := Option.some.inj h
      exact ⟨rfl, rfl, fun j => shutdown_update (by rw [hi]; decide)⟩
    next =>
      split at h
      · obtain rfl := Option.some.inj h
        exact ⟨rfl, rfl, fun _ => id⟩
      · cases h
    next =>
      obtain rfl := Option.some.inj h
      exact ⟨rfl, rfl, fun _ => id⟩
  | stopMeasuring i =>
    simp only [step, stopMeasuring] at h
    split at h
    next hi =>
      obtain rfl := Option.some.inj h
      exact ⟨rfl, rfl, fun j => shutdown_update (by rw [hi]; decide)⟩
    next =>
      obtain rfl := Option.some.inj h
      exact ⟨rfl, rfl, fun _ => id⟩
    next => cases h
  | quit i => exact absurd rfl (hc i)
  | clear =>
    obtain rfl := Option.some.inj h
    exact ⟨rfl, rfl, fun _ => id⟩

/-- A `quit` counts, unless the core is ready to shut down already. -/
theorem quit_cases (h : s.quit i = some t) :
    s.status i ≠ .readyToShutdown ∧ t.readytoterm = s.readytoterm + 1 ∧
      t.stopped = (s.stopped || (s.readytoterm + 1).toNat == n) ∧
      t.status = if s.status i = .readyToMeasure then Function.update s.status i .readyToShutdown else s.status := by
  unfold quit at h
  split at h
  next hi =>
    obtain rfl := Option.some.inj h
    rw [hi]
    exact ⟨by decide, rfl, rfl, rfl⟩
  next hi =>
    obtain rfl := Option.some.inj h
    rw [hi]
    exact ⟨by decide, rfl, rfl, rfl⟩
  next => cases h

theorem quit_isSome : (s.quit i).isSome = true ↔ s.status i ≠ .readyToShutdown := by
  unfold quit
  cases s.status i <;> simp

/-! ## The count -/

/-- The first `quit` of a core. -/
theorem Ended.quit {g : Finset (Fin n)} (hn : n < 2 ^ 16) (h : Ended (s, g)) (hi : i ∉ g) (ht : s.quit i = some t) :
    Ended (t, insert i g) := by
  obtain ⟨-, hcount, hstop, -⟩ := quit_cases ht
  have hlt : (insert i g).card ≤ n := card_finset_fin_le _
  have hcard : (insert i g).card = g.card + 1 := Finset.card_insert_of_notMem hi
  have hterm : (s.readytoterm + 1).toNat = (insert i g).card := by
    have hbefore : s.readytoterm.toNat = g.card := h.count
    rw [BitVec.toNat_add, hbefore, toNat_one]
    omega
  refine ⟨by rw [hcount, hterm], ?_⟩
  have hrunning : s.stopped = false := by
    rw [← Bool.not_eq_true]
    exact fun hs => hi ((h.stop.1 hs).2 i)
  show t.stopped = true ↔ _
  rw [hstop, hrunning, Bool.false_or, beq_iff_eq, hterm]
  constructor
  · intro hall
    refine ⟨i.pos, fun j => ?_⟩
    rw [Finset.eq_univ_of_card (insert i g) (hall.trans (Fintype.card_fin n).symm)]
    exact Finset.mem_univ j
  · rintro ⟨-, hall⟩
    have huniv : insert i g = Finset.univ := Finset.eq_univ_of_forall hall
    rw [huniv, Finset.card_fin]

/-- **One call** counts as it should if and only if it is not a second `quit` that is accepted. -/
theorem countsQuits_iff (hn : n < 2 ^ 16) (h : Ended x) : CountsQuits auto x c ↔ QuitsOnce x c := by
  by_cases hc : ∃ i, c = .quit i
  · obtain ⟨i, rfl⟩ := hc
    constructor
    · rintro hcounts j hj hstatus hmem
      obtain rfl : i = j := Call.quit.inj hj
      obtain ⟨t, ht⟩ := Option.isSome_iff_exists.1 (quit_isSome.2 hstatus)
      have hended := hcounts (t, insert i x.2) (withHistory_some.2 ⟨ht, rfl⟩)
      -- the core is in the set already, but the number goes on
      have hcount : t.readytoterm.toNat = (insert i x.2).card := hended.count
      rw [Finset.insert_eq_of_mem hmem, (quit_cases ht).2.1, BitVec.toNat_add, h.count, toNat_one] at hcount
      have hlt : x.2.card ≤ n := card_finset_fin_le _
      omega
    · intro honce y hy
      obtain ⟨ht, hg⟩ := withHistory_some.1 hy
      have hended := Ended.quit hn h (honce i rfl (quit_cases ht).1) ht
      rwa [show (y.1, insert i x.2) = y from Prod.ext rfl hg.symm] at hended
  · have hother : ∀ i, c ≠ .quit i := fun i hi => hc ⟨i, hi⟩
    refine iff_of_true (fun y hy => ?_) fun i hi => absurd hi (hother i)
    obtain ⟨ht, hg⟩ := withHistory_some.1 hy
    have hsame : y.2 = x.2 := by
      rw [hg]
      cases c with
      | quit i => exact absurd rfl (hother i)
      | _ => rfl
    obtain ⟨hcount, hstop, -⟩ := step_other hother ht
    refine ⟨?_, ?_⟩
    · rw [hcount, hsame]
      exact h.count
    · rw [hstop, hsame]
      exact h.stop

theorem constructCore_ended (h : constructCore auto s i = some t) :
    t.readytoterm = s.readytoterm ∧ t.stopped = s.stopped := by
  cases auto with
  | false =>
    obtain rfl := Option.some.inj h
    exact ⟨rfl, rfl⟩
  | true =>
    simp only [constructCore, if_true, startMeasuring, setStatus, Function.update_self] at h
    obtain rfl := Option.some.inj h
    exact ⟨rfl, rfl⟩

theorem construct_ended {memory : Fin n → CoreStatus} (h : construct auto memory = some s) : Ended (s, ∅) := by
  rw [construct, foldlM_eq_run] at h
  obtain ⟨hcount, hstop⟩ : s.readytoterm = 0 ∧ s.stopped = false := by
    refine run_inv (fun u => u.readytoterm = 0 ∧ u.stopped = false) (fun u i v hu hv => ?_) ⟨rfl, rfl⟩ h
    obtain ⟨hcount, hstop⟩ := constructCore_ended hv
    exact ⟨hcount.trans hu.1, hstop.trans hu.2⟩
  refine ⟨?_, ?_⟩
  · rw [hcount]
    rfl
  · refine iff_of_false ?_ ?_
    · rw [hstop]
      exact Bool.false_ne_true
    · rintro ⟨hpos, hall⟩
      exact absurd (hall ⟨0, hpos⟩) (Finset.notMem_empty _)

/-- **The end of the simulation.** From the constructor on, after every call `readytoterm` is the number of cores
that have quit, and the simulation is stopped when all of them have, if and only if no core that has quit and is not
ready to shut down quits again. -/
theorem quits_iff (hn : n < 2 ^ 16) {memory : Fin n → CoreStatus} (h : construct auto memory = some s)
    (calls : List (Call n)) :
    Along (quitting auto) (CountsQuits auto) (s, ∅) calls ↔ Along (quitting auto) QuitsOnce (s, ∅) calls :=
  along_congr Ended (fun _ _ y _ hC hy => hC y hy) (fun _ _ hx => countsQuits_iff hn hx) (construct_ended h)

/-- Where no core is measuring when it quits, its status keeps it from doing so again. -/
theorem quitsOnce_of_idle {calls : List (Call n)}
    (h : Along (quitting auto) (fun x c => ∀ i, c = .quit i → x.1.status i ≠ .isMeasuring) (s, ∅) calls) :
    Along (quitting auto) QuitsOnce (s, ∅) calls := by
  refine h.of_inv (fun x => ∀ i ∈ x.2, x.1.status i = .readyToShutdown) (fun i hi => absurd hi (Finset.notMem_empty i)) ?_ ?_
  · intro x c y hI hidle hy
    obtain ⟨ht, hg⟩ := withHistory_some.1 hy
    rw [hg]
    by_cases hc : ∃ i, c = .quit i
    · obtain ⟨i, rfl⟩ := hc
      obtain ⟨hne, -, -, hstatus⟩ := quit_cases ht
      have hready : x.1.status i = .readyToMeasure := by
        have hmeasuring := hidle i rfl
        cases hs : x.1.status i with
        | readyToMeasure => rfl
        | isMeasuring => exact absurd hs hmeasuring
        | readyToShutdown => exact absurd hs hne
      rw [hstatus, if_pos hready]
      intro j hj
      by_cases hji : j = i
      · rw [hji, Function.update_self]
      · rw [Function.update_of_ne hji]
        exact hI j ((Finset.mem_insert.1 hj).resolve_left hji)
    · have hother : ∀ i, c ≠ .quit i := fun i hi => hc ⟨i, hi⟩
      obtain ⟨-, -, hstatus⟩ := step_other hother ht
      intro j hj
      refine hstatus j (hI j ?_)
      cases c with
      | quit i => exact absurd rfl (hother i)
      | _ => exact hj
  · intro x c hI _ i _ hstatus hi
    exact hstatus (hI i hi)

/-! ## A second `quit` -/

/-- Two cores that are not started at boot. -/
def readyTwo : Statistics 2 :=
  { status := fun _ => .readyToMeasure, statusGlobal := .readyToMeasure, readytoterm := 0, coreMeasuring := 0, stopped := false }

theorem construct_readyTwo : construct false (fun _ : Fin 2 => .readyToMeasure) = some readyTwo := by
  simp [construct, constructCore, setStatus, clear, readyTwo, List.finRange_succ]

/-- Core 0 quits while it measures and again after it; core 1 has not quit when the simulation stops. -/
theorem not_ended_twice : construct false (fun _ : Fin 2 => .readyToMeasure) = some readyTwo ∧
    ∃ y, run (quitting false) (readyTwo, ∅) [.startMeasuring 0, .quit 0, .stopMeasuring 0, .quit 0] = some y ∧
      y.2 = {0} ∧ y.1.readytoterm = 2 ∧ y.1.stopped = true ∧ ¬ Ended y := by
  refine ⟨construct_readyTwo, _, rfl, by decide, by decide, by decide, fun h => ?_⟩
  exact absurd h.count (by decide)

/-- Core 0 quits while it measures, core 1 after it has stopped. -/
theorem quits_iff_readyTwo : Along (quitting false) (CountsQuits false) (readyTwo, ∅)
    [.startMeasuring 0, .quit 0, .startMeasuring 1, .stopMeasuring 1, .quit 1, .stopMeasuring 0] :=
  (quits_iff (by decide) construct_readyTwo _).2 (by decide)

end VirtualSoc.Stats
