import Mathlib.Algebra.Group.Basic
import Mathlib.Algebra.Ring.Int.Defs
import Mathlib.Data.List.Nodup
import Mathlib.Tactic.Common
import VirtualSoc.Lib.Transition

/-!
# Execution times of a cluster (`sim_support.cpp`, `START_CL_METRIC` and `STOP_CL_METRIC`)

In a round each core sends one START and one STOP. The time of the first START is to be kept in `t1_cl`, and at the last
STOP `t_exec_cl` grows by what has passed since. But `t1_cl` is read from `t1[is_first]` after `is_first` has been
set to false, that is from `t1[0]`: the time at which core 0 started last, which in general was in the round before
(`exec_time_iff`).

The times are `double`s. Here they are any group `T`, in which sums and differences are exact.
-/

namespace VirtualSoc.ClMetric

open Trans

variable {n : Nat} {T : Type*}

structure Config where
  icachePriv : Bool
  nShrCacheBanks : Nat

/-- The members of `Sim_Support` for the metrics of a cluster of `n` cores, and the global flags it sets.
`cacheMetrics` has an entry for each core or for each bank of a shared cache. -/
structure SimSupport (n : Nat) (T : Type*) where
  t1 : Fin n → T
  t2 : Fin n → T
  t3 : Fin n → T
  tExec : Fin n → T
  doneMetrics : Nat
  isFirst : Bool
  idFirst : Nat
  t1Cl : T
  t2Cl : T
  tExecCl : T
  glbStats : Bool
  coreMetrics : Fin n → Bool
  cacheMetrics : Nat → Bool

/-- The constructor; `idFirst` is what the memory holds. -/
def construct [Zero T] (idFirst : Nat) : SimSupport n T where
  t1 _ := 0
  t2 _ := 0
  t3 _ := 0
  tExec _ := 0
  doneMetrics := 0
  isFirst := true
  idFirst := idFirst
  t1Cl := 0
  t2Cl := 0
  tExecCl := 0
  glbStats := false
  coreMetrics _ := false
  cacheMetrics _ := false

section Messages

variable (cfg : Config) (s : SimSupport n T) (ID : Fin n) (now : T)

/-- `START_CL_METRIC` (sim_support.cpp:121). -/
def startClMetric : SimSupport n T :=
  let t1 := Function.update s.t1 ID now
  let s := { s with
    glbStats := true, t1 := t1, coreMetrics := Function.update s.coreMetrics ID true
    cacheMetrics :=
      if cfg.icachePriv then Function.update s.cacheMetrics ID true
      else fun k => decide (k < cfg.nShrCacheBanks) || s.cacheMetrics k }
  -- `t1_cl = t1[is_first]`, where `is_first` has become false
  if s.isFirst then { s with idFirst := ID, isFirst := false, t1Cl := t1 ⟨0, ID.pos⟩ } else s

/-- `STOP_CL_METRIC` (sim_support.cpp:146). -/
def stopClMetric [Add T] [Sub T] : SimSupport n T :=
  let s := { s with
    t2 := Function.update s.t2 ID now, t3 := Function.update s.t3 ID (now - s.t1 ID)
    tExec := Function.update s.tExec ID (s.tExec ID + (now - s.t1 ID))
    coreMetrics := Function.update s.coreMetrics ID false, doneMetrics := s.doneMetrics + 1
    cacheMetrics := if cfg.icachePriv then Function.update s.cacheMetrics ID false else s.cacheMetrics }
  if s.doneMetrics = n then
    { s with
      doneMetrics := 0, isFirst := true, t2Cl := now, tExecCl := s.tExecCl + (now - s.t1Cl), glbStats := false
      cacheMetrics :=
        if cfg.icachePriv then s.cacheMetrics else fun k => !decide (k < cfg.nShrCacheBanks) && s.cacheMetrics k }
  else s

end Messages

/-- A message of a core, and when it comes. -/
inductive Message (n : Nat) (T : Type*)
  | start (ID : Fin n) (now : T)
  | stop (ID : Fin n) (now : T)
deriving DecidableEq

namespace Message

def core : Message n T → Fin n
  | start ID _ => ID
  | stop ID _ => ID

def startTime : Message n T → Option T
  | start _ now => some now
  | stop .. => none

def stopTime : Message n T → Option T
  | start .. => none
  | stop _ now => some now

end Message

/-- Each core starts and later stops once. -/
def IsRound (msgs : List (Message n T)) : Prop :=
  ∀ i, ∃ a b, msgs.filter (fun x => x.core = i) = [.start i a, .stop i b]

section Rounds

variable [Add T] [Sub T] (cfg : Config)

def catchMessage (s : SimSupport n T) : Message n T → SimSupport n T
  | .start ID now => startClMetric cfg s ID now
  | .stop ID now => stopClMetric cfg s ID now

def catchAll (s : SimSupport n T) (msgs : List (Message n T)) : SimSupport n T := msgs.foldl (catchMessage cfg) s

/-- A step is a round. -/
def round (s : SimSupport n T) (msgs : List (Message n T)) : Option (SimSupport n T) := some (catchAll cfg s msgs)

/-- The round adds the time from its first START to its last STOP, and to each core what the core took. -/
structure Timed (s : SimSupport n T) (msgs : List (Message n T)) : Prop where
  cluster : ∀ a b, msgs.findSome? Message.startTime = some a → msgs.reverse.findSome? Message.stopTime = some b →
    (catchAll cfg s msgs).tExecCl = s.tExecCl + (b - a)
  core : ∀ i a b, .start i a ∈ msgs → .stop i b ∈ msgs → (catchAll cfg s msgs).tExec i = s.tExec i + (b - a)

end Rounds

/-- The first START is that of core 0, or comes at the time at which core 0 started last. -/
def StartsRight (s : SimSupport n T) (msgs : List (Message n T)) : Prop :=
  ∀ i a, msgs.head? = some (.start i a) → i.val = 0 ∨ s.t1 ⟨0, i.pos⟩ = a

/-! ## The shape of a round -/

variable {msgs : List (Message n T)} {i : Fin n}

theorem IsRound.start_stop {a b : T} (h : IsRound msgs) (ha : .start i a ∈ msgs) (hb : .stop i b ∈ msgs) :
    msgs.filter (fun x => x.core = i) = [.start i a, .stop i b] := by
  obtain ⟨a', b', hfilter⟩ := h i
  have hstart : Message.start i a ∈ msgs.filter (fun x => x.core = i) := List.mem_filter.2 ⟨ha, decide_eq_true rfl⟩
  have hstop : Message.stop i b ∈ msgs.filter (fun x => x.core = i) := List.mem_filter.2 ⟨hb, decide_eq_true rfl⟩
  rw [hfilter] at hstart hstop ⊢
  simp only [List.mem_cons, Message.start.injEq, Message.stop.injEq, reduceCtorEq, List.not_mem_nil, true_and, or_false,
    false_or] at hstart hstop
  rw [hstart, hstop]

/-- A round begins with a START and ends with a STOP. -/
theorem IsRound.ends (h : IsRound msgs) (hn : 0 < n) :
    ∃ i a mid j b, msgs = .start i a :: (mid ++ [.stop j b]) := by
  cases msgs with
  | nil =>
    obtain ⟨_, _, hfilter⟩ := h ⟨0, hn⟩
    cases hfilter
  | cons x rest =>
    obtain ⟨a, b, hfirst⟩ := h x.core
    rw [List.filter_cons_of_pos (by simp)] at hfirst
    obtain ⟨hx, hrest⟩ := List.cons.inj hfirst
    rcases List.eq_nil_or_concat rest with rfl | ⟨mid, y, rfl⟩
    · cases hrest
    · obtain ⟨a', b', hlast⟩ := h y.core
      have hy : y = .stop y.core b' := by
        rw [List.concat_eq_append, ← List.cons_append, List.filter_append,
          show [y].filter (fun x => x.core = y.core) = [y] by simp] at hlast
        have hend := congrArg List.getLast? hlast
        rw [List.getLast?_append] at hend
        exact Option.some.inj hend
      exact ⟨x.core, a, mid, y.core, b', by rw [← hx, ← hy, List.concat_eq_append]⟩

/-- There are as many STOPs as cores. -/
theorem IsRound.stops (h : IsRound msgs) : msgs.countP (fun x => x.stopTime.isSome) = n := by
  have hperm : ((msgs.filter fun x => x.stopTime.isSome).map Message.core).Perm (List.finRange n) := by
    refine List.perm_iff_count.2 fun i => ?_
    obtain ⟨a, b, hfilter⟩ := h i
    rw [List.count_eq_one_of_mem (List.nodup_finRange n) (List.mem_finRange i), List.count_eq_countP, List.countP_map,
      List.countP_eq_length_filter, List.filter_filter]
    have hswap : msgs.filter (fun x => ((· == i) ∘ Message.core) x && x.stopTime.isSome) =
        (msgs.filter fun x => x.core = i).filter fun x => x.stopTime.isSome := by
      rw [List.filter_filter]
      refine List.filter_congr fun x _ => ?_
      rw [Bool.and_comm]
      rfl
    rw [hswap, hfilter]
    rfl
  rw [List.countP_eq_length_filter, ← List.length_map Message.core, hperm.length_eq, List.length_finRange]

/-! ## What the messages do -/

variable {cfg : Config} {s : SimSupport n T} {ID : Fin n} {now : T}

/-- Only the first START of a round opens it. -/
theorem startClMetric_open :
    (startClMetric cfg s ID now).isFirst = false ∧ (startClMetric cfg s ID now).doneMetrics = s.doneMetrics ∧
      (startClMetric cfg s ID now).tExecCl = s.tExecCl ∧
      (startClMetric cfg s ID now).t1Cl =
        if s.isFirst then Function.update s.t1 ID now ⟨0, ID.pos⟩ else s.t1Cl := by
  by_cases hfirst : s.isFirst = true <;> simp [startClMetric, hfirst]

section Effect

variable [Add T] [Sub T]

theorem stopClMetric_open (h : s.doneMetrics + 1 ≠ n) :
    (stopClMetric cfg s ID now).isFirst = s.isFirst ∧ (stopClMetric cfg s ID now).doneMetrics = s.doneMetrics + 1 ∧
      (stopClMetric cfg s ID now).tExecCl = s.tExecCl ∧ (stopClMetric cfg s ID now).t1Cl = s.t1Cl := by
  simp [stopClMetric, h]

/-- The last STOP of a round closes it. -/
theorem stopClMetric_last (h : s.doneMetrics + 1 = n) :
    (stopClMetric cfg s ID now).isFirst = true ∧ (stopClMetric cfg s ID now).doneMetrics = 0 ∧
      (stopClMetric cfg s ID now).tExecCl = s.tExecCl + (now - s.t1Cl) := by
  simp [stopClMetric, h]

/-- The start of a core and its time. -/
def times (s : SimSupport n T) (i : Fin n) : T × T := (s.t1 i, s.tExec i)

def timesNext (x : T × T) : Message n T → T × T
  | .start _ now => (now, x.2)
  | .stop _ now => (x.1, x.2 + (now - x.1))

theorem catchMessage_times (cfg : Config) (s : SimSupport n T) (x : Message n T) :
    (catchMessage cfg s x).t1 = Function.update s.t1 x.core (timesNext (times s x.core) x).1 ∧
      (catchMessage cfg s x).tExec = Function.update s.tExec x.core (timesNext (times s x.core) x).2 := by
  cases x with
  | start ID now =>
    by_cases hfirst : s.isFirst = true <;> simp [catchMessage, startClMetric, Message.core, timesNext, times, hfirst]
  | stop ID now =>
    by_cases hdone : s.doneMetrics + 1 = n <;> simp [catchMessage, stopClMetric, Message.core, timesNext, times, hdone]

theorem times_catchMessage (x : Message n T) (i : Fin n) :
    times (catchMessage cfg s x) i = if x.core = i then timesNext (times s i) x else times s i := by
  obtain ⟨ht1, htExec⟩ := catchMessage_times cfg s x
  unfold times
  rw [ht1, htExec]
  by_cases hi : x.core = i
  · subst hi
    rw [if_pos rfl, Function.update_self, Function.update_self]
    rfl
  · rw [if_neg hi, Function.update_of_ne (Ne.symm hi), Function.update_of_ne (Ne.symm hi)]

/-- A core is timed by its own messages. -/
theorem times_catchAll (msgs : List (Message n T)) (i : Fin n) :
    times (catchAll cfg s msgs) i = (msgs.filter fun x => x.core = i).foldl timesNext (times s i) := by
  induction msgs generalizing s with
  | nil => rfl
  | cons x msgs ih =>
    refine ih.trans ?_
    rw [times_catchMessage]
    by_cases hi : x.core = i
    · rw [if_pos hi, List.filter_cons_of_pos (by simpa using hi)]
      rfl
    · rw [if_neg hi, List.filter_cons_of_neg (by simpa using hi)]

theorem IsRound.tExec {a b : T} (h : IsRound msgs) (ha : .start i a ∈ msgs) (hb : .stop i b ∈ msgs) :
    (catchAll cfg s msgs).tExec i = s.tExec i + (b - a) := by
  have htimes : times (catchAll cfg s msgs) i = _ := times_catchAll msgs i
  rw [h.start_stop ha hb] at htimes
  exact congrArg Prod.snd htimes

/-- Between the first START of a round and its last STOP. -/
theorem catchAll_open (hfirst : s.isFirst = false) (hdone : s.doneMetrics + msgs.countP (fun x => x.stopTime.isSome) < n) :
    (catchAll cfg s msgs).doneMetrics = s.doneMetrics + msgs.countP (fun x => x.stopTime.isSome) ∧
      (catchAll cfg s msgs).tExecCl = s.tExecCl ∧ (catchAll cfg s msgs).t1Cl = s.t1Cl := by
  induction msgs generalizing s with
  | nil => exact ⟨rfl, rfl, rfl⟩
  | cons x msgs ih =>
    cases x with
    | start ID now =>
      rw [List.countP_cons_of_neg (by simp [Message.stopTime])] at hdone ⊢
      obtain ⟨hf, hd, ht, ht1⟩ : (startClMetric cfg s ID now).isFirst = false ∧ _ := startClMetric_open
      rw [if_neg (by rw [hfirst]; decide)] at ht1
      obtain ⟨hd', ht', ht1'⟩ := ih hf (by rw [hd]; exact hdone)
      rw [hd] at hd'
      exact ⟨hd', ht'.trans ht, ht1'.trans ht1⟩
    | stop ID now =>
      rw [List.countP_cons_of_pos (by simp [Message.stopTime])] at hdone ⊢
      obtain ⟨hf, hd, ht, ht1⟩ : (stopClMetric cfg s ID now).isFirst = s.isFirst ∧ _ :=
        stopClMetric_open (by omega)
      obtain ⟨hd', ht', ht1'⟩ := ih (hf.trans hfirst) (by rw [hd]; omega)
      refine ⟨?_, ht'.trans ht, ht1'.trans ht1⟩
      rw [hd] at hd'
      refine hd'.trans ?_
      omega

/-- **A round**: `t_exec_cl` grows by the time since the start that is in `t1[0]` after the first START. -/
theorem catchAll_round (cfg : Config) {mid : List (Message n T)} {j : Fin n} {a b : T}
    (h : IsRound (.start i a :: (mid ++ [.stop j b]))) (hfirst : s.isFirst = true) (hdone : s.doneMetrics = 0) :
    (catchAll cfg s (.start i a :: (mid ++ [.stop j b]))).isFirst = true ∧
      (catchAll cfg s (.start i a :: (mid ++ [.stop j b]))).doneMetrics = 0 ∧
      (catchAll cfg s (.start i a :: (mid ++ [.stop j b]))).tExecCl =
        s.tExecCl + (b - Function.update s.t1 i a ⟨0, i.pos⟩) := by
  have hstops := h.stops
  rw [List.countP_cons_of_neg (by simp [Message.stopTime]), List.countP_append,
    List.countP_cons_of_pos (by simp [Message.stopTime]), List.countP_nil] at hstops
  obtain ⟨hf, hd, ht, ht1⟩ : (startClMetric cfg s i a).isFirst = false ∧ _ := startClMetric_open
  rw [if_pos hfirst] at ht1
  obtain ⟨hd', ht', ht1'⟩ : (catchAll cfg (startClMetric cfg s i a) mid).doneMetrics = _ ∧ _ :=
    catchAll_open hf (by rw [hd, hdone]; omega)
  have hrun : catchAll cfg s (.start i a :: (mid ++ [.stop j b])) =
      stopClMetric cfg (catchAll cfg (startClMetric cfg s i a) mid) j b := by
    show catchAll cfg (startClMetric cfg s i a) (mid ++ [.stop j b]) = _
    rw [catchAll, List.foldl_append]
    rfl
  obtain ⟨hlast, hzero, hexec⟩ : (stopClMetric cfg (catchAll cfg (startClMetric cfg s i a) mid) j b).isFirst = true ∧ _ :=
    stopClMetric_last (by rw [hd', hd, hdone]; omega)
  rw [hrun]
  refine ⟨hlast, hzero, ?_⟩
  rw [hexec, ht', ht, ht1', ht1]

end Effect

/-! ## The rounds -/

/-- Between two rounds. -/
structure Between (s : SimSupport n T) : Prop where
  isFirst : s.isFirst = true
  doneMetrics : s.doneMetrics = 0

theorem construct_between [Zero T] (idFirst : Nat) : Between (construct idFirst : SimSupport n T) := ⟨rfl, rfl⟩

variable [AddGroup T]

theorem Between.round (h : Between s) (hround : IsRound msgs) : Between (catchAll cfg s msgs) := by
  rcases Nat.eq_zero_or_pos n with rfl | hn
  · cases msgs with
    | nil => exact h
    | cons x => exact x.core.elim0
  · obtain ⟨i, a, mid, j, b, rfl⟩ := hround.ends hn
    obtain ⟨hfirst, hdone, -⟩ := catchAll_round cfg hround h.isFirst h.doneMetrics
    exact ⟨hfirst, hdone⟩

/-- **One round** is timed right if and only if its first START leaves its own time in `t1[0]`. -/
theorem timed_iff (h : Between s) (hround : IsRound msgs) : Timed cfg s msgs ↔ StartsRight s msgs := by
  rcases Nat.eq_zero_or_pos n with rfl | hn
  · refine iff_of_true ⟨fun a b ha => ?_, fun i => i.elim0⟩ fun i => i.elim0
    cases msgs with
    | nil => cases ha
    | cons x => exact x.core.elim0
  · obtain ⟨i, a, mid, j, b, rfl⟩ := hround.ends hn
    obtain ⟨-, -, hexec⟩ := catchAll_round cfg hround h.isFirst h.doneMetrics
    have hright : StartsRight s (.start i a :: (mid ++ [.stop j b])) ↔ Function.update s.t1 i a ⟨0, i.pos⟩ = a := by
      by_cases hi : i.val = 0
      · have hi0 : (⟨0, i.pos⟩ : Fin n) = i := Fin.ext hi.symm
        refine iff_of_true (fun k a' hk => ?_) (by rw [hi0, Function.update_self])
        obtain ⟨rfl, rfl⟩ := Message.start.inj (Option.some.inj hk)
        exact .inl hi
      · rw [Function.update_of_ne fun h0 => hi (congrArg Fin.val h0).symm]
        constructor
        · intro hstart
          exact (hstart i a rfl).resolve_left hi
        · intro h0 k a' hk
          obtain ⟨rfl, rfl⟩ := Message.start.inj (Option.some.inj hk)
          exact .inr h0
    rw [hright]
    have hstart : (Message.start i a :: (mid ++ [.stop j b])).findSome? Message.startTime = some a := rfl
    have hstop : (Message.start i a :: (mid ++ [.stop j b])).reverse.findSome? Message.stopTime = some b := by
      rw [← List.cons_append, List.reverse_append]
      rfl
    constructor
    · intro htimed
      have hgrown := htimed.cluster a b hstart hstop
      rw [hexec] at hgrown
      exact sub_right_injective (add_left_cancel hgrown)
    · intro h0
      refine ⟨fun a' b' ha hb => ?_, fun k a' b' => hround.tExec⟩
      obtain rfl : a = a' := Option.some.inj (hstart.symm.trans ha)
      obtain rfl : b = b' := Option.some.inj (hstop.symm.trans hb)
      rw [hexec, h0]

/-- **The execution time of the cluster.** Over any number of rounds in which each core starts and later stops once, each
round adds to `t_exec_cl` the time from its first START to its last STOP, and to the `t_exec` of each core what the core
took, if and only if each round is started by core 0, or at the time at which core 0 started last. -/
theorem exec_time_iff (cfg : Config) (idFirst : Nat) {rounds : List (List (Message n T))}
    (h : ∀ msgs ∈ rounds, IsRound msgs) :
    Along (round cfg) (Timed cfg) (construct idFirst) rounds ↔ Along (round cfg) StartsRight (construct idFirst) rounds := by
  refine (along_of_forall h _).congr Between (construct_between idFirst) ?_ ?_
  · intro s msgs u hs hround hu
    obtain rfl := Option.some.inj hu
    exact hs.round hround
  · exact fun s msgs hs hround => timed_iff hs hround

/-! ## Two cores -/

def core0 : Fin 2 := (Fin.last 0).castSucc

def core1 : Fin 2 := Fin.last 1

def privateCache : Config := { icachePriv := true, nShrCacheBanks := 0 }

def zeroFirst : List (List (Message 2 Int)) :=
  [[.start core0 10, .start core1 20, .stop core0 30, .stop core1 40],
    [.start core0 50, .stop core0 60, .start core1 70, .stop core1 80]]

theorem isRound_zeroFirst : ∀ msgs ∈ zeroFirst, IsRound msgs := by
  intro msgs hmem
  rcases List.mem_pair.1 hmem with rfl | rfl
  · exact Fin.forall_fin_two.2 ⟨⟨10, 30, rfl⟩, ⟨20, 40, rfl⟩⟩
  · exact Fin.forall_fin_two.2 ⟨⟨50, 60, rfl⟩, ⟨70, 80, rfl⟩⟩

theorem startsRight_zero {T : Type*} {s : SimSupport n T} {msgs : List (Message n T)} {a : T}
    (h : msgs.head? = some (.start i a)) (hi : i.val = 0) : StartsRight s msgs := by
  intro j b hj
  obtain ⟨rfl, rfl⟩ := Message.start.inj (Option.some.inj (h.symm.trans hj))
  exact .inl hi

theorem exec_time_zeroFirst :
    Along (round privateCache) (Timed privateCache) (construct 0 : SimSupport 2 Int) zeroFirst :=
  (exec_time_iff privateCache 0 isRound_zeroFirst).2
    ⟨startsRight_zero rfl rfl, fun _ _ => ⟨startsRight_zero rfl rfl, fun _ _ => trivial⟩⟩

/-- Core 1 starts at 10, before core 0. -/
def oneFirst : List (Message 2 Int) := [.start core1 10, .start core0 20, .stop core0 30, .stop core1 40]

/-- The round takes 30, and `t_exec_cl` grows by 40. -/
theorem not_timed_oneFirst : IsRound oneFirst ∧
    (catchAll privateCache (construct 0 : SimSupport 2 Int) oneFirst).tExecCl = 40 ∧
      ¬ Along (round privateCache) (Timed privateCache) (construct 0 : SimSupport 2 Int) [oneFirst] := by
  refine ⟨Fin.forall_fin_two.2 ⟨⟨20, 30, rfl⟩, ⟨10, 40, rfl⟩⟩, rfl, fun h => ?_⟩
  have hgrown : (catchAll privateCache (construct 0 : SimSupport 2 Int) oneFirst).tExecCl = 0 + (40 - 10) :=
    h.1.cluster 10 40 rfl rfl
  exact absurd hgrown (by decide)

end VirtualSoc.ClMetric
