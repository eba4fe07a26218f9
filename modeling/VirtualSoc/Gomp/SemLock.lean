import VirtualSoc.Lib.Transition
import VirtualSoc.Gomp.LockAlloc

/-!
# Locks in the semaphore memory (libgomp/config/vsoc/lock.c, critical.c)

`gomp_hal_lock` reads a word of the `Semaphore_mem` until it reads 0, and that read has then set the
word; `gomp_hal_unlock` writes 0. A core may hold several locks, and two addresses in one word are
one lock. The semaphores hold anything at first: a word that is not 0 is never acquired.

`owner` is one lock as the cores see it. `sem_lock`: the code follows it for every word, whatever
the cores do with the others.
-/

namespace VirtualSoc.Gomp.SemLock

/-- `addressing` of the semaphores (cl_semaphore.h:32). -/
def addressing (START_ADDRESS id : UInt32) : Nat := (id - START_ADDRESS).toNat

/-- The word of the lock `id`, as both accesses of `Semaphore_mem` find it. -/
def lockWord (START_ADDRESS id : UInt32) : Nat := wordAlign (addressing START_ADDRESS id)

/-- One round of `while (*id);` in `gomp_hal_lock` (lock.c:20), and whether it is the last. -/
def halLock (START_ADDRESS : UInt32) (mem : MemClass) (id : UInt32) : Option (Bool × MemClass) :=
  (SemaphoreMem.read mem (addressing START_ADDRESS id)).map fun (data, mem) => (data == 0, mem)

/-- `gomp_hal_unlock` (lock.c:25). -/
def halUnlock (START_ADDRESS : UInt32) (mem : MemClass) (id : UInt32) : Option MemClass :=
  SemaphoreMem.write mem (addressing START_ADDRESS id) 0

/-- `locking c` is the address that core `c` is spinning on; `holds c w`: core `c` is between lock and
unlock of word `w`. -/
structure State (n : Nat) where
  mem : MemClass
  locking : Fin n → Option UInt32
  holds : Fin n → Nat → Bool

/-- A core calls `gomp_hal_lock`, reads the word once, or calls `gomp_hal_unlock`. -/
inductive Act (n : Nat)
  | lock (c : Fin n) (id : UInt32)
  | poll (c : Fin n)
  | unlock (c : Fin n) (id : UInt32)
deriving DecidableEq, Repr

section Step

variable {n : Nat} (START_ADDRESS : UInt32)

def init (n : Nat) (mem : MemClass) : State n := ⟨mem, fun _ => none, fun _ _ => false⟩

def State.setHolds (s : State n) (c : Fin n) (w : Nat) (b : Bool) : Fin n → Nat → Bool :=
  Function.update s.holds c (Function.update (s.holds c) w b)

def step (s : State n) : Act n → Option (State n)
  | .lock c id =>
    if s.locking c = none then some { s with locking := Function.update s.locking c (some id) } else none
  | .poll c =>
    match s.locking c with
    | none => none
    | some id =>
      (halLock START_ADDRESS s.mem id).map fun
        | (true, mem) =>
          { mem := mem
            locking := Function.update s.locking c none
            holds := s.setHolds c (lockWord START_ADDRESS id) true }
        | (false, mem) => { s with mem := mem }
  | .unlock c id =>
    if s.locking c = none ∧ s.holds c (lockWord START_ADDRESS id) then
      (halUnlock START_ADDRESS s.mem id).map fun mem =>
        { s with mem := mem, holds := s.setHolds c (lockWord START_ADDRESS id) false }
    else none

/-! ## One lock as the cores see it -/

/-- `never`: the word was not 0 at first. -/
inductive Owner (n : Nat)
  | never
  | free
  | held (c : Fin n)
deriving DecidableEq, Repr

inductive Event (n : Nat)
  | acquire (c : Fin n)
  | fail (c : Fin n)
  | release (c : Fin n)
deriving DecidableEq, Repr

/-- A read that locks acquires the lock exactly when it is free. -/
def owner : Owner n → Event n → Option (Owner n)
  | .never, .fail _ => some .never
  | .free, .acquire c => some (.held c)
  | .held h, .fail _ => some (.held h)
  | .held h, .release c => if h = c then some .free else none
  | _, _ => none

/-- What the lock of word `w` sees of a step. -/
def events (w : Nat) (s : State n) : Act n → List (Event n)
  | .lock _ _ => []
  | .poll c =>
    match s.locking c with
    | none => []
    | some id =>
      if lockWord START_ADDRESS id = w then if s.mem.word w = 0 then [.acquire c] else [.fail c] else []
  | .unlock c id => if lockWord START_ADDRESS id = w then [.release c] else []

def start (mem : MemClass) (w : Nat) : Owner n := if mem.word w = 0 then .free else .never

end Step

/-! ## Every word is a lock -/

section Refines

variable {n : Nat} {START_ADDRESS : UInt32} {w : Nat} {s t : State n} {a : Act n} {o : Owner n}

/-- The word is 0 exactly while the lock is free, and who holds it is its owner. -/
structure Refines (w : Nat) (s : State n) (o : Owner n) : Prop where
  holds : ∀ c, s.holds c w = true ↔ o = .held c
  free : s.mem.word w = 0 ↔ o = .free

theorem setHolds_self (s : State n) (c d : Fin n) (b : Bool) :
    s.setHolds c w b d w = if d = c then b else s.holds d w := by
  by_cases hd : d = c
  · subst hd
    simp [State.setHolds]
  · simp [State.setHolds, hd]

theorem setHolds_ne (s : State n) (c d : Fin n) (b : Bool) {v : Nat} (hv : w ≠ v) :
    s.setHolds c v b d w = s.holds d w := by
  by_cases hd : d = c
  · subst hd
    simp [State.setHolds, hv]
  · simp [State.setHolds, hd]

/-- The read of `gomp_hal_lock`. -/
theorem halLock_spec {mem mem' : MemClass} {id : UInt32} {last : Bool}
    (h : halLock START_ADDRESS mem id = some (last, mem')) :
    (last = true ↔ mem.word (lockWord START_ADDRESS id) = 0) ∧ mem'.word (lockWord START_ADDRESS id) ≠ 0 ∧
    (last = false → mem' = mem) ∧
    ∀ v, v % 4 = 0 → v ≠ lockWord START_ADDRESS id → mem'.word v = mem.word v := by
  have hw : wordAlign (addressing START_ADDRESS id) % 4 = 0 := by
    unfold wordAlign
    omega
  simp only [halLock, SemaphoreMem.read, Option.map_eq_some_iff] at h
  obtain ⟨⟨data, m⟩, hread, heq⟩ := h
  obtain ⟨rfl, rfl⟩ := Prod.mk.inj heq
  unfold lockWord
  generalize wordAlign (addressing START_ADDRESS id) = x at hw hread ⊢
  split at hread
  · cases hread
  · simp only [Option.some.injEq, Prod.mk.injEq] at hread
    obtain ⟨rfl, rfl⟩ := hread
    by_cases hzero : mem.word x = 0
    · simp only [if_pos hzero, MemClass.word_store_self]
      refine ⟨by simp [hzero], by decide, by simp [hzero], fun v hv hne => ?_⟩
      exact MemClass.word_store_of_disjoint mem 1 (by omega)
    · simp only [if_neg hzero]
      exact ⟨by simp [hzero], hzero, fun _ => trivial, fun _ _ _ => trivial⟩

/-- The write of `gomp_hal_unlock`. -/
theorem halUnlock_spec {mem mem' : MemClass} {id : UInt32} (h : halUnlock START_ADDRESS mem id = some mem') :
    mem'.word (lockWord START_ADDRESS id) = 0 ∧
    ∀ v, v % 4 = 0 → v ≠ lockWord START_ADDRESS id → mem'.word v = mem.word v := by
  have hw : wordAlign (addressing START_ADDRESS id) % 4 = 0 := by
    unfold wordAlign
    omega
  simp only [halUnlock, SemaphoreMem.write] at h
  unfold lockWord
  split at h
  · cases h
  · cases h
    refine ⟨MemClass.word_store_self .., fun v hv hne => ?_⟩
    exact MemClass.word_store_of_disjoint mem 0 (by omega)

/-- What a step can do. -/
theorem step_cases (hs : step START_ADDRESS s a = some t) :
    (∃ c id, a = .lock c id ∧ t.mem = s.mem ∧ t.holds = s.holds) ∨
    (∃ c id last mem', a = .poll c ∧ s.locking c = some id ∧ halLock START_ADDRESS s.mem id = some (last, mem') ∧
      t.mem = mem' ∧ t.holds = if last then s.setHolds c (lockWord START_ADDRESS id) true else s.holds) ∨
    (∃ c id mem', a = .unlock c id ∧ s.holds c (lockWord START_ADDRESS id) = true ∧
      halUnlock START_ADDRESS s.mem id = some mem' ∧ t.mem = mem' ∧
      t.holds = s.setHolds c (lockWord START_ADDRESS id) false) := by
  cases a with
  | lock c id =>
    simp only [step, Option.ite_none_right_eq_some] at hs
    obtain ⟨-, hs⟩ := hs
    cases hs
    exact Or.inl ⟨c, id, rfl, rfl, rfl⟩
  | poll c =>
    simp only [step] at hs
    cases hl : s.locking c with
    | none =>
      rw [hl] at hs
      cases hs
    | some id =>
      rw [hl] at hs
      obtain ⟨⟨last, mem'⟩, hread, rfl⟩ := Option.map_eq_some_iff.1 hs
      refine Or.inr (Or.inl ⟨c, id, last, mem', rfl, hl, hread, ?_⟩)
      cases last <;> exact ⟨rfl, rfl⟩
  | unlock c id =>
    simp only [step, Option.ite_none_right_eq_some] at hs
    obtain ⟨⟨-, hheld⟩, hs⟩ := hs
    obtain ⟨mem', hwrite, rfl⟩ := Option.map_eq_some_iff.1 hs
    exact Or.inr (Or.inr ⟨c, id, mem', rfl, hheld, hwrite, rfl, rfl⟩)

/-- **One step**: the owner automaton can follow it. -/
theorem step_refines (hw : w % 4 = 0) (hR : Refines w s o) (hs : step START_ADDRESS s a = some t) :
    ∃ o', Trans.run owner o (events START_ADDRESS w s a) = some o' ∧ Refines w t o' := by
  rcases step_cases hs with ⟨c, id, rfl, hmem, hholds⟩ | ⟨c, id, last, mem', rfl, hl, hread, hmem, hholds⟩ |
    ⟨c, id, mem', rfl, hheld, hwrite, hmem, hholds⟩
  · exact ⟨o, rfl, by rw [hholds]; exact hR.holds, by rw [hmem]; exact hR.free⟩
  · obtain ⟨hlast, hset, hkept, hother⟩ := halLock_spec hread
    simp only [events, hl]
    by_cases hword : lockWord START_ADDRESS id = w
    · subst hword
      rw [if_pos rfl]
      by_cases hzero : s.mem.word (lockWord START_ADDRESS id) = 0
      · -- the lock is free, and acquired
        have ho := hR.free.1 hzero
        rw [hlast.2 hzero, if_pos rfl] at hholds
        refine ⟨.held c, by simp [hzero, ho, owner, Trans.run], fun d => ?_, ?_⟩
        · rw [hholds, setHolds_self]
          by_cases hd : d = c
          · simp [hd]
          · have := hR.holds d
            rw [ho] at this
            simp [hd, this, Ne.symm hd]
        · rw [hmem]
          simp [hset]
      · have hfail : last = false := by
          rw [← Bool.not_eq_true, hlast]
          exact hzero
        rw [hfail, if_neg Bool.false_ne_true] at hholds
        refine ⟨o, ?_, by rw [hholds]; exact hR.holds, by rw [hmem, hkept hfail]; exact hR.free⟩
        cases o with
        | free => exact absurd (hR.free.2 rfl) hzero
        | never => simp [hzero, owner, Trans.run]
        | held h => simp [hzero, owner, Trans.run]
    · rw [if_neg hword]
      refine ⟨o, rfl, fun d => ?_, ?_⟩
      · rw [← hR.holds, hholds]
        cases last
        · rfl
        · rw [if_pos rfl, setHolds_ne _ _ _ _ (Ne.symm hword)]
      · rw [hmem, hother w hw (Ne.symm hword)]
        exact hR.free
  · obtain ⟨hzero, hother⟩ := halUnlock_spec hwrite
    simp only [events]
    by_cases hword : lockWord START_ADDRESS id = w
    · subst hword
      have ho := (hR.holds c).1 hheld
      refine ⟨.free, by simp [ho, owner, Trans.run], fun d => ?_, ?_⟩
      · rw [hholds, setHolds_self]
        by_cases hd : d = c
        · simp [hd]
        · have := hR.holds d
          rw [ho] at this
          simp [hd, this, Ne.symm hd]
      · rw [hmem]
        simp [hzero]
    · rw [if_neg hword]
      refine ⟨o, rfl, fun d => ?_, ?_⟩
      · rw [← hR.holds, hholds, setHolds_ne _ _ _ _ (Ne.symm hword)]
      · rw [hmem, hother w hw (Ne.symm hword)]
        exact hR.free

theorem init_refines (mem : MemClass) (w : Nat) : Refines w (init n mem) (start mem w) := by
  unfold start
  refine ⟨fun c => ?_, ?_⟩
  · split <;> simp [init]
  · split <;> simp_all [init]

theorem run_refines {mem : MemClass} {as : List (Act n)} (hw : w % 4 = 0)
    (hr : Trans.run (step START_ADDRESS) (init n mem) as = some s) :
    ∃ o, Trans.run owner (start mem w) (Trans.trace (step START_ADDRESS) (events START_ADDRESS w) (init n mem) as) =
      some o ∧ Refines w s o :=
  Trans.accepts_of_sim (Refines w) (fun _ _ _ _ hR _ hs => step_refines hw hR hs) (init_refines mem w)
    (Trans.along_true _ as) hr

/-- Nobody has read the word since it was 0. -/
theorem run_untouched {as : List (Act n)} (hw : w % 4 = 0)
    (hquiet : Trans.trace (step START_ADDRESS) (events START_ADDRESS w) s as = [])
    (hR : Refines w s .free) (hr : Trans.run (step START_ADDRESS) s as = some t) : Refines w t .free := by
  obtain ⟨o, ho, hR'⟩ := Trans.accepts_of_sim (Refines w) (fun _ _ _ _ hR _ hs => step_refines hw hR hs) hR
    (Trans.along_true _ as) hr
  rw [hquiet] at ho
  cases ho
  exact hR'

/-- The read of a core that is locking a free word. -/
theorem poll_acquires {c : Fin n} {id : UInt32} (hR : Refines (lockWord START_ADDRESS id) s .free)
    (hl : s.locking c = some id) (hs : step START_ADDRESS s (.poll c) = some t) :
    t.holds c (lockWord START_ADDRESS id) = true := by
  rcases step_cases hs with ⟨_, _, h, -⟩ | ⟨d, id', last, mem', hd, hl', hread, -, hholds⟩ | ⟨_, _, _, h, -⟩
  · cases h
  · cases hd
    rw [hl] at hl'
    cases hl'
    rw [(halLock_spec hread).1.2 (hR.free.2 rfl), if_pos rfl] at hholds
    rw [hholds, setHolds_self, if_pos rfl]
  · cases h

/-! ## `GOMP_critical` and `GOMP_atomic` -/

/-- `GOMP_critical_start` (critical.c:30) for a core of the team. -/
def criticalStart (currTeam : Fin n → LockAlloc.TeamLocks) (c : Fin n) : Act n := .lock c (currTeam c).critical_lock

/-- `GOMP_critical_end` (critical.c:42). -/
def criticalEnd (currTeam : Fin n → LockAlloc.TeamLocks) (c : Fin n) : Act n := .unlock c (currTeam c).critical_lock

/-- `GOMP_atomic_start` (critical.c:8). -/
def atomicStart (currTeam : Fin n → LockAlloc.TeamLocks) (c : Fin n) : Act n := .lock c (currTeam c).atomic_lock

/-- `GOMP_atomic_end` (critical.c:20). -/
def atomicEnd (currTeam : Fin n → LockAlloc.TeamLocks) (c : Fin n) : Act n := .unlock c (currTeam c).atomic_lock

/-- Core `c` is in the body of a lock of its team. -/
def InBody (START_ADDRESS : UInt32) (lock : LockAlloc.TeamLocks → UInt32) (currTeam : Fin n → LockAlloc.TeamLocks)
    (s : State n) (c : Fin n) : Prop :=
  s.holds c (lockWord START_ADDRESS (lock (currTeam c))) = true

/-! ## Every run -/

def Mutex (s : State n) (w : Nat) : Prop := ∀ c d, s.holds c w = true → s.holds d w = true → c = d

/-- Once a core has unlocked the word, the next read of it by a core that is locking acquires it. -/
def NextAcquires (START_ADDRESS : UInt32) (s : State n) (w : Nat) : Prop :=
  ∀ c id t bs u d id' v, step START_ADDRESS s (.unlock c id) = some t → lockWord START_ADDRESS id = w →
    Trans.run (step START_ADDRESS) t bs = some u →
    Trans.trace (step START_ADDRESS) (events START_ADDRESS w) t bs = [] →
    u.locking d = some id' → lockWord START_ADDRESS id' = w → step START_ADDRESS u (.poll d) = some v →
    v.holds d w = true

/-- A step on another word leaves it with its holder. -/
def OthersKeep (START_ADDRESS : UInt32) (s : State n) (w : Nat) : Prop :=
  ∀ a t, step START_ADDRESS s a = some t → events START_ADDRESS w s a = [] → ∀ c, t.holds c w = s.holds c w

theorem Refines.mutex (hR : Refines w s o) : Mutex s w := by
  intro c d hc hd
  have h := ((hR.holds c).1 hc).symm.trans ((hR.holds d).1 hd)
  exact Owner.held.inj h

theorem Refines.nextAcquires (hw : w % 4 = 0) (hR : Refines w s o) : NextAcquires START_ADDRESS s w := by
  intro c id t bs u d id' v hunlock hid hrun hquiet hl hid' hpoll
  obtain ⟨o', ho', hRt⟩ := step_refines hw hR hunlock
  have hfree : o' = .free := by
    simp only [events, if_pos hid] at ho'
    obtain ⟨o'', ho'', hnil⟩ := Trans.run_cons.1 ho'
    cases hnil
    cases o with
    | never => cases ho''
    | free => cases ho''
    | held h =>
      simp only [owner, Option.ite_none_right_eq_some] at ho''
      exact (Option.some.inj ho''.2).symm
  subst hfree
  have hRu := run_untouched hw hquiet hRt hrun
  subst hid'
  exact poll_acquires hRu hl hpoll

theorem Refines.othersKeep (hw : w % 4 = 0) (hR : Refines w s o) : OthersKeep START_ADDRESS s w := by
  intro a t hs hquiet c
  obtain ⟨o', ho', hRt⟩ := step_refines hw hR hs
  rw [hquiet] at ho'
  cases ho'
  rw [Bool.eq_iff_iff, hRt.holds, hR.holds]

/-- **Locks in the semaphore memory**: every word is a lock with one owner at most, whatever the cores
do with the other words, and so are the bodies of `GOMP_critical` and of `GOMP_atomic` in a team. -/
theorem sem_lock {mem : MemClass} {as : List (Act n)}
    (hr : Trans.run (step START_ADDRESS) (init n mem) as = some s) :
    (∀ w, w % 4 = 0 →
      (∃ o, Trans.run owner (start mem w)
          (Trans.trace (step START_ADDRESS) (events START_ADDRESS w) (init n mem) as) = some o ∧
        ∀ c, s.holds c w = true ↔ o = .held c) ∧
      Mutex s w ∧ NextAcquires START_ADDRESS s w ∧ OthersKeep START_ADDRESS s w) ∧
    ∀ currTeam c d, currTeam c = currTeam d →
      (InBody START_ADDRESS LockAlloc.TeamLocks.critical_lock currTeam s c →
        InBody START_ADDRESS LockAlloc.TeamLocks.critical_lock currTeam s d → c = d) ∧
      (InBody START_ADDRESS LockAlloc.TeamLocks.atomic_lock currTeam s c →
        InBody START_ADDRESS LockAlloc.TeamLocks.atomic_lock currTeam s d → c = d) := by
  have hword : ∀ id, lockWord START_ADDRESS id % 4 = 0 := by
    intro id
    unfold lockWord wordAlign
    omega
  refine ⟨fun w hw => ?_, fun currTeam c d hteam => ⟨fun hc hd => ?_, fun hc hd => ?_⟩⟩
  · obtain ⟨o, ho, hR⟩ := run_refines hw hr
    exact ⟨⟨o, ho, hR.holds⟩, hR.mutex, hR.nextAcquires hw, hR.othersKeep hw⟩
  · unfold InBody at hc hd
    rw [← hteam] at hd
    obtain ⟨o, -, hR⟩ := run_refines (hword _) hr
    exact hR.mutex c d hc hd
  · unfold InBody at hc hd
    rw [← hteam] at hd
    obtain ⟨o, -, hR⟩ := run_refines (hword _) hr
    exact hR.mutex c d hc hd

end Refines

section Two

def c0 : Fin 2 := (Fin.last 0).castSucc
def c1 : Fin 2 := Fin.last 1

/-- The locks of the first team after `gomp_hal_init_locks`. -/
def team : LockAlloc.TeamLocks := (LockAlloc.teamStart (LockAlloc.initLocks LockAlloc.FIRST_FREE_LOCK_ID)).2

/-- Core 0 is in the critical section, core 1 spins, and gets it. -/
def handOver : List (Act 2) :=
  [criticalStart (fun _ => team) c0, .poll c0, criticalStart (fun _ => team) c1, .poll c1,
   atomicStart (fun _ => team) c0, .poll c0, atomicEnd (fun _ => team) c0,
   criticalEnd (fun _ => team) c0, .poll c1]

/-- The semaphores at their base. -/
def semaphores : State 2 := init 2 (MemClass.new CL_SEM_SIZE)

theorem sem_lock_handOver :
    ∃ s, Trans.run (step LockAlloc.SEM_BASE) semaphores handOver = some s ∧
      Mutex s (lockWord LockAlloc.SEM_BASE team.critical_lock) := by
  have hsome : (Trans.run (step LockAlloc.SEM_BASE) semaphores handOver).isSome := by decide +kernel
  obtain ⟨s, hrun⟩ := Option.isSome_iff_exists.1 hsome
  exact ⟨s, hrun, ((sem_lock hrun).1 _ (by decide +kernel)).2.1⟩

end Two

end VirtualSoc.Gomp.SemLock
