import Mathlib.Logic.Function.Basic
import Mathlib.Data.Fintype.Basic
import VirtualSoc.Lib.Transition
import VirtualSoc.Gomp.LockAlloc

/-!
# User locks (libgomp/config/vsoc/lock.c)

`omp_init_lock` stores the address of a semaphore in the lock variable. The other functions pass
the address of the variable on to `gomp_hal_lock`, `gomp_hal_unlock` and `gomp_hal_test_lock`, and
these read and write what they are given: the variable in ordinary memory, never the semaphore
that it names. The address in it counts as taken until the first `omp_test_lock` has overwritten
it, and nothing ever takes the lock again.

`lockSpec` is a lock as its users see it. The code follows it if and only if the calls come in `turn`
(`lock_refines`): the cores have to leave each other alone by themselves, and the first of them has to
call `omp_test_lock`, since until then `omp_set_lock` does not return (`set_never_returns`).
-/

namespace VirtualSoc.Gomp.UserLock

/-! ## Memory -/

/-- A word read. In the semaphore memory a zero word is also set to one (ext_mem.h:54). -/
def load (mem : Nat → UInt32) (a : Nat) : UInt32 × (Nat → UInt32) :=
  (mem a, if isInSemSpace a 0 ∧ mem a = 0 then Function.update mem a 1 else mem)

def store (mem : Nat → UInt32) (a : Nat) (v : UInt32) : Nat → UInt32 := Function.update mem a v

/-! ## The functions of lock.c, a load or a store at a time -/

/-- One round of `while (*id);` in `gomp_hal_lock` (lock.c:20), and whether it is the last. -/
def halLock (mem : Nat → UInt32) (id : Nat) : Bool × (Nat → UInt32) :=
  ((load mem id).1 == 0, (load mem id).2)

/-- `gomp_hal_unlock` (lock.c:25). -/
def halUnlock (mem : Nat → UInt32) (id : Nat) : Nat → UInt32 := store mem id 0

/-- `ret = *id` in `gomp_hal_test_lock` (lock.c:55). -/
def halTestLoad (mem : Nat → UInt32) (id : Nat) : UInt32 × (Nat → UInt32) := load mem id

/-- `*id = 0` in `gomp_hal_test_lock` (lock.c:56). -/
def halTestStore (mem : Nat → UInt32) (id : Nat) : Nat → UInt32 := store mem id 0

/-- `omp_init_lock`, that is `gomp_hal_init_lock` (lock.c:44). -/
def ompInitLock (mem : Nat → UInt32) (next : UInt32) (id : Nat) : Nat → UInt32 :=
  store mem id (LockAlloc.initLock next).2

/-! ## Cores at one lock -/

/-- Where a core is: in no call, spinning in `omp_set_lock`, or in `omp_test_lock` with `ret`
read. -/
inductive Pc
  | idle
  | setting
  | testing (ret : UInt32)
deriving DecidableEq, Repr

structure State (n : Nat) where
  mem : Nat → UInt32
  pc : Fin n → Pc
  holds : Fin n → Bool

/-- A core calls one of the functions, or goes on in its call. -/
inductive Act (n : Nat)
  | set (c : Fin n)
  | test (c : Fin n)
  | unset (c : Fin n)
  | go (c : Fin n)
deriving DecidableEq, Repr

section Step

variable {n : Nat} (lock : Nat)

/-- The lock is initialised once, first. -/
def init (n : Nat) (mem : Nat → UInt32) (next : UInt32) : State n :=
  ⟨ompInitLock mem next lock, fun _ => .idle, fun _ => false⟩

/-- A core holds the lock from the return of `omp_set_lock`, or of `omp_test_lock` with a nonzero
value, to its call of `omp_unset_lock`; only a holder makes that. -/
def step (s : State n) : Act n → Option (State n)
  | .set c => if s.pc c = .idle then some { s with pc := Function.update s.pc c .setting } else none
  | .test c =>
    if s.pc c = .idle then
      let (ret, mem) := halTestLoad s.mem lock
      some { s with mem := mem, pc := Function.update s.pc c (.testing ret) }
    else none
  | .unset c =>
    if s.pc c = .idle ∧ s.holds c then
      some { s with mem := halUnlock s.mem lock, holds := Function.update s.holds c false }
    else none
  | .go c =>
    match s.pc c with
    | .idle => none
    | .setting =>
      match halLock s.mem lock with
      | (true, mem) =>
        some { mem := mem, pc := Function.update s.pc c .idle, holds := Function.update s.holds c true }
      | (false, mem) => some { s with mem := mem }
    | .testing ret =>
      some {
        mem := halTestStore s.mem lock
        pc := Function.update s.pc c .idle
        holds := if ret ≠ 0 then Function.update s.holds c true else s.holds }

/-! ## The lock as its users see it -/

inductive Event (n : Nat)
  | acquire (c : Fin n)
  | fail (c : Fin n)
  | release (c : Fin n)
deriving DecidableEq, Repr

/-- A free lock can be acquired. A held one is released by its holder, and a test of it fails and
leaves it so. -/
def lockSpec : Option (Fin n) → Event n → Option (Option (Fin n))
  | none, .acquire c => some (some c)
  | some h, .fail _ => some (some h)
  | some h, .release c => if h = c then some none else none
  | _, _ => none

/-- What the calls show: a test fails where it reads 0, and succeeds where it returns another
value. -/
def events (s : State n) : Act n → List (Event n)
  | .set _ => []
  | .test c => if s.pc c = .idle ∧ (halTestLoad s.mem lock).1 = 0 then [.fail c] else []
  | .unset c => if s.pc c = .idle ∧ s.holds c then [.release c] else []
  | .go c =>
    match s.pc c with
    | .idle => []
    | .setting => if (halLock s.mem lock).1 then [.acquire c] else []
    | .testing ret => if ret ≠ 0 then [.acquire c] else []

/-! ## The order of the calls -/

/-- How far the calls have come: nobody has called, or `omp_set_lock` only; a core is in the call that lets it in, or
back from it; or it has called `omp_unset_lock`. -/
inductive Turn (n : Nat)
  | fresh
  | waiting
  | entering (c : Fin n)
  | inside (c : Fin n)
  | left
deriving DecidableEq, Repr

/-- The calls that are in turn. The first is an `omp_test_lock`, which lets its core in. From then on `omp_test_lock` is
called while a core is inside, and `omp_set_lock` after that core has left. -/
def turn : Turn n → Act n → Option (Turn n)
  | .fresh, .test c => some (.entering c)
  | .fresh, .set _ => some .waiting
  | .fresh, .go _ => some .fresh
  | .waiting, .set _ => some .waiting
  | .waiting, .go _ => some .waiting
  | .entering c, .go d => some (if d = c then .inside c else .entering c)
  | .inside c, .test _ => some (.inside c)
  | .inside c, .unset d => if d = c then some .left else none
  | .inside c, .go _ => some (.inside c)
  | .left, .set c => some (.entering c)
  | .left, .go _ => some .left
  | _, _ => none

/-- However the calls that were made go on, the lock follows `lockSpec`, and those who hold it are as that says. -/
def Locks (s₀ : State n) (as : List (Act n)) : Prop :=
  ∀ p bs s, p <+: as → (∀ b ∈ bs, ∃ c, b = .go c) → Trans.run (step lock) s₀ (p ++ bs) = some s →
    (∃ h, Trans.run lockSpec none (Trans.trace (step lock) (events lock) s₀ (p ++ bs)) = some h ∧
      ∀ c, s.holds c = true ↔ h = some c) ∧
    ∀ c d, s.holds c = true → s.holds d = true → c = d

end Step

/-! ## Calls in turn -/

section Refines

variable {n : Nat} {lock : Nat} {s s' : State n} {a : Act n} {t t' : Turn n} {c d : Fin n}

/-- The variable is not touched by reading it. -/
theorem load_ordinary (mem : Nat → UInt32) (hlock : isInSemSpace lock 0 = false) :
    load mem lock = (mem lock, mem) := by
  simp [load, hlock]

def Turn.holder : Turn n → Option (Fin n)
  | .inside c => some c
  | _ => none

/-- The variable holds the address until the first test has overwritten it, and 0 from then on. -/
def Turn.Fits (lock : Nat) (s : State n) : Turn n → Prop
  | .fresh => s.mem lock ≠ 0 ∧ ∀ d, s.pc d = .idle
  | .waiting => s.mem lock ≠ 0 ∧ (∀ d, s.pc d = .idle ∨ s.pc d = .setting) ∧ ∃ d, s.pc d = .setting
  | .entering c =>
    (s.mem lock = 0 ∧ s.pc c = .setting ∧ ∀ d, d ≠ c → s.pc d = .idle ∨ s.pc d = .testing 0) ∨
      (s.mem lock ≠ 0 ∧ s.pc c = .testing (s.mem lock) ∧ ∀ d, d ≠ c → s.pc d = .idle)
  | .inside _ | .left => s.mem lock = 0 ∧ ∀ d, s.pc d = .idle ∨ s.pc d = .testing 0

structure Refines (lock : Nat) (s : State n) (t : Turn n) : Prop where
  holds : ∀ c, s.holds c = true ↔ t.holder = some c
  fits : t.Fits lock s

/-- A free lock is taken. -/
theorem holds_taken {holds : Fin n → Bool} (hfree : ∀ d, holds d = true ↔ (none : Option (Fin n)) = some d)
    (c d : Fin n) : Function.update holds c true d = true ↔ some c = some d := by
  by_cases hdc : d = c
  · subst hdc
    simp
  · simp [hdc, hfree d, Ne.symm hdc]

/-- A core comes to another place, and what is so of the others stays so. -/
theorem others_update {P : Pc → Prop} {pc : Fin n → Pc} {p : Pc} (hp : P p) (h : ∀ d, d ≠ c → P (pc d)) (d : Fin n) :
    P (Function.update pc c p d) := by
  by_cases hd : d = c
  · subst hd
    rwa [Function.update_self]
  · rw [Function.update_of_ne hd]
    exact h d hd

theorem others_update_ne {P : Pc → Prop} {pc : Fin n → Pc} {p : Pc} (h : ∀ d, d ≠ c → P (pc d)) (d : Fin n)
    (hd : d ≠ c) : P (Function.update pc c p d) := by
  rw [Function.update_of_ne hd]
  exact h d hd

/-! ### One step of each kind -/

/-- A round of `gomp_hal_lock`. -/
theorem step_setting (hlock : isInSemSpace lock 0 = false) (hpc : s.pc c = .setting) :
    step lock s (.go c) = some (if s.mem lock = 0 then
        { s with pc := Function.update s.pc c .idle, holds := Function.update s.holds c true } else s) ∧
      events lock s (.go c) = if s.mem lock = 0 then [.acquire c] else [] := by
  have hload := load_ordinary s.mem hlock
  by_cases hzero : s.mem lock = 0
  · simp [step, events, halLock, hload, hpc, hzero]
  · have hbeq : (s.mem lock == 0) = false := by simpa using hzero
    simp [step, events, halLock, hload, hpc, hzero, hbeq]

/-- The end of `gomp_hal_test_lock`. -/
theorem step_testing (lock : Nat) {ret : UInt32} (hpc : s.pc c = .testing ret) :
    step lock s (.go c) = some {
        mem := store s.mem lock 0
        pc := Function.update s.pc c .idle
        holds := if ret ≠ 0 then Function.update s.holds c true else s.holds } ∧
      events lock s (.go c) = if ret ≠ 0 then [.acquire c] else [] := by
  simp [step, events, halTestStore, hpc]

/-- The beginning of `gomp_hal_test_lock`. -/
theorem step_test (hlock : isInSemSpace lock 0 = false) (hpc : s.pc c = .idle) :
    step lock s (.test c) = some { s with pc := Function.update s.pc c (.testing (s.mem lock)) } ∧
      events lock s (.test c) = if s.mem lock = 0 then [.fail c] else [] := by
  have hload := load_ordinary s.mem hlock
  simp [step, events, halTestLoad, hload, hpc]

theorem idle_of_step (hs : step lock s a = some s') (ha : a = .set c ∨ a = .test c) : s.pc c = .idle := by
  rcases ha with rfl | rfl
  · simp only [step, Option.ite_none_right_eq_some] at hs
    exact hs.1
  · simp only [step, Option.ite_none_right_eq_some] at hs
    exact hs.1

@[simp] theorem store_self (mem : Nat → UInt32) : store mem lock 0 lock = 0 := Function.update_self ..

/-! ### What a step in turn keeps -/

/-- The lock follows the step. -/
def Follows (lock : Nat) (s : State n) (a : Act n) (t : Turn n) (s' : State n) (t' : Turn n) : Prop :=
  Trans.run lockSpec t.holder (events lock s a) = some t'.holder ∧ Refines lock s' t'

theorem Refines.set (hR : Refines lock s t) (hs : step lock s (.set c) = some s') (ht : turn t (.set c) = some t') :
    Follows lock s (.set c) t s' t' := by
  simp only [step, Option.ite_none_right_eq_some, Option.some.injEq] at hs
  obtain ⟨-, rfl⟩ := hs
  obtain ⟨hholds, hfits⟩ := hR
  cases t with
  | fresh =>
    cases ht
    obtain ⟨hmem, hidle⟩ := hfits
    exact ⟨rfl, hholds, hmem, others_update (P := fun q => q = .idle ∨ q = .setting) (Or.inr rfl)
      fun d _ => Or.inl (hidle d), c, Function.update_self ..⟩
  | waiting =>
    cases ht
    obtain ⟨hmem, hpcs, -⟩ := hfits
    exact ⟨rfl, hholds, hmem, others_update (P := fun q => q = .idle ∨ q = .setting) (Or.inr rfl)
      fun d _ => hpcs d, c, Function.update_self ..⟩
  | left =>
    cases ht
    obtain ⟨hmem, hpcs⟩ := hfits
    exact ⟨rfl, hholds, Or.inl ⟨hmem, Function.update_self ..,
      others_update_ne (P := fun q => q = .idle ∨ q = .testing 0) fun d _ => hpcs d⟩⟩
  | entering | inside => cases ht

theorem Refines.test (hlock : isInSemSpace lock 0 = false) (hR : Refines lock s t)
    (hs : step lock s (.test c) = some s') (ht : turn t (.test c) = some t') :
    Follows lock s (.test c) t s' t' := by
  obtain ⟨hstep, hev⟩ := step_test hlock (idle_of_step hs (Or.inr rfl))
  rw [hstep] at hs
  cases hs
  obtain ⟨hholds, hfits⟩ := hR
  unfold Follows
  rw [hev]
  cases t with
  | fresh =>
    -- the first test reads the address
    cases ht
    obtain ⟨hmem, hidle⟩ := hfits
    rw [if_neg hmem]
    exact ⟨rfl, hholds, Or.inr ⟨hmem, Function.update_self ..,
      others_update_ne (P := fun q => q = .idle) fun d _ => hidle d⟩⟩
  | inside e =>
    -- the others read the 0 that it has left
    cases ht
    obtain ⟨hmem, hpcs⟩ := hfits
    rw [if_pos hmem]
    exact ⟨rfl, hholds, hmem, others_update (P := fun q => q = .idle ∨ q = .testing 0)
      (Or.inr (congrArg Pc.testing hmem)) fun d _ => hpcs d⟩
  | waiting | entering | left => cases ht

theorem Refines.unset (hR : Refines lock s t) (hs : step lock s (.unset c) = some s')
    (ht : turn t (.unset c) = some t') : Follows lock s (.unset c) t s' t' := by
  simp only [step, Option.ite_none_right_eq_some, Option.some.injEq] at hs
  obtain ⟨hcall, rfl⟩ := hs
  obtain ⟨hholds, hfits⟩ := hR
  cases t with
  | inside e =>
    simp only [turn, Option.ite_none_right_eq_some, Option.some.injEq] at ht
    obtain ⟨rfl, rfl⟩ := ht
    obtain ⟨-, hpcs⟩ := hfits
    refine ⟨by simp [events, hcall, Turn.holder, lockSpec, Trans.run], fun d => ?_, store_self s.mem, hpcs⟩
    by_cases hd : d = c
    · subst hd
      simp [Turn.holder]
    · have hd' := hholds d
      simp [Turn.holder, Ne.symm hd] at hd'
      simp [Turn.holder, hd, hd']
  | fresh | waiting | entering | left => cases ht

/-- The last step of a test that has failed. -/
theorem step_failed (hpc : s.pc c = .idle ∨ s.pc c = .testing 0) (hs : step lock s (.go c) = some s') :
    events lock s (.go c) = [] ∧ s'.holds = s.holds ∧ s'.mem lock = 0 ∧ s'.pc = Function.update s.pc c .idle := by
  rcases hpc with hpc | hpc
  · simp [step, hpc] at hs
  · obtain ⟨hstep, hev⟩ := step_testing lock hpc
    rw [hstep] at hs
    cases hs
    exact ⟨by rw [hev]; rfl, rfl, store_self s.mem, rfl⟩

/-- The core that is entering comes in. -/
theorem Refines.enters (hlock : isInSemSpace lock 0 = false) (hR : Refines lock s (.entering c)) :
    ∃ u, step lock s (.go c) = some u ∧ Follows lock s (.go c) (.entering c) u (.inside c) ∧
      ∀ d, d ≠ c → u.pc d = s.pc d := by
  obtain ⟨hholds, hfits⟩ := hR
  have hin : ∀ d, Function.update s.holds c true d = true ↔ (Turn.inside c).holder = some d := holds_taken hholds c
  obtain ⟨hmem, hpc, hpcs⟩ | ⟨hmem, hpc, hpcs⟩ := hfits
  · obtain ⟨hstep, hev⟩ := step_setting hlock hpc
    rw [if_pos hmem] at hstep hev
    refine ⟨_, hstep, ⟨by rw [hev]; rfl, hin, hmem, ?_⟩, fun d hd => Function.update_of_ne hd ..⟩
    exact others_update (P := fun q => q = .idle ∨ q = .testing 0) (Or.inl rfl) hpcs
  · obtain ⟨hstep, hev⟩ := step_testing lock hpc
    simp only [if_pos hmem] at hstep hev
    refine ⟨_, hstep, ⟨by rw [hev]; rfl, hin, store_self s.mem, ?_⟩, fun d hd => Function.update_of_ne hd ..⟩
    exact others_update (P := fun q => q = .idle ∨ q = .testing 0) (Or.inl rfl) fun d hd => Or.inl (hpcs d hd)

theorem Refines.go (hlock : isInSemSpace lock 0 = false) (hR : Refines lock s t)
    (hs : step lock s (.go c) = some s') (ht : turn t (.go c) = some t') : Follows lock s (.go c) t s' t' := by
  obtain ⟨hholds, hfits⟩ := hR
  have hbusy : s.pc c ≠ .idle := by
    intro hpc
    simp [step, hpc] at hs
  cases t with
  | fresh => exact absurd (hfits.2 c) hbusy
  | waiting =>
    -- `omp_set_lock` reads the address, and goes on reading
    cases ht
    have hpc := (hfits.2.1 c).resolve_left hbusy
    obtain ⟨hstep, hev⟩ := step_setting hlock hpc
    rw [if_neg hfits.1] at hstep hev
    rw [hstep] at hs
    cases hs
    exact ⟨by rw [hev]; rfl, hholds, hfits⟩
  | entering e =>
    simp only [turn, Option.some.injEq] at ht
    by_cases hce : c = e
    · subst hce
      rw [if_pos rfl] at ht
      subst ht
      obtain ⟨u, hu, hfollows, -⟩ := Refines.enters hlock ⟨hholds, hfits⟩
      rw [hu] at hs
      cases hs
      exact hfollows
    · rw [if_neg hce] at ht
      subst ht
      obtain ⟨hmem, hpc, hpcs⟩ | ⟨-, -, hpcs⟩ := hfits
      · obtain ⟨hev, hsame, hmem', hpc'⟩ := step_failed (hpcs c hce) hs
        refine ⟨by rw [hev]; rfl, by rwa [hsame], Or.inl ⟨hmem', ?_, fun d hd => ?_⟩⟩
        · rw [hpc', Function.update_of_ne (Ne.symm hce)]
          exact hpc
        · rw [hpc']
          by_cases hdc : d = c
          · subst hdc
            exact Or.inl (Function.update_self ..)
          · rw [Function.update_of_ne hdc]
            exact hpcs d hd
      · exact absurd (hpcs c hce) hbusy
  | inside | left =>
    cases ht
    obtain ⟨hmem, hpcs⟩ := hfits
    obtain ⟨hev, hsame, hmem', hpc'⟩ := step_failed (hpcs c) hs
    refine ⟨by rw [hev]; rfl, by rwa [hsame], hmem', ?_⟩
    rw [hpc']
    exact others_update (P := fun q => q = .idle ∨ q = .testing 0) (Or.inl rfl) fun d _ => hpcs d

/-- **A step that is in turn**: the lock follows it. -/
theorem step_refines (hlock : isInSemSpace lock 0 = false) (hR : Refines lock s t) (hs : step lock s a = some s')
    (ht : turn t a = some t') : Follows lock s a t s' t' := by
  cases a with
  | set c => exact hR.set hs ht
  | test c => exact hR.test hlock hs ht
  | unset c => exact hR.unset hs ht
  | go c => exact hR.go hlock hs ht

theorem init_refines {mem : Nat → UInt32} {next : UInt32} (hnext : LockAlloc.SEM_BASE ≤ next) :
    Refines lock (init lock n mem next) .fresh := by
  refine ⟨fun c => by simp [init, Turn.holder], ?_, fun _ => rfl⟩
  simp only [init, ompInitLock, store, Function.update_self, LockAlloc.initLock]
  rintro rfl
  revert hnext
  decide

theorem run_refines (hlock : isInSemSpace lock 0 = false) {as : List (Act n)} (hR : Refines lock s t)
    (hr : Trans.run (step lock) s as = some s') (ht : Trans.run turn t as = some t') :
    Trans.run lockSpec t.holder (Trans.trace (step lock) (events lock) s as) = some t'.holder ∧ Refines lock s' t' := by
  induction as generalizing s t with
  | nil =>
    cases hr
    cases ht
    exact ⟨rfl, hR⟩
  | cons a as ih =>
    obtain ⟨u, hu, hr⟩ := Trans.run_cons.1 hr
    obtain ⟨v, hv, ht⟩ := Trans.run_cons.1 ht
    obtain ⟨hev, hR'⟩ := step_refines hlock hR hu hv
    obtain ⟨hrest, hlast⟩ := ih hR' hr ht
    rw [Trans.trace_cons hu]
    exact ⟨Trans.run_append.2 ⟨_, hev, hrest⟩, hlast⟩

/-! ### Calls out of turn -/

/-- The steps of cores in their calls are always in turn. -/
theorem turn_go (t : Turn n) (c : Fin n) : (turn t (.go c)).isSome = true := by
  cases t <;> rfl

theorem turn_gos {bs : List (Act n)} (hgo : ∀ b ∈ bs, ∃ c, b = .go c) (t : Turn n) :
    (Trans.run turn t bs).isSome = true := by
  induction bs generalizing t with
  | nil => rfl
  | cons b bs ih =>
    obtain ⟨c, rfl⟩ := hgo b List.mem_cons_self
    obtain ⟨u, hu⟩ := Option.isSome_iff_exists.1 (turn_go t c)
    rw [Trans.run, hu, Option.bind_some]
    exact ih (fun b hb => hgo b (List.mem_cons_of_mem _ hb)) u

/-- With a lock that is held, a core in `omp_set_lock` or in a test that has read the address comes in, too. -/
theorem second_enters (hlock : isInSemSpace lock 0 = false) (hmem : s.mem lock = 0)
    (hpc : s.pc d = .setting ∨ ∃ ret, ret ≠ 0 ∧ s.pc d = .testing ret) :
    ∃ u, step lock s (.go d) = some u ∧ events lock s (.go d) = [.acquire d] := by
  rcases hpc with hpc | ⟨ret, hret, hpc⟩
  · obtain ⟨hstep, hev⟩ := step_setting hlock hpc
    rw [if_pos hmem] at hev
    exact ⟨_, hstep, hev⟩
  · obtain ⟨hstep, hev⟩ := step_testing lock hpc
    rw [if_pos hret] at hev
    exact ⟨_, hstep, hev⟩

/-- After the events `es`, with the lock at `h`, the cores can go on in their calls so that the lock cannot follow. -/
def Breaks (lock : Nat) (s : State n) (h : Option (Fin n)) (es : List (Event n)) : Prop :=
  ∃ bs u, (∀ b ∈ bs, ∃ c, b = .go c) ∧ Trans.run (step lock) s bs = some u ∧
    Trans.run lockSpec h (es ++ Trans.trace (step lock) (events lock) s bs) = none

/-- A core that is in the call that lets it in comes in, and then a second one. -/
theorem Refines.entering_breaks (hlock : isInSemSpace lock 0 = false) (hR : Refines lock s (.entering c)) (hd : d ≠ c)
    (hstep : ∃ p, s' = { s with pc := Function.update s.pc d p } ∧ (p = .setting ∨ ∃ ret, ret ≠ 0 ∧ p = .testing ret)) :
    Breaks lock s' none [] := by
  obtain ⟨p, rfl, hp⟩ := hstep
  obtain ⟨hholds, hfits⟩ := hR
  have hpc : (Function.update s.pc d p) c = s.pc c := Function.update_of_ne (Ne.symm hd) ..
  obtain ⟨u, hu, hev, hmem, hpcd⟩ : ∃ u, step lock { s with pc := Function.update s.pc d p } (.go c) = some u ∧
      events lock { s with pc := Function.update s.pc d p } (.go c) = [.acquire c] ∧ u.mem lock = 0 ∧ u.pc d = p := by
    obtain ⟨hmem, hset, -⟩ | ⟨hmem, htest, -⟩ := hfits
    · obtain ⟨hstep, hev⟩ := step_setting (s := { s with pc := Function.update s.pc d p }) hlock (hpc.trans hset)
      rw [if_pos hmem] at hstep hev
      refine ⟨_, hstep, hev, hmem, ?_⟩
      simp only [Function.update_of_ne hd, Function.update_self]
    · obtain ⟨hstep, hev⟩ := step_testing lock (s := { s with pc := Function.update s.pc d p })
        (hpc.trans htest)
      rw [if_pos hmem] at hev
      refine ⟨_, hstep, hev, store_self s.mem, ?_⟩
      simp only [Function.update_of_ne hd, Function.update_self]
  obtain ⟨v, hv, hev'⟩ := second_enters hlock hmem (hpcd ▸ hp)
  refine ⟨[.go c, .go d], v, by simp, by rw [Trans.run, hu, Option.bind_some, Trans.run, hv]; rfl, ?_⟩
  rw [List.nil_append, Trans.trace_cons hu, Trans.trace_cons hv, hev, hev']
  rfl

/-- The core that is let in is in its call. -/
theorem Refines.entering_ne (hR : Refines lock s (.entering d)) (hidle : s.pc c = .idle) : c ≠ d := by
  rintro rfl
  obtain ⟨-, hpc, -⟩ | ⟨-, hpc, -⟩ := hR.fits
  · cases hidle.symm.trans hpc
  · cases hidle.symm.trans hpc

/-- `omp_set_lock` while a core is let in, or inside. -/
theorem Refines.set_breaks (hlock : isInSemSpace lock 0 = false) (hR : Refines lock s t)
    (hs : step lock s (.set c) = some s') (hout : turn t (.set c) = none) : Breaks lock s' t.holder [] := by
  have hidle := idle_of_step hs (Or.inl rfl)
  simp only [step, if_pos hidle, Option.some.injEq] at hs
  cases t with
  | fresh | waiting | left => cases hout
  | entering d => exact hR.entering_breaks hlock (hR.entering_ne hidle) ⟨_, hs.symm, Or.inl rfl⟩
  | inside d =>
    have hpc : s'.pc c = .setting := by
      rw [← hs]
      exact Function.update_self ..
    have hmem : s'.mem lock = 0 := by
      rw [← hs]
      exact hR.fits.1
    obtain ⟨u, hu, hev⟩ := second_enters hlock hmem (Or.inl hpc)
    refine ⟨[.go c], u, by simp, by rw [Trans.run, hu]; rfl, ?_⟩
    rw [Trans.trace_cons hu, hev]
    rfl

/-- A test while a core waits lets its own core in, and then the one that waits. -/
theorem Refines.waiting_breaks (hlock : isInSemSpace lock 0 = false) (hR : Refines lock s .waiting)
    (hidle : s.pc c = .idle) :
    Breaks lock { s with pc := Function.update s.pc c (.testing (s.mem lock)) } none [] := by
  obtain ⟨hmem, -, d, hd⟩ := hR.fits
  have hdc : d ≠ c := by
    rintro rfl
    cases hidle.symm.trans hd
  obtain ⟨hgo, hgoev⟩ := step_testing lock
    (s := { s with pc := Function.update s.pc c (.testing (s.mem lock)) }) (Function.update_self ..)
  rw [if_pos hmem] at hgoev
  have hpc : (Function.update (Function.update s.pc c (.testing (s.mem lock))) c Pc.idle) d = .setting := by
    rw [Function.update_of_ne hdc, Function.update_of_ne hdc]
    exact hd
  obtain ⟨v, hv, hev⟩ := second_enters (d := d) (s := {
    mem := store s.mem lock 0
    pc := Function.update (Function.update s.pc c (.testing (s.mem lock))) c .idle
    holds := if s.mem lock ≠ 0 then Function.update s.holds c true else s.holds }) hlock
    (store_self s.mem) (Or.inl hpc)
  refine ⟨[.go c, .go d], v, by simp, by rw [Trans.run, hgo, Option.bind_some, Trans.run, hv]; rfl, ?_⟩
  rw [Trans.trace_cons hgo, Trans.trace_cons hv, hgoev, hev]
  rfl

/-- `omp_test_lock` while a core waits, is let in or has left. -/
theorem Refines.test_breaks (hlock : isInSemSpace lock 0 = false) (hR : Refines lock s t)
    (hs : step lock s (.test c) = some s') (hout : turn t (.test c) = none) :
    Breaks lock s' t.holder (events lock s (.test c)) := by
  have hnil : events lock s (.test c) = [.fail c] → lockSpec t.holder (.fail c) = none →
      Breaks lock s' t.holder (events lock s (.test c)) := by
    intro he hnone
    exact ⟨[], s', by simp, rfl, by rw [he]; simp [Trans.run, hnone]⟩
  have hidle := idle_of_step hs (Or.inr rfl)
  obtain ⟨hstep, hev⟩ := step_test hlock hidle
  rw [hstep] at hs
  cases hs
  cases t with
  | fresh | inside => cases hout
  | waiting =>
    rw [hev, if_neg hR.fits.1]
    exact hR.waiting_breaks hlock hidle
  | left => exact hnil (by rw [hev, if_pos hR.fits.1]) rfl
  | entering d =>
    by_cases hmem : s.mem lock = 0
    · exact hnil (by rw [hev, if_pos hmem]) rfl
    · rw [hev, if_neg hmem]
      exact hR.entering_breaks hlock (hR.entering_ne hidle) ⟨_, rfl, Or.inr ⟨_, hmem, rfl⟩⟩

/-- **A call that is out of turn**: the cores can go on in such a way that the lock cannot follow. -/
theorem Refines.breaks (hlock : isInSemSpace lock 0 = false) (hR : Refines lock s t) (hs : step lock s a = some s')
    (hout : turn t a = none) : Breaks lock s' t.holder (events lock s a) := by
  cases a with
  | set c => exact hR.set_breaks hlock hs hout
  | test c => exact hR.test_breaks hlock hs hout
  | unset c =>
    -- only a core that holds the lock makes this call
    simp only [step, Option.ite_none_right_eq_some] at hs
    have hheld := (hR.holds c).1 hs.1.2
    cases t with
    | inside d =>
      obtain rfl : d = c := Option.some.inj hheld
      simp [turn] at hout
    | fresh | waiting | entering | left => cases hheld
  | go c =>
    have hgo := turn_go t c
    rw [hout] at hgo
    cases hgo

/-! ## Every run -/

/-- The first call that is out of turn. -/
theorem run_breaks (hlock : isInSemSpace lock 0 = false) {as : List (Act n)} (hR : Refines lock s t)
    (hr : (Trans.run (step lock) s as).isSome = true) (hout : Trans.run turn t as = none) :
    ∃ p bs u, p <+: as ∧ (∀ b ∈ bs, ∃ c, b = .go c) ∧ Trans.run (step lock) s (p ++ bs) = some u ∧
      Trans.run lockSpec t.holder (Trans.trace (step lock) (events lock) s (p ++ bs)) = none := by
  induction as generalizing s t with
  | nil => cases hout
  | cons a as ih =>
    obtain ⟨x, hx⟩ := Option.isSome_iff_exists.1 hr
    obtain ⟨s', hs', hx⟩ := Trans.run_cons.1 hx
    cases ht : turn t a with
    | none =>
      obtain ⟨bs, u, hgo, hu, hnone⟩ := hR.breaks hlock hs' ht
      refine ⟨[a], bs, u, ⟨as, rfl⟩, hgo, Trans.run_cons.2 ⟨s', hs', hu⟩, ?_⟩
      rwa [List.singleton_append, Trans.trace_cons hs']
    | some t' =>
      rw [Trans.run, ht, Option.bind_some] at hout
      obtain ⟨hev, hR'⟩ := step_refines hlock hR hs' ht
      obtain ⟨p, bs, u, ⟨q, rfl⟩, hgo, hu, hnone⟩ := ih hR' (by rw [hx]; rfl) hout
      refine ⟨a :: p, bs, u, ⟨q, rfl⟩, hgo, Trans.run_cons.2 ⟨s', hs', hu⟩, ?_⟩
      rw [List.cons_append, Trans.trace_cons hs']
      by_contra hsome
      obtain ⟨h, hh⟩ := Option.ne_none_iff_exists'.1 hsome
      obtain ⟨h', hh', hrest⟩ := Trans.run_append.1 hh
      rw [hev] at hh'
      cases hh'
      rw [hnone] at hrest
      cases hrest

/-- **The user lock**: its calls come in turn if and only if it behaves as a lock, however they are interleaved: at most
one core holds it, a test succeeds only when it takes the lock and fails only when another core has it, and then
leaves it with that core. -/
theorem lock_refines {mem : Nat → UInt32} {next : UInt32} (hlock : isInSemSpace lock 0 = false)
    (hnext : LockAlloc.SEM_BASE ≤ next) {as : List (Act n)}
    (hr : (Trans.run (step lock) (init lock n mem next) as).isSome = true) :
    (Trans.run turn .fresh as).isSome = true ↔ Locks lock (init lock n mem next) as := by
  have hinit : Refines lock (init lock n mem next) .fresh := init_refines hnext
  constructor
  · intro hturn p bs s hp hgo hs
    obtain ⟨q, rfl⟩ := hp
    obtain ⟨t, ht⟩ := Option.isSome_iff_exists.1 hturn
    obtain ⟨u, hu, -⟩ := Trans.run_append.1 ht
    obtain ⟨v, hv⟩ := Option.isSome_iff_exists.1 (turn_gos hgo u)
    obtain ⟨htrace, hR⟩ := run_refines hlock hinit hs (Trans.run_append.2 ⟨u, hu, hv⟩)
    refine ⟨⟨v.holder, htrace, hR.holds⟩, fun c d hc hd => ?_⟩
    have hc := (hR.holds c).1 hc
    rw [(hR.holds d).1 hd] at hc
    exact (Option.some.inj hc).symm
  · intro hlocks
    by_contra hturn
    have hnone : Trans.run turn .fresh as = none := by simpa using hturn
    obtain ⟨p, bs, u, hp, hgo, hu, hbroken⟩ := run_breaks hlock hinit hr hnone
    obtain ⟨⟨h, hh, -⟩, -⟩ := hlocks p bs u hp hgo hu
    exact Option.some_ne_none h (hh.symm.trans hbroken)

/-- The variable still holds the address, and no core is in a test. -/
structure Untested (lock : Nat) (s : State n) : Prop where
  mem : s.mem lock ≠ 0
  holds : ∀ c, s.holds c = false
  pc : ∀ c, s.pc c = .idle ∨ s.pc c = .setting

theorem Untested.step (hlock : isInSemSpace lock 0 = false) (h : Untested lock s) (hno : ∀ c, a ≠ .test c)
    (hs : step lock s a = some s') :
    Untested lock s' ∧ ∀ c, a = .set c ∨ s.pc c = .setting → s'.pc c = .setting := by
  cases a with
  | test c => exact absurd rfl (hno c)
  | unset c =>
    simp only [UserLock.step, Option.ite_none_right_eq_some] at hs
    rw [h.holds c] at hs
    cases hs.1.2
  | set c =>
    simp only [UserLock.step, Option.ite_none_right_eq_some, Option.some.injEq] at hs
    obtain ⟨-, rfl⟩ := hs
    refine ⟨⟨h.mem, h.holds, others_update (P := fun q => q = .idle ∨ q = .setting) (Or.inr rfl) fun d _ => h.pc d⟩,
      fun d hd => ?_⟩
    by_cases hdc : d = c
    · subst hdc
      exact Function.update_self ..
    · refine (Function.update_of_ne hdc ..).trans (hd.resolve_left fun he => hdc ?_)
      exact (Act.set.inj he).symm
  | go c =>
    rcases h.pc c with hpc | hpc
    · simp [UserLock.step, hpc] at hs
    · -- it reads the address once more
      have hstep := (step_setting hlock hpc).1
      rw [if_neg h.mem, hs, Option.some.injEq] at hstep
      subst hstep
      exact ⟨h, fun d hd => hd.resolve_left (by simp)⟩

/-- The cores in `omp_set_lock` stay there. -/
theorem set_spins (hlock : isInSemSpace lock 0 = false) {as : List (Act n)} (hno : ∀ c, Act.test c ∉ as)
    (h : Untested lock s) (hr : Trans.run (step lock) s as = some s') :
    Untested lock s' ∧ ∀ c, Act.set c ∈ as ∨ s.pc c = .setting → s'.pc c = .setting := by
  induction as generalizing s with
  | nil =>
    cases hr
    exact ⟨h, fun c hset => hset.resolve_left List.not_mem_nil⟩
  | cons a as ih =>
    obtain ⟨u, hu, hr⟩ := Trans.run_cons.1 hr
    obtain ⟨hnext, hpc⟩ := h.step hlock (fun c hc => hno c (hc ▸ List.mem_cons_self)) hu
    obtain ⟨hlast, hspins⟩ := ih (fun c hc => hno c (List.mem_cons_of_mem _ hc)) hnext hr
    refine ⟨hlast, fun c hset => hspins c ?_⟩
    rcases hset with hset | hset
    · rcases List.mem_cons.1 hset with rfl | hset
      · exact Or.inr (hpc c (Or.inl rfl))
      · exact Or.inl hset
    · exact Or.inr (hpc c (Or.inr hset))

/-- **`omp_set_lock` after `omp_init_lock`** does not return as long as no core calls `omp_test_lock`. -/
theorem set_never_returns {mem : Nat → UInt32} {next : UInt32} (hlock : isInSemSpace lock 0 = false)
    (hnext : LockAlloc.SEM_BASE ≤ next) {as : List (Act n)} (hno : ∀ c, Act.test c ∉ as)
    (hr : Trans.run (step lock) (init lock n mem next) as = some s) :
    ∀ c, s.holds c = false ∧ (Act.set c ∈ as → s.pc c = .setting) := by
  have hinit : Untested lock (init lock n mem next) :=
    ⟨(init_refines hnext).fits.1, fun _ => rfl, fun _ => Or.inl rfl⟩
  obtain ⟨hlast, hspins⟩ := set_spins hlock hno hinit hr
  exact fun c => ⟨hlast.holds c, fun hset => hspins c (Or.inl hset)⟩

/-- A lock variable in the TCDM. -/
def aLock : Nat := 0x08000100

def aNext : UInt32 := LockAlloc.initLocks LockAlloc.FIRST_FREE_LOCK_ID

def c0 : Fin 2 := (Fin.last 0).castSucc
def c1 : Fin 2 := Fin.last 1

/-- Core 0 takes the lock with a test, core 1 tests in vain, and spins once core 0 is done. -/
def inTurns : List (Act 2) :=
  [.test c0, .go c0, .test c1, .go c1, .unset c0, .set c1, .go c1, .unset c1]

theorem lock_refines_inTurns :
    ∃ h, Trans.run lockSpec none (Trans.trace (step aLock) (events aLock) (init aLock 2 (fun _ => 0) aNext) inTurns) =
      some h := by
  have hsome : (Trans.run (step aLock) (init aLock 2 (fun _ => 0) aNext) inTurns).isSome = true := by decide +kernel
  have hlocks := (lock_refines (by decide) (by decide) hsome).1 (by decide)
  obtain ⟨s, hrun⟩ := Option.isSome_iff_exists.1 hsome
  have hlast := hlocks inTurns [] s (List.prefix_refl _) (by simp) (by rw [List.append_nil]; exact hrun)
  rw [List.append_nil] at hlast
  obtain ⟨h, hh, -⟩ := hlast.1
  exact ⟨h, hh⟩

/-- After the first `omp_test_lock` has taken the lock, `omp_set_lock` lets a second core in. -/
theorem not_exclusive_test_set :
    ¬ ∀ (as : List (Act 2)) (s : State 2),
      Trans.run (step aLock) (init aLock 2 (fun _ => 0) aNext) as = some s →
      ∀ c d, s.holds c = true → s.holds d = true → c = d := by
  intro h
  have hholds : ((Trans.run (step aLock) (init aLock 2 (fun _ => 0) aNext) [.test 0, .go 0, .set 1, .go 1]).map
      fun s => (s.holds 0, s.holds 1)) = some (true, true) := by
    decide +kernel
  obtain ⟨s, hrun, hs⟩ := Option.map_eq_some_iff.1 hholds
  obtain ⟨h0, h1⟩ := Prod.mk.inj hs
  exact absurd (h _ s hrun 0 1 h0 h1) (by decide)

end Refines

end VirtualSoc.Gomp.UserLock
