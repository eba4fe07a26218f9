import VirtualSoc.Core.Bus

/-!
# The addresses of the locks (libgomp/config/vsoc/lock.c, work.c, team.c)

The locks are words of the semaphore memory, and `*next_lock` says how far they are handed out.
`gomp_hal_init_lock` hands out the word it points to and then moves on; `gomp_new_work_share` and
`gomp_team_start` move on first and hand out the word arrived at and the one behind it. So after
them `*next_lock` is the address of a lock in use, and `gomp_hal_init_lock` hands it out again
(`handed_distinct_iff`).
-/

namespace VirtualSoc.Gomp.LockAlloc

def SEM_BASE : UInt32 := UInt32.ofNat CL_SEM_BASE
def SEM_SIZE : UInt32 := UInt32.ofNat CL_SEM_SIZE
def SIZEOF_INT : UInt32 := 4

/-- `gomp_hal_init_locks` (lock.c:30): `*next_lock`. -/
def initLocks (offset : UInt32) : UInt32 := SEM_BASE + SIZEOF_INT * (2 + offset)

/-- `HAL_FIRST_FREE_LOCK_ID` (hal.h:16). -/
def FIRST_FREE_LOCK_ID : UInt32 := 3

/-- The reserved locks 0 to 2. -/
def reserved : List UInt32 := [SEM_BASE, SEM_BASE + SIZEOF_INT, SEM_BASE + SIZEOF_INT * 2]

/-- `gomp_hal_init_lock` (lock.c:44): `*next_lock` afterwards, and the lock. -/
def initLock (next : UInt32) : UInt32 × UInt32 := (next + SIZEOF_INT, next)

/-- The lock words of `gomp_work_share_t`. -/
structure WorkShareLocks where
  lock : UInt32
  enter_lock : UInt32
  exit_lock : UInt32
deriving DecidableEq, Repr

/-- `gomp_new_work_share` (work.c:7): "only two: exit_lock == enter_lock". -/
def newWorkShare (next : UInt32) : UInt32 × WorkShareLocks :=
  let lock := next + SIZEOF_INT * 2
  (lock, { lock := lock, enter_lock := lock + SIZEOF_INT, exit_lock := lock + SIZEOF_INT })

/-- The lock words of `gomp_team_t`, with those of its work share. -/
structure TeamLocks where
  critical_lock : UInt32
  atomic_lock : UInt32
  work_share : WorkShareLocks
deriving DecidableEq, Repr

/-- The lock set-up of `gomp_team_start` (team.c:163). -/
def teamStart (next : UInt32) : UInt32 × TeamLocks :=
  let critical := next + SIZEOF_INT * 2
  let (next, ws) := newWorkShare critical
  (next, { critical_lock := critical, atomic_lock := critical + SIZEOF_INT, work_share := ws })

/-! ## Sequences of allocations -/

inductive Op
  | initLock
  | newWorkShare
  | teamStart
deriving DecidableEq, Repr

/-- The locks of a work share, its enter and exit lock once. -/
def WorkShareLocks.addresses (ws : WorkShareLocks) : List UInt32 := [ws.lock, ws.enter_lock]

def TeamLocks.addresses (t : TeamLocks) : List UInt32 :=
  t.critical_lock :: t.atomic_lock :: t.work_share.addresses

/-- `*next_lock` after an allocation. -/
def Op.next : Op → UInt32 → UInt32
  | .initLock, n => (LockAlloc.initLock n).1
  | .newWorkShare, n => (LockAlloc.newWorkShare n).1
  | .teamStart, n => (LockAlloc.teamStart n).1

/-- The addresses that it hands out. -/
def Op.locks : Op → UInt32 → List UInt32
  | .initLock, n => [(LockAlloc.initLock n).2]
  | .newWorkShare, n => (LockAlloc.newWorkShare n).2.addresses
  | .teamStart, n => (LockAlloc.teamStart n).2.addresses

/-- All addresses handed out, in order. -/
def handed : UInt32 → List Op → List UInt32
  | _, [] => []
  | n, op :: ops => op.locks n ++ handed (op.next n) ops

/-- Everything handed out is a word of the semaphore memory. -/
def Inside (as : List UInt32) : Prop := ∀ a ∈ as, SEM_BASE ≤ a ∧ a < SEM_BASE + SEM_SIZE

instance (as : List UInt32) : Decidable (Inside as) := List.decidableBAll _ as

/-- `b` may come after `a`: no `gomp_hal_init_lock` after one of the others. -/
def MayFollow (a b : Op) : Prop := a ≠ .initLock → b ≠ .initLock

instance (a b : Op) : Decidable (MayFollow a b) := inferInstanceAs (Decidable (_ → _))

/-! ## Distinct addresses -/

section Distinct

variable {n : UInt32} {ops : List Op}

theorem add_toNat (hn : n.toNat < 2 ^ 31) {k : UInt32} (hk : k.toNat ≤ 32) : (n + k).toNat = n.toNat + k.toNat := by
  rw [UInt32.toNat_add]
  omega

/-- **One allocation** hands out rising addresses: `*next_lock` itself, which is then left behind, or
words past it, of which `*next_lock` is then the last but one. -/
theorem Op.locks_spec (op : Op) (hn : n.toNat < 2 ^ 31) :
    (op.locks n).Pairwise (· < ·) ∧
    ((op = .initLock ∧ op.locks n = [n] ∧ (op.next n).toNat = n.toNat + 4) ∨
     (op ≠ .initLock ∧ op.next n ∈ op.locks n ∧ n.toNat + 8 ≤ (op.next n).toNat ∧
      ∀ a ∈ op.locks n, n.toNat + 8 ≤ a.toNat ∧ a.toNat ≤ (op.next n).toNat + 4)) := by
  have h4 : (n + 4).toNat = n.toNat + 4 := add_toNat hn (by decide)
  have h8 : (n + 8).toNat = n.toNat + 8 := add_toNat hn (by decide)
  have h12 : (n + 8 + 4).toNat = n.toNat + 12 := by rw [UInt32.add_assoc]; exact add_toNat hn (by decide)
  have h16 : (n + 8 + 8).toNat = n.toNat + 16 := by rw [UInt32.add_assoc]; exact add_toNat hn (by decide)
  have h20 : (n + 8 + 8 + 4).toNat = n.toNat + 20 := by
    rw [UInt32.add_assoc, UInt32.add_assoc]
    exact add_toNat hn (by decide)
  cases op with
  | initLock => exact ⟨List.pairwise_singleton _ _, Or.inl ⟨rfl, rfl, h4⟩⟩
  | newWorkShare =>
    have hlocks : Op.newWorkShare.locks n = [n + 8, n + 8 + 4] := rfl
    have hnext : Op.newWorkShare.next n = n + 8 := rfl
    rw [hlocks, hnext]
    refine ⟨by simp [UInt32.lt_iff_toNat_lt]; omega, Or.inr ⟨by decide, by simp, by omega, ?_⟩⟩
    simp only [List.forall_mem_cons]
    exact ⟨by omega, by omega, by simp⟩
  | teamStart =>
    have hlocks : Op.teamStart.locks n = [n + 8, n + 8 + 4, n + 8 + 8, n + 8 + 8 + 4] := rfl
    have hnext : Op.teamStart.next n = n + 8 + 8 := rfl
    rw [hlocks, hnext]
    refine ⟨by simp [UInt32.lt_iff_toNat_lt]; omega, Or.inr ⟨by decide, by simp, by omega, ?_⟩⟩
    simp only [List.forall_mem_cons]
    exact ⟨by omega, by omega, by omega, by omega, by simp⟩

theorem Inside.lt {as : List UInt32} (h : Inside as) {a : UInt32} (ha : a ∈ as) :
    CL_SEM_BASE ≤ a.toNat ∧ a.toNat < CL_SEM_BASE + CL_SEM_SIZE := by
  have := h a ha
  rw [UInt32.le_iff_toNat_le, UInt32.lt_iff_toNat_lt] at this
  exact this

/-- Inside the semaphore memory `*next_lock` does not wrap. -/
theorem next_lt {op : Op} (hn : n.toNat < 2 ^ 31) (hin : Inside (op.locks n)) : (op.next n).toNat < 2 ^ 31 := by
  rcases (op.locks_spec hn).2 with ⟨-, hlocks, hnext⟩ | ⟨-, hmem, -, -⟩
  · have := (hin.lt (a := n) (by rw [hlocks]; exact List.mem_singleton_self n)).2
    unfold CL_SEM_BASE CL_SEM_SIZE at this
    omega
  · have := (hin.lt hmem).2
    unfold CL_SEM_BASE CL_SEM_SIZE at this
    omega

theorem inside_append {as bs : List UInt32} (h : Inside (as ++ bs)) : Inside as ∧ Inside bs :=
  ⟨fun a ha => h a (List.mem_append_left bs ha), fun a ha => h a (List.mem_append_right as ha)⟩

/-- Work shares and teams alone. -/
theorem handed_sorted_of_noInit (hn : n.toNat < 2 ^ 31) (hops : ∀ op ∈ ops, op ≠ .initLock)
    (hin : Inside (handed n ops)) :
    (handed n ops).Pairwise (· < ·) ∧ ∀ a ∈ handed n ops, n.toNat + 8 ≤ a.toNat := by
  induction ops generalizing n with
  | nil => simp [handed]
  | cons op ops ih =>
    obtain ⟨hin1, hin2⟩ := inside_append hin
    obtain ⟨hsorted, hrest⟩ := ih (next_lt hn hin1) (fun o ho => hops o (List.mem_cons_of_mem op ho)) hin2
    obtain ⟨hlocks, hcases⟩ := op.locks_spec hn
    obtain ⟨-, -, hle, hbound⟩ := hcases.resolve_left fun h => hops op (List.mem_cons_self ..) h.1
    refine ⟨List.pairwise_append.2 ⟨hlocks, hsorted, fun a ha b hb => ?_⟩, fun a ha => ?_⟩
    · have := (hbound a ha).2
      have := hrest b hb
      rw [UInt32.lt_iff_toNat_lt]
      omega
    · rcases List.mem_append.1 ha with ha | ha
      · exact (hbound a ha).1
      · have := hrest a ha
        omega

/-- First the locks of `gomp_hal_init_lock`, then those of work shares and teams. -/
theorem handed_sorted (hn : n.toNat < 2 ^ 31) (hops : ops.Pairwise MayFollow) (hin : Inside (handed n ops)) :
    (handed n ops).Pairwise (· < ·) ∧ ∀ a ∈ handed n ops, n.toNat ≤ a.toNat := by
  induction ops generalizing n with
  | nil => simp [handed]
  | cons op ops ih =>
    obtain ⟨hfollow, hops⟩ := List.pairwise_cons.1 hops
    obtain ⟨hin1, hin2⟩ := inside_append hin
    rcases (op.locks_spec hn).2 with ⟨-, hlocks, hnext⟩ | ⟨hop, -, -, -⟩
    · obtain ⟨hsorted, hrest⟩ := ih (next_lt hn hin1) hops hin2
      rw [handed, hlocks, List.singleton_append]
      refine ⟨List.pairwise_cons.2 ⟨fun b hb => ?_, hsorted⟩, fun a ha => ?_⟩
      · have := hrest b hb
        rw [UInt32.lt_iff_toNat_lt]
        omega
      · rcases List.mem_cons.1 ha with rfl | ha
        · exact Nat.le_refl _
        · have := hrest a ha
          omega
    · have hnoInit : ∀ o ∈ op :: ops, o ≠ .initLock := by
        intro o ho
        rcases List.mem_cons.1 ho with rfl | ho
        · exact hop
        · exact hfollow o ho hop
      obtain ⟨hsorted, hrest⟩ := handed_sorted_of_noInit hn hnoInit hin
      exact ⟨hsorted, fun a ha => by have := hrest a ha; omega⟩

/-- A `gomp_hal_init_lock` right after a work share or a team hands out a lock in use. -/
theorem mayFollow_of_nodup (h : (handed n ops).Nodup) : ops.Pairwise MayFollow := by
  induction ops generalizing n with
  | nil => exact List.Pairwise.nil
  | cons op ops ih =>
    obtain ⟨-, hrest, hdisj⟩ := List.nodup_append.1 h
    have ih := ih hrest
    refine List.pairwise_cons.2 ⟨fun o ho hop => ?_, ih⟩
    cases ops with
    | nil => cases ho
    | cons p ops =>
      have hp : p ≠ .initLock := by
        rintro rfl
        have hmem : op.next n ∈ op.locks n := by
          cases op with
          | initLock => exact absurd rfl hop
          | newWorkShare => simp [Op.next, Op.locks, newWorkShare, WorkShareLocks.addresses]
          | teamStart =>
            simp [Op.next, Op.locks, teamStart, newWorkShare, TeamLocks.addresses, WorkShareLocks.addresses]
        exact hdisj _ hmem _ (by simp [handed, Op.locks, initLock]) rfl
      rcases List.mem_cons.1 ho with rfl | ho
      · exact hp
      · exact (List.pairwise_cons.1 ih).1 o ho hp

/-- **Lock addresses**: inside the semaphore memory all are distinct, and none is reserved, if and
only if every `gomp_hal_init_lock` comes before the first work share and the first team. -/
theorem handed_distinct_iff (ops : List Op) (hin : Inside (handed (initLocks FIRST_FREE_LOCK_ID) ops)) :
    ((handed (initLocks FIRST_FREE_LOCK_ID) ops).Nodup ∧
      ∀ a ∈ handed (initLocks FIRST_FREE_LOCK_ID) ops, a ∉ reserved) ↔ ops.Pairwise MayFollow := by
  constructor
  · rintro ⟨hnodup, -⟩
    exact mayFollow_of_nodup hnodup
  · intro hops
    obtain ⟨hsorted, hrest⟩ := handed_sorted (by decide) hops hin
    refine ⟨hsorted.imp fun h => UInt32.ne_of_lt h, fun a ha hres => ?_⟩
    have h20 := hrest a ha
    have hlt : ∀ r ∈ reserved, r.toNat < (initLocks FIRST_FREE_LOCK_ID).toNat := by
      intro r hr
      simp only [reserved, List.mem_cons, List.not_mem_nil, or_false] at hr
      rcases hr with rfl | rfl | rfl <;> decide
    have := hlt a hres
    omega

/-- The global lock and a user lock, a team, a work share. -/
theorem handed_distinct_initFirst :
    (handed (initLocks FIRST_FREE_LOCK_ID) [.initLock, .initLock, .teamStart, .newWorkShare]).Nodup ∧
    ∀ a ∈ handed (initLocks FIRST_FREE_LOCK_ID) [.initLock, .initLock, .teamStart, .newWorkShare], a ∉ reserved :=
  (handed_distinct_iff [.initLock, .initLock, .teamStart, .newWorkShare] (by decide)).2 (by decide)

/-- `omp_init_lock` in a parallel region hands out the lock of the region's work share. -/
theorem not_handed_distinct :
    ¬ ∀ ops, Inside (handed (initLocks FIRST_FREE_LOCK_ID) ops) →
      (handed (initLocks FIRST_FREE_LOCK_ID) ops).Nodup ∧
        ∀ a ∈ handed (initLocks FIRST_FREE_LOCK_ID) ops, a ∉ reserved := by
  intro h
  have h := (h [.initLock, .teamStart, .initLock] (by decide)).1
  revert h
  decide

end Distinct

end VirtualSoc.Gomp.LockAlloc
