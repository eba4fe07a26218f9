import VirtualSoc.Core.Memory
import VirtualSoc.Gomp.Barrier

/-!
# The words of the barrier, for any `DEFAULT_MAXPROC` (libgomp/config/vsoc/bar.h)

The arrival flags begin `DEFAULT_MAXPROC` bytes behind the release counters, which take a word for each processor.
Both are inside the bytes that are reserved, but the flags of the first processors are the counters of later ones:
`flags_separate_iff` says for which pairs. Addresses are naturals.
-/

namespace VirtualSoc.Gomp.Barrier

section Layout

variable (BASE MAXPROC : Nat)

/-- `SLAVE_FLAG(x)` with `BARRIER_BASE` as a parameter. -/
def slaveFlag (x : Nat) : Nat := BASE + x * SIZEOF_INT

/-- `MASTER_FLAG(x)` with `BARRIER_BASE` and `DEFAULT_MAXPROC` as parameters. -/
def masterFlag (x : Nat) : Nat := BASE + MAXPROC + x * SIZEOF_INT

def SIZEOF_WORD : Nat := 4

def MS_BARRIER_SIZE : Nat := MAXPROC * SIZEOF_WORD * 2

theorem slaveFlag_eq (x : Nat) : SLAVE_FLAG x = slaveFlag BARRIER_BASE x := rfl

theorem masterFlag_eq (x : Nat) : MASTER_FLAG x = masterFlag BARRIER_BASE DEFAULT_MAXPROC x := rfl

/-- The byte `k` belongs to the word at `a`. -/
def InWord (a k : Nat) : Prop := a ≤ k ∧ k < a + SIZEOF_INT

/-- The byte `k` is reserved for the barrier. -/
def Reserved (k : Nat) : Prop := BASE ≤ k ∧ k < BASE + MS_BARRIER_SIZE MAXPROC

/-- The flag of `i` and the counter of `j` do not disturb each other. -/
structure Separate (i j : Nat) : Prop where
  disjoint : ∀ k, InWord (masterFlag BASE MAXPROC i) k → ¬ InWord (slaveFlag BASE j) k
  master : ∀ k, InWord (masterFlag BASE MAXPROC i) k → Reserved BASE MAXPROC k
  slave : ∀ k, InWord (slaveFlag BASE j) k → Reserved BASE MAXPROC k
  /-- Neither the arrival nor the reset changes the counter. -/
  frame : ∀ m : MemClass, ∀ v : UInt32, v = 1 ∨ v = 0 →
    (m.store (masterFlag BASE MAXPROC i) 4 v).word (slaveFlag BASE j) = m.word (slaveFlag BASE j)

/-- The counter of `j` begins in the flag of `i`, or the flag in the counter. -/
def Meets (i j : Nat) : Prop := j = i + MAXPROC / 4 ∨ MAXPROC % 4 ≠ 0 ∧ j = i + MAXPROC / 4 + 1

instance (i j : Nat) : Decidable (Meets MAXPROC i j) := inferInstanceAs (Decidable (_ ∨ _))

variable {BASE MAXPROC} {i j : Nat}

theorem not_meets_iff (BASE : Nat) : ¬ Meets MAXPROC i j ↔
    masterFlag BASE MAXPROC i + 4 ≤ slaveFlag BASE j ∨ slaveFlag BASE j + 4 ≤ masterFlag BASE MAXPROC i := by
  unfold Meets masterFlag slaveFlag SIZEOF_INT
  omega

/-- Both are inside in any case. -/
theorem flags_reserved (BASE : Nat) (hi : i < MAXPROC) (hj : j < MAXPROC) :
    (∀ k, InWord (masterFlag BASE MAXPROC i) k → Reserved BASE MAXPROC k) ∧
      ∀ k, InWord (slaveFlag BASE j) k → Reserved BASE MAXPROC k := by
  unfold InWord masterFlag slaveFlag Reserved MS_BARRIER_SIZE SIZEOF_WORD SIZEOF_INT
  exact ⟨fun k hk => by omega, fun k hk => by omega⟩

/-- **The layout**: which flags are apart from which counters. -/
theorem flags_separate_iff (hi : i < MAXPROC) (hj : j < MAXPROC) :
    Separate BASE MAXPROC i j ↔ ¬ Meets MAXPROC i j := by
  constructor
  · intro h hmeets
    -- the byte where the later of the two words begins is in both
    refine h.disjoint (max (masterFlag BASE MAXPROC i) (slaveFlag BASE j)) ?_ ?_
    all_goals
      unfold Meets at hmeets
      unfold InWord masterFlag slaveFlag SIZEOF_INT
      omega
  · intro h
    have hapart := (not_meets_iff BASE).1 h
    obtain ⟨hmaster, hslave⟩ := flags_reserved BASE hi hj
    refine ⟨fun k hk hk' => ?_, hmaster, hslave, fun m v _ => m.word_store_of_disjoint v hapart⟩
    unfold InWord SIZEOF_INT at hk hk'
    omega

/-- There is no `DEFAULT_MAXPROC` with all of them apart. -/
theorem exists_meets (h : 1 ≤ MAXPROC) : ∃ i < MAXPROC, ∃ j < MAXPROC, Meets MAXPROC i j :=
  ⟨0, h, MAXPROC / 4, by omega, Or.inl (Nat.zero_add _).symm⟩

/-- A reset changes a counter it meets, if all its bits are set. -/
theorem store_changes (h : Meets MAXPROC i j) : ∃ m : MemClass,
    (m.store (masterFlag BASE MAXPROC i) 4 0).word (slaveFlag BASE j) ≠ m.word (slaveFlag BASE j) := by
  refine ⟨⟨0, fun _ => 255⟩, fun heq => ?_⟩
  -- the byte of the counter that is also one of the flag
  obtain ⟨k, hk, hin⟩ : ∃ k < 4, masterFlag BASE MAXPROC i ≤ slaveFlag BASE j + k ∧
      slaveFlag BASE j + k < masterFlag BASE MAXPROC i + 4 := by
    refine ⟨masterFlag BASE MAXPROC i - slaveFlag BASE j, ?_, ?_, ?_⟩
    all_goals
      unfold Meets at h
      unfold masterFlag slaveFlag SIZEOF_INT
      omega
  have hbyte := MemClass.bytes_of_word_eq heq hk
  rw [MemClass.bytes_store, if_pos hin] at hbyte
  simp at hbyte

/-- The flag of core 0 and the counter of core 1. -/
theorem flags_separate_iff_first : Separate 0 64 0 1 := (flags_separate_iff (by decide) (by decide)).2 (by decide)

/-- With 64 processors the flag of core 0 is the counter of core 16. -/
theorem not_separate_sixteen : ¬ Separate 0 64 0 16 :=
  fun h => h.disjoint 64 ⟨by decide, by decide⟩ ⟨by decide, by decide⟩

end Layout

end VirtualSoc.Gomp.Barrier
