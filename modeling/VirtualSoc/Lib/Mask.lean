import Mathlib.Tactic.Common
import Mathlib.Data.Finset.Card
import Mathlib.Data.Finset.Range
import Mathlib.Data.Nat.Bitwise

/-!
# Bit masks as finite sets

`bits x` is the set of the positions that are set in `x`, and `popcount x` their number. The bit
operations are set operations (`bits_or`, `bits_and`, `bits_diff`), and a mask is determined by its
set (`bits_inj`).
-/

namespace Mask

variable {w : Nat}

def bits (x : BitVec w) : Finset Nat := (Finset.range w).filter fun i => x.getLsbD i

def popcount (x : BitVec w) : Nat := (bits x).card

/-- The mask of one position. -/
def bit (w i : Nat) : BitVec w := 1#w <<< i

variable {x y : BitVec w} {i j : Nat}

@[simp] theorem mem_bits : i ∈ bits x ↔ x.getLsbD i = true := by
  simp only [bits, Finset.mem_filter, Finset.mem_range, and_iff_right_iff_imp]
  exact fun h => BitVec.lt_of_getLsbD h

theorem bits_inj (h : bits x = bits y) : x = y := by
  refine BitVec.eq_of_getLsbD_eq fun i _ => ?_
  have := congrArg (i ∈ ·) h
  simp only [mem_bits, eq_iff_iff] at this
  exact Bool.eq_iff_iff.2 this

@[simp] theorem bits_zero : bits (0#w) = ∅ := by
  ext i
  simp

theorem bits_or : bits (x ||| y) = bits x ∪ bits y := by
  ext i
  simp

theorem bits_and : bits (x &&& y) = bits x ∩ bits y := by
  ext i
  simp

theorem bits_diff : bits (x &&& ~~~y) = bits x \ bits y := by
  ext i
  simp only [mem_bits, BitVec.getLsbD_and, BitVec.getLsbD_not, Finset.mem_sdiff, Bool.and_eq_true,
    Bool.not_eq_eq_eq_not, Bool.not_true, decide_eq_true_eq]
  constructor
  · rintro ⟨hx, -, hy⟩
    exact ⟨hx, by simp [hy]⟩
  · rintro ⟨hx, hy⟩
    exact ⟨hx, BitVec.lt_of_getLsbD hx, by simpa using hy⟩

theorem bits_bit (h : i < w) : bits (bit w i) = {i} := by
  ext j
  simp only [mem_bits, bit, BitVec.getLsbD_shiftLeft, BitVec.getLsbD_one, Finset.mem_singleton,
    Bool.and_eq_true, decide_eq_true_eq, Bool.not_eq_eq_eq_not, Bool.not_true, decide_eq_false_iff_not]
  omega

theorem bit_succ (w i : Nat) : bit w i <<< 1 = bit w (i + 1) := by
  unfold bit
  rw [← BitVec.shiftLeft_add]

/-- `x & mask` is zero if and only if the position of the mask is not set. -/
theorem and_bit_eq_zero (h : i < w) : x &&& bit w i = 0 ↔ i ∉ bits x := by
  constructor
  · intro hz hi
    have : i ∈ bits (x &&& bit w i) := by
      rw [bits_and, bits_bit h]
      simpa using hi
    rw [hz] at this
    simp at this
  · intro hi
    refine bits_inj ?_
    rw [bits_and, bits_bit h]
    ext j
    simp only [Finset.mem_inter, Finset.mem_singleton, mem_bits]
    constructor
    · rintro ⟨hj, rfl⟩
      exact absurd (mem_bits.2 hj) hi
    · intro hj
      simp at hj

/-! ## Fields of a number -/

/-- A mask of `w` ones from bit `k` on keeps that field in its place. -/
theorem and_field (a k w : Nat) : a &&& (2 ^ w - 1) * 2 ^ k = a / 2 ^ k % 2 ^ w * 2 ^ k := by
  refine Nat.eq_of_testBit_eq fun i => ?_
  rw [Nat.testBit_and, Nat.mul_comm (2 ^ w - 1), Nat.mul_comm (a / 2 ^ k % 2 ^ w),
    Nat.testBit_two_pow_mul, Nat.testBit_two_pow_mul]
  by_cases hi : k ≤ i
  · simp [hi, Nat.testBit_two_pow_sub_one, Nat.testBit_mod_two_pow, Nat.testBit_div_two_pow,
      Bool.and_comm, Nat.sub_add_cancel hi]
  · simp [hi]

end Mask
