import Mathlib.Algebra.BigOperators.Fin
import Mathlib.Algebra.BigOperators.Ring.Finset
import Mathlib.Data.List.GetD

/-!
# Convolution with a finite response

`conv c x n` is the sum of `c i * x (n - i)` over the coefficients, for a stream `x` over the integers. `since k x` is
a sequence as a stream that is zero before `k`. A delay of the stream delays the convolution (`conv_delay`).
-/

namespace Convolution

variable {R : Type*} [CommSemiring R]

def conv (c : List R) (x : Int → R) (n : Int) : R := ∑ i ∈ Finset.range c.length, c.getD i 0 * x (n - i)

/-- The sequence `x`, from `k` on. -/
def since (k : Int) (x : Nat → R) (n : Int) : R := if k ≤ n then x n.toNat else 0

theorem since_of_le {k n : Int} {x : Nat → R} (h : k ≤ n) : since k x n = x n.toNat := if_pos h

theorem since_of_lt {k n : Int} {x : Nat → R} (h : n < k) : since k x n = 0 := if_neg (not_le.2 h)

/-- A sequence that begins with a zero, at a natural index. -/
theorem since_zero_sub {x : Nat → R} (h : x 0 = 0) (a e : Nat) : since 0 x (a - e) = x (a - e) := by
  by_cases he : e ≤ a
  · rw [since_of_le (by omega)]
    congr 1
    omega
  · rw [since_of_lt (by omega), Nat.sub_eq_zero_of_le (by omega), h]

theorem since_succ (k n : Int) (x : Nat → R) (hk : 0 ≤ k) :
    since (k + 1) (fun j => x (j - 1)) n = since k x (n - 1) := by
  by_cases hn : k + 1 ≤ n
  · rw [since_of_le hn, since_of_le (by omega)]
    congr 1
    omega
  · rw [since_of_lt (by omega), since_of_lt (by omega)]

theorem conv_delay (c : List R) (x : Int → R) (d n : Int) : conv c (fun m => x (m - d)) n = conv c x (n - d) := by
  unfold conv
  refine Finset.sum_congr rfl fun i _ => ?_
  simp only [show n - i - d = n - d - i by omega]

/-- The sum as it is accumulated, from the first coefficient on. -/
theorem conv_eq_list_sum (c : List R) (x : Int → R) (n : Int) :
    conv c x n = ((List.range c.length).map fun i => c.getD i 0 * x (n - i)).sum := rfl

/-- Before the stream begins there is nothing. -/
theorem conv_since_of_lt {c : List R} {k n : Int} {x : Nat → R} (h : n < k) : conv c (since k x) n = 0 := by
  refine Finset.sum_eq_zero fun i _ => ?_
  rw [since_of_lt (by omega), mul_zero]

/-- The response that is the stream itself. -/
theorem conv_unit (k : Nat) (x : Int → R) (n : Int) : conv (1 :: List.replicate k 0) x n = x n := by
  unfold conv
  rw [List.length_cons, Finset.sum_range_succ', Finset.sum_eq_zero]
  · simp
  · intro i hi
    have hi' : i < k := by simpa using hi
    rw [List.getD_cons_succ, List.getD_replicate (h := hi'), zero_mul]

end Convolution
