import Mathlib.Algebra.BigOperators.Group.List.Basic
import Mathlib.Algebra.Order.Floor.Div
import Mathlib.Data.Nat.Log

/-!
# Sums of four

One level of a tree of adders with four inputs: `quads` adds the elements of a list four by four, the last group
is what is left. The sum of the list stays the same, the length is divided by four, rounded up; `clog_four` is the
number of levels down to a single sum.
-/

namespace Quads

section Add

variable {α : Type*} [Add α]

def quads : List α → List α
  | [] => []
  | [a] => [a]
  | [a, b] => [a + b]
  | [a, b, c] => [a + b + c]
  | a :: b :: c :: d :: xs => (a + b + c + d) :: quads xs

theorem length_quads : ∀ xs : List α, (quads xs).length = (xs.length + 3) / 4
  | [] | [_] | [_, _] | [_, _, _] => by simp [quads]
  | _ :: _ :: _ :: _ :: xs => by
    simp only [quads, List.length_cons, length_quads xs]
    omega

/-- A list of whole groups in front. -/
theorem quads_append : ∀ {xs : List α} (n : Nat) (ys : List α), xs.length = 4 * n →
    quads (xs ++ ys) = quads xs ++ quads ys
  | [], _, _, _ => rfl
  | [_], n, _, h | [_, _], n, _, h | [_, _, _], n, _, h => by
    simp only [List.length_cons, List.length_nil] at h
    omega
  | _ :: _ :: _ :: _ :: xs, n, ys, h => by
    simp only [List.length_cons] at h
    simp only [List.cons_append, quads]
    rw [quads_append (n - 1) ys (by omega)]

end Add

theorem sum_quads {α : Type*} [AddCommMonoid α] : ∀ xs : List α, (quads xs).sum = xs.sum
  | [] => rfl
  | [_] | [_, _] | [_, _, _] => by simp [quads, add_assoc]
  | _ :: _ :: _ :: _ :: xs => by simp [quads, sum_quads xs, add_assoc]

/-- Rounding up twice is rounding up once. -/
theorem ceil_div_div (m k : Nat) : ((m + 3) / 4 + 4 ^ k - 1) / 4 ^ k = (m + 4 ^ (k + 1) - 1) / 4 ^ (k + 1) := by
  have hk : 1 ≤ 4 ^ k := Nat.one_le_pow _ _ (by decide)
  rw [Nat.pow_succ', ← Nat.div_div_eq_div_mul]
  congr 1
  omega

/-- A level less for a quarter of the operands. -/
theorem clog_four {m : Nat} (h : 5 ≤ m) : Nat.clog 4 m = Nat.clog 4 ((m + 3) / 4) + 1 := by
  rw [Nat.clog_of_two_le (by decide) (by omega)]
  rfl

end Quads
