import Mathlib.Data.List.Basic
import Mathlib.Tactic.Common

/-!
# Arrays as lists

`xs.write i v` is a store to an array: there is none outside of it. `write_behind` is a store right behind a prefix,
`write_loop` and `write_fill` loops that fill the cells one after the other, and `write_map_range` a store to an
array that is given by its index function.
-/

namespace List

variable {α : Type*}

def write (xs : List α) (i : Nat) (v : α) : Option (List α) := if i < xs.length then some (xs.set i v) else none

theorem write_of_lt {xs : List α} {i : Nat} (h : i < xs.length) (v : α) : xs.write i v = some (xs.set i v) := if_pos h

theorem write_of_le {xs : List α} {i : Nat} (h : xs.length ≤ i) (v : α) : xs.write i v = none :=
  if_neg (Nat.not_lt.2 h)

section Behind

variable {P Q : List α} {n : Nat}

/-- The elements behind `P`. -/
theorem getElem?_behind (h : P.length = n) (i : Nat) : (P ++ Q)[n + i]? = Q[i]? := by
  subst h
  rw [List.getElem?_append_right (Nat.le_add_right _ _), Nat.add_sub_cancel_left]

theorem write_behind (h : P.length = n) (v : α) (hn : n < P.length + Q.length) :
    (P ++ Q).write n v = some (P ++ v :: Q.tail) := by
  subst h
  rw [write_of_lt (by rw [List.length_append]; exact hn)]
  cases Q with
  | nil => simp at hn
  | cons x xs => simp

end Behind

/-- A loop that writes the cells from `a` on. -/
theorem write_loop {r : List α} {a n : Nat} {f : Nat → Option α} {g : Nat → α} (hf : ∀ i < n, f i = some (g i))
    (hn : a + n ≤ r.length) :
    (List.range n).foldlM (fun (r : List α) i => do r.write (a + i) (← f i)) r =
      some (r.take a ++ (List.range n).map g ++ r.drop (a + n)) := by
  induction n with
  | zero => simp
  | succ n ih =>
    have htake : (r.take a).length = a := by
      rw [List.length_take]
      omega
    have hbefore : (r.take a ++ (List.range n).map g).length = a + n := by
      rw [List.length_append, htake, List.length_map, List.length_range]
    rw [List.range_succ, List.foldlM_append, ih (fun i hi => hf i (by omega)) (by omega)]
    simp only [Option.bind_eq_bind, Option.bind_some, List.foldlM_cons, List.foldlM_nil, hf n (Nat.lt_succ_self n)]
    rw [write_behind hbefore _ (by rw [hbefore, List.length_drop]; omega), List.tail_drop]
    simp [Nat.add_assoc]

/-- A loop that fills the whole array. -/
theorem write_fill {r : List α} {n : Nat} {f : Nat → Option α} {g : Nat → α} (hf : ∀ i < n, f i = some (g i))
    (hn : r.length = n) :
    (List.range n).foldlM (fun (r : List α) i => do r.write i (← f i)) r = some ((List.range n).map g) := by
  have hloop := write_loop (r := r) (a := 0) hf (by omega)
  simp only [Nat.zero_add] at hloop
  rw [hloop, List.take_zero, List.nil_append, List.drop_of_length_le (Nat.le_of_eq hn), List.append_nil]

section MapRange

variable {n i : Nat} {f : Nat → α}

theorem getElem?_map_range (h : i < n) : ((List.range n).map f)[i]? = some (f i) := by
  rw [List.getElem?_map, List.getElem?_range h]
  rfl

theorem write_map_range (h : i < n) (v : α) :
    ((List.range n).map f).write i v = some ((List.range n).map (Function.update f i v)) := by
  rw [write_of_lt (by rwa [List.length_map, List.length_range])]
  congr 1
  refine List.ext_getElem? fun k => ?_
  rw [List.getElem?_set, List.getElem?_map, List.getElem?_map, List.length_map, List.length_range]
  by_cases hk : i = k
  · subst hk
    simp [h]
  · by_cases hn : k < n
    · simp [hk, List.getElem?_range hn, Function.update_of_ne (Ne.symm hk)]
    · simp [hk, List.getElem?_eq_none (show (List.range n).length ≤ k by simpa using hn)]

end MapRange

end List
