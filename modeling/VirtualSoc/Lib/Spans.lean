import Mathlib.Order.Basic
import Mathlib.Tactic.Common

/-!
# Spans of addresses

A span is a start and a length. An allocator that moves a pointer on gives out spans `Within` its bounds; those it
gives out later begin at or behind the pointer, and so they are `Apart` from the earlier ones.
-/

structure Span where
  start : Nat
  len : Nat
deriving DecidableEq, Repr

namespace Span

variable {a b c d : Span} {lo hi lo' hi' k : Nat}

def Mem (s : Span) (k : Nat) : Prop := s.start ≤ k ∧ k < s.start + s.len

instance (s : Span) (k : Nat) : Decidable (s.Mem k) := inferInstanceAs (Decidable (_ ∧ _))

def Apart (a b : Span) : Prop := ∀ k, a.Mem k → ¬ b.Mem k

/-- A span that has no address is everywhere. -/
def Within (lo hi : Nat) (s : Span) : Prop := s.len = 0 ∨ lo ≤ s.start ∧ s.start + s.len ≤ hi

theorem Apart.symm (h : Apart a b) : Apart b a := fun k hb ha => h k ha hb

theorem Within.mem (h : Within lo hi a) (hk : a.Mem k) : lo ≤ k ∧ k < hi := by
  unfold Within at h
  unfold Mem at hk
  omega

theorem Within.mono (h : Within lo hi a) (hlo : lo' ≤ lo) (hhi : hi ≤ hi') : Within lo' hi' a := by
  unfold Within at *
  omega

theorem Within.apart (ha : Within lo hi a) (hb : Within lo' hi' b) (h : hi ≤ lo') : Apart a b := by
  intro k hka hkb
  have := ha.mem hka
  have := hb.mem hkb
  omega

/-- A piece of a span that is apart. -/
theorem Within.apart_of (ha : Within b.start (b.start + b.len) a) (h : Apart b c) : Apart a c :=
  fun k hka => h k (ha.mem hka)

theorem Within.apart_of_apart (ha : Within b.start (b.start + b.len) a) (hd : Within c.start (c.start + c.len) d)
    (h : Apart b c) : Apart a d := (hd.apart_of (ha.apart_of h).symm).symm

theorem within_self (s : Span) : Within s.start (s.start + s.len) s := Or.inr ⟨Nat.le_refl _, Nat.le_refl _⟩

end Span
