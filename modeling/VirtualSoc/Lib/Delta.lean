import Mathlib.Tactic.Common
import Mathlib.Logic.Function.Basic

/-!
# The update phase of a delta cycle

Processes that run in one delta cycle read the signals as they were and leave behind a list of writes;
after all of them the writes are committed in the order in which they were made, so the last write of a
signal wins. `commit_append_of_mem` and `commit_append_of_not_mem` say what a process that runs later
hides of one that runs earlier.
-/

namespace Delta

variable {κ ν : Type*} [DecidableEq κ] {f g : κ → ν} {ws us : List (κ × ν)} {k : κ} {v : ν}

/-- The signals after the writes. -/
def commit (f : κ → ν) (ws : List (κ × ν)) : κ → ν := ws.foldl (fun g w => Function.update g w.1 w.2) f

@[simp] theorem commit_nil : commit f ([] : List (κ × ν)) = f := rfl

theorem commit_cons {w : κ × ν} : commit f (w :: ws) = commit (Function.update f w.1 w.2) ws := rfl

theorem commit_append : commit f (ws ++ us) = commit (commit f ws) us := List.foldl_append

/-- A signal that nobody writes keeps its value. -/
theorem commit_of_not_mem (h : ∀ v, (k, v) ∉ ws) : commit f ws k = f k := by
  induction ws generalizing f with
  | nil => rfl
  | cons w ws ih =>
    have hk : k ≠ w.1 := by
      rintro rfl
      exact h w.2 List.mem_cons_self
    rw [commit_cons, ih fun v hv => h v (List.mem_cons_of_mem w hv), Function.update_of_ne hk]

/-- A signal that is written gets one of the values written to it. -/
theorem commit_mem (h : (k, v) ∈ ws) : (k, commit f ws k) ∈ ws := by
  induction ws generalizing f v with
  | nil => cases h
  | cons w ws ih =>
    rw [commit_cons]
    by_cases hmem : ∃ u, (k, u) ∈ ws
    · obtain ⟨u, hu⟩ := hmem
      exact List.mem_cons_of_mem w (ih hu)
    · -- this is its only write
      have hno : ∀ u, (k, u) ∉ ws := fun u hu => hmem ⟨u, hu⟩
      obtain rfl : (k, v) = w := (List.mem_cons.1 h).resolve_right (hno v)
      rw [commit_of_not_mem hno, Function.update_self]
      exact List.mem_cons_self

/-- Where a signal is written, its old value does not matter. -/
theorem commit_congr (h : (k, v) ∈ ws) : commit f ws k = commit g ws k := by
  induction ws generalizing f g v with
  | nil => cases h
  | cons w ws ih =>
    rw [commit_cons, commit_cons]
    by_cases hmem : ∃ u, (k, u) ∈ ws
    · obtain ⟨u, hu⟩ := hmem
      exact ih hu
    · have hno : ∀ u, (k, u) ∉ ws := fun u hu => hmem ⟨u, hu⟩
      obtain rfl : (k, v) = w := (List.mem_cons.1 h).resolve_right (hno v)
      rw [commit_of_not_mem hno, commit_of_not_mem hno, Function.update_self, Function.update_self]

/-- The later writer of a signal hides the earlier ones. -/
theorem commit_append_of_mem (h : (k, v) ∈ us) : commit f (ws ++ us) k = commit f us k := by
  rw [commit_append]
  exact commit_congr h

theorem commit_append_of_not_mem (h : ∀ v, (k, v) ∉ us) : commit f (ws ++ us) k = commit f ws k := by
  rw [commit_append, commit_of_not_mem h]

/-- In a loop the last index that writes the signal decides. -/
theorem commit_flatMap {ι : Type*} (writes : ι → List (κ × ν)) (is : List ι) {js : List ι} {i : ι}
    (hi : (k, v) ∈ writes i) (hlast : ∀ j ∈ js, ∀ v, (k, v) ∉ writes j) :
    (k, commit f ((is ++ i :: js).flatMap writes) k) ∈ writes i := by
  have hafter : ∀ v, (k, v) ∉ js.flatMap writes := by
    intro v hv
    obtain ⟨j, hj, hv⟩ := List.mem_flatMap.1 hv
    exact hlast j hj v hv
  rw [List.flatMap_append, List.flatMap_cons, ← List.append_assoc, commit_append_of_not_mem hafter,
    commit_append_of_mem hi]
  exact commit_mem hi

/-! ## What a list of writes leaves in a signal -/

/-- The writes leave the signal as it was, or with a value of the kind `Q`. -/
def Settles (Q : ν → Prop) (k : κ) (ws : List (κ × ν)) : Prop := ∀ f, commit f ws k = f k ∨ Q (commit f ws k)

variable {Q : ν → Prop}

theorem Settles.of_not_mem (h : ∀ v, (k, v) ∉ ws) : Settles Q k ws := fun _ => .inl (commit_of_not_mem h)

theorem Settles.append (h : Settles Q k ws) (h' : Settles Q k us) : Settles Q k (ws ++ us) := by
  intro f
  rw [commit_append]
  rcases h' (commit f ws) with heq | hQ
  · rw [heq]
    exact h f
  · exact .inr hQ

/-- The last write of the signal has the value. -/
theorem Settles.of_last (h : Q v) (hlast : ∀ u, (k, u) ∉ us) : Settles Q k (ws ++ (k, v) :: us) := by
  intro f
  rw [commit_append, commit_cons, commit_of_not_mem hlast, Function.update_self]
  exact .inr h

theorem Settles.flatMap {ι : Type*} {is : List ι} {writes : ι → List (κ × ν)}
    (h : ∀ i ∈ is, Settles Q k (writes i)) : Settles Q k (is.flatMap writes) := by
  induction is with
  | nil => exact Settles.of_not_mem fun v => List.not_mem_nil
  | cons i is ih =>
    rw [List.flatMap_cons]
    exact (h i List.mem_cons_self).append (ih fun j hj => h j (List.mem_cons_of_mem i hj))

end Delta
