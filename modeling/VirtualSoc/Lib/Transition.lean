import Mathlib.Tactic.Common
import Mathlib.Data.List.Basic

/-!
# Runs of a labelled transition system

A system is a partial step function `step : σ → α → Option σ`: an action that is not
enabled in a state has no successor. A concurrent program becomes such a system by taking
"which process moves next, and with what input" as the action, so a statement about every
list of actions is a statement about every interleaving.

* `run`: a list of actions, one after another; `run_inv` is the induction over runs. A loop over a list whose body
  can fail is one (`foldlM_eq_run`).
* `Along`: a condition on (state before, action) that every step of the run meets;
  `run_inv_along` is the induction for the runs that meet it.
* `trace`: what the steps let an observer see. `accepts_of_sim` is forward simulation by an
  observer automaton: if every step is matched, the automaton accepts every trace.
* `refines_of_sim`: a refinement mapping, where a step of the one system is one of the other or none.
-/

namespace Trans

variable {σ α ε μ : Type*}

section Runs

variable (step : σ → α → Option σ)

/-- The state after the actions, if each of them is enabled in its turn. -/
def run : σ → List α → Option σ
  | s, [] => some s
  | s, a :: as => (step s a).bind fun t => run t as

/-- Every step of the run is taken from a state and with an action that meet `C`. -/
def Along (C : σ → α → Prop) : σ → List α → Prop
  | _, [] => True
  | s, a :: as => C s a ∧ ∀ t, step s a = some t → Along C t as

/-- The system with a history beside the state: each step updates it, and none reads it. -/
def withHistory {γ : Type*} (next : σ → α → γ → γ) (x : σ × γ) (a : α) : Option (σ × γ) :=
  (step x.1 a).map fun t => (t, next x.1 a x.2)

/-- What an observer sees of the run. -/
def trace (obs : σ → α → List ε) : σ → List α → List ε
  | _, [] => []
  | s, a :: as => obs s a ++ ((step s a).map fun t => trace obs t as).getD []

end Runs

variable {step : σ → α → Option σ} {C : σ → α → Prop} {obs : σ → α → List ε}

@[simp] theorem run_nil (s : σ) : run step s [] = some s := rfl

theorem run_cons {s t : σ} {a : α} {as : List α} :
    run step s (a :: as) = some t ↔ ∃ u, step s a = some u ∧ run step u as = some t := by
  simp [run, Option.bind_eq_some_iff]

instance decidableAlong [∀ s a, Decidable (C s a)] : ∀ s as, Decidable (Along step C s as)
  | _, [] => isTrue trivial
  | s, a :: as =>
    match h : step s a with
    | none => decidable_of_iff (C s a) ⟨fun hC => ⟨hC, fun t ht => by simp [h] at ht⟩, And.left⟩
    | some t =>
      have : Decidable (Along step C t as) := decidableAlong t as
      decidable_of_iff (C s a ∧ Along step C t as)
        ⟨fun hC => ⟨hC.1, fun u hu => by rw [h] at hu; cases hu; exact hC.2⟩, fun hC => ⟨hC.1, hC.2 t h⟩⟩

/-- A loop over a list whose body can fail is a run. -/
theorem foldlM_eq_run (s : σ) (as : List α) : as.foldlM step s = run step s as := by
  induction as generalizing s with
  | nil => rfl
  | cons a as ih =>
    rw [List.foldlM_cons]
    exact congrArg _ (funext ih)

theorem run_append {s t : σ} {as bs : List α} :
    run step s (as ++ bs) = some t ↔ ∃ u, run step s as = some u ∧ run step u bs = some t := by
  induction as generalizing s with
  | nil => simp
  | cons a as ih =>
    simp only [List.cons_append, run_cons, ih]
    constructor
    · rintro ⟨u, hu, v, hv, ht⟩; exact ⟨v, ⟨u, hu, hv⟩, ht⟩
    · rintro ⟨v, ⟨u, hu, hv⟩, ht⟩; exact ⟨u, hu, v, hv, ht⟩

theorem along_append {s t : σ} {as bs : List α} (hr : run step s as = some t)
    (h : Along step C s (as ++ bs)) : Along step C s as ∧ Along step C t bs := by
  induction as generalizing s with
  | nil => cases hr; exact ⟨trivial, h⟩
  | cons a as ih =>
    obtain ⟨u, hu, hr⟩ := run_cons.1 hr
    obtain ⟨hC, hrest⟩ := h
    refine ⟨⟨hC, fun v hv => ?_⟩, (ih hr (hrest u hu)).2⟩
    rw [hu] at hv
    cases hv
    exact (ih hr (hrest u hu)).1

/-- **Induction over runs**: what the first state has and every step keeps, the last
state has. -/
theorem run_inv_along (I : σ → Prop) (hstep : ∀ s a t, I s → C s a → step s a = some t → I t)
    {s t : σ} {as : List α} (h0 : I s) (hC : Along step C s as) (hr : run step s as = some t) :
    I t := by
  induction as generalizing s with
  | nil => cases hr; exact h0
  | cons a as ih =>
    obtain ⟨u, hu, hr⟩ := run_cons.1 hr
    exact ih (hstep s a u h0 hC.1 hu) (hC.2 u hu) hr

theorem along_true (s : σ) (as : List α) : Along step (fun _ _ => True) s as := by
  induction as generalizing s with
  | nil => trivial
  | cons a as ih => exact ⟨trivial, fun t _ => ih t⟩

theorem run_inv (I : σ → Prop) (hstep : ∀ s a t, I s → step s a = some t → I t)
    {s t : σ} {as : List α} (h0 : I s) (hr : run step s as = some t) : I t :=
  run_inv_along (C := fun _ _ => True) I (fun s a t h _ => hstep s a t h) h0 (along_true s as) hr

/-- A condition that the invariant of a run makes every step meet. -/
theorem along_of_inv (I : σ → Prop) (hstep : ∀ s a t, I s → step s a = some t → I t)
    (hC : ∀ s a t, I s → step s a = some t → C s a) {s t : σ} {as : List α} (h0 : I s)
    (hr : run step s as = some t) : Along step C s as := by
  induction as generalizing s with
  | nil => trivial
  | cons a as ih =>
    obtain ⟨u, hu, hr⟩ := run_cons.1 hr
    refine ⟨hC s a u h0 hu, fun v hv => ?_⟩
    rw [hu] at hv
    cases hv
    exact ih (hstep s a u h0 hu) hr

theorem Along.mono {D : σ → α → Prop} (hCD : ∀ s a, C s a → D s a) {s : σ} {as : List α}
    (h : Along step C s as) : Along step D s as := by
  induction as generalizing s with
  | nil => trivial
  | cons a as ih => exact ⟨hCD s a h.1, fun t ht => ih (h.2 t ht)⟩

/-- An invariant that the condition keeps up, and what the two together say about each step. -/
theorem Along.of_inv {D : σ → α → Prop} (I : σ → Prop) {s : σ} {as : List α} (h : Along step C s as) (h0 : I s)
    (hstep : ∀ s a t, I s → C s a → step s a = some t → I t) (hD : ∀ s a, I s → C s a → D s a) :
    Along step D s as := by
  induction as generalizing s with
  | nil => trivial
  | cons a as ih => exact ⟨hD s a h0 h.1, fun t ht => ih (h.2 t ht) (hstep s a t h0 h.1 ht)⟩

/-- Two conditions that agree in the states of an invariant that they keep up hold along the same runs. -/
theorem along_congr {D : σ → α → Prop} (I : σ → Prop) (hstep : ∀ s a t, I s → C s a → step s a = some t → I t)
    (hiff : ∀ s a, I s → (C s a ↔ D s a)) {s : σ} {as : List α} (h0 : I s) :
    Along step C s as ↔ Along step D s as := by
  induction as generalizing s with
  | nil => exact Iff.rfl
  | cons a as ih =>
    constructor
    · intro h
      exact ⟨(hiff s a h0).1 h.1, fun t ht => (ih (hstep s a t h0 h.1 ht)).1 (h.2 t ht)⟩
    · intro h
      have hC := (hiff s a h0).2 h.1
      exact ⟨hC, fun t ht => (ih (hstep s a t h0 hC ht)).2 (h.2 t ht)⟩

/-- The same where a third condition keeps up the invariant. -/
theorem Along.congr {D E : σ → α → Prop} (I : σ → Prop) {s : σ} {as : List α} (h : Along step E s as) (h0 : I s)
    (hstep : ∀ s a t, I s → E s a → step s a = some t → I t) (hiff : ∀ s a, I s → E s a → (C s a ↔ D s a)) :
    Along step C s as ↔ Along step D s as := by
  induction as generalizing s with
  | nil => exact Iff.rfl
  | cons a as ih =>
    have hrest : ∀ t, step s a = some t → (Along step C t as ↔ Along step D t as) := fun t ht =>
      ih (h.2 t ht) (hstep s a t h0 h.1 ht)
    exact and_congr (hiff s a h0 h.1) (forall₂_congr hrest)

theorem along_isSome {s t : σ} {as : List α} (hr : run step s as = some t) :
    Along step (fun s a => ∃ t, step s a = some t) s as :=
  along_of_inv (fun _ => True) (fun _ _ _ _ _ => trivial) (fun _ _ t _ ht => ⟨t, ht⟩) trivial hr

theorem Along.and {D : σ → α → Prop} {s : σ} {as : List α} (h : Along step C s as)
    (h' : Along step D s as) : Along step (fun s a => C s a ∧ D s a) s as := by
  induction as generalizing s with
  | nil => trivial
  | cons a as ih => exact ⟨⟨h.1, h'.1⟩, fun t ht => ih (h.2 t ht) (h'.2 t ht)⟩

/-- The same along one run, in whose steps alone the two have to agree. -/
theorem along_congr_of_run {D E : σ → α → Prop} (I : σ → Prop) (hstep : ∀ s a t, I s → E s a → step s a = some t → I t)
    (hiff : ∀ s a t, I s → E s a → step s a = some t → (C s a ↔ D s a)) {s t : σ} {as : List α} (h0 : I s)
    (hE : Along step E s as) (hr : run step s as = some t) : Along step C s as ↔ Along step D s as :=
  (hE.and (along_isSome hr)).congr I h0 (fun s a t hI hEs ht => hstep s a t hI hEs.1 ht)
    fun s a hI ⟨hEs, t, ht⟩ => hiff s a t hI hEs ht

/-- A condition on the actions alone. -/
theorem along_of_forall {P : α → Prop} {as : List α} (h : ∀ a ∈ as, P a) (s : σ) : Along step (fun _ a => P a) s as := by
  induction as generalizing s with
  | nil => trivial
  | cons a as ih =>
    exact ⟨h a List.mem_cons_self, fun t _ => ih (fun b hb => h b (List.mem_cons_of_mem a hb)) t⟩

theorem withHistory_some {γ : Type*} {next : σ → α → γ → γ} {x y : σ × γ} {a : α} :
    withHistory step next x a = some y ↔ step x.1 a = some y.1 ∧ y.2 = next x.1 a x.2 := by
  simp only [withHistory, Option.map_eq_some_iff]
  constructor
  · rintro ⟨t, ht, rfl⟩
    exact ⟨ht, rfl⟩
  · rintro ⟨ht, hg⟩
    exact ⟨y.1, ht, Prod.ext rfl hg.symm⟩

/-- The history does not change the runs. -/
theorem withHistory_run {γ : Type*} {next : σ → α → γ → γ} {x y : σ × γ} {as : List α}
    (hr : run (withHistory step next) x as = some y) : run step x.1 as = some y.1 := by
  induction as generalizing x with
  | nil =>
    cases hr
    rfl
  | cons a as ih =>
    obtain ⟨z, hz, hr⟩ := run_cons.1 hr
    exact run_cons.2 ⟨z.1, (withHistory_some.1 hz).1, ih hr⟩

/-- **A refinement mapping**: if every step from a state of the invariant is a step of the other system or
leaves what it sees, every run is one of the other system. -/
theorem refines_of_sim {τ β : Type*} {step' : τ → β → Option τ} (f : σ → τ) (I : σ → Prop)
    (hstep : ∀ s a t, I s → step s a = some t → I t)
    (hsim : ∀ s a t, I s → step s a = some t → f t = f s ∨ ∃ b, step' (f s) b = some (f t)) {s t : σ} {as : List α}
    (h0 : I s) (hr : run step s as = some t) : ∃ bs, run step' (f s) bs = some (f t) := by
  induction as generalizing s with
  | nil =>
    cases hr
    exact ⟨[], rfl⟩
  | cons a as ih =>
    obtain ⟨u, hu, hr⟩ := run_cons.1 hr
    obtain ⟨bs, hbs⟩ := ih (hstep s a u h0 hu) hr
    rcases hsim s a u h0 hu with heq | ⟨b, hb⟩
    · exact ⟨bs, heq ▸ hbs⟩
    · exact ⟨b :: bs, run_cons.2 ⟨f u, hb, hbs⟩⟩

/-! ## Observers -/

@[simp] theorem trace_nil (s : σ) : trace step obs s [] = [] := rfl

theorem trace_cons {s t : σ} {a : α} (h : step s a = some t) (as : List α) :
    trace step obs s (a :: as) = obs s a ++ trace step obs t as := by
  simp [trace, h]

/-- **Forward simulation** by an observer automaton `mon`: if it can follow what each step
shows and stay related to the state, it accepts the trace of every run. -/
theorem accepts_of_sim {mon : μ → ε → Option μ} (R : σ → μ → Prop)
    (hsim : ∀ s a t u, R s u → C s a → step s a = some t → ∃ v, run mon u (obs s a) = some v ∧ R t v)
    {s t : σ} {u : μ} {as : List α} (h0 : R s u) (hC : Along step C s as)
    (hr : run step s as = some t) :
    ∃ v, run mon u (trace step obs s as) = some v ∧ R t v := by
  induction as generalizing s u with
  | nil => cases hr; exact ⟨u, rfl, h0⟩
  | cons a as ih =>
    obtain ⟨s', hs', hr⟩ := run_cons.1 hr
    obtain ⟨v, hv, hR⟩ := hsim s a s' u h0 hC.1 hs'
    obtain ⟨w, hw, hR'⟩ := ih hR (hC.2 s' hs') hr
    rw [trace_cons hs']
    exact ⟨w, run_append.2 ⟨v, hv, hw⟩, hR'⟩

end Trans
