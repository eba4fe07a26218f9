import Mathlib.Logic.Function.Basic
import VirtualSoc.Lib.Transition

/-!
# Atomic objects

Clients ask an object for operations and get answers; each operation takes effect at one instant between the
two. A server whose trace of these three events `step` accepts is linearizable: in the order in which they take
effect the operations are a sequential run of the object (`run_effects`), and every client is given the result
of its own operation.

* `withClients`: a server together with clients that follow what it shows.
-/

namespace Atomic

/-- Where a client is with its operation. -/
inductive Client (ι ρ : Type*)
  | idle
  | asked (op : ι)
  | answered (r : ρ)
deriving DecidableEq

inductive Event (κ ι ρ : Type*)
  | ask (k : κ) (op : ι)
  | act (k : κ)
  | answer (k : κ) (r : ρ)
deriving DecidableEq

@[ext]
structure State (κ σ ι ρ : Type*) where
  obj : σ
  client : κ → Client ι ρ

variable {κ σ ι ρ : Type*}

def init (obj : σ) : State κ σ ι ρ := ⟨obj, fun _ => .idle⟩

section Step

variable [DecidableEq κ]

def State.setClient (s : State κ σ ι ρ) (k : κ) (c : Client ι ρ) : State κ σ ι ρ :=
  { s with client := Function.update s.client k c }

@[simp] theorem State.setClient_obj (s : State κ σ ι ρ) (k : κ) (c : Client ι ρ) : (s.setClient k c).obj = s.obj := rfl

@[simp] theorem State.setClient_self (s : State κ σ ι ρ) (k : κ) (c : Client ι ρ) : (s.setClient k c).client k = c :=
  Function.update_self ..

theorem State.setClient_of_ne (s : State κ σ ι ρ) {k l : κ} (c : Client ι ρ) (h : l ≠ k) :
    (s.setClient k c).client l = s.client l :=
  Function.update_of_ne h ..

variable [DecidableEq ρ] (apply : σ → ι → Option (σ × ρ))

def step (s : State κ σ ι ρ) : Event κ ι ρ → Option (State κ σ ι ρ)
  | .ask k op =>
    match s.client k with
    | .idle => some (s.setClient k (.asked op))
    | _ => none
  | .act k =>
    match s.client k with
    | .asked op => (apply s.obj op).map fun x => { s with obj := x.1 }.setClient k (.answered x.2)
    | _ => none
  | .answer k r =>
    match s.client k with
    | .answered r' => if r' = r then some (s.setClient k .idle) else none
    | _ => none

variable {apply} {s t : State κ σ ι ρ} {k : κ} {op : ι} {r : ρ}

theorem step_ask (h : s.client k = .idle) : step apply s (.ask k op) = some (s.setClient k (.asked op)) := by
  simp [step, h]

theorem step_act {x : σ × ρ} (h : s.client k = .asked op) (hx : apply s.obj op = some x) :
    step apply s (.act k) = some ({ s with obj := x.1 }.setClient k (.answered x.2)) := by
  simp [step, h, hx]

theorem step_answer (h : s.client k = .answered r) : step apply s (.answer k r) = some (s.setClient k .idle) := by
  simp [step, h]

/-- What an event says about the clients. -/
theorem step_cases {e : Event κ ι ρ} (h : step apply s e = some t) :
    (∃ k op, e = .ask k op ∧ s.client k = .idle ∧ t = s.setClient k (.asked op)) ∨
    (∃ k op x, e = .act k ∧ s.client k = .asked op ∧ apply s.obj op = some x ∧
      t = { s with obj := x.1 }.setClient k (.answered x.2)) ∨
    (∃ k r, e = .answer k r ∧ s.client k = .answered r ∧ t = s.setClient k .idle) := by
  cases e with
  | ask k op =>
    cases hk : s.client k with
    | idle =>
      rw [step_ask hk] at h
      exact Or.inl ⟨k, op, rfl, hk, (Option.some.inj h).symm⟩
    | asked op' => simp [step, hk] at h
    | answered r => simp [step, hk] at h
  | act k =>
    cases hk : s.client k with
    | idle => simp [step, hk] at h
    | asked op =>
      simp only [step, hk, Option.map_eq_some_iff] at h
      obtain ⟨x, hx, rfl⟩ := h
      exact Or.inr (Or.inl ⟨k, op, x, rfl, hk, hx, rfl⟩)
    | answered r => simp [step, hk] at h
  | answer k r =>
    cases hk : s.client k with
    | idle => simp [step, hk] at h
    | asked op => simp [step, hk] at h
    | answered r' =>
      simp only [step, hk, Option.ite_none_right_eq_some] at h
      obtain ⟨rfl, h⟩ := h
      exact Or.inr (Or.inr ⟨k, r', rfl, hk, (Option.some.inj h).symm⟩)

/-- The operation that takes effect with an event. -/
def effects (s : State κ σ ι ρ) : Event κ ι ρ → List ι
  | .act k =>
    match s.client k with
    | .asked op => [op]
    | _ => []
  | _ => []

/-- The object alone. -/
def sequential (apply : σ → ι → Option (σ × ρ)) (s : σ) (op : ι) : Option σ := (apply s op).map Prod.fst

/-- **The operations one after another**, in the order in which they take effect. -/
theorem run_effects {es : List (Event κ ι ρ)} (h : Trans.run (step apply) s es = some t) :
    Trans.run (sequential apply) s.obj (Trans.trace (step apply) effects s es) = some t.obj := by
  have hsim : ∀ (s : State κ σ ι ρ) e t o, s.obj = o → True → step apply s e = some t →
      ∃ o', Trans.run (sequential apply) o (effects s e) = some o' ∧ t.obj = o' := by
    rintro s e t _ rfl - hs
    obtain ⟨k, op, rfl, -, rfl⟩ | ⟨k, op, x, rfl, hk, hx, rfl⟩ | ⟨k, r, rfl, -, rfl⟩ := step_cases hs
    · exact ⟨s.obj, rfl, rfl⟩
    · exact ⟨x.1, by simp [effects, hk, Trans.run, sequential, hx], rfl⟩
    · exact ⟨s.obj, rfl, rfl⟩
  obtain ⟨o, ho, rfl⟩ := Trans.accepts_of_sim (fun (s : State κ σ ι ρ) o => s.obj = o) hsim rfl (Trans.along_true s es) h
  exact ho

end Step

/-! ## Clients of a server -/

section Clients

variable {τ α ε γ : Type*} (step : τ → α → Option τ) (obs : τ → α → List ε) (follow : γ → ε → Option γ)

/-- A step of the server is one of the whole if the clients can follow what it shows. -/
def withClients (x : τ × γ) (a : α) : Option (τ × γ) :=
  (step x.1 a).bind fun t => (Trans.run follow x.2 (obs x.1 a)).map fun c => (t, c)

variable {step obs follow}

theorem withClients_some {x y : τ × γ} {a : α} :
    withClients step obs follow x a = some y ↔
      step x.1 a = some y.1 ∧ Trans.run follow x.2 (obs x.1 a) = some y.2 := by
  simp only [withClients, Option.bind_eq_some_iff, Option.map_eq_some_iff]
  constructor
  · rintro ⟨t, ht, c, hc, rfl⟩
    exact ⟨ht, hc⟩
  · rintro ⟨ht, hc⟩
    exact ⟨y.1, ht, y.2, hc, rfl⟩

end Clients

end Atomic
