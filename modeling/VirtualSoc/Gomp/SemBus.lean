import Mathlib.Tactic.Common
import VirtualSoc.Cluster.SemaphoreAtomic
import VirtualSoc.Gomp.SemLock

/-!
# Locks over the bus (libgomp/config/vsoc/lock.c, cluster/cl_pic.cpp, cluster/cl_semaphore.cpp)

`gomp_hal_lock` and `gomp_hal_unlock` as the cores run them: each `*id` of the loop is a read request to the
interconnect, which the core waits for, and the store of 0 is a write request. A core holds a lock from the end of its
`gomp_hal_lock` to the call of its `gomp_hal_unlock`, and the semaphores serve no other access.

The semaphores are atomic, so the cores are clients of one memory (`Atomic.withClients`), and with every access that
takes effect in it the locks of `SemLock` go on (`event_sim`). A lock is taken in the memory before its core knows, and
given back after the core has let it go: between the two the core holds it in `abs` only.

* `bus_lock`: over the whole system, a lock has one holder at most.
-/

namespace VirtualSoc.Gomp.SemBus

open SemLock (lockWord)

/-! ## The cores -/

/-- Outside of both calls, about to read, and waiting for a read or for the store. -/
inductive Pc
  | user
  | spin (id : UInt32)
  | reading (id : UInt32)
  | writing (id : UInt32)
deriving DecidableEq, Repr

structure Cores (n : Nat) where
  pc : Fin n → Pc
  holds : Fin n → Nat → Bool

variable {n m : Nat}

def Cores.start (n : Nat) : Cores n := ⟨fun _ => .user, fun _ _ => false⟩

def Cores.goto (s : Cores n) (c : Fin n) (p : Pc) : Cores n := { s with pc := Function.update s.pc c p }

def Cores.hold (s : Cores n) (c : Fin n) (w : Nat) (b : Bool) : Cores n :=
  { s with holds := Function.update s.holds c (Function.update (s.holds c) w b) }

/-- What a core does with what it sees of the semaphores: the next round of `while (*id);` or its end (lock.c:22), and
`*id = 0` (lock.c:27) by a core that holds the lock. -/
def follow (s : Cores n) : Semaphore.Event n → Option (Cores n)
  | .ask c (.read address) =>
    match s.pc c with
    | .spin id => if address = id.toNat then some (s.goto c (.reading id)) else none
    | _ => none
  | .ask c (.write address data) =>
    let id := UInt32.ofNat address
    if s.pc c = .user ∧ data = 0 ∧ id.toNat = address ∧ s.holds c (lockWord LockAlloc.SEM_BASE id) = true then
      some ((s.hold c (lockWord LockAlloc.SEM_BASE id) false).goto c (.writing id))
    else none
  | .act _ => some s
  | .answer c (some data) =>
    match s.pc c with
    | .reading id =>
      if data = 0 then some ((s.hold c (lockWord LockAlloc.SEM_BASE id) true).goto c .user)
      else some (s.goto c (.spin id))
    | _ => none
  | .answer c none =>
    match s.pc c with
    | .writing _ => some (s.goto c .user)
    | _ => none

abbrev State (n m : Nat) := Semaphore.State n m × Cores n

inductive Act (n m : Nat)
  | lock (c : Fin n) (id : UInt32)
  | bus (a : Semaphore.Act n m)

def init (mem : MemClass) : State n m := (Semaphore.init mem, Cores.start n)

/-- A core calls `gomp_hal_lock`, or the system with all cores goes on. -/
def step (cfg : Semaphore.Config n m) (x : State n m) : Act n m → Option (State n m)
  | .lock c id => if x.2.pc c = .user then some (x.1, x.2.goto c (.spin id)) else none
  | .bus a => Atomic.withClients (Semaphore.step cfg) (Semaphore.obs cfg) follow x a

/-! ## The locks in the memory -/

abbrev Client := Atomic.Client Semaphore.Op (Option UInt32)

/-- The address that a core still locks, as the memory sees it. -/
def Pc.locking : Pc → Client → Option UInt32
  | .spin id, _ => some id
  | .reading id, .answered (some data) => if data = 0 then none else some id
  | .reading id, _ => some id
  | _, _ => none

/-- The word that is a core's in the memory only: it has it and does not know, or it has let it go. -/
def Pc.between : Pc → Client → Option Nat
  | .reading id, .answered (some data) => if data = 0 then some (lockWord LockAlloc.SEM_BASE id) else none
  | .writing id, .asked _ => some (lockWord LockAlloc.SEM_BASE id)
  | _, _ => none

def abs (x : Semaphore.Object n) (s : Cores n) : SemLock.State n where
  mem := x.obj
  locking c := (s.pc c).locking (x.client c)
  holds c w := s.holds c w || (s.pc c).between (x.client c) == some w

/-- Where a core is agrees with its access. -/
inductive Fits (holds : Nat → Bool) : Pc → Client → Prop
  | user : Fits holds .user .idle
  | spin (id : UInt32) : Fits holds (.spin id) .idle
  | asking (id : UInt32) : Fits holds (.reading id) (.asked (.read id.toNat))
  | told (id data : UInt32) : Fits holds (.reading id) (.answered (some data))
  | storing (id : UInt32) (h : holds (lockWord LockAlloc.SEM_BASE id) = false) :
    Fits holds (.writing id) (.asked (.write id.toNat 0))
  | stored (id : UInt32) : Fits holds (.writing id) (.answered none)

def Ok (x : Semaphore.Object n) (s : Cores n) : Prop := ∀ c, Fits (s.holds c) (s.pc c) (x.client c)

variable {x y : Semaphore.Object n} {s t : Cores n} {c d : Fin n}

/-- Nothing changes for the other cores. -/
structure Others (x y : Semaphore.Object n) (s t : Cores n) (c : Fin n) : Prop where
  pc : ∀ d, d ≠ c → t.pc d = s.pc d
  holds : ∀ d, d ≠ c → t.holds d = s.holds d
  client : ∀ d, d ≠ c → y.client d = x.client d

theorem Ok.of_others (h : Ok x s) (ho : Others x y s t c) (hc : Fits (t.holds c) (t.pc c) (y.client c)) : Ok y t := by
  intro d
  by_cases hd : d = c
  · subst hd
    exact hc
  · rw [ho.pc d hd, ho.holds d hd, ho.client d hd]
    exact h d

theorem abs_ext {u : SemLock.State n} (hmem : u.mem = x.obj)
    (hlock : ∀ d, u.locking d = (s.pc d).locking (x.client d))
    (hhold : ∀ d w, u.holds d w = (s.holds d w || (s.pc d).between (x.client d) == some w)) : u = abs x s := by
  cases u
  simp only [abs, SemLock.State.mk.injEq]
  exact ⟨hmem, funext hlock, funext fun d => funext (hhold d)⟩

theorem abs_of_others (ho : Others x y s t c) (hobj : y.obj = x.obj)
    (hlock : (t.pc c).locking (y.client c) = (s.pc c).locking (x.client c))
    (hhold : ∀ w, (t.holds c w || (t.pc c).between (y.client c) == some w) =
      (s.holds c w || (s.pc c).between (x.client c) == some w)) : abs y t = abs x s := by
  refine abs_ext hobj (fun d => ?_) fun d w => ?_
  · by_cases hd : d = c
    · subst hd
      exact hlock
    · simp only [abs, ho.pc d hd, ho.client d hd]
  · by_cases hd : d = c
    · subst hd
      exact hhold w
    · simp only [abs, ho.pc d hd, ho.client d hd, ho.holds d hd]

/-- A move of one core and its access. -/
theorem others_goto (x : Semaphore.Object n) (s : Cores n) (c : Fin n) (p : Pc) (q : Client) (o : MemClass) :
    Others x ({ x with obj := o }.setClient c q) s (s.goto c p) c :=
  ⟨fun _ hd => Function.update_of_ne hd .., fun _ _ => rfl, fun _ hd => Function.update_of_ne hd ..⟩

theorem others_hold (x : Semaphore.Object n) (s : Cores n) (c : Fin n) (w : Nat) (b : Bool) (p : Pc) (q : Client) :
    Others x (x.setClient c q) s ((s.hold c w b).goto c p) c :=
  ⟨fun _ hd => Function.update_of_ne hd .., fun _ hd => Function.update_of_ne hd .., fun _ hd =>
    Function.update_of_ne hd ..⟩

theorem goto_self (s : Cores n) (c : Fin n) (p : Pc) : (s.goto c p).pc c = p := Function.update_self ..

theorem hold_self (s : Cores n) (c : Fin n) (w v : Nat) (b : Bool) :
    (s.hold c w b).holds c v = if v = w then b else s.holds c v := by
  simp only [Cores.hold, Function.update_self]
  by_cases hv : v = w
  · rw [if_pos hv, hv, Function.update_self]
  · rw [if_neg hv, Function.update_of_ne hv]

/-! ## An event -/

theorem addressing_eq (id : UInt32) : Semaphore.addressing id.toNat = SemLock.addressing LockAlloc.SEM_BASE id := by
  have hlt := id.toNat_lt
  have hsem : LockAlloc.SEM_BASE.toNat = 0x09000000 := rfl
  have hdev : Semaphore.addressing id.toNat = (id.toNat + 4294967296 - 0x09000000) % 4294967296 := rfl
  rw [hdev, SemLock.addressing, UInt32.toNat_sub, hsem]
  omega

/-- A core moves with its access, and the locks stay. -/
theorem goto_sim {p : Pc} {q : Client} (h : Ok x s) (hfits : Fits (s.holds c) p q)
    (hlock : p.locking q = (s.pc c).locking (x.client c)) (hhold : p.between q = (s.pc c).between (x.client c)) :
    Ok (x.setClient c q) (s.goto c p) ∧ abs (x.setClient c q) (s.goto c p) = abs x s := by
  have ho := others_goto x s c p q x.obj
  refine ⟨h.of_others ho ?_, abs_of_others ho rfl ?_ fun v => ?_⟩
  · rw [goto_self, Atomic.State.setClient_self]
    exact hfits
  · rw [goto_self, Atomic.State.setClient_self]
    exact hlock
  · rw [goto_self, Atomic.State.setClient_self, hhold]
    rfl

/-- A word goes over between the program and the memory, and the locks stay. -/
theorem hold_sim {w : Nat} {b : Bool} {p : Pc} {q : Client} (h : Ok x s) (hfits : ∀ holds, holds w = b → Fits holds p q)
    (hlock : p.locking q = (s.pc c).locking (x.client c))
    (hnew : p.between q = if b then none else some w)
    (hold : (s.pc c).between (x.client c) = if b then some w else none) (hheld : b = false → s.holds c w = true) :
    Ok (x.setClient c q) ((s.hold c w b).goto c p) ∧ abs (x.setClient c q) ((s.hold c w b).goto c p) = abs x s := by
  have ho := others_hold x s c w b p q
  have hself : ∀ v, ((s.hold c w b).goto c p).holds c v = if v = w then b else s.holds c v :=
    fun v => hold_self s c w v b
  refine ⟨h.of_others ho ?_, abs_of_others ho rfl ?_ fun v => ?_⟩
  · rw [goto_self, Atomic.State.setClient_self]
    refine hfits _ ?_
    rw [hself, if_pos rfl]
  · rw [goto_self, Atomic.State.setClient_self]
    exact hlock
  · rw [goto_self, Atomic.State.setClient_self, hself, hnew, hold]
    by_cases hv : v = w
    · subst hv
      cases b with
      | true => simp
      | false => simp [hheld rfl]
    · cases b <;> simp [hv, Ne.symm hv]

/-- A core asks: nothing has happened in the memory. -/
theorem ask_sim {op : Semaphore.Op} (h : Ok x s) (hx : x.client c = .idle)
    (ht : follow s (.ask c op) = some t) :
    Ok (x.setClient c (.asked op)) t ∧ abs (x.setClient c (.asked op)) t = abs x s := by
  cases op with
  | read address =>
    cases hp : s.pc c with
    | spin id =>
      simp only [follow, hp, Option.ite_none_right_eq_some, Option.some.injEq] at ht
      obtain ⟨rfl, rfl⟩ := ht
      refine goto_sim h (.asking id) ?_ ?_
      · rw [hp]
        rfl
      · rw [hp]
        rfl
    | user => simp [follow, hp] at ht
    | reading id => simp [follow, hp] at ht
    | writing id => simp [follow, hp] at ht
  | write address data =>
    simp only [follow, Option.ite_none_right_eq_some, Option.some.injEq] at ht
    obtain ⟨⟨hp, rfl, haddr, hheld⟩, rfl⟩ := ht
    generalize hid : UInt32.ofNat address = id at haddr hheld
    subst haddr
    refine hold_sim h (fun _ hfree => .storing id hfree) ?_ rfl ?_ fun _ => hheld
    · rw [hp, hx]
      rfl
    · rw [hp]
      rfl

/-- A core is answered: its lock is now in the program, too, or it spins on. -/
theorem answer_sim {r : Option UInt32} (h : Ok x s) (hx : x.client c = .answered r)
    (ht : follow s (.answer c r) = some t) : Ok (x.setClient c .idle) t ∧ abs (x.setClient c .idle) t = abs x s := by
  cases r with
  | none =>
    cases hp : s.pc c with
    | writing id =>
      simp only [follow, hp, Option.some.injEq] at ht
      subst ht
      refine goto_sim h .user ?_ ?_
      · rw [hp]
        rfl
      · rw [hp, hx]
        rfl
    | user => simp [follow, hp] at ht
    | spin id => simp [follow, hp] at ht
    | reading id => simp [follow, hp] at ht
  | some data =>
    cases hp : s.pc c with
    | reading id =>
      simp only [follow, hp] at ht
      by_cases hdata : data = 0
      · rw [if_pos hdata] at ht
        cases ht
        refine hold_sim h (fun _ _ => .user) ?_ rfl ?_ ?_
        · rw [hp, hx]
          simp [Pc.locking, hdata]
        · rw [hp, hx]
          exact if_pos hdata
        · rintro ⟨⟩
      · rw [if_neg hdata] at ht
        cases ht
        refine goto_sim h (.spin id) ?_ ?_
        · rw [hp, hx]
          exact (if_neg hdata).symm
        · rw [hp, hx]
          exact (if_neg hdata).symm
    | user => simp [follow, hp] at ht
    | spin id => simp [follow, hp] at ht
    | writing id => simp [follow, hp] at ht

theorem read_halLock {mem mem' : MemClass} {id data : UInt32}
    (h : Semaphore.read mem id.toNat MEM_WORD = some (data, mem')) :
    SemLock.halLock LockAlloc.SEM_BASE mem id = some (data == 0, mem') := by
  rw [Semaphore.read, if_pos rfl, addressing_eq] at h
  rw [SemLock.halLock, h]
  rfl

theorem write_halUnlock {mem mem' : MemClass} {id : UInt32} (h : Semaphore.write mem id.toNat 0 = some mem') :
    SemLock.halUnlock LockAlloc.SEM_BASE mem id = some mem' := by
  rw [Semaphore.write, addressing_eq] at h
  exact h

/-- The memory gives a word to a core that waits, or takes it back. -/
theorem setHolds_client {w : Nat} {b : Bool} (ho : Others x y s s c)
    (hw : (s.pc c).between (y.client c) = if b then some w else none)
    (hb : (s.pc c).between (x.client c) = if b then none else some w) (hnot : b = false → s.holds c w = false)
    (d : Fin n) (v : Nat) :
    (abs x s).setHolds c w b d v = (s.holds d v || (s.pc d).between (y.client d) == some v) := by
  by_cases hd : d = c
  · subst hd
    by_cases hv : v = w
    · subst hv
      rw [SemLock.setHolds_self, if_pos rfl, hw]
      cases b with
      | true => simp
      | false => simp [hnot rfl]
    · rw [SemLock.setHolds_ne _ _ _ _ hv, hw]
      cases b <;> simp [abs, hb, Ne.symm hv]
  · by_cases hv : v = w
    · subst hv
      rw [SemLock.setHolds_self, if_neg hd, ho.client d hd]
      rfl
    · rw [SemLock.setHolds_ne _ _ _ _ hv, ho.client d hd]
      rfl

/-- A read takes effect: the core has the lock in the memory, or it stays with its loop. -/
theorem poll_sim {id data : UInt32} {mem' : MemClass} (h : Ok x s) (hp : s.pc c = .reading id)
    (hx : x.client c = .asked (.read id.toNat)) (hread : Semaphore.read x.obj id.toNat MEM_WORD = some (data, mem'))
    (ho : Others x y s s c) (hobj : y.obj = mem') (hy : y.client c = .answered (some data)) :
    Ok y s ∧ SemLock.step LockAlloc.SEM_BASE (abs x s) (.poll c) = some (abs y s) := by
  refine ⟨h.of_others ho ?_, ?_⟩
  · rw [hp, hy]
    exact .told id data
  have hlocking : (abs x s).locking c = some id := by
    simp only [abs, hp, hx]
    rfl
  simp only [SemLock.step, hlocking]
  rw [show (abs x s).mem = x.obj from rfl, read_halLock hread, Option.map_some, ← hobj]
  by_cases hdata : data = 0
  · subst hdata
    refine congrArg some (abs_ext rfl (fun d => ?_) fun d v => ?_)
    · by_cases hd : d = c
      · subst hd
        rw [hp, hy]
        simp [Pc.locking]
      · rw [ho.client d hd]
        exact Function.update_of_ne hd ..
    · refine setHolds_client ho ?_ ?_ ?_ d v
      · rw [hp, hy]
        rfl
      · rw [hp, hx]
        rfl
      · rintro ⟨⟩
  · have hfalse : (data == 0) = false := by simpa using hdata
    rw [hfalse]
    refine congrArg some (abs_ext rfl (fun d => ?_) fun d v => ?_)
    · by_cases hd : d = c
      · subst hd
        rw [hp, hy]
        simp [abs, hp, hx, Pc.locking, hdata]
      · rw [ho.client d hd]
        rfl
    · by_cases hd : d = c
      · subst hd
        rw [hp, hy]
        simp [abs, hp, hx, Pc.between, hdata]
      · rw [ho.client d hd]
        rfl

/-- A store takes effect: the core has let the lock go, and the memory follows. -/
theorem release_sim {id : UInt32} {mem' : MemClass} (h : Ok x s) (hp : s.pc c = .writing id)
    (hx : x.client c = .asked (.write id.toNat 0)) (hnot : s.holds c (lockWord LockAlloc.SEM_BASE id) = false)
    (hwrite : Semaphore.write x.obj id.toNat 0 = some mem') (ho : Others x y s s c) (hobj : y.obj = mem')
    (hy : y.client c = .answered none) :
    Ok y s ∧ SemLock.step LockAlloc.SEM_BASE (abs x s) (.unlock c id) = some (abs y s) := by
  refine ⟨h.of_others ho ?_, ?_⟩
  · rw [hp, hy]
    exact .stored id
  have hguard : (abs x s).locking c = none ∧ (abs x s).holds c (lockWord LockAlloc.SEM_BASE id) = true := by
    simp [abs, hp, hx, Pc.locking, Pc.between]
  simp only [SemLock.step, if_pos hguard]
  rw [show (abs x s).mem = x.obj from rfl, write_halUnlock hwrite, Option.map_some, ← hobj]
  refine congrArg some (abs_ext rfl (fun d => ?_) fun d v => ?_)
  · by_cases hd : d = c
    · subst hd
      rw [hp, hy]
      exact hguard.1
    · rw [ho.client d hd]
      rfl
  · refine setHolds_client ho ?_ ?_ (fun _ => hnot) d v
    · rw [hp, hy]
      rfl
    · rw [hp, hx]
      rfl

/-- **An access takes effect**: it is a read of the lock, or its release. -/
theorem act_sim {op : Semaphore.Op} {r : MemClass × Option UInt32} (h : Ok x s) (hx : x.client c = .asked op)
    (happly : Semaphore.apply x.obj op = some r) :
    Ok ({ x with obj := r.1 }.setClient c (.answered r.2)) s ∧
      ∃ b, SemLock.step LockAlloc.SEM_BASE (abs x s) b =
        some (abs ({ x with obj := r.1 }.setClient c (.answered r.2)) s) := by
  have hself : (({ x with obj := r.1 } : Semaphore.Object n).setClient c (.answered r.2)).client c = .answered r.2 :=
    Atomic.State.setClient_self ..
  have ho : Others x ({ x with obj := r.1 }.setClient c (.answered r.2)) s s c :=
    ⟨fun _ _ => rfl, fun _ _ => rfl, fun d hd => Atomic.State.setClient_of_ne _ _ hd⟩
  have hf := h c
  rw [hx] at hf
  cases hp : s.pc c with
  | user =>
    rw [hp] at hf
    cases hf
  | spin id =>
    rw [hp] at hf
    cases hf
  | reading id =>
    rw [hp] at hf
    cases hf
    obtain ⟨⟨data, mem'⟩, hread, rfl⟩ := Option.map_eq_some_iff.1 happly
    obtain ⟨hok, hpoll⟩ := poll_sim h hp hx hread ho rfl hself
    exact ⟨hok, _, hpoll⟩
  | writing id =>
    rw [hp] at hf
    cases hf with
    | storing _ hnot =>
      obtain ⟨mem', hwrite, rfl⟩ := Option.map_eq_some_iff.1 happly
      obtain ⟨hok, hunlock⟩ := release_sim h hp hx hnot hwrite ho rfl hself
      exact ⟨hok, _, hunlock⟩

/-- **Every event** of the semaphores is a step of the locks, or none. -/
theorem event_sim {e : Semaphore.Event n} (h : Ok x s) (hx : Atomic.step Semaphore.apply x e = some y)
    (hs : follow s e = some t) :
    Ok y t ∧ ∃ bs, Trans.run (SemLock.step LockAlloc.SEM_BASE) (abs x s) bs = some (abs y t) := by
  obtain ⟨c, op, rfl, hc, rfl⟩ | ⟨c, op, r, rfl, hc, happly, rfl⟩ | ⟨c, r, rfl, hc, rfl⟩ := Atomic.step_cases hx
  · obtain ⟨hok, heq⟩ := ask_sim h hc hs
    exact ⟨hok, [], by rw [heq]; rfl⟩
  · cases hs
    obtain ⟨hok, b, hb⟩ := act_sim h hc happly
    exact ⟨hok, [b], by rw [Trans.run, hb]; rfl⟩
  · obtain ⟨hok, heq⟩ := answer_sim h hc hs
    exact ⟨hok, [], by rw [heq]; rfl⟩

theorem events_sim {es : List (Semaphore.Event n)} (h : Ok x s)
    (hx : Trans.run (Atomic.step Semaphore.apply) x es = some y) (hs : Trans.run follow s es = some t) :
    Ok y t ∧ ∃ bs, Trans.run (SemLock.step LockAlloc.SEM_BASE) (abs x s) bs = some (abs y t) := by
  induction es generalizing x s with
  | nil =>
    cases hx
    cases hs
    exact ⟨h, [], rfl⟩
  | cons e es ih =>
    obtain ⟨x', hx', hx⟩ := Trans.run_cons.1 hx
    obtain ⟨s', hs', hs⟩ := Trans.run_cons.1 hs
    obtain ⟨hok, bs, hbs⟩ := event_sim h hx' hs'
    obtain ⟨hok', bs', hbs'⟩ := ih hok hx hs
    exact ⟨hok', bs ++ bs', Trans.run_append.2 ⟨_, hbs, hbs'⟩⟩

/-- An event that no core starts is one that the cores wait for. -/
theorem follow_enabled {e : Semaphore.Event n} (h : Ok x s) (hx : Atomic.step Semaphore.apply x e = some y)
    (hask : ∀ c op, e ≠ .ask c op) : (follow s e).isSome = true := by
  obtain ⟨c, op, rfl, -, -⟩ | ⟨c, op, r, rfl, -, -, -⟩ | ⟨c, r, rfl, hc, -⟩ := Atomic.step_cases hx
  · exact absurd rfl (hask c op)
  · rfl
  · have hf := h c
    rw [hc] at hf
    cases hp : s.pc c with
    | user =>
      rw [hp] at hf
      cases hf
    | spin id =>
      rw [hp] at hf
      cases hf
    | reading id =>
      rw [hp] at hf
      cases hf with
      | told _ data =>
        simp only [follow, hp]
        split <;> rfl
    | writing id =>
      rw [hp] at hf
      cases hf
      simp [follow, hp]

theorem run_follow_enabled {es : List (Semaphore.Event n)} (h : Ok x s)
    (hx : Trans.run (Atomic.step Semaphore.apply) x es = some y) (hask : ∀ e ∈ es, ∀ c op, e ≠ .ask c op) :
    (Trans.run follow s es).isSome = true := by
  induction es generalizing x s with
  | nil => rfl
  | cons e es ih =>
    obtain ⟨x', hx', hx⟩ := Trans.run_cons.1 hx
    obtain ⟨s', hs'⟩ := Option.isSome_iff_exists.1 (follow_enabled h hx' (hask e List.mem_cons_self))
    rw [Trans.run, hs', Option.bind_some]
    exact ih (event_sim h hx' hs').1 hx fun e he => hask e (List.mem_cons_of_mem _ he)

/-! ## Every run -/

variable {cfg : Semaphore.Config n m} {mem : MemClass}

/-- The system follows the device and the interconnect, the cores agree with their accesses, and the locks in the
memory have run from their start. -/
structure Inv (cfg : Semaphore.Config n m) (mem : MemClass) (z : State n m) : Prop where
  bus : Semaphore.Inv cfg z.1
  ok : Ok (Semaphore.object cfg z.1) z.2
  locks : ∃ bs, Trans.run (SemLock.step LockAlloc.SEM_BASE) (SemLock.init n mem) bs =
    some (abs (Semaphore.object cfg z.1) z.2)

theorem init_inv (hmem : mem.size = CL_SEM_SIZE) : Inv cfg mem (init mem) := by
  have hidle : ∀ k, (Semaphore.object cfg (init mem : State n m).1).client k = .idle := by
    intro k
    change Semaphore.client cfg (Semaphore.init mem) k = .idle
    unfold Semaphore.client
    rw [if_neg]
    rintro ⟨hk, -⟩
    cases hk
  refine ⟨Semaphore.init_inv hmem, fun c => ?_, [], ?_⟩
  · rw [hidle]
    exact .user
  · refine congrArg some (abs_ext rfl (fun d => ?_) fun d w => ?_)
    · rw [hidle]
      rfl
    · rw [hidle]
      rfl

/-- A core calls `gomp_hal_lock`. -/
theorem lock_sim (id : UInt32) (h : Ok x s) (hp : s.pc c = .user) :
    Ok x (s.goto c (.spin id)) ∧
      SemLock.step LockAlloc.SEM_BASE (abs x s) (.lock c id) = some (abs x (s.goto c (.spin id))) := by
  have hidle : x.client c = .idle := by
    have hf := h c
    rw [hp] at hf
    generalize x.client c = q at hf ⊢
    cases hf
    rfl
  have hother : ∀ d, d ≠ c → (s.goto c (.spin id)).pc d = s.pc d := fun d hd => Function.update_of_ne hd ..
  refine ⟨h.of_others ⟨hother, fun _ _ => rfl, fun _ _ => rfl⟩ ?_, ?_⟩
  · rw [goto_self, hidle]
    exact .spin id
  · have hnone : (abs x s).locking c = none := by
      simp only [abs, hp, hidle]
      rfl
    simp only [SemLock.step, if_pos hnone]
    refine congrArg some (abs_ext rfl (fun d => ?_) fun d w => ?_)
    · by_cases hd : d = c
      · subst hd
        rw [goto_self]
        exact Function.update_self ..
      · rw [hother d hd]
        exact Function.update_of_ne hd ..
    · by_cases hd : d = c
      · subst hd
        simp only [abs, goto_self, hp, hidle]
        rfl
      · rw [hother d hd]
        rfl

theorem step_inv {a : Act n m} {z z' : State n m} (h : Inv cfg mem z) (hs : step cfg z a = some z') :
    Inv cfg mem z' := by
  obtain ⟨bs, hbs⟩ := h.locks
  cases a with
  | lock c id =>
    simp only [step, Option.ite_none_right_eq_some, Option.some.injEq] at hs
    obtain ⟨hp, rfl⟩ := hs
    obtain ⟨hok, hlock⟩ := lock_sim id h.ok hp
    exact ⟨h.bus, hok, bs ++ [.lock c id], Trans.run_append.2 ⟨_, hbs, by rw [Trans.run, hlock]; rfl⟩⟩
  | bus a =>
    obtain ⟨hbus, hcores⟩ := Atomic.withClients_some.1 hs
    obtain ⟨hinv, hobj⟩ := Semaphore.step_keeps h.bus hbus
    obtain ⟨hok, bs', hbs'⟩ := events_sim h.ok hobj hcores
    exact ⟨hinv, hok, bs ++ bs', Trans.run_append.2 ⟨_, hbs, hbs'⟩⟩

theorem run_inv {as : List (Act n m)} {z : State n m} (hmem : mem.size = CL_SEM_SIZE)
    (hr : Trans.run (step cfg) (init mem) as = some z) : Inv cfg mem z :=
  Trans.run_inv (Inv cfg mem) (fun _ _ _ h hs => step_inv h hs) (init_inv hmem) hr

/-- Neither clock shows that a core asks. -/
theorem tick_obs {z : Semaphore.State n m} {early : Fin n → Bool} :
    ∀ e ∈ Semaphore.obs cfg z (Semaphore.tick z early), ∀ c op, e ≠ .ask c op := by
  intro e he c op
  rintro rfl
  unfold Semaphore.tick at he
  split at he
  · simp only [Semaphore.obs] at he
    split at he
    · cases he
    · split at he
      · cases he
      · split at he
        · obtain ⟨k, -, hk⟩ := List.mem_map.1 he
          cases hk
        · obtain ⟨k, -, hk⟩ := List.mem_map.1 he
          cases hk
  · cases he

theorem tick_enabled {z : State n m} (h : Inv cfg mem z) (early : Fin n → Bool) :
    (step cfg z (.bus (Semaphore.tick z.1 early))).isSome = true := by
  obtain ⟨u, hu⟩ := Option.isSome_iff_exists.1 (Semaphore.tick_enabled h.bus early)
  obtain ⟨s, hs⟩ := Option.isSome_iff_exists.1
    (run_follow_enabled h.ok (Semaphore.step_keeps h.bus hu).2 tick_obs)
  have hboth : step cfg z (.bus (Semaphore.tick z.1 early)) = some (u, s) := Atomic.withClients_some.2 ⟨hu, hs⟩
  rw [hboth]
  rfl

/-- **Locks over the bus**: whatever cores, masters, interconnect, device and the other slaves do, between
`gomp_hal_lock` and `gomp_hal_unlock` of one lock there is one core at most, and none while the word of the lock is 0.
The memory of the device is the one that a run of the locks of `SemLock` ends in, where a core holds what it holds in
the program, or is about to. The cores never stop the clock. -/
theorem bus_lock {as : List (Act n m)} {z : State n m} (hmem : mem.size = CL_SEM_SIZE)
    (hr : Trans.run (step cfg) (init mem) as = some z) :
    (∀ id : UInt32, (∀ c d, z.2.holds c (lockWord LockAlloc.SEM_BASE id) = true →
        z.2.holds d (lockWord LockAlloc.SEM_BASE id) = true → c = d) ∧
      (z.1.dev.mem.word (lockWord LockAlloc.SEM_BASE id) = 0 →
        ∀ c, z.2.holds c (lockWord LockAlloc.SEM_BASE id) = false)) ∧
    (∃ bs u, Trans.run (SemLock.step LockAlloc.SEM_BASE) (SemLock.init n mem) bs = some u ∧ u.mem = z.1.dev.mem ∧
      ∀ c w, z.2.holds c w = true → u.holds c w = true) ∧
    ∀ early, (step cfg z (.bus (Semaphore.tick z.1 early))).isSome = true := by
  have hI := run_inv hmem hr
  obtain ⟨bs, hbs⟩ := hI.locks
  have hholds : ∀ c w, z.2.holds c w = true → (abs (Semaphore.object cfg z.1) z.2).holds c w = true := by
    intro c w hc
    simp only [abs, hc, Bool.true_or]
  have hword : ∀ id, lockWord LockAlloc.SEM_BASE id % 4 = 0 := by
    intro id
    unfold lockWord wordAlign
    omega
  refine ⟨fun id => ?_, ⟨bs, _, hbs, rfl, hholds⟩, tick_enabled hI⟩
  obtain ⟨o, -, hR⟩ := SemLock.run_refines (hword id) hbs
  refine ⟨fun c d hc hd => hR.mutex c d (hholds c _ hc) (hholds d _ hd), fun hzero c => ?_⟩
  have hfree := hR.free.1 hzero
  by_contra hc
  have hheld := (hR.holds c).1 (hholds c _ (by simpa using hc))
  rw [hfree] at hheld
  cases hheld

section Two

open Semaphore (master0 master1 twoMasters firstWord)

def edges (k : Nat) : List (Act 2 6) := (Semaphore.edges k).map .bus

/-- Both cores want the first lock; the one that gets it gives it back, and the other reads again. -/
def handOver : List (Act 2 6) :=
  [.lock master0 LockAlloc.SEM_BASE, .lock master1 LockAlloc.SEM_BASE, .bus (.raise master0 (firstWord false)),
    .bus (.raise master1 (firstWord false))] ++ edges 5 ++
  .bus (.raise master0 (firstWord true)) :: edges 4 ++ .bus (.raise master1 (firstWord false)) :: edges 4

theorem bus_lock_handOver :
    ∃ z : State 2 6, Trans.run (step twoMasters) (init (MemClass.new CL_SEM_SIZE)) handOver = some z ∧
      z.2.holds master1 (lockWord LockAlloc.SEM_BASE LockAlloc.SEM_BASE) = true ∧
      z.2.holds master0 (lockWord LockAlloc.SEM_BASE LockAlloc.SEM_BASE) = false := by
  have hrun : (Trans.run (step twoMasters) (init (MemClass.new CL_SEM_SIZE)) handOver).any fun z =>
      z.2.holds master1 (lockWord LockAlloc.SEM_BASE LockAlloc.SEM_BASE) := by decide +kernel
  obtain ⟨z, hz, hheld⟩ := (Option.any_eq_true _ _).1 hrun
  refine ⟨z, hz, hheld, ?_⟩
  by_contra hc
  have hsame := ((bus_lock rfl hz).1 LockAlloc.SEM_BASE).1 master0 master1 (by simpa using hc) hheld
  exact absurd hsame (by decide)

end Two

end VirtualSoc.Gomp.SemBus
