import Mathlib.Algebra.GroupWithZero.Nat
import Mathlib.Tactic.Common
import VirtualSoc.Lib.Spans
import VirtualSoc.Lib.Transition

/-!
# The allocators of the shared memory (libgomp/config/vsoc/memutils.c)

Both move `shmem_next` on: `heap_init` by the size of a heap and the plain `shmalloc` by that of a block. With
`HEAP_HANDLERS` there are heaps, and a `shmalloc` that moves the `allocated` of one on. `#ifdef` picks one of the two
`shmalloc`; here all three can be called, which covers either build.

What is between `SHMEM_LOCK_WAIT` and `SHMEM_LOCK_SIGNAL` is one step, and each other access to a shared variable is a
step. `unsigned` is a natural below `2 ^ 32`.

* `heap_safe`: blocks and heaps are where they should be if no `heap_init` wraps around and no two calls of
  `shmalloc` on a heap overlap;
* `not_safe_race`, `not_safe_wrap`: what happens otherwise.
-/

namespace VirtualSoc.Gomp.SharedHeap

open Span

/-- `address` is the argument of `shmalloc_init`; `fits` and `top` say that the static data, the stacks and the
local-shared region are in the shared memory, and that it is in the lower half of the address space. -/
structure Config where
  SHARED_BASE : Nat
  SHARED_SIZE : Nat
  LOCAL_SHARED_SIZE : Nat
  STACK_SIZE : Nat
  prv_num_procs : Nat
  address : Nat
  fits : address + (LOCAL_SHARED_SIZE + STACK_SIZE * prv_num_procs) ≤ SHARED_SIZE
  top : SHARED_BASE + SHARED_SIZE < 2 ^ 31

variable (cfg : Config) {n : Nat}

/-- `shmem_next` after `shmalloc_init`. -/
def Config.first : Nat := cfg.SHARED_BASE + cfg.address

def Config.localLimit : Nat := cfg.SHARED_BASE + cfg.SHARED_SIZE - cfg.LOCAL_SHARED_SIZE

def Config.stackLimit : Nat :=
  cfg.SHARED_BASE + cfg.SHARED_SIZE - (cfg.LOCAL_SHARED_SIZE + cfg.STACK_SIZE * cfg.prv_num_procs)

/-- The check of `heap_init` and the plain `shmalloc`, on `unsigned`. -/
def Config.OutOfMemory (next size : Nat) : Prop :=
  cfg.localLimit < (next + size) % 2 ^ 32 ∨ cfg.stackLimit < (next + size) % 2 ^ 32

instance (next size : Nat) : Decidable (cfg.OutOfMemory next size) := inferInstanceAs (Decidable (_ ∨ _))

/-- `heap_handler_t`. -/
structure HeapHandler where
  startAddr : Nat
  size : Nat
  allocated : Nat
deriving DecidableEq, Repr

/-- A block that was returned; `none` is the plain `shmalloc`. -/
structure Block where
  handler : Option Nat
  span : Span
deriving DecidableEq, Repr

/-- Where a core is: outside, before the lock, or between two accesses, with what it has read. -/
inductive Pc
  | idle
  | heapInit (heap_size : Nat)
  | shmalloc (handler bytes : Nat)
  | allocatedRead (handler bytes allocated : Nat)
  | checked (handler bytes : Nat)
  | startRead (handler bytes start_addr : Nat)
  | retSet (handler bytes ret : Nat)
  | againRead (handler bytes ret allocated : Nat)
  | plain (size : Nat)
  | check (ret size : Nat)
  | aborted
deriving DecidableEq, Repr

/-- `n` cores. -/
structure State (n : Nat) where
  shmemNext : Nat
  heapHandlers : Nat → HeapHandler
  nextFreeHandler : Nat
  blocks : List Block
  pc : Fin n → Pc

/-- A call, or the next step of one. -/
inductive Act (n : Nat)
  | heapInit (c : Fin n) (heap_size : Nat)
  | shmalloc (c : Fin n) (handler bytes : Nat)
  | plain (c : Fin n) (size : Nat)
  | go (c : Fin n)

namespace State

variable {cfg} (s : State n) (c : Fin n)

def goto (p : Pc) : State n := { s with pc := Function.update s.pc c p }

/-- The handler and the memory that `heap_init` gives away. -/
def addHeap (heap_size : Nat) : State n :=
  { s with
    heapHandlers := Function.update s.heapHandlers s.nextFreeHandler
      { s.heapHandlers s.nextFreeHandler with startAddr := s.shmemNext, size := heap_size }
    nextFreeHandler := s.nextFreeHandler + 1
    shmemNext := (s.shmemNext + heap_size) % 2 ^ 32 }

/-- The critical section of `heap_init`. -/
def heapInit (cfg : Config) (heap_size : Nat) : State n :=
  if cfg.OutOfMemory s.shmemNext heap_size ∨ 9 < s.nextFreeHandler then s.goto c .aborted
  else (s.addHeap heap_size).goto c .idle

/-- The check of `shmalloc(handler, bytes)`. -/
def checkHandler (handler bytes allocated : Nat) : State n :=
  if (s.heapHandlers handler).size < (allocated + bytes) % 2 ^ 32 then s.goto c .aborted
  else s.goto c (.checked handler bytes)

/-- `heap_handlers[handler].allocated += bytes`, and the return of `ret`. -/
def addAllocated (handler bytes ret allocated : Nat) : State n :=
  { s with
    heapHandlers := Function.update s.heapHandlers handler
      { s.heapHandlers handler with allocated := (allocated + bytes) % 2 ^ 32 }
    blocks := ⟨some handler, ⟨ret, bytes⟩⟩ :: s.blocks }

/-- The critical section of the plain `shmalloc`. -/
def bump (size : Nat) : State n :=
  { s.goto c (.check s.shmemNext size) with shmemNext := (s.shmemNext + size) % 2 ^ 32 }

/-- The check behind it, and the return of `ret`. -/
def checkPlain (cfg : Config) (ret size : Nat) : State n :=
  if cfg.OutOfMemory ret size then s.goto c .aborted
  else { s.goto c .idle with blocks := ⟨none, ⟨ret, size⟩⟩ :: s.blocks }

end State

/-- The next step of a core that is in a call. -/
def advance (s : State n) (c : Fin n) : Option (State n) :=
  match s.pc c with
  | .idle => none
  | .heapInit heap_size => some (s.heapInit c cfg heap_size)
  | .shmalloc handler bytes => some (s.goto c (.allocatedRead handler bytes (s.heapHandlers handler).allocated))
  | .allocatedRead handler bytes allocated => some (s.checkHandler c handler bytes allocated)
  | .checked handler bytes => some (s.goto c (.startRead handler bytes (s.heapHandlers handler).startAddr))
  | .startRead handler bytes start_addr =>
    some (s.goto c (.retSet handler bytes ((start_addr + (s.heapHandlers handler).allocated) % 2 ^ 32)))
  | .retSet handler bytes ret => some (s.goto c (.againRead handler bytes ret (s.heapHandlers handler).allocated))
  | .againRead handler bytes ret allocated => some ((s.addAllocated handler bytes ret allocated).goto c .idle)
  | .plain size => some (s.bump c size)
  | .check ret size => some (s.checkPlain c cfg ret size)
  | .aborted => none

/-- Any `unsigned` size of a heap, any `int` size of a block that is not negative, any of the handlers. -/
def step (s : State n) : Act n → Option (State n)
  | .heapInit c heap_size =>
    if s.pc c = .idle ∧ heap_size < 2 ^ 32 then some (s.goto c (.heapInit heap_size)) else none
  | .shmalloc c handler bytes =>
    if s.pc c = .idle ∧ handler < 10 ∧ bytes < 2 ^ 31 then some (s.goto c (.shmalloc handler bytes)) else none
  | .plain c size => if s.pc c = .idle ∧ size < 2 ^ 31 then some (s.goto c (.plain size)) else none
  | .go c => advance cfg s c

def init : State n where
  shmemNext := cfg.first
  heapHandlers := fun _ => ⟨0, 0, 0⟩
  nextFreeHandler := 0
  blocks := []
  pc := fun _ => .idle

/-! ## What is safe -/

/-- A call has aborted, or is to: its check is on its own values, so nothing that the others do can change it. -/
def Aborts (s : State n) : Prop :=
  ∃ c, s.pc c = .aborted ∨ ∃ ret size, s.pc c = .check ret size ∧ cfg.OutOfMemory ret size

/-- The heap of a handler. -/
def State.heap (s : State n) (h : Nat) : Span := ⟨(s.heapHandlers h).startAddr, (s.heapHandlers h).size⟩

/-- The heap that a block belongs to; for the plain `shmalloc` it is the shared memory up to the stacks. -/
def State.heapOf (s : State n) (cfg : Config) : Option Nat → Span
  | some h => s.heap h
  | none => ⟨cfg.first, cfg.stackLimit - cfg.first⟩

structure Safe (s : State n) : Prop where
  /-- No address is in two blocks. -/
  blocks : s.blocks.Pairwise fun a b => Apart a.span b.span
  inside : ∀ b ∈ s.blocks, ∀ k, b.span.Mem k → (s.heapOf cfg b.handler).Mem k
  heaps : ∀ h < s.nextFreeHandler, ∀ h' < s.nextFreeHandler, h ≠ h' → Apart (s.heap h) (s.heap h')
  /-- The heaps are below the stacks and the local-shared region. -/
  below : ∀ h < s.nextFreeHandler, ∀ k, (s.heap h).Mem k → cfg.first ≤ k ∧ k < cfg.stackLimit

/-- In `shmalloc` on the heap, with something that was read. -/
def Pc.On (handler : Nat) : Pc → Prop
  | .allocatedRead h _ _ | .checked h _ | .startRead h _ _ | .retSet h _ _ | .againRead h _ _ _ => h = handler
  | .idle | .heapInit _ | .shmalloc _ _ | .plain _ | .check _ _ | .aborted => False

instance (handler : Nat) : DecidablePred (Pc.On handler)
  | .allocatedRead h _ _ | .checked h _ | .startRead h _ _ | .retSet h _ _ | .againRead h _ _ _ =>
    inferInstanceAs (Decidable (h = handler))
  | .idle | .heapInit _ | .shmalloc _ _ | .plain _ | .check _ _ | .aborted => isFalse id

def Pc.Undisturbed (s : State n) (c : Fin n) : Pc → Prop
  | .heapInit heap_size =>
    cfg.OutOfMemory s.shmemNext heap_size ∨ 9 < s.nextFreeHandler ∨ s.shmemNext + heap_size < 2 ^ 32
  | .againRead handler bytes _ _ => bytes = 0 ∨ ∀ c' ≠ c, ¬ (s.pc c').On handler
  | .idle | .shmalloc _ _ | .allocatedRead _ _ _ | .checked _ _ | .startRead _ _ _ | .retSet _ _ _ | .plain _
  | .check _ _ | .aborted => True

instance (s : State n) (c : Fin n) : DecidablePred (Pc.Undisturbed cfg s c)
  | .heapInit _ => inferInstanceAs (Decidable (_ ∨ _ ∨ _))
  | .againRead handler bytes _ _ => inferInstanceAs (Decidable (bytes = 0 ∨ ∀ c' ≠ c, ¬ (s.pc c').On handler))
  | .idle | .shmalloc _ _ | .allocatedRead _ _ _ | .checked _ _ | .startRead _ _ _ | .retSet _ _ _ | .plain _
  | .check _ _ | .aborted => isTrue trivial

/-- `heap_init` aborts or its sum does not wrap around; and when `shmalloc` moves `allocated` on, no other call has
read anything of this heap. -/
def Undisturbed (s : State n) : Act n → Prop
  | .go c => (s.pc c).Undisturbed cfg s c
  | .heapInit _ _ | .shmalloc _ _ _ | .plain _ _ => True

instance (s : State n) : DecidablePred (Undisturbed cfg s)
  | .go c => inferInstanceAs (Decidable ((s.pc c).Undisturbed cfg s c))
  | .heapInit _ _ | .shmalloc _ _ _ | .plain _ _ => isTrue trivial

/-! ## The invariant -/

/-- The sizes are those of the calls. -/
def Pc.Fits : Pc → Prop
  | .heapInit heap_size => heap_size < 2 ^ 32
  | .shmalloc _ bytes | .allocatedRead _ bytes _ | .checked _ bytes | .startRead _ bytes _ | .retSet _ bytes _
  | .againRead _ bytes _ _ => bytes < 2 ^ 31
  | .plain size | .check _ size => size < 2 ^ 31
  | .idle | .aborted => True

/-- Heaps, plain blocks and blocks that are still to be checked are cut from the memory below `shmem_next`, and the
blocks of a heap from what is allocated of it. -/
structure Inv (s : State n) : Prop where
  next : cfg.first ≤ s.shmemNext ∧ s.shmemNext ≤ cfg.stackLimit
  free : ∀ h, s.nextFreeHandler ≤ h → s.heapHandlers h = ⟨0, 0, 0⟩
  heap : ∀ h < s.nextFreeHandler, Within cfg.first s.shmemNext (s.heap h)
  heaps : ∀ h < s.nextFreeHandler, ∀ h' < s.nextFreeHandler, h ≠ h' → Apart (s.heap h) (s.heap h')
  allocated : ∀ h, (s.heapHandlers h).allocated ≤ (s.heapHandlers h).size
  block : ∀ b ∈ s.blocks, ∀ h, b.handler = some h →
    Within (s.heapHandlers h).startAddr ((s.heapHandlers h).startAddr + (s.heapHandlers h).allocated) b.span
  plain : ∀ b ∈ s.blocks, b.handler = none →
    Within cfg.first s.shmemNext b.span ∧ ∀ h < s.nextFreeHandler, Apart (s.heap h) b.span
  blocks : s.blocks.Pairwise fun a b => Apart a.span b.span
  check : ∀ c ret size, s.pc c = .check ret size → Within cfg.first s.shmemNext ⟨ret, size⟩ ∧
    (∀ h < s.nextFreeHandler, Apart (s.heap h) ⟨ret, size⟩) ∧
    ∀ b ∈ s.blocks, b.handler = none → Apart b.span ⟨ret, size⟩
  checks : ∀ c c' ret size ret' size', c ≠ c' → s.pc c = .check ret size → s.pc c' = .check ret' size' →
    Apart ⟨ret, size⟩ ⟨ret', size'⟩
  fits : ∀ c, (s.pc c).Fits

variable {cfg} {s t : State n} {c : Fin n}

theorem Config.first_le : cfg.first ≤ cfg.stackLimit := by
  have := cfg.fits
  unfold Config.first Config.stackLimit
  omega

theorem Config.stackLimit_lt : cfg.stackLimit < 2 ^ 31 := by
  have := cfg.top
  unfold Config.stackLimit
  omega

/-- Without a wrap the check is the one that is meant. -/
theorem not_outOfMemory {next size : Nat} (h : ¬ cfg.OutOfMemory next size) (hwrap : next + size < 2 ^ 32) :
    next + size ≤ cfg.stackLimit := by
  unfold Config.OutOfMemory at h
  rw [Nat.mod_eq_of_lt hwrap] at h
  omega

theorem init_inv : Inv cfg (init cfg : State n) where
  next := ⟨Nat.le_refl _, Config.first_le⟩
  free _ _ := rfl
  heap _ hh := absurd hh (Nat.not_lt_zero _)
  heaps _ hh := absurd hh (Nat.not_lt_zero _)
  allocated _ := Nat.le_refl _
  block _ hb := nomatch hb
  plain _ hb := nomatch hb
  blocks := List.Pairwise.nil
  check _ _ _ hc := nomatch hc
  checks _ _ _ _ _ _ _ hc := nomatch hc
  fits _ := trivial

theorem goto_check {p : Pc} (hp : ∀ ret size, p ≠ .check ret size) {c' : Fin n} {ret size : Nat}
    (h : (s.goto c p).pc c' = .check ret size) : c' ≠ c ∧ s.pc c' = .check ret size := by
  by_cases hc : c' = c
  · subst hc
    simp only [State.goto, Function.update_self] at h
    exact absurd h (hp ret size)
  · simp only [State.goto, Function.update_of_ne hc] at h
    exact ⟨hc, h⟩

theorem goto_fits {p : Pc} (h : ∀ c, (s.pc c).Fits) (hp : p.Fits) (c' : Fin n) : ((s.goto c p).pc c').Fits := by
  by_cases hc : c' = c
  · subst hc
    simpa only [State.goto, Function.update_self] using hp
  · simpa only [State.goto, Function.update_of_ne hc] using h c'

/-- A step that only reads. -/
theorem Inv.goto (h : Inv cfg s) {p : Pc} (hp : ∀ ret size, p ≠ .check ret size) (hfits : p.Fits) :
    Inv cfg (s.goto c p) :=
  { h with
    check := fun c' ret size hc => h.check c' ret size (goto_check hp hc).2
    checks := fun c₁ c₂ _ _ _ _ hne h1 h2 => h.checks c₁ c₂ _ _ _ _ hne (goto_check hp h1).2 (goto_check hp h2).2
    fits := goto_fits h.fits hfits }

/-- A heap has what is allocated of it. -/
theorem Inv.block_heap (h : Inv cfg s) {b : Block} (hb : b ∈ s.blocks) {i : Nat} (hi : b.handler = some i) :
    Within (s.heap i).start ((s.heap i).start + (s.heap i).len) b.span :=
  (h.block b hb i hi).mono (Nat.le_refl _) (Nat.add_le_add_left (h.allocated i) _)

/-- A block of a handler that was not given away is empty. -/
theorem Inv.block_free (h : Inv cfg s) {b : Block} (hb : b ∈ s.blocks) {i : Nat} (hi : b.handler = some i)
    (hfree : s.nextFreeHandler ≤ i) : b.span.len = 0 := by
  have hin := h.block b hb i hi
  rw [h.free i hfree] at hin
  rcases hin with hlen | ⟨-, hend⟩
  · exact hlen
  · exact Nat.eq_zero_of_add_eq_zero_left (Nat.eq_zero_of_le_zero hend)

theorem apart_of_len {a b : Span} (h : a.len = 0) : Apart a b := by
  intro k hk
  unfold Mem at hk
  omega

/-- So the blocks of the heaps are apart from what is apart from the heaps. -/
theorem Inv.block_apart (h : Inv cfg s) {b : Block} (hb : b ∈ s.blocks) {i : Nat} (hi : b.handler = some i) {x : Span}
    (hx : ∀ j < s.nextFreeHandler, Apart (s.heap j) x) : Apart b.span x := by
  by_cases hlt : i < s.nextFreeHandler
  · exact (h.block_heap hb hi).apart_of (hx i hlt)
  · exact apart_of_len (h.block_free hb hi (Nat.le_of_not_lt hlt))

theorem Inv.safe (h : Inv cfg s) : Safe cfg s where
  blocks := h.blocks
  inside b hb k hk := by
    cases hh : b.handler with
    | some i => exact (h.block_heap hb hh).mem hk
    | none =>
      have hin := (h.plain b hb hh).1.mem hk
      have hnext := h.next
      simp only [State.heapOf, Mem]
      omega
  heaps := h.heaps
  below i hi k hk := by
    have hin := (h.heap i hi).mem hk
    have hnext := h.next
    omega

/-! ## The steps -/

section AddHeap

variable {heap_size : Nat}

theorem addHeap_handler (h : Inv cfg s) :
    (s.addHeap heap_size).heapHandlers s.nextFreeHandler = ⟨s.shmemNext, heap_size, 0⟩ := by
  refine (Function.update_self _ _ _).trans ?_
  rw [h.free _ (Nat.le_refl _)]

theorem addHeap_handler_of_ne {i : Nat} (hi : i ≠ s.nextFreeHandler) :
    (s.addHeap heap_size).heapHandlers i = s.heapHandlers i := Function.update_of_ne hi _ _

theorem addHeap_heap (h : Inv cfg s) : (s.addHeap heap_size).heap s.nextFreeHandler = ⟨s.shmemNext, heap_size⟩ := by
  rw [State.heap, addHeap_handler h]

theorem addHeap_heap_of_ne {i : Nat} (hi : i ≠ s.nextFreeHandler) : (s.addHeap heap_size).heap i = s.heap i := by
  rw [State.heap, addHeap_handler_of_ne hi, State.heap]

/-- What was cut before is apart from the new heap as well. -/
theorem addHeap_apart (h : Inv cfg s) {x : Span} (hx : ∀ i < s.nextFreeHandler, Apart (s.heap i) x)
    (hin : Within cfg.first s.shmemNext x) (i : Nat) (hi : i < s.nextFreeHandler + 1) :
    Apart ((s.addHeap heap_size).heap i) x := by
  by_cases hnew : i = s.nextFreeHandler
  · subst hnew
    rw [addHeap_heap h]
    exact (hin.apart (within_self ⟨s.shmemNext, heap_size⟩) (Nat.le_refl _)).symm
  · rw [addHeap_heap_of_ne hnew]
    exact hx i (by omega)

/-- A new heap is cut off behind everything else. -/
theorem Inv.addHeap (h : Inv cfg s) (hlt : s.shmemNext + heap_size < 2 ^ 32)
    (hle : s.shmemNext + heap_size ≤ cfg.stackLimit) : Inv cfg (s.addHeap heap_size) := by
  have hmod : (s.addHeap heap_size).shmemNext = s.shmemNext + heap_size := Nat.mod_eq_of_lt hlt
  have hgrow : s.shmemNext ≤ (s.addHeap heap_size).shmemNext := by omega
  have hfirst := h.next.1
  constructor
  case next => omega
  case free =>
    intro i hi
    rw [addHeap_handler_of_ne (Nat.ne_of_gt hi)]
    exact h.free i (Nat.le_of_succ_le hi)
  case heap =>
    intro i hi
    by_cases hnew : i = s.nextFreeHandler
    · subst hnew
      rw [addHeap_heap h]
      exact Or.inr ⟨hfirst, Nat.le_of_eq hmod.symm⟩
    · rw [addHeap_heap_of_ne hnew]
      exact (h.heap i (by have : i < s.nextFreeHandler + 1 := hi; omega)).mono (Nat.le_refl _) hgrow
  case heaps =>
    intro i hi j hj hij
    by_cases hnew : j = s.nextFreeHandler
    · have hold : i < s.nextFreeHandler := by
        have : i < s.nextFreeHandler + 1 := hi
        omega
      rw [hnew, addHeap_heap h, addHeap_heap_of_ne (Nat.ne_of_lt hold)]
      exact (h.heap i hold).apart (within_self ⟨s.shmemNext, heap_size⟩) (Nat.le_refl _)
    · have hold : j < s.nextFreeHandler := by
        have : j < s.nextFreeHandler + 1 := hj
        omega
      rw [addHeap_heap_of_ne hnew]
      by_cases hi' : i = s.nextFreeHandler
      · rw [hi', addHeap_heap h]
        exact ((h.heap j hold).apart (within_self ⟨s.shmemNext, heap_size⟩) (Nat.le_refl _)).symm
      · rw [addHeap_heap_of_ne hi']
        exact h.heaps i (by have : i < s.nextFreeHandler + 1 := hi; omega) j hold hij
  case allocated =>
    intro i
    by_cases hnew : i = s.nextFreeHandler
    · rw [hnew, addHeap_handler h]
      exact Nat.zero_le _
    · rw [addHeap_handler_of_ne hnew]
      exact h.allocated i
  case block =>
    intro b hb i hi
    by_cases hnew : i = s.nextFreeHandler
    · -- the blocks of the handler are empty so far
      exact Or.inl (h.block_free hb hi (Nat.le_of_eq hnew.symm))
    · rw [addHeap_handler_of_ne hnew]
      exact h.block b hb i hi
  case plain =>
    intro b hb hi
    obtain ⟨hin, hapart⟩ := h.plain b hb hi
    exact ⟨hin.mono (Nat.le_refl _) hgrow, addHeap_apart h hapart hin⟩
  case blocks => exact h.blocks
  case check =>
    intro c' ret size hc'
    obtain ⟨hin, hapart, hblocks⟩ := h.check c' ret size hc'
    exact ⟨hin.mono (Nat.le_refl _) hgrow, addHeap_apart h hapart hin, hblocks⟩
  case checks => exact h.checks
  case fits => exact h.fits

theorem Inv.heapInit (h : Inv cfg s)
    (hwrap : cfg.OutOfMemory s.shmemNext heap_size ∨ 9 < s.nextFreeHandler ∨ s.shmemNext + heap_size < 2 ^ 32) :
    Inv cfg (s.heapInit c cfg heap_size) := by
  unfold State.heapInit
  split
  · exact h.goto (by simp) trivial
  · rename_i hok
    obtain ⟨hmem, hfree⟩ := not_or.1 hok
    have hlt := (hwrap.resolve_left hmem).resolve_left hfree
    exact (h.addHeap hlt (not_outOfMemory hmem hlt)).goto (by simp) trivial

end AddHeap

section AddAllocated

variable {handler bytes ret allocated : Nat}

theorem addAllocated_handler_of_ne {i : Nat} (hi : i ≠ handler) :
    (s.addAllocated handler bytes ret allocated).heapHandlers i = s.heapHandlers i := Function.update_of_ne hi _ _

theorem addAllocated_handler : (s.addAllocated handler bytes ret allocated).heapHandlers handler =
    { s.heapHandlers handler with allocated := (allocated + bytes) % 2 ^ 32 } := Function.update_self _ _ _

theorem addAllocated_heap (i : Nat) : (s.addAllocated handler bytes ret allocated).heap i = s.heap i := by
  by_cases hi : i = handler
  · rw [hi, State.heap, addAllocated_handler, State.heap]
  · rw [State.heap, addAllocated_handler_of_ne hi, State.heap]

theorem addAllocated_startAddr (i : Nat) :
    ((s.addAllocated handler bytes ret allocated).heapHandlers i).startAddr = (s.heapHandlers i).startAddr :=
  congrArg Span.start (addAllocated_heap i)

theorem addAllocated_size (i : Nat) :
    ((s.addAllocated handler bytes ret allocated).heapHandlers i).size = (s.heapHandlers i).size :=
  congrArg Span.len (addAllocated_heap i)

theorem addAllocated_allocated : ((s.addAllocated handler bytes ret allocated).heapHandlers handler).allocated =
    (allocated + bytes) % 2 ^ 32 := congrArg HeapHandler.allocated addAllocated_handler

/-- A heap ends below the stacks. -/
theorem Inv.heap_le (h : Inv cfg s) (i : Nat) : (s.heapHandlers i).size = 0 ∨ i < s.nextFreeHandler ∧
    (s.heapHandlers i).startAddr + (s.heapHandlers i).size ≤ cfg.stackLimit := by
  by_cases hi : i < s.nextFreeHandler
  · rcases h.heap i hi with hlen | ⟨-, hend⟩
    · exact Or.inl hlen
    · exact Or.inr ⟨hi, Nat.le_trans hend h.next.2⟩
  · left
    rw [h.free i (Nat.le_of_not_lt hi)]

/-- A block that is not empty begins where the allocated part of its heap ends, and fits. -/
def State.Cuts (s : State n) (handler bytes ret : Nat) : Prop :=
  bytes = 0 ∨ handler < s.nextFreeHandler ∧
    ret = (s.heapHandlers handler).startAddr + (s.heapHandlers handler).allocated ∧
    (s.heapHandlers handler).allocated + bytes ≤ (s.heapHandlers handler).size

theorem Inv.allocated_add (h : Inv cfg s) (handler : Nat) (hbytes : bytes < 2 ^ 31) :
    ((s.heapHandlers handler).allocated + bytes) % 2 ^ 32 = (s.heapHandlers handler).allocated + bytes := by
  have hle := h.allocated handler
  have hsize := h.heap_le handler
  have hlimit := cfg.stackLimit_lt
  exact Nat.mod_eq_of_lt (by omega)

/-- Neither the check nor the address wraps around. -/
theorem Inv.cuts (h : Inv cfg s) (hbytes : bytes < 2 ^ 31)
    (hret : bytes = 0 ∨
      ret = ((s.heapHandlers handler).startAddr + (s.heapHandlers handler).allocated) % 2 ^ 32 ∧
      ((s.heapHandlers handler).allocated + bytes) % 2 ^ 32 ≤ (s.heapHandlers handler).size) :
    s.Cuts handler bytes ret := by
  rcases hret with hzero | ⟨hret, hfit⟩
  · exact Or.inl hzero
  · have hle := h.allocated handler
    have hlimit := cfg.stackLimit_lt
    rw [h.allocated_add handler hbytes] at hfit
    rcases h.heap_le handler with hempty | ⟨hgiven, hend⟩
    · exact Or.inl (by omega)
    · rw [Nat.mod_eq_of_lt (by omega)] at hret
      exact Or.inr ⟨hgiven, hret, hfit⟩

/-- It is apart from the blocks before. -/
theorem Inv.cuts_apart (h : Inv cfg s) (hcut : s.Cuts handler bytes ret) {b : Block} (hb : b ∈ s.blocks) :
    Apart ⟨ret, bytes⟩ b.span := by
  rcases hcut with hzero | ⟨hgiven, hstart, hfit⟩
  · exact apart_of_len hzero
  · have hin : Within (s.heap handler).start ((s.heap handler).start + (s.heap handler).len) ⟨ret, bytes⟩ :=
      Or.inr ⟨by simp only [State.heap]; omega, by simp only [State.heap]; omega⟩
    cases hi : b.handler with
    | none => exact hin.apart_of ((h.plain b hb hi).2 handler hgiven)
    | some i =>
      by_cases hsame : i = handler
      · subst hsame
        exact ((h.block b hb i hi).apart (within_self ⟨ret, bytes⟩) (Nat.le_of_eq hstart.symm)).symm
      · by_cases hlt : i < s.nextFreeHandler
        · exact hin.apart_of_apart (h.block_heap hb hi) (h.heaps handler hgiven i hlt (Ne.symm hsame))
        · exact (apart_of_len (h.block_free hb hi (Nat.le_of_not_lt hlt))).symm

/-- A block is cut off behind what is allocated of its heap. -/
theorem Inv.addAllocated (h : Inv cfg s) (hbytes : bytes < 2 ^ 31) (hcut : s.Cuts handler bytes ret) :
    Inv cfg (s.addAllocated handler bytes ret (s.heapHandlers handler).allocated) := by
  have hadd := h.allocated_add handler hbytes
  have hgrow : ∀ i, (s.heapHandlers i).allocated ≤
      ((s.addAllocated handler bytes ret (s.heapHandlers handler).allocated).heapHandlers i).allocated := by
    intro i
    by_cases hi : i = handler
    · subst hi
      rw [addAllocated_allocated, hadd]
      exact Nat.le_add_right _ _
    · exact Nat.le_of_eq (congrArg HeapHandler.allocated (addAllocated_handler_of_ne hi).symm)
  constructor
  case next => exact h.next
  case free =>
    intro i hi
    by_cases hi' : i = handler
    · subst hi'
      have hi : s.nextFreeHandler ≤ i := hi
      have hbytes : bytes = 0 := by
        rcases hcut with hzero | ⟨hgiven, -⟩
        · exact hzero
        · omega
      rw [addAllocated_handler]
      simp [h.free i hi, hbytes]
    · rw [addAllocated_handler_of_ne hi']
      exact h.free i hi
  case heap =>
    intro i hi
    rw [addAllocated_heap]
    exact h.heap i hi
  case heaps =>
    intro i hi j hj hij
    rw [addAllocated_heap, addAllocated_heap]
    exact h.heaps i hi j hj hij
  case allocated =>
    intro i
    rw [addAllocated_size]
    by_cases hi : i = handler
    · subst hi
      rw [addAllocated_allocated, hadd]
      rcases hcut with hzero | ⟨-, -, hfit⟩
      · rw [hzero]
        exact h.allocated i
      · exact hfit
    · rw [addAllocated_handler_of_ne hi]
      exact h.allocated i
  case block =>
    intro b hb i hi
    rw [addAllocated_startAddr]
    rcases List.mem_cons.1 hb with rfl | hb
    · obtain rfl : handler = i := Option.some.inj hi
      rw [addAllocated_allocated, hadd]
      rcases hcut with hzero | ⟨-, hstart, -⟩
      · exact Or.inl hzero
      · exact Or.inr ⟨by dsimp only; omega, by dsimp only; omega⟩
    · exact (h.block b hb i hi).mono (Nat.le_refl _) (Nat.add_le_add_left (hgrow i) _)
  case plain =>
    intro b hb hi
    rcases List.mem_cons.1 hb with rfl | hb
    · cases hi
    · refine ⟨(h.plain b hb hi).1, fun i hi' => ?_⟩
      rw [addAllocated_heap]
      exact (h.plain b hb hi).2 i hi'
  case blocks => exact List.pairwise_cons.2 ⟨fun b hb => h.cuts_apart hcut hb, h.blocks⟩
  case check =>
    intro c' ret' size hc'
    obtain ⟨hin, hheap, hblocks⟩ := h.check c' ret' size hc'
    refine ⟨hin, fun i hi => ?_, fun b hb hi => ?_⟩
    · rw [addAllocated_heap]
      exact hheap i hi
    · rcases List.mem_cons.1 hb with rfl | hb
      · cases hi
      · exact hblocks b hb hi
  case checks => exact h.checks
  case fits => exact h.fits

end AddAllocated

/-- A plain block is cut off behind everything else, unless its check will fail. -/
theorem Inv.bump (h : Inv cfg s) {size : Nat} (hsize : size < 2 ^ 31) :
    Aborts cfg (s.bump c size) ∨ Inv cfg (s.bump c size) := by
  have hself : (s.bump c size).pc c = .check s.shmemNext size := Function.update_self _ _ _
  by_cases hmem : cfg.OutOfMemory s.shmemNext size
  · exact Or.inl ⟨c, Or.inr ⟨_, _, hself, hmem⟩⟩
  · right
    have hnext := h.next
    have hlt : s.shmemNext + size < 2 ^ 32 := by
      have := cfg.stackLimit_lt
      omega
    have hle := not_outOfMemory hmem hlt
    have hmod : (s.bump c size).shmemNext = s.shmemNext + size := Nat.mod_eq_of_lt hlt
    have hgrow : s.shmemNext ≤ (s.bump c size).shmemNext := by omega
    have hnew : ∀ x, Within cfg.first s.shmemNext x → Apart x ⟨s.shmemNext, size⟩ :=
      fun x hx => hx.apart (within_self ⟨s.shmemNext, size⟩) (Nat.le_refl _)
    -- the checks of the others are those of before
    have hother : ∀ c' ≠ c, (s.bump c size).pc c' = s.pc c' := fun c' hc' => Function.update_of_ne hc' _ _
    constructor
    case next => omega
    case free => exact h.free
    case heap => exact fun i hi => (h.heap i hi).mono (Nat.le_refl _) hgrow
    case heaps => exact h.heaps
    case allocated => exact h.allocated
    case block => exact h.block
    case plain => exact fun b hb hi => ⟨(h.plain b hb hi).1.mono (Nat.le_refl _) hgrow, (h.plain b hb hi).2⟩
    case blocks => exact h.blocks
    case check =>
      intro c' ret size' hc'
      by_cases hcc : c' = c
      · subst hcc
        obtain ⟨rfl, rfl⟩ := Pc.check.inj (hself.symm.trans hc')
        refine ⟨Or.inr ⟨hnext.1, Nat.le_of_eq hmod.symm⟩, fun i hi => hnew _ (h.heap i hi), fun b hb hi => ?_⟩
        exact hnew _ (h.plain b hb hi).1
      · rw [hother c' hcc] at hc'
        obtain ⟨hin, hrest⟩ := h.check c' ret size' hc'
        exact ⟨hin.mono (Nat.le_refl _) hgrow, hrest⟩
    case checks =>
      intro c₁ c₂ ret₁ size₁ ret₂ size₂ hne h₁ h₂
      by_cases hc₁ : c₁ = c
      · subst hc₁
        obtain ⟨rfl, rfl⟩ := Pc.check.inj (hself.symm.trans h₁)
        rw [hother c₂ (Ne.symm hne)] at h₂
        exact (hnew _ (h.check c₂ ret₂ size₂ h₂).1).symm
      · rw [hother c₁ hc₁] at h₁
        by_cases hc₂ : c₂ = c
        · subst hc₂
          obtain ⟨rfl, rfl⟩ := Pc.check.inj (hself.symm.trans h₂)
          exact hnew _ (h.check c₁ ret₁ size₁ h₁).1
        · rw [hother c₂ hc₂] at h₂
          exact h.checks c₁ c₂ _ _ _ _ hne h₁ h₂
    case fits => exact goto_fits h.fits hsize

theorem Inv.checkPlain (h : Inv cfg s) {ret size : Nat} (hc : s.pc c = .check ret size) :
    Inv cfg (s.checkPlain c cfg ret size) := by
  unfold State.checkPlain
  split
  · exact h.goto (by simp) trivial
  · obtain ⟨hin, hheap, hplain⟩ := h.check c ret size hc
    have hgoto := h.goto (c := c) (p := .idle) (by simp) trivial
    constructor
    case next => exact h.next
    case free => exact h.free
    case heap => exact h.heap
    case heaps => exact h.heaps
    case allocated => exact h.allocated
    case block =>
      intro b hb i hi
      rcases List.mem_cons.1 hb with rfl | hb
      · cases hi
      · exact h.block b hb i hi
    case plain =>
      intro b hb hi
      rcases List.mem_cons.1 hb with rfl | hb
      · exact ⟨hin, hheap⟩
      · exact h.plain b hb hi
    case blocks =>
      refine List.pairwise_cons.2 ⟨fun b hb => ?_, h.blocks⟩
      cases hi : b.handler with
      | none => exact (hplain b hb hi).symm
      | some i => exact (h.block_apart hb hi hheap).symm
    case check =>
      intro c' ret' size' hc'
      obtain ⟨hne, hc'⟩ := goto_check (by simp) hc'
      obtain ⟨hin', hheap', hplain'⟩ := h.check c' ret' size' hc'
      refine ⟨hin', hheap', fun b hb hi => ?_⟩
      rcases List.mem_cons.1 hb with rfl | hb
      · exact h.checks c c' _ _ _ _ (Ne.symm hne) hc hc'
      · exact hplain' b hb hi
    case checks => exact hgoto.checks
    case fits => exact hgoto.fits

/-- The core that moves. -/
def Act.core : Act n → Fin n
  | .heapInit c _ | .shmalloc c _ _ | .plain c _ | .go c => c

/-- Nothing that a core does changes where another one is. -/
theorem step_pc {a : Act n} (h : step cfg s a = some t) {c' : Fin n} (hc : c' ≠ a.core) : t.pc c' = s.pc c' := by
  have hgoto : ∀ (u : State n) (p : Pc), (u.goto a.core p).pc c' = u.pc c' := fun u p => Function.update_of_ne hc _ _
  cases a with
  | heapInit c _ | shmalloc c _ _ | plain c _ =>
    simp only [step, Option.ite_none_right_eq_some, Option.some.injEq] at h
    obtain ⟨-, rfl⟩ := h
    exact hgoto s _
  | go c =>
    have h : advance cfg s c = some t := h
    unfold advance at h
    split at h
    case h_1 | h_11 => cases h
    case h_2 =>
      cases h
      unfold State.heapInit
      split <;> exact hgoto _ _
    case h_4 =>
      cases h
      unfold State.checkHandler
      split <;> exact hgoto _ _
    case h_10 =>
      cases h
      unfold State.checkPlain
      split <;> exact hgoto _ _
    all_goals
      cases h
      exact hgoto _ _

theorem Aborts.step {a : Act n} (h : Aborts cfg s) (hstep : step cfg s a = some t) : Aborts cfg t := by
  obtain ⟨c, hc⟩ := h
  by_cases hcore : c = a.core
  · subst hcore
    cases a with
    | heapInit c _ | shmalloc c _ _ | plain c _ =>
      simp only [SharedHeap.step, Option.ite_none_right_eq_some] at hstep
      rw [show (Act.core _ : Fin n) = c from rfl, hstep.1.1] at hc
      rcases hc with hc | ⟨_, _, hc, -⟩ <;> cases hc
    | go c =>
      have hstep : advance cfg s c = some t := hstep
      unfold advance at hstep
      rcases hc with hc | ⟨ret, size, hc, hmem⟩
      · rw [show s.pc c = .aborted from hc] at hstep
        cases hstep
      · rw [show s.pc c = .check ret size from hc] at hstep
        cases hstep
        refine ⟨c, Or.inl ?_⟩
        rw [State.checkPlain, if_pos hmem]
        exact Function.update_self _ _ _
  · refine ⟨c, ?_⟩
    rwa [step_pc hstep hcore]

/-! ## What a call has read

Behind its check a block fits, and it begins where the allocated part of the heap ends, unless it is empty. A `heap_init`
in between only gives away a handler that nothing fits in. -/

def HeapHandler.Room (h : HeapHandler) (bytes : Nat) : Prop := (h.allocated + bytes) % 2 ^ 32 ≤ h.size

/-- What was read is what is there. -/
def Pc.Current (heapHandlers : Nat → HeapHandler) : Pc → Prop
  | .allocatedRead handler _ allocated => allocated = (heapHandlers handler).allocated
  | .checked handler bytes => (heapHandlers handler).Room bytes
  | .startRead handler bytes start_addr =>
    (heapHandlers handler).Room bytes ∧ (bytes = 0 ∨ start_addr = (heapHandlers handler).startAddr)
  | .retSet handler bytes ret => (heapHandlers handler).Room bytes ∧
    (bytes = 0 ∨ ret = ((heapHandlers handler).startAddr + (heapHandlers handler).allocated) % 2 ^ 32)
  | .againRead handler bytes ret allocated => allocated = (heapHandlers handler).allocated ∧
    (heapHandlers handler).Room bytes ∧ (bytes = 0 ∨ ret = ((heapHandlers handler).startAddr + allocated) % 2 ^ 32)
  | .idle | .heapInit _ | .shmalloc _ _ | .plain _ | .check _ _ | .aborted => True

def Current (s : State n) : Prop := ∀ c, (s.pc c).Current s.heapHandlers

theorem Pc.Current.congr {p : Pc} {f g : Nat → HeapHandler} (h : p.Current f) (hfg : ∀ i, p.On i → g i = f i) :
    p.Current g := by
  cases p with
  | idle | heapInit _ | shmalloc _ _ | plain _ | check _ _ | aborted => trivial
  | allocatedRead i | checked i | startRead i | retSet i | againRead i =>
    simpa only [Pc.Current, hfg i rfl] using h

/-- A handler that was not given away has room for nothing. -/
theorem Pc.Current.addHeap {p : Pc} {f g : Nat → HeapHandler} {i next size : Nat} (h : p.Current f) (hfits : p.Fits)
    (hf : f i = ⟨0, 0, 0⟩) (hg : g i = ⟨next, size, 0⟩) (hfg : ∀ j ≠ i, g j = f j) : p.Current g := by
  by_cases hon : p.On i
  · have hroom : ∀ {bytes}, bytes < 2 ^ 31 → (f i).Room bytes → bytes = 0 := by
      intro bytes hlt hroom
      simp only [hf, HeapHandler.Room] at hroom
      omega
    cases p <;> simp only [Pc.On] at hon <;> subst hon <;> simp only [Pc.Current, Pc.Fits] at h hfits ⊢
    case allocatedRead => rw [h, hf, hg]
    case checked =>
      obtain rfl := hroom hfits h
      simp [HeapHandler.Room, hg]
    case startRead | retSet =>
      obtain rfl := hroom hfits h.1
      simp [HeapHandler.Room, hg]
    case againRead =>
      obtain rfl := hroom hfits h.2.1
      simp [HeapHandler.Room, hg, h.1, hf]
  · exact h.congr fun j hj => hfg j fun hji => hon (hji ▸ hj)

theorem Current.goto (h : Current s) {p : Pc} (hp : p.Current s.heapHandlers) : Current (s.goto c p) := by
  intro c'
  by_cases hc : c' = c
  · subst hc
    simpa only [State.goto, Function.update_self] using hp
  · simpa only [State.goto, Function.update_of_ne hc] using h c'

theorem Current.heapInit (h : Current s) (hinv : Inv cfg s) {heap_size : Nat} :
    Current (s.heapInit c cfg heap_size) := by
  unfold State.heapInit
  split
  · exact h.goto trivial
  · refine Current.goto (fun c' => ?_) trivial
    exact (h c').addHeap (hinv.fits c') (hinv.free _ (Nat.le_refl _)) (addHeap_handler hinv)
      fun j hj => addHeap_handler_of_ne hj

/-- The store of an undisturbed call. -/
theorem Current.addAllocated (h : Current s) (hinv : Inv cfg s) {handler bytes ret allocated : Nat}
    (hpc : s.pc c = .againRead handler bytes ret allocated)
    (halone : bytes = 0 ∨ ∀ c' ≠ c, ¬ (s.pc c').On handler) :
    Current ((s.addAllocated handler bytes ret allocated).goto c .idle) := by
  have hc := h c
  rw [hpc] at hc
  obtain ⟨rfl, -⟩ := hc
  intro c'
  change (Function.update s.pc c .idle c').Current _
  by_cases hcc : c' = c
  · rw [hcc, Function.update_self]
    trivial
  · rw [Function.update_of_ne hcc]
    refine (h c').congr fun i hi => ?_
    change (s.addAllocated handler bytes ret _).heapHandlers i = s.heapHandlers i
    by_cases hih : i = handler
    · subst hih
      rcases halone with rfl | halone
      · have := hinv.allocated i
        have hlt : (s.heapHandlers i).allocated < 2 ^ 32 := by
          have := hinv.heap_le i
          have := cfg.stackLimit_lt
          omega
        rw [addAllocated_handler, Nat.add_zero, Nat.mod_eq_of_lt hlt]
      · exact absurd hi (halone c' hcc)
    · exact addAllocated_handler_of_ne hih

theorem Current.step {a : Act n} (h : Current s) (hinv : Inv cfg s) (hC : Undisturbed cfg s a)
    (hstep : step cfg s a = some t) : Current t := by
  cases a with
  | heapInit c _ | shmalloc c _ _ | plain c _ =>
    simp only [SharedHeap.step, Option.ite_none_right_eq_some, Option.some.injEq] at hstep
    exact hstep.2 ▸ h.goto trivial
  | go c =>
    have hc := h c
    unfold Undisturbed at hC
    change advance cfg s c = some t at hstep
    unfold advance at hstep
    cases hpc : s.pc c with
    | idle => simp [hpc] at hstep
    | aborted => simp [hpc] at hstep
    | heapInit heap_size =>
      simp only [hpc, Option.some.injEq] at hstep
      exact hstep ▸ h.heapInit hinv
    | shmalloc handler bytes =>
      simp only [hpc, Option.some.injEq] at hstep
      exact hstep ▸ h.goto rfl
    | allocatedRead handler bytes allocated =>
      simp only [hpc, Option.some.injEq, Pc.Current] at hstep hc
      subst hstep hc
      unfold State.checkHandler
      split
      · exact h.goto trivial
      · exact h.goto (Nat.le_of_not_lt ‹_›)
    | checked handler bytes =>
      simp only [hpc, Option.some.injEq] at hstep hc
      exact hstep ▸ h.goto ⟨hc, Or.inr rfl⟩
    | startRead handler bytes start_addr =>
      simp only [hpc, Option.some.injEq] at hstep hc
      exact hstep ▸ h.goto ⟨hc.1, hc.2.imp_right fun hstart => by rw [hstart]⟩
    | retSet handler bytes ret =>
      simp only [hpc, Option.some.injEq] at hstep hc
      exact hstep ▸ h.goto ⟨rfl, hc⟩
    | againRead handler bytes ret allocated =>
      simp only [hpc, Option.some.injEq] at hstep hC
      exact hstep ▸ h.addAllocated hinv hpc hC
    | plain size =>
      simp only [hpc, Option.some.injEq] at hstep
      exact hstep ▸ fun c' => h.goto (c := c) (p := .check s.shmemNext size) trivial c'
    | check ret size =>
      simp only [hpc, Option.some.injEq] at hstep
      subst hstep
      unfold State.checkPlain
      split
      · exact h.goto trivial
      · exact fun c' => h.goto (c := c) (p := .idle) trivial c'

/-- **One step** of an undisturbed run. -/
theorem Inv.step {a : Act n} (h : Inv cfg s) (hread : Current s) (hC : Undisturbed cfg s a)
    (hstep : step cfg s a = some t) : Aborts cfg t ∨ Inv cfg t := by
  cases a with
  | heapInit c _ | plain c _ =>
    simp only [SharedHeap.step, Option.ite_none_right_eq_some, Option.some.injEq] at hstep
    obtain ⟨⟨-, hfits⟩, rfl⟩ := hstep
    exact Or.inr (h.goto (by simp) hfits)
  | shmalloc c _ _ =>
    simp only [SharedHeap.step, Option.ite_none_right_eq_some, Option.some.injEq] at hstep
    obtain ⟨⟨-, -, hfits⟩, rfl⟩ := hstep
    exact Or.inr (h.goto (by simp) hfits)
  | go c =>
    have hfits := h.fits c
    have hc := hread c
    unfold Undisturbed at hC
    change advance cfg s c = some t at hstep
    unfold advance at hstep
    cases hpc : s.pc c with
    | idle => simp [hpc] at hstep
    | aborted => simp [hpc] at hstep
    | heapInit heap_size =>
      simp only [hpc, Option.some.injEq] at hstep hC
      exact Or.inr (hstep ▸ h.heapInit hC)
    | allocatedRead handler bytes allocated =>
      simp only [hpc, Option.some.injEq] at hstep hfits
      subst hstep
      right
      unfold State.checkHandler
      split
      · exact h.goto (by simp) trivial
      · exact h.goto (by simp) hfits
    | againRead handler bytes ret allocated =>
      simp only [hpc, Option.some.injEq, Pc.Current] at hstep hfits hc
      obtain ⟨rfl, hroom, hret⟩ := hc
      have hadd := h.addAllocated hfits (h.cuts hfits (hret.imp_right fun hret => ⟨hret, hroom⟩))
      exact Or.inr (hstep ▸ hadd.goto (by simp) trivial)
    | plain size =>
      simp only [hpc, Option.some.injEq] at hstep hfits
      exact hstep ▸ h.bump hfits
    | check ret size =>
      simp only [hpc, Option.some.injEq] at hstep
      exact Or.inr (hstep ▸ h.checkPlain hpc)
    | shmalloc handler bytes | checked handler bytes | startRead handler bytes _ | retSet handler bytes _ =>
      simp only [hpc, Option.some.injEq] at hstep hfits
      exact Or.inr (hstep ▸ h.goto (by simp) hfits)

/-- **The allocators**: in every undisturbed run of any number of cores a call aborts, or no address is in two
blocks, each block is in its heap, and the heaps are apart and below the stacks. -/
theorem heap_safe {as : List (Act n)} (hC : Trans.Along (step cfg) (Undisturbed cfg) (init cfg) as)
    (hr : Trans.run (step cfg) (init cfg) as = some s) : Aborts cfg s ∨ Safe cfg s := by
  have hstep : ∀ (s : State n) a t, Aborts cfg s ∨ Inv cfg s ∧ Current s → Undisturbed cfg s a →
      step cfg s a = some t → Aborts cfg t ∨ Inv cfg t ∧ Current t := by
    intro s a t h hCa hstep
    rcases h with h | ⟨h, hread⟩
    · exact Or.inl (h.step hstep)
    · exact (h.step hread hCa hstep).imp_right fun ht => ⟨ht, hread.step h hCa hstep⟩
  have h := Trans.run_inv_along _ hstep (Or.inr ⟨init_inv, fun _ => trivial⟩) hC hr
  exact h.imp_right fun h => h.1.safe

/-- The platform: TCDM of 512 KB at 0x08000000, with the last 128 KB local-shared, stacks of 1 KB, 16 cores. -/
def platform : Config where
  SHARED_BASE := 0x08000000
  SHARED_SIZE := 0x00080000
  LOCAL_SHARED_SIZE := 0x00020000
  STACK_SIZE := 0x400
  prv_num_procs := 16
  address := 0x400
  fits := by decide
  top := by decide

def core0 : Fin 2 := ⟨0, Nat.zero_lt_two⟩

def core1 : Fin 2 := ⟨1, Nat.one_lt_two⟩

/-- A call of `shmalloc` and its six steps. -/
def call (c : Fin 2) (handler bytes : Nat) : List (Act 2) := .shmalloc c handler bytes :: List.replicate 6 (.go c)

def twoCalls : List (Act 2) := [.heapInit core0 2048, .go core0] ++ call core0 0 64 ++ call core1 0 64

theorem heap_safe_two : ∃ s, Trans.run (step platform) (init platform) twoCalls = some s ∧
    s.blocks = [⟨some 0, 0x08000440, 64⟩, ⟨some 0, 0x08000400, 64⟩] ∧ (Aborts platform s ∨ Safe platform s) := by
  have hsome : (Trans.run (step platform) (init platform) twoCalls).isSome := by decide +kernel
  have hblocks : (Trans.run (step platform) (init platform) twoCalls).map State.blocks =
      some [⟨some 0, 0x08000440, 64⟩, ⟨some 0, 0x08000400, 64⟩] := by decide +kernel
  obtain ⟨s, hrun⟩ := Option.isSome_iff_exists.1 hsome
  rw [hrun] at hblocks
  exact ⟨s, hrun, Option.some.inj hblocks, heap_safe (by decide +kernel) hrun⟩

theorem not_aborts_idle (h : ∀ c, s.pc c = .idle) : ¬ Aborts cfg s := by
  rintro ⟨c, hc | ⟨ret, size, hc, -⟩⟩ <;> rw [h c] at hc <;> cases hc

/-- The two calls step by step in turn: both read 0 in `allocated`. -/
def race : List (Act 2) := [.heapInit core0 2048, .go core0, .shmalloc core0 0 64, .shmalloc core1 0 64] ++
  (List.replicate 6 [.go core0, .go core1]).flatten

theorem not_safe_race : ∃ s, Trans.run (step platform) (init platform) race = some s ∧
    ¬ (Aborts platform s ∨ Safe platform s) := by
  have hsome : (Trans.run (step platform) (init platform) race).isSome := by decide +kernel
  have hblocks : (Trans.run (step platform) (init platform) race).map State.blocks =
      some [⟨some 0, 0x08000400, 64⟩, ⟨some 0, 0x08000400, 64⟩] := by decide +kernel
  have hidle : ∀ c, (Trans.run (step platform) (init platform) race).map (fun s => s.pc c) = some .idle := by
    decide +kernel
  obtain ⟨s, hrun⟩ := Option.isSome_iff_exists.1 hsome
  rw [hrun] at hblocks hidle
  refine ⟨s, hrun, fun h => ?_⟩
  have hsafe := h.resolve_left (not_aborts_idle fun c => Option.some.inj (hidle c))
  have hapart := hsafe.blocks
  rw [Option.some.inj hblocks] at hapart
  -- the first address is in both
  exact List.rel_of_pairwise_cons hapart List.mem_cons_self 0x08000400 (by decide) (by decide)

/-- A size that makes `shmem_next + heap_size` wrap around to an address below the limits. -/
def wrap : List (Act 2) := [.heapInit core0 (2 ^ 32 - 256), .go core0]

theorem not_safe_wrap : ∃ s, Trans.run (step platform) (init platform) wrap = some s ∧
    ¬ (Aborts platform s ∨ Safe platform s) := by
  have hsome : (Trans.run (step platform) (init platform) wrap).isSome := by decide +kernel
  have hheap : (Trans.run (step platform) (init platform) wrap).map (fun s => (s.nextFreeHandler, s.heap 0)) =
      some (1, ⟨0x08000400, 2 ^ 32 - 256⟩) := by decide +kernel
  have hidle : ∀ c, (Trans.run (step platform) (init platform) wrap).map (fun s => s.pc c) = some .idle := by
    decide +kernel
  obtain ⟨s, hrun⟩ := Option.isSome_iff_exists.1 hsome
  rw [hrun] at hheap hidle
  refine ⟨s, hrun, fun h => ?_⟩
  have hsafe := h.resolve_left (not_aborts_idle fun c => Option.some.inj (hidle c))
  obtain ⟨hfree, hspan⟩ := Prod.mk.inj (Option.some.inj hheap)
  have hbelow := hsafe.below 0 (by rw [hfree]; exact Nat.one_pos) platform.stackLimit
  rw [hspan] at hbelow
  exact absurd (hbelow (by decide)).2 (Nat.lt_irrefl _)

end VirtualSoc.Gomp.SharedHeap
