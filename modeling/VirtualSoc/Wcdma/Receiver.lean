import Mathlib.Tactic.Ring
import VirtualSoc.Lib.Threads
import VirtualSoc.Wcdma.Fir

/-!
# The receiver (virtualsoc-apps/wcdma/wcdma.c, fir.c, qpsk.c, virtualsoc-apps/wcdma_hw/wcdma.c)

For each symbol the main loop shifts the new samples in, filters I and Q, puts one sample of four of the two
in turn behind the ones of the symbol before (`QPSKinv`), and correlates with the code of the user. `fir` has the two
filters done by the threads 1 and 2 of a parallel region, in any interleaving of their memory accesses.

* `fir_eq`: the schedule does not matter, as long as it goes on until the end of the region.
* `receive_bits`: every bit that is printed, as a sum of the convolutions of I and Q, for any size of the team.
* `rake_unrolled`: the loop is the sum that the programs with the accelerator have in its place.
* `hwReceive_bits`: there the array that it is taken of has other cells than in `receive`.
-/

namespace VirtualSoc.Wcdma

open Convolution

/-! ## `fir` -/

/-- Where a thread is in `parallelFir`: at the head of the outer loop, or of the inner one. -/
inductive Place
  | row (i : Nat)
  | cell (i j : Nat)
deriving DecidableEq, Repr

structure Worker where
  place : Place
  result : List Word

/-- One turn in `parallelFir` (fir.c:57): a store to `result`, or the end of the inner loop. At the end the thread
waits for the others. -/
def workerStep (filter : List Word) (filterSize : Nat) (data : List Word) (dataSize : Nat) (w : Worker) : Option Worker :=
  match w.place with
  | .row i => if i < dataSize then (w.result.write i 0).map fun r => ⟨.cell i 0, r⟩ else some w
  | .cell i j =>
    if j < filterSize then do
      let r ← w.result.write i ((← w.result[i]?) + (← filter[j]?) * (← data[i + filterSize - j]?))
      some ⟨.cell i (j + 1), r⟩
    else some { w with place := .row (i + 1) }

/-- The thread `omp_get_thread_num() = myId` in `fir`. -/
def firThread (filter : List Word) (filterSize : Nat) (dataI dataQ : List Word) (dataSize myId : Nat) :
    Worker → Option Worker :=
  if myId = 1 then workerStep filter filterSize dataI dataSize
  else if myId = 2 then workerStep filter filterSize dataQ dataSize
  else some

/-- `fir` (fir.c:4) with a team of `nthreads` and this schedule, that goes on until all threads are at the end. -/
def fir (filter : List Word) (filterSize : Nat) (dataI dataQ : List Word) (dataSize : Nat) (resultI resultQ : List Word)
    (nthreads : Nat) (schedule : List Nat) : Option (List Word × List Word) := do
  let w ← Trans.run (Threads.turn (firThread filter filterSize dataI dataQ dataSize))
    (fun myId => ⟨.row 0, if myId = 1 then resultI else resultQ⟩) (schedule.filter (· < nthreads))
  if (1 < nthreads → (w 1).place = .row dataSize) ∧ (2 < nthreads → (w 2).place = .row dataSize) then
    some ((w 1).result, (w 2).result)
  else none

section Fir

variable {filter : List Word} {X Y : Int → Word} {b : Int} {N n nthreads : Nat} {w : Worker}

/-- The sample `i` of the block after the first `j` cells of the filter. -/
def partialSum (filter : List Word) (X : Int → Word) (n : Int) (j : Nat) : Word :=
  ((List.range j).map fun j : Nat => filter.getD j 0 * X (n - j)).sum

theorem partialSum_succ (m : Int) (j : Nat) :
    partialSum filter X m (j + 1) = partialSum filter X m j + filter.getD j 0 * X (m - j) := by
  simp [partialSum, List.range_succ]

theorem partialSum_length (m : Int) : partialSum filter X m filter.length = conv filter X m :=
  (conv_eq_list_sum ..).symm

/-- The samples before the place are filtered, the one at it as far as the inner loop is. -/
def Worker.Ok (filter : List Word) (X : Int → Word) (b : Int) (n : Nat) (w : Worker) : Prop :=
  ∃ f : Nat → Word, w.result = (List.range n).map f ∧
    match w.place with
    | .row i => i ≤ n ∧ ∀ k < i, f k = conv filter X (b + k + filter.length)
    | .cell i j => i < n ∧ j ≤ filter.length ∧ (∀ k < i, f k = conv filter X (b + k + filter.length)) ∧
        f i = partialSum filter X (b + i + filter.length) j

/-- The turns that the thread still needs. -/
def Worker.left (filterSize n : Nat) (w : Worker) : Nat :=
  match w.place with
  | .row i => (n - i) * (filterSize + 2)
  | .cell i j => (filterSize - j + 1) + (n - (i + 1)) * (filterSize + 2)

theorem workerStep_ok (hN : n + filter.length ≤ N) (h : w.Ok filter X b n) :
    ∃ w', workerStep filter filter.length (cells X b N) n w = some w' ∧ w'.Ok filter X b n ∧
      w'.left filter.length n ≤ w.left filter.length n - 1 := by
  obtain ⟨f, hr, h⟩ := h
  obtain ⟨place, result⟩ := w
  subst hr
  cases place with
  | row i =>
    by_cases hi : i < n
    · refine ⟨⟨.cell i 0, (List.range n).map (Function.update f i 0)⟩, ?_, ⟨_, rfl, hi, Nat.zero_le _, fun k hk => ?_, ?_⟩, ?_⟩
      · simp [workerStep, hi, List.write_map_range hi]
      · rw [Function.update_of_ne (by omega)]
        exact h.2 k hk
      · rw [Function.update_self]
        rfl
      · simp only [Worker.left, Nat.sub_zero]
        obtain ⟨m, hm⟩ : ∃ m, n - i = m + 1 := ⟨n - i - 1, by omega⟩
        rw [hm, show n - (i + 1) = m by omega, Nat.add_mul]
        omega
    · refine ⟨_, if_neg hi, ⟨f, rfl, h⟩, ?_⟩
      simp only [Worker.left, show n - i = 0 by omega, Nat.zero_mul, Nat.le_refl, Nat.zero_sub]
  | cell i j =>
    obtain ⟨hi, hj, hbefore, hat⟩ := h
    by_cases hlt : j < filter.length
    · have hread : (cells X b N)[i + filter.length - j]? = some (X (b + i + filter.length - j)) := by
        rw [getElem?_cells (by omega)]
        congr 2
        omega
      refine ⟨⟨.cell i (j + 1), (List.range n).map (Function.update f i (f i + filter[j] * X (b + i + filter.length - j)))⟩,
        ?_, ⟨_, rfl, hi, hlt, fun k hk => ?_, ?_⟩, ?_⟩
      · simp [workerStep, hlt, hread, List.getElem?_map_range hi, List.write_map_range hi]
      · rw [Function.update_of_ne (by omega)]
        exact hbefore k hk
      · rw [Function.update_self, partialSum_succ, hat]
        simp [hlt]
      · simp only [Worker.left]
        omega
    · obtain rfl : j = filter.length := by omega
      refine ⟨_, if_neg hlt, ⟨f, rfl, hi, fun k hk => ?_⟩, ?_⟩
      · rcases Nat.lt_succ_iff_lt_or_eq.1 hk with hk | rfl
        · exact hbefore k hk
        · rw [hat, partialSum_length]
      · simp only [Worker.left]
        omega

/-- A thread that had enough turns has filtered the block. -/
theorem turns_worker {result : List Word} {turns : Nat} (hresult : result.length = n) (hN : n + filter.length ≤ N)
    (hturns : n * (filter.length + 2) ≤ turns) :
    Threads.turns (workerStep filter filter.length (cells X b N) n) turns ⟨.row 0, result⟩ =
      some ⟨.row n, (List.range n).map fun i : Nat => conv filter X (b + i + filter.length)⟩ := by
  have hok : Worker.Ok filter X b n ⟨.row 0, result⟩ := by
    refine ⟨fun i => result.getD i 0, ?_, Nat.zero_le n, fun k hk => absurd hk (Nat.not_lt_zero k)⟩
    refine List.ext_getElem (by simp [hresult]) fun i h1 h2 => ?_
    simp [h1]
  obtain ⟨w, hw, ⟨f, hr, hplace⟩, hleft⟩ := Threads.turns_inv (Worker.Ok filter X b n) (Worker.left filter.length n)
    (fun w hw => workerStep_ok hN hw) turns hok
  rw [hw]
  have hzero : w.left filter.length n = 0 := by
    have : Worker.left filter.length n ⟨.row 0, result⟩ = n * (filter.length + 2) := rfl
    omega
  obtain ⟨place, r⟩ := w
  subst hr
  cases place with
  | row i =>
    have hi : i = n := by
      simp only [Worker.left, Nat.mul_eq_zero] at hzero
      have := hplace.1
      omega
    subst hi
    refine congrArg some (congrArg (Worker.mk _) (List.map_congr_left fun k hk => ?_))
    exact hplace.2 k (List.mem_range.1 hk)
  | cell i j =>
    simp only [Worker.left] at hzero
    omega

/-- The block filtered, if there is a thread for it. -/
def block (filter : List Word) (X : Int → Word) (b : Int) (n : Nat) (result : List Word) (runs : Bool) : List Word :=
  if runs then (List.range n).map fun i : Nat => conv filter X (b + i + filter.length) else result

/-- **The two filters**, in any order of the accesses: each is done if the team has a thread for it. -/
theorem fir_eq {resultI resultQ : List Word} {schedule : List Nat} (hI : resultI.length = n) (hQ : resultQ.length = n)
    (hN : n + filter.length ≤ N) (h1 : n * (filter.length + 2) ≤ schedule.count 1)
    (h2 : n * (filter.length + 2) ≤ schedule.count 2) :
    fir filter filter.length (cells X b N) (cells Y b N) n resultI resultQ nthreads schedule =
      some (block filter X b n resultI (1 < nthreads), block filter Y b n resultQ (2 < nthreads)) := by
  have hcount : ∀ k, (schedule.filter (· < nthreads)).count k = if k < nthreads then schedule.count k else 0 := by
    intro k
    by_cases hk : k < nthreads
    · rw [if_pos hk, List.count_filter (by simpa using hk)]
    · rw [if_neg hk, List.count_eq_zero]
      simp [hk]
  have hrun : Trans.run (Threads.turn (firThread filter filter.length (cells X b N) (cells Y b N) n))
      (fun myId => ⟨.row 0, if myId = 1 then resultI else resultQ⟩) (schedule.filter (· < nthreads)) =
      some fun myId =>
        if myId = 1 then ⟨.row (if 1 < nthreads then n else 0), block filter X b n resultI (1 < nthreads)⟩
        else if myId = 2 then ⟨.row (if 2 < nthreads then n else 0), block filter Y b n resultQ (2 < nthreads)⟩
        else ⟨.row 0, resultQ⟩ := by
    refine Threads.run_turn.2 fun k => ?_
    rw [hcount]
    by_cases hk1 : k = 1
    · subst hk1
      by_cases hn : 1 < nthreads
      · simp [firThread, block, hn, turns_worker hI hN h1]
      · simp [block, hn, Threads.turns]
    · by_cases hk2 : k = 2
      · subst hk2
        by_cases hn : 2 < nthreads
        · simp [firThread, block, hn, turns_worker hQ hN h2]
        · simp [block, hn, Threads.turns]
      · simp only [firThread, hk1, hk2, if_false]
        exact Threads.turns_some ..
  rw [fir, hrun]
  simp only [Option.bind_eq_bind, Option.bind_some]
  refine if_pos ⟨fun h => ?_, fun h => ?_⟩
  · simp [h]
  · simp [h]

end Fir

/-! ## `QPSKinv` and the rake receiver -/

/-- `QPSKinv` (qpsk.c:4) with `result` at the cell `base` of the array. -/
def QPSKinv (dataI dataQ : List Word) (dataSize base : Nat) (signal : List Word) : Option (List Word) := do
  let (signal, _) ← (List.range' 0 ((dataSize + 3) / 4) 4).foldlM (fun (r : List Word × Nat) i => do
    let (signal, offset) := r
    let signal ← signal.write (base + offset) (← dataI[i]?)
    let signal ← signal.write (base + (offset + 1)) (← dataQ[i]?)
    some (signal, offset + 2)) (signal, 0)
  some signal

def ovsf_code_user1 : List Word := [-1, -1, 1, 1, -1, -1, 1, 1]

/-- The addends of one chip of the code (wcdma.c:93). -/
def chip (code signal : List Word) (bit : Word) (iPosCode : Nat) : Option Word := do
  let c ← code[iPosCode]?
  some (bit + ((← signal[iPosCode]?) * c + (← signal[iPosCode + 1]?) * c + (← signal[iPosCode + 2]?) * c +
    (← signal[iPosCode + 3]?) * c + (← signal[iPosCode + 4]?) * c + (← signal[iPosCode + 5]?) * c))

/-- The rake receiver (wcdma.c:91). -/
def rake (code signal : List Word) : Option Word := (List.range SF).foldlM (chip code signal) 0

/-- `(bit > 0) ? 1 : 0`. -/
def decideBit (bit : Word) : Bool := 0 < bit.toInt

/-- What the programs with the accelerator have in the place of the loop (wcdma_hw/wcdma.c:71). -/
def unrolledBit (signal : List Word) : Option Word := do
  some (-(← signal[0]?) - 2 * (← signal[1]?) - (← signal[2]?) + 2 * (← signal[7]?) + (← signal[8]?) - (← signal[4]?) -
    2 * (← signal[5]?) + (← signal[10]?) + 2 * (← signal[11]?) + (← signal[12]?))

/-- **The unrolled sum** is the correlation with the code of the user. -/
theorem rake_unrolled (signal : List Word) : rake ovsf_code_user1 signal = unrolledBit signal := by
  rcases Nat.lt_or_ge 12 signal.length with h | h
  · have hread : ∀ i ≤ 12, signal[i]? = some (signal.getD i 0) := by
      intro i hi
      simp [List.getElem?_eq_getElem (show i < signal.length by omega)]
    have hchip : ∀ i ≤ 7, ∀ bit c, ovsf_code_user1[i]? = some c → chip ovsf_code_user1 signal bit i =
        some (bit + (signal.getD i 0 * c + signal.getD (i + 1) 0 * c + signal.getD (i + 2) 0 * c +
          signal.getD (i + 3) 0 * c + signal.getD (i + 4) 0 * c + signal.getD (i + 5) 0 * c)) := by
      intro i hi bit c hc
      simp only [chip, hc, hread _ (show i ≤ 12 by omega), hread _ (show i + 1 ≤ 12 by omega),
        hread _ (show i + 2 ≤ 12 by omega), hread _ (show i + 3 ≤ 12 by omega), hread _ (show i + 4 ≤ 12 by omega),
        hread _ (show i + 5 ≤ 12 by omega), Option.bind_eq_bind, Option.bind_some]
    rw [rake, show List.range SF = [0, 1, 2, 3, 4, 5, 6, 7] from rfl]
    simp only [List.foldlM_cons, List.foldlM_nil, Option.bind_eq_bind, Option.bind_some, hchip 0 (by decide) _ (-1) rfl,
      hchip 1 (by decide) _ (-1) rfl, hchip 2 (by decide) _ 1 rfl, hchip 3 (by decide) _ 1 rfl,
      hchip 4 (by decide) _ (-1) rfl, hchip 5 (by decide) _ (-1) rfl, hchip 6 (by decide) _ 1 rfl,
      hchip 7 (by decide) _ 1 rfl]
    have hsum : unrolledBit signal = some (-signal.getD 0 0 - 2 * signal.getD 1 0 - signal.getD 2 0 + 2 * signal.getD 7 0 +
        signal.getD 8 0 - signal.getD 4 0 - 2 * signal.getD 5 0 + signal.getD 10 0 + 2 * signal.getD 11 0 +
        signal.getD 12 0) := by
      simp only [unrolledBit, hread 0 (by decide), hread 1 (by decide), hread 2 (by decide), hread 4 (by decide),
        hread 5 (by decide), hread 7 (by decide), hread 8 (by decide), hread 10 (by decide), hread 11 (by decide),
        hread 12 (by decide), Option.bind_eq_bind, Option.bind_some]
    rw [hsum]
    refine congrArg some ?_
    ring
  · -- both read the cell 12
    have hnone : signal[12]? = none := List.getElem?_eq_none h
    have hrake : rake ovsf_code_user1 signal = none := by
      rw [rake, show List.range SF = List.range 7 ++ [7] from rfl, List.foldlM_append, Option.eq_none_iff_forall_ne_some]
      intro v hv
      obtain ⟨bit, -, hv⟩ := Option.bind_eq_some_iff.1 hv
      simp [chip, hnone] at hv
    rw [hrake]
    symm
    rw [unrolledBit, Option.eq_none_iff_forall_ne_some]
    intro v hv
    simp [hnone] at hv

/-! ## The main loop -/

structure Receiver where
  symbI : List Word
  symbQ : List Word
  filteredI : List Word
  filteredQ : List Word
  signal : List Word
  bits : List Bool  -- printed

/-- The even cells get those of the symbol before (wcdma.c:78). -/
def shiftSignal (signal : List Word) : Option (List Word) :=
  (List.range' 0 (bufferSize / 4) 2).foldlM (fun (signal : List Word) iBuffer => do
    signal.write iBuffer (← signal[iBuffer + bufferSize / 2]?)) signal

/-- The second stage: the symbol before, and the samples of the new one (wcdma.c:75). -/
def secondStage (filteredI filteredQ signal : List Word) : Option (List Word) := do
  QPSKinv filteredI filteredQ (bufferSize / 2) 8 (← shiftSignal signal)

/-- One symbol (wcdma.c:44); `schedule` is that of the parallel region. -/
def symbol (filter : List Word) (filterSize : Nat) (signalI signalQ : Nat → Word) (nthreads iSymbol : Nat)
    (schedule : List Nat) (s : Receiver) : Option Receiver := do
  let (symbI, symbQ) ← (List.range bufferSize).foldlM (fun (b : List Word × List Word) iBuffer => do
    some (← shiftCell signalI iSymbol b.1 iBuffer, ← shiftCell signalQ iSymbol b.2 iBuffer)) (s.symbI, s.symbQ)
  let (filteredI, filteredQ) ←
    fir filter filterSize symbI symbQ bufferSize s.filteredI s.filteredQ nthreads schedule
  let signal ← secondStage filteredI filteredQ s.signal
  let bits ← if iSymbol ≠ 0 then do some (s.bits ++ [decideBit (← rake ovsf_code_user1 signal)]) else some s.bits
  some { symbI, symbQ, filteredI, filteredQ, signal, bits }

/-- The main loop after `n` symbols (wcdma.c:25). -/
def receive (filter : List Word) (filterSize : Nat) (signalI signalQ : Nat → Word) (nthreads : Nat)
    (schedule : Nat → List Nat) : Nat → Option Receiver
  | 0 => some {
      symbI := List.replicate 80 0, symbQ := List.replicate 80 0
      filteredI := List.replicate bufferSize 0, filteredQ := List.replicate bufferSize 0
      signal := List.replicate 16 0, bits := [] }
  | iSymbol + 1 =>
    (receive filter filterSize signalI signalQ nthreads schedule iSymbol).bind
      (symbol filter filterSize signalI signalQ nthreads iSymbol (schedule iSymbol))

section Receive

variable {filter : List Word} {signalI signalQ : Nat → Word} {nthreads n : Nat} {schedule : Nat → List Nat}

/-- The sample `k` of the filtered stream, if the team has a thread for it. -/
def filtered (filter : List Word) (signal : Nat → Word) (runs : Bool) (k : Int) : Word :=
  if runs then conv filter (since 0 signal) (k - (64 - filter.length)) else 0

/-- The array `Signal` after the block that begins with sample `m`. -/
def line (I Q : Int → Word) (m : Int) : List Word :=
  [I (m - 16), 0, I (m - 12), 0, 0, 0, 0, 0, I m, Q m, I (m + 4), Q (m + 4), 0, 0, 0, 0]

/-- The correlation of a symbol with the one before. -/
def correlation (I Q : Int → Word) (m : Int) : Word := I m + I (m + 4) + 2 * Q (m + 4) - I (m - 16) - I (m - 12)

theorem rake_line (I Q : Int → Word) (m : Int) :
    rake ovsf_code_user1 (line I Q m) = some (correlation I Q m) := by
  rw [rake_unrolled]
  refine congrArg some ?_
  simp only [correlation]
  ring

theorem secondStage_line (I Q : Int → Word) (m : Int) :
    secondStage ((List.range bufferSize).map fun i : Nat => I (m + i)) ((List.range bufferSize).map fun i : Nat => Q (m + i))
      (line I Q (m - 16)) = some (line I Q m) := by
  have hshift : shiftSignal (line I Q (m - 16)) =
      some [I (m - 16), 0, I (m - 16 + 4), 0, 0, 0, 0, 0, I (m - 16), Q (m - 16), I (m - 16 + 4), Q (m - 16 + 4),
        0, 0, 0, 0] := rfl
  have hqpsk : ∀ a b : Word, QPSKinv ((List.range bufferSize).map fun i : Nat => I (m + i))
      ((List.range bufferSize).map fun i : Nat => Q (m + i)) (bufferSize / 2) 8
      [a, 0, b, 0, 0, 0, 0, 0, I (m - 16), Q (m - 16), I (m - 16 + 4), Q (m - 16 + 4), 0, 0, 0, 0] =
      some [a, 0, b, 0, 0, 0, 0, 0, I (m + (0 : Nat)), Q (m + (0 : Nat)), I (m + (4 : Nat)), Q (m + (4 : Nat)),
        0, 0, 0, 0] := fun _ _ => rfl
  rw [secondStage, hshift, Option.bind_eq_bind, Option.bind_some, hqpsk]
  rw [line, show m - 16 + 4 = m - 12 by omega, Int.natCast_zero, Int.add_zero]
  rfl

theorem filtered_of_neg {runs : Bool} {k : Int} (h : filter.length ≤ 64) (hk : k < 0) :
    filtered filter signalI runs k = 0 := by
  unfold filtered
  split
  · exact conv_since_of_lt (by omega)
  · rfl

/-- Before the first sample there are zeros. -/
theorem cells_before (signal : Nat → Word) : cells (since 0 signal) (16 * (0 : Nat) - 80) 80 = List.replicate 80 0 := by
  refine List.eq_replicate_iff.2 ⟨by simp [cells], fun v hv => ?_⟩
  obtain ⟨k, hk, rfl⟩ := List.mem_map.1 hv
  exact since_of_lt (by have := List.mem_range.1 hk; push_cast; omega)

theorem block_filtered (signal : Nat → Word) (runs : Bool) (m : Int) :
    block filter (since 0 signal) (m - 64) bufferSize
      ((List.range bufferSize).map fun i : Nat => filtered filter signal runs (m - 16 + i)) runs =
      (List.range bufferSize).map fun i : Nat => filtered filter signal runs (m + i) := by
  cases runs with
  | false => rfl
  | true =>
    refine List.map_congr_left fun i _ => ?_
    simp only [filtered, if_true]
    congr 1
    omega

/-- The arrays after the block of the filtered streams `I` and `Q` that begins with sample `m`. -/
def Receiver.after (signalI signalQ : Nat → Word) (I Q : Int → Word) (m : Int) (bits : List Bool) : Receiver where
  symbI := cells (since 0 signalI) (m - 64) 80
  symbQ := cells (since 0 signalQ) (m - 64) 80
  filteredI := (List.range bufferSize).map fun i : Nat => I (m + i)
  filteredQ := (List.range bufferSize).map fun i : Nat => Q (m + i)
  signal := line I Q m
  bits := bits

/-- The bits of the first `n` symbols. -/
def bitsOf (I Q : Int → Word) (n : Nat) : List Bool :=
  (List.range (n - 1)).map fun k : Nat => decideBit (correlation I Q (16 * (k + 1)))

theorem bitsOf_succ (I Q : Int → Word) (n : Nat) :
    bitsOf I Q (n + 1) = if n ≠ 0 then bitsOf I Q n ++ [decideBit (correlation I Q (16 * n))] else bitsOf I Q n := by
  cases n with
  | zero => rfl
  | succ n => simp [bitsOf, List.range_succ]

/-- **One symbol.** -/
theorem symbol_after (h : filter.length ≤ 64) {turns : List Nat} {I Q : Int → Word} {bits : List Bool}
    (hI : I = filtered filter signalI (1 < nthreads)) (hQ : Q = filtered filter signalQ (2 < nthreads))
    (hturns : ∀ myId ∈ [1, 2], bufferSize * (filter.length + 2) ≤ turns.count myId) :
    symbol filter filter.length signalI signalQ nthreads n turns (.after signalI signalQ I Q (16 * n - 16) bits) =
      some (.after signalI signalQ I Q (16 * n)
        (if n ≠ 0 then bits ++ [decideBit (correlation I Q (16 * n))] else bits)) := by
  have hloop := Loop.foldlM_pair (@shift_symbol signalI n) (@shift_symbol signalQ n)
  rw [show (16 * n - 80 : Int) = 16 * n - 16 - 64 by omega] at hloop
  have hfir : fir filter filter.length (cells (since 0 signalI) (16 * n - 64) 80) (cells (since 0 signalQ) (16 * n - 64) 80)
      bufferSize ((List.range bufferSize).map fun i : Nat => I (16 * n - 16 + i))
      ((List.range bufferSize).map fun i : Nat => Q (16 * n - 16 + i)) nthreads turns =
      some ((List.range bufferSize).map fun i : Nat => I (16 * n + i),
        (List.range bufferSize).map fun i : Nat => Q (16 * n + i)) := by
    rw [fir_eq (by simp) (by simp) (by unfold bufferSize SF SAMPLING_FACTOR; omega) (hturns 1 (by simp))
      (hturns 2 (by simp)), hI, hQ, block_filtered, block_filtered]
  simp only [Option.bind_eq_bind] at hloop
  simp only [symbol, Receiver.after, Option.bind_eq_bind, hloop, Option.bind_some, hfir, secondStage_line, rake_line]
  split <;> rfl

/-- **The receiver**, for any samples, filter and schedules: every bit that is printed is the sign of the correlation
of the filtered samples of its symbol with those of the one before. A stream that the team has no thread for counts
as zero. -/
theorem receive_bits (h : filter.length ≤ 64) (signalI signalQ : Nat → Word) (nthreads n : Nat) (schedule : Nat → List Nat)
    (hturns : ∀ s < n, ∀ myId ∈ [1, 2], bufferSize * (filter.length + 2) ≤ (schedule s).count myId) :
    ∃ s, receive filter filter.length signalI signalQ nthreads schedule n = some s ∧
      s.bits = bitsOf (filtered filter signalI (1 < nthreads)) (filtered filter signalQ (2 < nthreads)) n := by
  obtain ⟨I, hI⟩ : ∃ I, I = filtered filter signalI (1 < nthreads) := ⟨_, rfl⟩
  obtain ⟨Q, hQ⟩ : ∃ Q, Q = filtered filter signalQ (2 < nthreads) := ⟨_, rfl⟩
  rw [← hI, ← hQ]
  suffices hinv : receive filter filter.length signalI signalQ nthreads schedule n =
      some (.after signalI signalQ I Q (16 * n - 16) (bitsOf I Q n)) from ⟨_, hinv, rfl⟩
  induction n with
  | zero =>
    have hzeroI : ∀ k < 0, I k = 0 := fun k hk => hI ▸ filtered_of_neg h hk
    have hzeroQ : ∀ k < 0, Q k = 0 := fun k hk => hQ ▸ filtered_of_neg h hk
    have hblock : ∀ Y : Int → Word, (∀ k < 0, Y k = 0) →
        List.replicate bufferSize 0 = (List.range bufferSize).map fun i : Nat => Y (16 * (0 : Nat) - 16 + i) := by
      intro Y hY
      refine List.ext_getElem (by simp) fun i h1 _ => ?_
      have hi : i < 16 := by simpa [bufferSize, SF, SAMPLING_FACTOR] using h1
      rw [List.getElem_replicate, List.getElem_map, List.getElem_range, hY _ (by push_cast; omega)]
    have hbefore : ∀ signal : Nat → Word,
        List.replicate 80 0 = cells (since 0 signal) (16 * (0 : Nat) - 16 - 64) 80 := fun signal => (cells_before signal).symm
    have hline : List.replicate 16 0 = line I Q (16 * (0 : Nat) - 16) := by
      simp [line, hzeroI, hzeroQ, List.replicate]
    simp only [receive, Receiver.after, ← hblock I hzeroI, ← hblock Q hzeroQ, ← hbefore, ← hline]
    rfl
  | succ n ih =>
    rw [receive, ih fun s hs => hturns s (Nat.lt_succ_of_lt hs), Option.bind_some,
      symbol_after h hI hQ (hturns n (Nat.lt_succ_self n)), bitsOf_succ]
    rw [show (16 * (n + 1 : Nat) - 16 : Int) = 16 * n by push_cast; omega]

/-- Three symbols through a filter of one cell, in a team of three. -/
theorem receive_bits_double :
    ∃ s, receive [2] 1 (fun k => if k < 16 then 5 else 7) (fun _ => 1) 3
        (fun _ => List.replicate 48 1 ++ List.replicate 48 2) 7 = some s ∧
      s.bits = [false, false, false, true, true, true] := by
  have hlength : ([2] : List Word).length ≤ 64 := by decide
  obtain ⟨s, hs, hbits⟩ := receive_bits hlength (fun k => if k < 16 then 5 else 7) (fun _ => 1) 3 7
    (fun _ => List.replicate 48 1 ++ List.replicate 48 2) (fun _ _ => by decide)
  exact ⟨s, hs, hbits.trans (by decide)⟩

end Receive

/-! ## The receiver with the accelerator -/

/-- `Signal` and the bits that were printed. -/
structure HwReceiver where
  signal : List Word
  bits : List Bool

/-- What the loop reads of the accelerator after the sample `iBuffer` (wcdma_hw/wcdma.c:57), shifted as `int`. -/
def hwSample (readI readQ : Nat → Word) (signal : List Word) (iBuffer : Nat) : Option (List Word) :=
  if 6 < iBuffer ∧ (iBuffer - 7) % 4 = 0 then do
    let add := (iBuffer - 7) / 2
    let signal ← signal.write add ((readI iBuffer).sshiftRight 26)
    signal.write (add + 1) ((readQ iBuffer).sshiftRight 26)
  else some signal

/-- One symbol (wcdma_hw/wcdma.c:40); the reads return any word. -/
def hwSymbol (readI readQ : Nat → Word) (s : HwReceiver) : Option HwReceiver := do
  let signal ← (List.range bufferSize).foldlM (hwSample readI readQ) (← shiftSignal s.signal)
  some { signal, bits := s.bits ++ [decideBit (← unrolledBit signal)] }

/-- The main loop after `n` symbols. -/
def hwReceive (readI readQ : Nat → Nat → Word) : Nat → Option HwReceiver
  | 0 => some { signal := List.replicate 16 0, bits := [] }
  | iSymbol + 1 => (hwReceive readI readQ iSymbol).bind (hwSymbol (readI iSymbol) (readQ iSymbol))

section HwReceive

variable {readI readQ : Nat → Word}

/-- The array after a symbol. -/
def hwLine (readI readQ : Nat → Word) : List Word :=
  [(readI 7).sshiftRight 26, (readQ 7).sshiftRight 26, (readI 11).sshiftRight 26, (readQ 11).sshiftRight 26,
    (readI 15).sshiftRight 26, (readQ 15).sshiftRight 26, 0, 0, 0, 0, 0, 0, 0, 0, 0, 0]

/-- The sum of the unrolled line, of which the cells from 6 on are never written. -/
def hwCorrelation (readI readQ : Nat → Word) : Word :=
  -((readI 7).sshiftRight 26 + 2 * (readQ 7).sshiftRight 26 + (readI 11).sshiftRight 26 + (readI 15).sshiftRight 26 +
    2 * (readQ 15).sshiftRight 26)

theorem unrolledBit_hwLine : unrolledBit (hwLine readI readQ) = some (hwCorrelation readI readQ) := by
  refine congrArg some ?_
  simp only [hwCorrelation]
  ring

/-- The reads of one symbol fill the first six cells. -/
theorem hwSample_fill {a b c d e f : Word} :
    (List.range bufferSize).foldlM (hwSample readI readQ) [a, b, c, d, e, f, 0, 0, 0, 0, 0, 0, 0, 0, 0, 0] =
      some (hwLine readI readQ) := rfl

theorem hwSymbol_eq {a b c d e f : Word} {bits : List Bool} :
    hwSymbol readI readQ ⟨[a, b, c, d, e, f, 0, 0, 0, 0, 0, 0, 0, 0, 0, 0], bits⟩ =
      some ⟨hwLine readI readQ, bits ++ [decideBit (hwCorrelation readI readQ)]⟩ := by
  have hshift : shiftSignal [a, b, c, d, e, f, 0, 0, 0, 0, 0, 0, 0, 0, 0, 0] =
      some [0, b, 0, d, 0, f, 0, 0, 0, 0, 0, 0, 0, 0, 0, 0] := rfl
  simp only [hwSymbol, hshift, hwSample_fill, unrolledBit_hwLine, Option.bind_eq_bind, Option.bind_some]

/-- **With the accelerator**, for any words read: the bit of a symbol is the sign of five of its own samples, and the symbol
before it has no part in it. -/
theorem hwReceive_bits (readI readQ : Nat → Nat → Word) (n : Nat) :
    ∃ s, hwReceive readI readQ n = some s ∧
      s.bits = (List.range n).map fun k => decideBit (hwCorrelation (readI k) (readQ k)) := by
  suffices hinv : ∃ s, hwReceive readI readQ n = some s ∧
      (∃ a b c d e f : Word, s.signal = [a, b, c, d, e, f, 0, 0, 0, 0, 0, 0, 0, 0, 0, 0]) ∧
      s.bits = (List.range n).map fun k => decideBit (hwCorrelation (readI k) (readQ k)) by
    obtain ⟨s, hs, -, hbits⟩ := hinv
    exact ⟨s, hs, hbits⟩
  induction n with
  | zero => exact ⟨_, rfl, ⟨0, 0, 0, 0, 0, 0, rfl⟩, rfl⟩
  | succ n ih =>
    obtain ⟨⟨signal, bits⟩, hs, ⟨a, b, c, d, e, f, hsignal⟩, hbits⟩ := ih
    obtain rfl : signal = _ := hsignal
    obtain rfl : bits = _ := hbits
    refine ⟨_, by rw [hwReceive, hs, Option.bind_some, hwSymbol_eq], ⟨_, _, _, _, _, _, rfl⟩, ?_⟩
    simp [List.range_succ]

end HwReceive

end VirtualSoc.Wcdma
