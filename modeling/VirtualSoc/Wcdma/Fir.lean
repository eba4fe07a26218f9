import Mathlib.Data.BitVec
import VirtualSoc.Lib.Loop
import VirtualSoc.Lib.Convolution
import VirtualSoc.Lib.Writes

/-!
# The block filter of the receiver (virtualsoc-apps/wcdma/fir.c, wcdma.c)

The main loop keeps the last 80 samples: for each symbol it shifts them by the 16 cells of a block and puts the
new samples behind. `parallelFir` filters the block. Both are done once for I and once for Q; here is one of
them. An index outside of an array is `none`.

* `parallelFir_eq`: one block;
* `blocks_convolution`: the blocks one after the other are the convolution, as many samples later as the filter is
  shorter than 64 cells.
-/

namespace VirtualSoc.Wcdma

open Convolution

abbrev Word := BitVec 32

/-! ## `parallelFir` -/

/-- What is left in `result[i]` (fir.c:62). -/
def accumulate (filter : List Word) (filterSize : Nat) (data : List Word) (i : Nat) : Option Word :=
  (List.range filterSize).foldlM (fun r j => do some (r + (← filter[j]?) * (← data[i + filterSize - j]?))) 0

/-- `parallelFir` (fir.c:57). -/
def parallelFir (filter : List Word) (filterSize : Nat) (data : List Word) (dataSize : Nat) (result : List Word) :
    Option (List Word) :=
  (List.range dataSize).foldlM (fun (result : List Word) i => do
    result.write i (← accumulate filter filterSize data i)) result

section ParallelFir

variable {filter : List Word} {X : Int → Word} {b : Int} {N dataSize : Nat}

/-- The samples of the stream `X` from `b` on. -/
def cells (X : Int → Word) (b : Int) (N : Nat) : List Word := (List.range N).map fun k : Nat => X (b + k)

theorem getElem?_cells {k : Nat} (h : k < N) : (cells X b N)[k]? = some (X (b + k)) := List.getElem?_map_range h

theorem accumulate_eq {i : Nat} (h : i + filter.length < N) :
    accumulate filter filter.length (cells X b N) i = some (conv filter X (b + i + filter.length)) := by
  have hstep : ∀ n ≤ filter.length,
      (List.range n).foldlM (fun r j => do
        some (r + (← filter[j]?) * (← (cells X b N)[i + filter.length - j]?))) 0 =
        some (((List.range n).map fun j : Nat => filter.getD j 0 * X (b + i + filter.length - j)).sum) := by
    intro n hn
    induction n with
    | zero => rfl
    | succ n ih =>
      have hread : (cells X b N)[i + filter.length - n]? = some (X (b + i + filter.length - n)) := by
        rw [getElem?_cells (by omega)]
        congr 2
        omega
      rw [List.range_succ, List.foldlM_append, ih (by omega)]
      simp only [Option.bind_eq_bind, Option.bind_some, List.foldlM_cons, List.foldlM_nil, hread,
        List.getElem?_eq_getElem (show n < filter.length by omega)]
      simp [List.getElem?_eq_getElem (show n < filter.length by omega)]
  rw [conv_eq_list_sum]
  exact hstep _ le_rfl

/-- **One block**: the index of `data` that is read for `filter[j]` is `j` before the sample the filter is applied at, and
inside of the array. -/
theorem parallelFir_eq {result : List Word} (hresult : result.length = dataSize)
    (h : dataSize + filter.length ≤ N) :
    parallelFir filter filter.length (cells X b N) dataSize result =
      some ((List.range dataSize).map fun i : Nat => conv filter X (b + i + filter.length)) :=
  List.write_fill (fun _ hi => accumulate_eq (by omega)) hresult

end ParallelFir

/-! ## The main loop -/

def SF : Nat := 8

def SAMPLING_FACTOR : Nat := 4

def bufferSize : Nat := SF / 2 * SAMPLING_FACTOR

/-- One turn of the loop over the block (wcdma.c:47). -/
def shiftCell (signal : Nat → Word) (iSymbol : Nat) (symb : List Word) (iBuffer : Nat) : Option (List Word) := do
  -- shifting the old values at the beginning of the buffer
  let symb ← symb.write iBuffer (← symb[iBuffer + 16]?)
  let symb ← symb.write (iBuffer + 16) (← symb[iBuffer + 32]?)
  let symb ← symb.write (iBuffer + 32) (← symb[iBuffer + 48]?)
  let symb ← symb.write (iBuffer + 48) (← symb[iBuffer + 64]?)
  symb.write (iBuffer + 64) (signal (iBuffer + iSymbol * SF / 2 * SAMPLING_FACTOR))

/-- What the loop over the symbols changes; `out` is what was filtered, block after block. -/
structure State where
  symb : List Word
  filtered : List Word
  out : List Word

/-- The main loop up to the filter, after `n` symbols (wcdma.c:25-71). -/
def symbols (filter : List Word) (filterSize : Nat) (signal : Nat → Word) : Nat → Option State
  | 0 => some { symb := List.replicate 80 0, filtered := List.replicate bufferSize 0, out := [] }
  | iSymbol + 1 => do
    let s ← symbols filter filterSize signal iSymbol
    let symb ← (List.range bufferSize).foldlM (shiftCell signal iSymbol) s.symb
    let filtered ← parallelFir filter filterSize symb bufferSize s.filtered
    some { symb, filtered, out := s.out ++ filtered }

section Symbols

variable {signal : Nat → Word} {iSymbol iBuffer : Nat}

/-- The buffer in the loop over the block: the columns before `iBuffer` are those of the new symbol. -/
def shifted (signal : Nat → Word) (iSymbol iBuffer : Nat) (k : Nat) : Word :=
  if k % 16 < iBuffer then since 0 signal (16 * iSymbol - 64 + k) else since 0 signal (16 * iSymbol - 80 + k)

/-- The sample that goes to the cell `k`. -/
def sample (signal : Nat → Word) (iSymbol k : Nat) : Word := since 0 signal (16 * iSymbol - 64 + k)

theorem sample_new : signal (iBuffer + iSymbol * SF / 2 * SAMPLING_FACTOR) = sample signal iSymbol (iBuffer + 64) := by
  unfold sample
  rw [since_of_le (by omega)]
  congr 1
  unfold SF SAMPLING_FACTOR
  omega

/-- The cell a block behind has it. -/
theorem shifted_behind {k : Nat} (h : k % 16 = iBuffer) :
    shifted signal iSymbol iBuffer (k + 16) = sample signal iSymbol k := by
  unfold shifted sample
  rw [if_neg (by omega)]
  congr 1
  omega

theorem shifted_succ (k : Nat) : shifted signal iSymbol (iBuffer + 1) k =
    if k % 16 = iBuffer then sample signal iSymbol k else shifted signal iSymbol iBuffer k := by
  unfold shifted sample
  grind

theorem shiftCell_eq (h : iBuffer < 16) :
    shiftCell signal iSymbol ((List.range 80).map (shifted signal iSymbol iBuffer)) iBuffer =
      some ((List.range 80).map (shifted signal iSymbol (iBuffer + 1))) := by
  have hcol : ∀ c ≤ 4, (iBuffer + 16 * c) % 16 = iBuffer := by omega
  have hbehind : ∀ c ≤ 4, shifted signal iSymbol iBuffer (iBuffer + 16 * c + 16) =
      sample signal iSymbol (iBuffer + 16 * c) := fun c hc => shifted_behind (hcol c hc)
  simp only [shiftCell, Option.bind_eq_bind, Option.bind_some, sample_new,
    List.getElem?_map_range (show iBuffer + 16 < 80 by omega), List.getElem?_map_range (show iBuffer + 32 < 80 by omega),
    List.getElem?_map_range (show iBuffer + 48 < 80 by omega), List.getElem?_map_range (show iBuffer + 64 < 80 by omega),
    List.write_map_range (show iBuffer < 80 by omega), List.write_map_range (show iBuffer + 16 < 80 by omega),
    List.write_map_range (show iBuffer + 32 < 80 by omega), List.write_map_range (show iBuffer + 48 < 80 by omega),
    List.write_map_range (show iBuffer + 64 < 80 by omega)]
  congr 1
  refine List.map_congr_left fun k hk => ?_
  have hk' : k < 80 := List.mem_range.1 hk
  simp only [Function.update_apply, shifted_succ]
  -- the five cells of the column, and those of the other columns
  obtain rfl | rfl | rfl | rfl | rfl | hne : k = iBuffer ∨ k = iBuffer + 16 ∨ k = iBuffer + 32 ∨ k = iBuffer + 48 ∨
      k = iBuffer + 64 ∨ k % 16 ≠ iBuffer := by omega
  · simp [hbehind 0, Nat.mod_eq_of_lt h]
  · simp [hbehind 1, hcol 1]
  · simp [hbehind 2, hcol 2]
  · simp [hbehind 3, hcol 3]
  · simp [hcol 4]
  · rw [if_neg (by omega), if_neg (by omega), if_neg (by omega), if_neg (by omega), if_neg (by omega), if_neg hne]

/-- **One symbol**: the cell `k` of the buffer has the sample of index `16 * iSymbol - 64 + k`. -/
theorem shift_symbol :
    (List.range bufferSize).foldlM (shiftCell signal iSymbol) (cells (since 0 signal) (16 * iSymbol - 80) 80) =
      some (cells (since 0 signal) (16 * iSymbol - 64) 80) := by
  have hstart : cells (since 0 signal) (16 * iSymbol - 80) 80 = (List.range 80).map (shifted signal iSymbol 0) := by
    refine List.map_congr_left fun k _ => ?_
    rw [shifted, if_neg (Nat.not_lt_zero _)]
  have hend : cells (since 0 signal) (16 * iSymbol - 64) 80 = (List.range 80).map (shifted signal iSymbol 16) := by
    refine List.map_congr_left fun k _ => ?_
    rw [shifted, if_pos (Nat.mod_lt _ (by decide))]
  have hloop : ∀ n ≤ 16, (List.range n).foldlM (shiftCell signal iSymbol) ((List.range 80).map (shifted signal iSymbol 0)) =
      some ((List.range 80).map (shifted signal iSymbol n)) := by
    intro n hn
    induction n with
    | zero => rfl
    | succ n ih =>
      rw [List.range_succ (n := n), List.foldlM_append, ih (by omega)]
      simp only [Option.bind_eq_bind, Option.bind_some, List.foldlM_cons, List.foldlM_nil,
        shiftCell_eq (show n < 16 by omega)]
      rfl
  rw [hstart, hend]
  exact hloop 16 le_rfl

/-- **The blocks, one after the other**, for any samples and any number of symbols: they are the convolution of the
samples with the filter `64 - filter.length` samples before, and no index outside of the buffer is read. With the 64
cells of `FILTER_NB_CELL` it is the convolution itself. -/
theorem blocks_convolution {filter : List Word} (h : filter.length ≤ 64) (signal : Nat → Word) (n : Nat) :
    ∃ s, symbols filter filter.length signal n = some s ∧
      s.out = (List.range (16 * n)).map fun k : Nat => conv filter (since 0 signal) (k - (64 - filter.length)) := by
  suffices hinv : ∃ s, symbols filter filter.length signal n = some s ∧
      s.symb = cells (since 0 signal) (16 * n - 80) 80 ∧ s.filtered.length = bufferSize ∧
      s.out = (List.range (16 * n)).map fun k : Nat => conv filter (since 0 signal) (k - (64 - filter.length)) by
    obtain ⟨s, hs, -, -, hout⟩ := hinv
    exact ⟨s, hs, hout⟩
  induction n with
  | zero =>
    refine ⟨_, rfl, ?_, rfl, rfl⟩
    refine (List.eq_replicate_iff.2 ⟨by simp [cells], fun v hv => ?_⟩).symm
    obtain ⟨k, hk, rfl⟩ := List.mem_map.1 hv
    exact since_of_lt (by have := List.mem_range.1 hk; omega)
  | succ n ih =>
    obtain ⟨s, hs, hsymb, hfiltered, hout⟩ := ih
    have hblock := parallelFir_eq (X := since 0 signal) (b := 16 * n - 64) (N := 80) hfiltered
      (show bufferSize + filter.length ≤ 80 by unfold bufferSize SF SAMPLING_FACTOR; omega)
    have hnext : symbols filter filter.length signal (n + 1) = some
        { symb := cells (since 0 signal) (16 * n - 64) 80
          filtered := (List.range bufferSize).map fun i : Nat =>
            conv filter (since 0 signal) (16 * n - 64 + i + filter.length)
          out := s.out ++ (List.range bufferSize).map fun i : Nat =>
            conv filter (since 0 signal) (16 * n - 64 + i + filter.length) } := by
      rw [symbols, hs, Option.bind_eq_bind, Option.bind_some, hsymb, shift_symbol, Option.bind_eq_bind,
        Option.bind_some, hblock]
      rfl
    refine ⟨_, hnext, ?_, ?_, ?_⟩
    · dsimp only
      congr 1
      push_cast
      omega
    · simp
    · -- the block is appended to the ones before
      dsimp only
      rw [hout, Nat.mul_succ, List.range_add, List.map_append, List.map_map]
      congr 1
      refine List.map_congr_left fun i _ => ?_
      simp only [Function.comp_apply]
      congr 1
      push_cast
      omega

/-- A filter of one cell that doubles the samples. -/
theorem blocks_convolution_double : ∃ s, symbols [2] 1 (fun _ => 5) 5 = some s ∧
    s.out = List.replicate 63 0 ++ List.replicate 17 10 := by
  have hlength : ([2] : List Word).length ≤ 64 := by decide
  obtain ⟨s, hs, hout⟩ := blocks_convolution hlength (fun _ => 5) 5
  refine ⟨s, hs, hout.trans ?_⟩
  decide

/-- The first block of a filter of one cell does not have the samples. -/
theorem not_convolution_short : ¬ ∃ s, symbols [1] 1 (fun _ => 1) 1 = some s ∧
    s.out = (List.range 16).map fun k : Nat => conv [1] (since 0 fun _ => (1 : Word)) k := by
  rintro ⟨s, hs, hout⟩
  have hone : (symbols [1] 1 (fun _ => 1) 1).map State.out = some (List.replicate 16 0) := by decide
  rw [hs, Option.map_some, Option.some.injEq, hout] at hone
  exact absurd hone (by decide)

end Symbols

end VirtualSoc.Wcdma
