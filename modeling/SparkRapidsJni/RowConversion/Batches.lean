import SparkRapidsJni.Lib.PrefixSums
import SparkRapidsJni.Lib.WhileLoop

/-!
# `row_conversion.cu`: batches of rows

The rows of a table go to columns of bytes, each of at most `MAX_BATCH_SIZE` of them. `build_batches`
cuts the rows: it looks for the end of a batch in the inclusive scan of the row sizes, rebased to the
batch's start, and rounds it down to 32 rows.

The scan is rebased by the entry of the batch's first row, which holds the size of that row already.
So a batch can have a row too many (`buildBatches_iff` has the exact condition), and where fewer than
32 rows fit, the loop does not end.
-/

namespace SparkRapids.RowConversion

open PrefixSums

/-- `MAX_BATCH_SIZE` -/
def maxBatchSize : ℕ := 2 ^ 31 - 1

/-- The value of a `size_type`: it wraps around. -/
def sizeType (n : Int) : Int := n.bmod (2 ^ 32)

/-- `util::round_down_safe` -/
def roundDown (number modulus : ℕ) : ℕ := number / modulus * modulus

/-- `row_size_functor` -/
def rowSizeFunctor (rowEnd : ℕ) (rowSizes : ℕ → ℕ) (lastRowEnd i : ℕ) : ℕ :=
  if rowEnd ≤ i then 0 else rowSizes (i + lastRowEnd)

/-- `row_batch` -/
structure RowBatch where
  numBytes : Int
  rowCount : ℕ
  rowOffsets : List Int
  deriving DecidableEq

/-- `batch_data`, without the copy of the boundaries on the device. -/
structure BatchData where
  batchRowOffsets : List Int
  batchRowBoundaries : List ℕ
  rowBatches : List RowBatch
  deriving DecidableEq

/-- `thrust::lower_bound`, in a list that ascends: the values before the first that is not below. -/
def lowerBound (values : List ℕ) (value : ℕ) : ℕ := values.findIdx (value ≤ ·)

/-- The locals of the loop in `build_batches`. -/
structure BatchState where
  lastRowEnd : ℕ
  data : BatchData
  deriving DecidableEq

section Code

variable (rowSizes : List ℕ) (allFixedWidth : Bool)

/-- The iterator of row sizes. It has a value behind the last row as well, which is read but not
used. -/
def rowSize (i : ℕ) : ℕ := rowSizes.getD i 0

/-- `cumulative_row_sizes`: the inclusive scan. -/
def cumulativeRowSizes (i : ℕ) : ℕ := exclusiveScan (rowSize rowSizes) (i + 1)

/-- `row_end`: where the batch ends that starts at `lastRowEnd`. -/
def rowEnd (lastRowEnd : ℕ) : ℕ :=
  let offsetRowSizes i := cumulativeRowSizes rowSizes i - cumulativeRowSizes rowSizes lastRowEnd
  let numRows := rowSizes.length - lastRowEnd
  let batchSize := lowerBound ((List.range numRows).map fun i => offsetRowSizes (lastRowEnd + i))
    maxBatchSize
  if batchSize = numRows then batchSize + lastRowEnd else lastRowEnd + roundDown batchSize 32

/-- One turn of the loop. -/
def nextBatch (st : BatchState) : BatchState :=
  let rowEnd := rowEnd rowSizes st.lastRowEnd
  let numRowsInBatch := rowEnd - st.lastRowEnd
  let outputBatchRowOffsets := (List.range (numRowsInBatch + 1)).map fun k =>
    sizeType (exclusiveScan (rowSizeFunctor rowEnd (rowSize rowSizes) st.lastRowEnd) k)
  { lastRowEnd := rowEnd
    data :=
      { batchRowOffsets := st.data.batchRowOffsets ++
          if allFixedWidth then [] else outputBatchRowOffsets.take numRowsInBatch
        batchRowBoundaries := st.data.batchRowBoundaries ++ [rowEnd]
        rowBatches := st.data.rowBatches ++
          [{ numBytes := outputBatchRowOffsets.getD numRowsInBatch 0
             rowCount := numRowsInBatch
             rowOffsets := outputBatchRowOffsets }] } }

/-- The locals before the loop. -/
def BatchState.start : BatchState :=
  { lastRowEnd := 0
    data := { batchRowOffsets := [], batchRowBoundaries := [0], rowBatches := [] } }

/-- `build_batches`, when its loop may take so many turns. -/
def buildBatches (turns : ℕ) : Option BatchData :=
  (whileLoop (fun st => decide (rowSizes.length ≤ st.lastRowEnd))
    (fun st => some (nextBatch rowSizes allFixedWidth st)) turns .start).map BatchState.data

end Code

/-! ### What the batches should be -/

/-- The offsets of rows that lie one behind the other, and where the last one ends. -/
def offsetsOf (rows : List ℕ) : List Int :=
  (List.range (rows.length + 1)).map fun k => ((rows.take k).sum : Int)

/-- The batch of some rows. -/
def RowBatch.ofRows (rows : List ℕ) : RowBatch where
  numBytes := (rows.sum : ℕ)
  rowCount := rows.length
  rowOffsets := offsetsOf rows

/-- Where the parts of a division end, from the row `start` on. -/
def boundariesFrom (start : ℕ) : List (List ℕ) → List ℕ
  | [] => [start]
  | rows :: parts => start :: boundariesFrom (start + rows.length) parts

/-- The batches are a sound division of the rows into `parts`: none is empty or too large, and one
that is not the last ends at a multiple of 32 rows if the batch can reach one. -/
structure Sound (rowSizes : List ℕ) (fixed : Bool) (parts : List (List ℕ))
    (data : BatchData) : Prop where
  flatten : parts.flatten = rowSizes
  nonempty : ∀ rows ∈ parts, rows ≠ []
  bytes_le : ∀ rows ∈ parts, rows.sum ≤ maxBatchSize
  aligned : ∀ before rows after, parts = before ++ rows :: after → after ≠ [] →
    (∃ rowEnd, 32 ∣ rowEnd ∧ before.flatten.length < rowEnd ∧
      ((rowSizes.take rowEnd).drop before.flatten.length).sum ≤ maxBatchSize) →
      32 ∣ before.flatten.length + rows.length
  rowBatches : data.rowBatches = parts.map RowBatch.ofRows
  boundaries : data.batchRowBoundaries = boundariesFrom 0 parts
  rowOffsets : data.batchRowOffsets =
    if fixed then [] else parts.flatMap fun rows => (offsetsOf rows).take rows.length

/-- The rows can be cut as the search does it: either they all fit into a batch, or there is a
multiple of 32 rows that fit while 32 more do not, even without the size of the first row, and the
rows behind them can be cut as well. -/
inductive Divides : List ℕ → Prop
  | last {rows : List ℕ} (fits : rows.sum ≤ maxBatchSize) : Divides rows
  | next {rows : List ℕ} {k : ℕ} (aligned : 32 ∣ k) (pos : 0 < k) (more : k < rows.length)
      (fits : (rows.take k).sum ≤ maxBatchSize)
      (full : maxBatchSize ≤ (rows.take (k + 32)).tail.sum)
      (rest : Divides (rows.drop k)) : Divides rows

/-! ### The cut of the remaining rows -/

/-- The rows the search takes of those that remain. -/
def cut (rows : List ℕ) : ℕ :=
  let batchSize := lowerBound ((List.range rows.length).map fun k => (rows.take (k + 1)).tail.sum)
    maxBatchSize
  if batchSize = rows.length then rows.length else roundDown batchSize 32

section Cut

variable {rowSizes rows : List ℕ} {k : ℕ}

theorem exclusiveScan_rowSize (rowSizes : List ℕ) (k : ℕ) :
    exclusiveScan (rowSize rowSizes) k = (rowSizes.take k).sum := exclusiveScan_getD rowSizes k

theorem sum_take_add (rowSizes : List ℕ) (a k : ℕ) :
    (rowSizes.take (a + k)).sum = (rowSizes.take a).sum + ((rowSizes.drop a).take k).sum := by
  rw [List.take_add, List.sum_append]

/-- The rebased scan misses the first row of the batch. -/
theorem rebased_eq (rowSizes : List ℕ) (a k : ℕ) :
    cumulativeRowSizes rowSizes (a + k) - cumulativeRowSizes rowSizes a =
      ((rowSizes.drop a).take (k + 1)).tail.sum := by
  have hk := sum_take_add rowSizes a (k + 1)
  have hone := sum_take_add rowSizes a 1
  unfold cumulativeRowSizes
  rw [exclusiveScan_rowSize, exclusiveScan_rowSize, Nat.add_assoc, hk, hone, Nat.add_sub_add_left]
  cases rowSizes.drop a with
  | nil => simp
  | cons x rest => simp

theorem rowEnd_eq (rowSizes : List ℕ) (a : ℕ) :
    rowEnd rowSizes a = a + cut (rowSizes.drop a) := by
  unfold rowEnd cut
  simp only [rebased_eq, List.length_drop]
  split_ifs with h
  · omega
  · rfl

theorem lowerBound_le (f : ℕ → ℕ) (n value : ℕ) :
    lowerBound ((List.range n).map f) value ≤ n := by
  have h := @List.findIdx_le_length _ (value ≤ ·) ((List.range n).map f)
  rwa [List.length_map, List.length_range] at h

theorem lt_of_lt_lowerBound {f : ℕ → ℕ} {n value j : ℕ}
    (h : j < lowerBound ((List.range n).map f) value) : f j < value := by
  have hj := List.not_of_lt_findIdx h
  rw [List.getElem_map, List.getElem_range, decide_eq_false_iff_not] at hj
  exact Nat.lt_of_not_le hj

theorem le_of_lowerBound_lt {f : ℕ → ℕ} {n value : ℕ}
    (h : lowerBound ((List.range n).map f) value < n) :
    value ≤ f (lowerBound ((List.range n).map f) value) := by
  have hlt : lowerBound ((List.range n).map f) value < ((List.range n).map f).length := by
    rwa [List.length_map, List.length_range]
  have hv := @List.findIdx_getElem _ (value ≤ ·) ((List.range n).map f) hlt
  rw [decide_eq_true_eq] at hv
  refine Nat.le_trans hv (Nat.le_of_eq ?_)
  exact (List.getElem_map f).trans (congrArg f (List.getElem_range _))

/-- The rows of a batch without the first: longer batches have more bytes. -/
theorem sum_tail_mono (rows : List ℕ) {i j : ℕ} (h : i ≤ j) :
    (rows.take i).tail.sum ≤ (rows.take j).tail.sum := by
  refine List.Sublist.sum_le_sum ?_ fun _ _ => Nat.zero_le _
  exact (List.take_sublist_take_left h).tail

theorem cut_le (rows : List ℕ) : cut rows ≤ rows.length := by
  have hle := lowerBound_le (fun k => (rows.take (k + 1)).tail.sum) rows.length maxBatchSize
  unfold cut roundDown
  dsimp only
  split_ifs
  · exact Nat.le_refl _
  · exact Nat.le_trans (Nat.div_mul_le_self _ _) hle

/-- The search finds no end. -/
theorem cut_of_sum_tail_lt (h : rows.tail.sum < maxBatchSize) : cut rows = rows.length := by
  refine if_pos ?_
  by_contra hne
  have hlt := Nat.lt_of_le_of_ne
    (lowerBound_le (fun k => (rows.take (k + 1)).tail.sum) rows.length maxBatchSize) hne
  have hge := le_of_lowerBound_lt hlt
  have hmono := sum_tail_mono rows (Nat.succ_le_of_lt hlt)
  rw [List.take_length] at hmono
  exact absurd (Nat.lt_of_le_of_lt (Nat.le_trans hge hmono) h) (Nat.lt_irrefl _)

/-- The search ends within the 32 rows from the multiple of 32 on. -/
theorem cut_of_full (aligned : 32 ∣ k) (hk : (rows.take k).tail.sum < maxBatchSize)
    (full : maxBatchSize ≤ (rows.take (k + 32)).tail.sum) : cut rows = k := by
  have hle := lowerBound_le (fun k => (rows.take (k + 1)).tail.sum) rows.length maxBatchSize
  have hbelow := @lt_of_lt_lowerBound (fun k => (rows.take (k + 1)).tail.sum) rows.length
    maxBatchSize
  have habove := @le_of_lowerBound_lt (fun k => (rows.take (k + 1)).tail.sum) rows.length
    maxBatchSize
  unfold cut roundDown
  generalize lowerBound _ maxBatchSize = b at hle hbelow habove
  dsimp only at hle hbelow habove ⊢
  -- all rows are too many, so there is an entry that is not below
  have hlt : b < rows.length := by
    by_contra hge
    have hall : (rows.take (k + 32)).tail.sum < maxBatchSize := by
      by_cases hpos : 0 < rows.length
      · have hlast := hbelow (j := rows.length - 1) (by omega)
        rw [Nat.sub_add_cancel hpos] at hlast
        refine Nat.lt_of_le_of_lt ?_ hlast
        rw [List.take_length]
        refine List.Sublist.sum_le_sum ?_ fun _ _ => Nat.zero_le _
        exact (List.take_sublist _ _).tail
      · have hnil : rows = [] := List.eq_nil_of_length_eq_zero (by omega)
        rw [hnil, List.take_nil]
        decide
    omega
  have hval := habove hlt
  have hkb : k ≤ b := by
    by_contra hkb
    have hmono := sum_tail_mono rows (show b + 1 ≤ k by omega)
    omega
  have hbk : b < k + 32 := by
    by_contra hbk
    have hprev : (rows.take (k + 32)).tail.sum < maxBatchSize := hbelow (by omega)
    omega
  obtain ⟨q, rfl⟩ := aligned
  rw [if_neg (by omega)]
  omega

/-- What a cut that leaves rows says about them. -/
theorem full_of_cut_lt (h : cut rows < rows.length) :
    32 ∣ cut rows ∧ maxBatchSize ≤ (rows.take (cut rows + 32)).tail.sum := by
  have hle := lowerBound_le (fun k => (rows.take (k + 1)).tail.sum) rows.length maxBatchSize
  have habove := @le_of_lowerBound_lt (fun k => (rows.take (k + 1)).tail.sum) rows.length
    maxBatchSize
  unfold cut roundDown at h ⊢
  generalize lowerBound _ maxBatchSize = b at hle habove h ⊢
  dsimp only at hle habove h ⊢
  split_ifs at h ⊢ with hb
  · exact absurd h (Nat.lt_irrefl _)
  · refine ⟨Nat.dvd_mul_left 32 _, ?_⟩
    have hmono := sum_tail_mono rows (show b + 1 ≤ b / 32 * 32 + 32 by omega)
    have hval := habove (by omega)
    omega

end Cut

/-! ### The run of the loop -/

/-- The divisions that the loop makes of the remaining rows. -/
inductive Cuts : List ℕ → List (List ℕ) → Prop
  | nil : Cuts [] []
  | cons {rows : List ℕ} {parts : List (List ℕ)} (more : rows ≠ [])
      (rest : Cuts (rows.drop (cut rows)) parts) : Cuts rows (rows.take (cut rows) :: parts)

/-- The batch that a turn makes of some rows: its offsets wrap around. -/
def wrappedBatch (rows : List ℕ) : RowBatch where
  numBytes := sizeType (rows.sum : ℕ)
  rowCount := rows.length
  rowOffsets := (offsetsOf rows).map sizeType

section Run

variable {rowSizes : List ℕ} {fixed : Bool} {parts : List (List ℕ)} {st st' : BatchState}

/-- The data with one more batch. -/
def BatchData.add (fixed : Bool) (data : BatchData) (rowEnd : ℕ) (rows : List ℕ) :
    BatchData where
  batchRowOffsets := data.batchRowOffsets ++
    if fixed then [] else ((offsetsOf rows).map sizeType).take rows.length
  batchRowBoundaries := data.batchRowBoundaries ++ [rowEnd]
  rowBatches := data.rowBatches ++ [wrappedBatch rows]

/-- The sizes of the batch's rows, one behind the other. -/
theorem exclusiveScan_rowSizeFunctor {a n k : ℕ} (hk : k ≤ n) :
    exclusiveScan (rowSizeFunctor (a + n) (rowSize rowSizes) a) k =
      (((rowSizes.drop a).take n).take k).sum := by
  have hcongr : exclusiveScan (rowSizeFunctor (a + n) (rowSize rowSizes) a) k =
      exclusiveScan (rowSize (rowSizes.drop a)) k := by
    refine exclusiveScan_congr fun i hi => ?_
    unfold rowSizeFunctor rowSize
    rw [if_neg (by omega), List.getD_eq_getElem?_getD, List.getD_eq_getElem?_getD,
      List.getElem?_drop, Nat.add_comm i a]
  rw [hcongr, exclusiveScan_rowSize, List.take_take, Nat.min_eq_left hk]

theorem nextBatch_eq (rowSizes : List ℕ) (fixed : Bool) (st : BatchState) :
    nextBatch rowSizes fixed st =
      { lastRowEnd := st.lastRowEnd + cut (rowSizes.drop st.lastRowEnd)
        data := st.data.add fixed (st.lastRowEnd + cut (rowSizes.drop st.lastRowEnd))
          ((rowSizes.drop st.lastRowEnd).take (cut (rowSizes.drop st.lastRowEnd))) } := by
  have hlen : ((rowSizes.drop st.lastRowEnd).take (cut (rowSizes.drop st.lastRowEnd))).length =
      cut (rowSizes.drop st.lastRowEnd) := by
    rw [List.length_take, Nat.min_eq_left (cut_le _)]
  have hoffsets : (List.range (cut (rowSizes.drop st.lastRowEnd) + 1)).map (fun k =>
      sizeType (exclusiveScan (rowSizeFunctor (st.lastRowEnd + cut (rowSizes.drop st.lastRowEnd))
        (rowSize rowSizes) st.lastRowEnd) k)) =
      (offsetsOf ((rowSizes.drop st.lastRowEnd).take (cut (rowSizes.drop st.lastRowEnd)))).map
        sizeType := by
    unfold offsetsOf
    rw [List.map_map, hlen]
    refine List.map_congr_left fun k hk => ?_
    rw [exclusiveScan_rowSizeFunctor (Nat.le_of_lt_succ (List.mem_range.1 hk)), Function.comp_apply]
  have hlast : ((offsetsOf ((rowSizes.drop st.lastRowEnd).take
      (cut (rowSizes.drop st.lastRowEnd)))).map sizeType).getD (cut (rowSizes.drop st.lastRowEnd)) 0 =
      sizeType ((((rowSizes.drop st.lastRowEnd).take
        (cut (rowSizes.drop st.lastRowEnd))).sum : ℕ) : Int) := by
    unfold offsetsOf
    rw [List.map_map, hlen, List.getD_eq_getElem?_getD, List.getElem?_map,
      List.getElem?_range (Nat.lt_succ_self _), Option.map_some, Option.getD_some,
      Function.comp_apply, List.take_take, Nat.min_self]
  unfold nextBatch
  dsimp only
  rw [rowEnd_eq, Nat.add_sub_cancel_left, hoffsets, hlast]
  unfold BatchData.add wrappedBatch
  rw [hlen]

/-- The data with the batches of the parts, the first of which starts at the row `start`. -/
def BatchData.addAll (fixed : Bool) (data : BatchData) (start : ℕ) :
    List (List ℕ) → BatchData
  | [] => data
  | rows :: parts =>
    (data.add fixed (start + rows.length) rows).addAll fixed (start + rows.length) parts

theorem addAll_cons (data : BatchData) (start : ℕ) (rows : List ℕ) (parts : List (List ℕ)) :
    data.addAll fixed start (rows :: parts) =
      (data.add fixed (start + rows.length) rows).addAll fixed
        (start + rows.length) parts := rfl

theorem length_take_cut (rows : List ℕ) : (rows.take (cut rows)).length = cut rows := by
  rw [List.length_take, Nat.min_eq_left (cut_le rows)]

/-- The loop makes a division of the remaining rows, by induction on the division. -/
theorem turns_of_cuts {rows : List ℕ} (h : Cuts rows parts) (hle : st.lastRowEnd ≤ rowSizes.length)
    (hrows : rowSizes.drop st.lastRowEnd = rows) :
    Turns (fun st => decide (rowSizes.length ≤ st.lastRowEnd))
      (fun st => some (nextBatch rowSizes fixed st)) st
      { lastRowEnd := rowSizes.length, data := st.data.addAll fixed st.lastRowEnd parts } := by
  induction h generalizing st with
  | nil =>
    have hlen := congrArg List.length hrows
    rw [List.length_drop, List.length_nil] at hlen
    have hend : rowSizes.length = st.lastRowEnd := by omega
    rw [hend]
    exact Turns.refl st
  | @cons rows parts more rest ih =>
    have hlen := congrArg List.length hrows
    have hpos := List.length_pos_of_ne_nil more
    have hcut := cut_le rows
    rw [List.length_drop] at hlen
    have hnext := nextBatch_eq rowSizes fixed st
    rw [hrows] at hnext
    refine Turns.head (decide_eq_false (by omega)) (congrArg some hnext) ?_
    rw [addAll_cons, length_take_cut]
    let next : BatchState :=
      { lastRowEnd := st.lastRowEnd + cut rows
        data := st.data.add fixed (st.lastRowEnd + cut rows) (rows.take (cut rows)) }
    exact @ih next (show st.lastRowEnd + cut rows ≤ _ by omega)
      (show rowSizes.drop (st.lastRowEnd + cut rows) = _ by rw [← List.drop_drop, hrows])

/-- And nothing else, by induction on the turns. -/
theorem cuts_of_whileLoop {turns : ℕ}
    (h : whileLoop (fun st => decide (rowSizes.length ≤ st.lastRowEnd))
      (fun st => some (nextBatch rowSizes fixed st)) turns st = some st') :
    ∃ parts, Cuts (rowSizes.drop st.lastRowEnd) parts ∧
      st'.data = st.data.addAll fixed st.lastRowEnd parts := by
  induction turns generalizing st with
  | zero =>
    unfold whileLoop at h
    split_ifs at h with hdone
    rw [List.drop_eq_nil_of_le (of_decide_eq_true hdone)]
    exact ⟨[], .nil, congrArg BatchState.data (Option.some.inj h).symm⟩
  | succ turns ih =>
    unfold whileLoop at h
    split_ifs at h with hdone
    · rw [List.drop_eq_nil_of_le (of_decide_eq_true hdone)]
      exact ⟨[], .nil, congrArg BatchState.data (Option.some.inj h).symm⟩
    · have hlt : ¬rowSizes.length ≤ st.lastRowEnd := fun hge => hdone (decide_eq_true hge)
      rw [Option.bind_some, nextBatch_eq] at h
      obtain ⟨parts, hcuts, hdata⟩ := ih h
      dsimp only at hcuts hdata
      rw [← List.drop_drop] at hcuts
      refine ⟨_ :: parts, .cons ?_ hcuts, ?_⟩
      · intro hnil
        have hlen := congrArg List.length hnil
        rw [List.length_drop, List.length_nil] at hlen
        omega
      · rw [hdata, addAll_cons, length_take_cut]

theorem buildBatches_eq_some_iff {data : BatchData} :
    (∃ turns, buildBatches rowSizes fixed turns = some data) ↔
      ∃ parts, Cuts rowSizes parts ∧ data = BatchState.start.data.addAll fixed 0 parts := by
  constructor
  · rintro ⟨turns, h⟩
    obtain ⟨st', hloop, rfl⟩ := Option.map_eq_some_iff.1 h
    exact cuts_of_whileLoop hloop
  · rintro ⟨parts, hcuts, rfl⟩
    have hturns := @turns_of_cuts rowSizes fixed parts .start _ hcuts (Nat.zero_le _) rfl
    obtain ⟨turns, hrun⟩ := hturns.whileLoop_eq (decide_eq_true (Nat.le_refl _))
    refine ⟨turns, ?_⟩
    unfold buildBatches
    rw [hrun turns (Nat.le_refl _)]
    rfl

theorem Cuts.flatten {rows : List ℕ} (h : Cuts rows parts) : parts.flatten = rows := by
  induction h with
  | nil => rfl
  | cons _ _ ih => rw [List.flatten_cons, ih, List.take_append_drop]

/-! ### The data of a division -/

theorem addAll_rowBatches (data : BatchData) (start : ℕ) (parts : List (List ℕ)) :
    (data.addAll fixed start parts).rowBatches =
      data.rowBatches ++ parts.map wrappedBatch := by
  induction parts generalizing data start with
  | nil => exact (List.append_nil _).symm
  | cons rows parts ih =>
    show (BatchData.addAll _ _ _ parts).rowBatches = _
    rw [ih]
    exact List.append_assoc _ _ _

theorem boundariesFrom_eq_cons (start : ℕ) (parts : List (List ℕ)) :
    boundariesFrom start parts = start :: (boundariesFrom start parts).tail := by
  cases parts with
  | nil => rfl
  | cons rows parts => rfl

theorem addAll_boundaries (data : BatchData) (start : ℕ) (parts : List (List ℕ)) :
    (data.addAll fixed start parts).batchRowBoundaries =
      data.batchRowBoundaries ++ (boundariesFrom start parts).tail := by
  induction parts generalizing data start with
  | nil => exact (List.append_nil _).symm
  | cons rows parts ih =>
    show (BatchData.addAll _ _ _ parts).batchRowBoundaries =
      _ ++ boundariesFrom (start + rows.length) parts
    rw [ih, boundariesFrom_eq_cons (start + rows.length) parts]
    exact List.append_assoc _ _ _

theorem addAll_rowOffsets (data : BatchData) (start : ℕ) (parts : List (List ℕ)) :
    (data.addAll fixed start parts).batchRowOffsets = data.batchRowOffsets ++
      if fixed then []
      else parts.flatMap fun rows => ((offsetsOf rows).map sizeType).take rows.length := by
  induction parts generalizing data start with
  | nil => simp [BatchData.addAll]
  | cons rows parts ih =>
    show (BatchData.addAll _ _ _ parts).batchRowOffsets = _
    rw [ih]
    unfold BatchData.add
    cases fixed <;> simp [List.append_assoc]

end Run

section Wrap

variable {rows : List ℕ}

theorem sizeType_of_le {n : ℕ} (h : n ≤ maxBatchSize) : sizeType n = n := by
  unfold sizeType
  unfold maxBatchSize at h
  exact Int.bmod_eq_of_le (by omega) (by omega)

theorem map_sizeType_offsetsOf (h : rows.sum ≤ maxBatchSize) :
    (offsetsOf rows).map sizeType = offsetsOf rows := by
  unfold offsetsOf
  rw [List.map_map]
  refine List.map_congr_left fun k _ => ?_
  have hle : (rows.take k).sum ≤ rows.sum :=
    List.Sublist.sum_le_sum (List.take_sublist _ _) fun _ _ => Nat.zero_le _
  rw [Function.comp_apply, sizeType_of_le (Nat.le_trans hle h)]

/-- Nothing wraps around in a batch that is not too large. -/
theorem wrappedBatch_eq (h : rows.sum ≤ maxBatchSize) : wrappedBatch rows = RowBatch.ofRows rows := by
  unfold wrappedBatch RowBatch.ofRows
  rw [map_sizeType_offsetsOf h, sizeType_of_le h]

end Wrap

/-! ### When the batches are sound -/

section Sound

variable {rowSizes rows : List ℕ} {fixed : Bool} {parts : List (List ℕ)} {data : BatchData}

/-- The divisions into parts of which none is too large, the other ones than the last being multiples
of 32 rows. -/
structure Fine (parts : List (List ℕ)) : Prop where
  nonempty : ∀ rows ∈ parts, rows ≠ []
  bytes_le : ∀ rows ∈ parts, rows.sum ≤ maxBatchSize
  aligned : ∀ rows ∈ parts.dropLast, 32 ∣ rows.length

theorem Fine.cons (hnonempty : rows ≠ []) (hbytes : rows.sum ≤ maxBatchSize)
    (haligned : parts ≠ [] → 32 ∣ rows.length) (h : Fine parts) : Fine (rows :: parts) := by
  refine ⟨?_, ?_, ?_⟩
  · rintro r (_ | ⟨_, hr⟩)
    · exact hnonempty
    · exact h.nonempty r hr
  · rintro r (_ | ⟨_, hr⟩)
    · exact hbytes
    · exact h.bytes_le r hr
  · intro r hr
    cases parts with
    | nil => exact absurd hr List.not_mem_nil
    | cons p ps =>
      rw [List.dropLast_cons_of_ne_nil (List.cons_ne_nil _ _)] at hr
      rcases List.mem_cons.1 hr with rfl | hr
      · exact haligned (List.cons_ne_nil _ _)
      · exact h.aligned r hr

/-- Rows that can be cut are cut into fine parts, by induction on how they can. -/
theorem Divides.exists_cuts (h : Divides rows) (hpos : ∀ size ∈ rows, 0 < size) :
    ∃ parts, Cuts rows parts ∧ Fine parts := by
  induction h with
  | @last rows fits =>
    cases rows with
    | nil => exact ⟨[], .nil, ⟨by simp, by simp, by simp⟩⟩
    | cons size rows =>
      have hfirst := hpos size List.mem_cons_self
      rw [List.sum_cons] at fits
      have hcut : cut (size :: rows) = (size :: rows).length :=
        cut_of_sum_tail_lt (by rw [List.tail_cons]; omega)
      refine ⟨[(size :: rows).take (cut (size :: rows))], .cons (List.cons_ne_nil _ _) ?_, ?_⟩
      · rw [hcut, List.drop_length]
        exact .nil
      · rw [hcut, List.take_length]
        refine Fine.cons (List.cons_ne_nil _ _) (by rw [List.sum_cons]; exact fits)
          (fun hne => absurd rfl hne) ⟨by simp, by simp, by simp⟩
  | @next rows k aligned pos more fits full rest ih =>
    obtain ⟨parts, hcuts, hfine⟩ := ih fun size hsize => hpos size (List.mem_of_mem_drop hsize)
    have hnil : rows ≠ [] := List.ne_nil_of_length_pos (by omega)
    have htail : (rows.take k).tail.sum < maxBatchSize := by
      -- the first row has a size
      obtain ⟨size, rest, rfl⟩ := List.exists_cons_of_ne_nil hnil
      obtain ⟨j, rfl⟩ : ∃ j, k = j + 1 := ⟨k - 1, by omega⟩
      have hfirst := hpos size List.mem_cons_self
      rw [List.take_succ_cons, List.sum_cons] at fits
      rw [List.take_succ_cons, List.tail_cons]
      omega
    have hcut := cut_of_full aligned htail full
    refine ⟨rows.take (cut rows) :: parts, .cons hnil (by rw [hcut]; exact hcuts), ?_⟩
    have hlen : (rows.take k).length = k := by
      rw [List.length_take, Nat.min_eq_left (Nat.le_of_lt more)]
    rw [hcut]
    refine hfine.cons (List.ne_nil_of_length_pos (by omega)) fits fun _ => ?_
    rw [hlen]
    exact aligned

/-- And the loop makes nothing else of rows than what can be cut. -/
theorem Cuts.divides (h : Cuts rows parts) (hnonempty : ∀ r ∈ parts, r ≠ [])
    (hbytes : ∀ r ∈ parts, r.sum ≤ maxBatchSize) : Divides rows := by
  induction h with
  | nil => exact .last (Nat.zero_le _)
  | @cons rows parts more rest ih =>
    have hhead := hbytes _ List.mem_cons_self
    rcases Nat.lt_or_ge (cut rows) rows.length with hlt | hge
    · have hfull := full_of_cut_lt hlt
      have hpos : 0 < cut rows := by
        refine Nat.pos_of_ne_zero fun hzero => hnonempty _ List.mem_cons_self ?_
        rw [hzero, List.take_zero]
      exact .next hfull.1 hpos hlt hhead hfull.2 (ih
        (fun r hr => hnonempty r (List.mem_cons_of_mem _ hr))
        fun r hr => hbytes r (List.mem_cons_of_mem _ hr))
    · refine .last ?_
      rwa [List.take_of_length_le hge] at hhead

theorem Fine.sound (h : Fine parts) (hflatten : parts.flatten = rowSizes) :
    Sound rowSizes fixed parts (BatchState.start.data.addAll fixed 0 parts) := by
  refine ⟨hflatten, h.nonempty, h.bytes_le, ?_, ?_, ?_, ?_⟩
  · rintro before rows after rfl hafter -
    -- the parts up to this one are multiples of 32 rows
    have hmem : ∀ r ∈ before ++ [rows], 32 ∣ r.length := by
      intro r hr
      refine h.aligned r ?_
      rw [List.dropLast_append_cons]
      rcases List.mem_append.1 hr with hr | hr
      · exact List.mem_append_left _ hr
      · rw [List.mem_singleton.1 hr, List.dropLast_cons_of_ne_nil hafter]
        exact List.mem_append_right _ List.mem_cons_self
    have hsum : before.flatten.length + rows.length = ((before ++ [rows]).map List.length).sum := by
      rw [List.length_flatten, List.map_append, List.sum_append]
      simp
    rw [hsum]
    refine List.dvd_sum fun n hn => ?_
    obtain ⟨r, hr, rfl⟩ := List.mem_map.1 hn
    exact hmem r hr
  · rw [addAll_rowBatches]
    refine List.map_congr_left fun rows hrows => ?_
    exact wrappedBatch_eq (h.bytes_le rows hrows)
  · rw [addAll_boundaries, boundariesFrom_eq_cons]
    rfl
  · rw [addAll_rowOffsets]
    show [] ++ _ = _
    rw [List.nil_append]
    cases fixed with
    | true => rfl
    | false =>
      refine List.flatMap_congr fun rows hrows => ?_
      rw [map_sizeType_offsetsOf (h.bytes_le rows hrows)]

/-- The row counts of sound batches say that their parts are those of the loop. -/
theorem Sound.divides {turns : ℕ} (h : Sound rowSizes fixed parts data)
    (hrun : buildBatches rowSizes fixed turns = some data) : Divides rowSizes := by
  obtain ⟨parts', hcuts, rfl⟩ := buildBatches_eq_some_iff.1 ⟨turns, hrun⟩
  have hbatches := h.rowBatches
  rw [addAll_rowBatches] at hbatches
  have hcounts := congrArg (List.map RowBatch.rowCount) hbatches
  rw [show BatchState.start.data.rowBatches = [] from rfl, List.nil_append, List.map_map,
    List.map_map] at hcounts
  have hparts : parts' = parts := by
    rw [List.eq_iff_flatten_eq]
    exact ⟨hcuts.flatten.trans h.flatten.symm, hcounts⟩
  subst hparts
  exact hcuts.divides h.nonempty h.bytes_le

/-- A cut that takes no row is made again and again. -/
theorem Cuts.cut_pos (h : Cuts rows parts) (hrows : rows ≠ []) : 0 < cut rows := by
  induction h with
  | nil => exact absurd rfl hrows
  | @cons rows parts more rest ih =>
    refine Nat.pos_of_ne_zero fun hzero => ?_
    rw [hzero, List.drop_zero] at ih
    exact absurd hzero (Nat.ne_of_gt (ih more))

/-- Two rows of 2³⁰ bytes are one batch of 2³¹ of them, which no `size_type` counts, and three such
rows are never cut. -/
theorem buildBatches_gigabyteRows :
    (buildBatches [2 ^ 30, 2 ^ 30] false 1).map BatchData.rowBatches =
      some [{ numBytes := -(2 ^ 31), rowCount := 2, rowOffsets := [0, 2 ^ 30, -(2 ^ 31)] }] ∧
    (¬∃ turns data parts, buildBatches [2 ^ 30, 2 ^ 30] false turns = some data ∧
      Sound [2 ^ 30, 2 ^ 30] false parts data) ∧
    ∀ turns, buildBatches [2 ^ 30, 2 ^ 30, 2 ^ 30] false turns = none := by
  refine ⟨by decide +kernel, ?_, ?_⟩
  · rintro ⟨turns, data, parts, hrun, hsound⟩
    cases hsound.divides hrun with
    | last fits => exact absurd fits (by decide)
    | next aligned pos more fits full rest =>
      rw [List.length_cons, List.length_cons, List.length_nil] at more
      omega
  · intro turns
    cases hrun : buildBatches [2 ^ 30, 2 ^ 30, 2 ^ 30] false turns with
    | none => rfl
    | some data =>
      obtain ⟨parts, hcuts, -⟩ := buildBatches_eq_some_iff.1 ⟨turns, hrun⟩
      exact absurd (hcuts.cut_pos (List.cons_ne_nil _ _)) (by decide)

/-- The loop ends with sound batches exactly where the rows can be cut as the search does it. -/
theorem buildBatches_iff (rowSizes : List ℕ) (fixed : Bool)
    (hpos : ∀ size ∈ rowSizes, 0 < size) :
    (∃ turns data parts, buildBatches rowSizes fixed turns = some data ∧
      Sound rowSizes fixed parts data) ↔ Divides rowSizes := by
  constructor
  · rintro ⟨turns, data, parts, hrun, hsound⟩
    exact hsound.divides hrun
  · intro h
    obtain ⟨parts, hcuts, hfine⟩ := h.exists_cuts hpos
    obtain ⟨turns, hrun⟩ := buildBatches_eq_some_iff.2 ⟨parts, hcuts, rfl⟩
    exact ⟨turns, _, parts, hrun, hfine.sound hcuts.flatten⟩

/-- The 96 rows of 40 MB are three batches. -/
theorem buildBatches_iff_threeBatches : ∃ turns data parts,
    buildBatches (List.replicate 96 40000000) false turns = some data ∧
      Sound (List.replicate 96 40000000) false parts data := by
  refine (buildBatches_iff _ false fun size hsize => ?_).2 ?_
  · rw [List.eq_of_mem_replicate hsize]
    decide
  · refine .next (k := 32) (by decide) (by decide) (by decide) (by decide +kernel) (by decide +kernel) ?_
    refine .next (k := 32) (by decide) (by decide) (by decide) (by decide +kernel) (by decide +kernel) ?_
    exact .last (by decide +kernel)

end Sound

end SparkRapids.RowConversion
