import SparkRapidsJni.Histogram.OrderStatistics

/-!
# `histogram.cu`: for which columns the percentiles are right

The rows of the result are made of what the threads compute (`exists_output`). If the first offset is zero,
these are the percentiles (`rowExact_of_first_zero`). Otherwise the search for the element at rank zero
begins behind the first entry of the histogram, and behind all entries the kernel reads what is in memory
there (`first_zero_of_picksOrderStatistics`).

The mask has a bit for each histogram. In a column of numbers there are more rows with several percentages,
so none of the histograms may be null (`mode_of_picksOrderStatistics`).
-/

namespace SparkRapids.Histogram

open BinarySearch Checks Cudf RunLength

/-! ### The rows of the result -/

section Rows

variable {values : ℕ → Option Filled} {percentiles : Percentiles} {n k i : ℕ} {output : Output}
  {row row' : Option (List (Option Filled))} {memory : ℕ → Bool}

/-- The percentiles, with a mask if there is a null. -/
def percentilesOf (values : ℕ → Option Filled) (n k : ℕ) : Percentiles where
  size := n * k
  values := values
  nullMask :=
    if ((List.range n).filter fun i => !(values (i * k)).isSome).length > 0 then
      some fun i => (values (i * k)).isSome
    else none

/-- What the threads of a histogram compute, or none if it has no value. -/
def filledRow (values : ℕ → Option Filled) (k i : ℕ) : Option (List (Option Filled)) :=
  if (values (i * k)).isSome then some ((List.range k).map fun j => values (i * k + j)) else none

theorem filter_pos_iff : ((List.range n).filter fun i => !(values (i * k)).isSome).length > 0 ↔
    ∃ i < n, (values (i * k)).isSome = false := by
  rw [gt_iff_lt, List.length_filter_pos_iff]
  simp only [List.mem_range, Bool.not_eq_true']

theorem isNull_percentilesOf (hi : i < n) :
    (percentilesOf values n k).isNull i = !(values (i * k)).isSome := by
  unfold percentilesOf Percentiles.isNull
  dsimp only
  split
  · rfl
  · rename_i hnone
    -- no histogram is null
    rw [filter_pos_iff] at hnone
    rw [Bool.eq_true_of_not_eq_false fun h => hnone ⟨i, hi, h⟩]
    rfl

theorem rowIs_lists (hk : 0 < k) (hi : i < n) :
    (Output.lists (wrapInList (percentilesOf values n k) n k)).RowIs k i (filledRow values k i) := by
  unfold Output.RowIs wrapInList filledRow
  dsimp only
  rw [if_neg (show (percentilesOf values n k).size ≠ 0 from (Nat.mul_pos (by omega) hk).ne'),
    List.getElem?_map, List.getElem?_range hi, Option.map_some, isNull_percentilesOf hi]
  cases (values (i * k)).isSome <;> rfl

/-- With one percentage, or without nulls, the mask fits. -/
theorem exists_numbers [NullMasks] (memory : ℕ → Bool)
    (hmode : k = 1 ∨ ∀ i < n, (values (i * k)).isSome = true) :
    ∃ output, setNullMask (percentilesOf values n k) n memory = .ok output ∧
      ∀ i < n, output.RowIs k i (filledRow values k i) := by
  unfold setNullMask percentilesOf filledRow
  dsimp only
  split_ifs with hnull
  · obtain ⟨i, hi, hnone⟩ := filter_pos_iff.1 hnull
    obtain rfl := hmode.resolve_right fun h => absurd (h i hi) (by simp [hnone])
    rw [Nat.mul_one, NullMasks.fits_self]
    refine ⟨_, rfl, fun i hi j hj => ?_⟩
    obtain rfl := Nat.lt_one_iff.1 hj
    dsimp only
    rw [Nat.mul_one, Nat.add_zero, if_pos hi, Nat.mul_one]
    cases (values i).isSome
    · exact ⟨hi, rfl, fun l hl => by cases hl⟩
    · exact ⟨hi, rfl, fun l hl => by cases hl; rfl⟩
  · rw [filter_pos_iff] at hnull
    refine ⟨_, rfl, fun i hi j hj => ?_⟩
    rw [if_pos (Bool.eq_true_of_not_eq_false fun h => hnull ⟨i, hi, h⟩)]
    have hmul := Nat.mul_le_mul_right k (show i + 1 ≤ n from hi)
    rw [Nat.add_one_mul] at hmul
    refine ⟨by omega, rfl, fun l hl => ?_⟩
    cases hl
    rw [List.getElem?_map, List.getElem?_range hj]
    rfl

/-- What a column of numbers has, if the mask is taken. -/
theorem exists_isNull [NullMasks] (h : setNullMask percentiles n memory = .ok output) :
    ∃ isNull, output = .numbers percentiles.size percentiles.values isNull ∧
      ((∀ row, isNull row = false) ∨ ∀ row ≥ n, isNull row = !memory row) := by
  unfold setNullMask at h
  split at h
  · exact ⟨_, (Except.ok.inj h).symm, .inl fun _ => rfl⟩
  · unfold expects at h
    split at h
    · exact ⟨_, (Except.ok.inj h).symm, .inr fun row hrow => by rw [if_neg (by omega)]⟩
    · cases h

theorem Output.RowIs.isNone_eq (h : output.RowIs k i row) (h' : output.RowIs k i row') (hk : 0 < k) :
    row.isNone = row'.isNone := by
  cases output with
  | lists rows => rw [Option.some.inj (Eq.trans h.symm h')]
  | numbers size values isNull => exact (h 0 hk).2.1.symm.trans (h' 0 hk).2.1

theorem exists_zeros (n : ℕ) : ∃ ps : List ℚ,
    ps.length = n ∧ ∀ p ∈ ps, p = 0 :=
  ⟨List.replicate n 0, List.length_replicate, fun _ => List.eq_of_mem_replicate⟩

end Rows

section Columns

variable {ν : Type} [LinearOrder ν] [GetSlicedChild (Entry ν)] [LabelSegments] {toDouble : ν → ℚ}
  {input : HistogramsColumn ν} {ps : List ℚ} {outputAsList : Bool} {order : List ℕ}
  {memory : Memory ν} {output : Output} {i j : ℕ}

/-- `percentile_dispatcher`, of the arrays -/
def dispatched (toDouble : ν → ℚ) (input : HistogramsColumn ν) (percentages : List ℚ)
    (order : List ℕ) (memory : Memory ν) : Percentiles :=
  percentileDispatcher toDouble input.lists.offsetsBegin (orderedBuffer order memory)
    ⟨(getSlicedChild input.lists).map fun e => e.data, memory.data⟩
    ⟨(getSlicedChild input.lists).map fun e => e.isValid, memory.validity⟩
    (accumulatedBuffer input order memory) percentages
    ((getSlicedChild input.lists).any fun e => !e.isValid) input.lists.size

theorem dispatched_of_empty (hempty : numEntries input = 0) :
    dispatched toDouble input ps order memory =
      { size := input.lists.size, values := fun _ => none, nullMask := some fun _ => false } := by
  unfold dispatched percentileDispatcher
  rw [if_pos]
  rw [List.length_map, length_getSlicedChild, hempty]
  rfl

/-- With entries, the threads compute the percentiles. -/
theorem dispatched_of_pos (hpos : 0 < numEntries input) (hlen : 0 < ps.length) :
    dispatched toDouble input ps order memory =
      percentilesOf (fill input order memory toDouble ps) input.lists.size
        ps.length := by
  unfold dispatched percentileDispatcher
  rw [if_neg]
  · rfl
  · rw [List.length_map, length_getSlicedChild]
    simp only [Bool.or_eq_true, decide_eq_true_eq]
    omega

section Accepted

variable [NullMasks] (h : Accepted input)
  (hsize : input.lists.size * ps.length ≤ 2 ^ 31 - 1)

include h hsize

theorem percentileFromHistogram_eq :
    percentileFromHistogram toDouble input ps outputAsList order memory =
      if outputAsList then
        .ok (.lists (wrapInList (dispatched toDouble input ps order memory)
          input.lists.size ps.length))
      else
        setNullMask (dispatched toDouble input ps order memory) input.lists.size
          memory.nullMask := by
  unfold percentileFromHistogram
  rw [checkInput_eq_ok_iff.2 ⟨h, hsize⟩]
  cases outputAsList <;> rfl

/-- The rows of the result are what the threads of their histograms compute. -/
theorem exists_output (outputAsList : Bool) (toDouble : ν → ℚ) (order : List ℕ) (memory : Memory ν)
    (hlen : 0 < ps.length) (hpos : 0 < numEntries input)
    (hmode : outputAsList = true ∨ ps.length = 1 ∨ ∀ i < input.lists.size,
      (fill input order memory toDouble ps (i * ps.length)).isSome = true) :
    ∃ output,
      percentileFromHistogram toDouble input ps outputAsList order memory =
        .ok output ∧
      ∀ i < input.lists.size, output.RowIs ps.length i
        (filledRow (fill input order memory toDouble ps) ps.length i) := by
  rw [percentileFromHistogram_eq h hsize, dispatched_of_pos hpos hlen]
  split_ifs with hlists
  · exact ⟨_, rfl, fun i hi => rowIs_lists hlen hi⟩
  · exact exists_numbers _ (hmode.resolve_left hlists)

/-- Without entries, all rows are null. -/
theorem exists_output_of_empty (outputAsList : Bool) (toDouble : ν → ℚ) (order : List ℕ) (memory : Memory ν)
    (hempty : numEntries input = 0) :
    ∃ output,
      percentileFromHistogram toDouble input ps outputAsList order memory =
        .ok output ∧
      ((outputAsList = true ∨ ps.length = 1) → ∀ i < input.lists.size,
        output.RowIs ps.length i none) := by
  rw [percentileFromHistogram_eq h hsize, dispatched_of_empty hempty]
  split_ifs with hlists
  · refine ⟨_, rfl, fun _ i hi => ?_⟩
    unfold Output.RowIs wrapInList
    dsimp only
    rw [if_neg (by omega), List.getElem?_map, List.getElem?_range hi]
    rfl
  · unfold setNullMask
    dsimp only
    rw [NullMasks.fits_self]
    refine ⟨_, rfl, fun hmode i hi j hj => ?_⟩
    rw [hmode.resolve_left hlists] at hj ⊢
    refine ⟨by omega, ?_, fun l hl => by cases hl⟩
    dsimp only
    rw [if_pos (by omega)]
    rfl

/-- A row has the percentiles of its threads. -/
theorem getElem?_of_rowIs (hpos : 0 < numEntries input) (hj : j < ps.length)
    (houtput : percentileFromHistogram toDouble input ps outputAsList order memory =
      .ok output) (hi : i < input.lists.size) {l : List (Option Filled)}
    (hrow : output.RowIs ps.length i (some l)) :
    l[j]? =
      some (fill input order memory toDouble ps (i * ps.length + j)) := by
  rw [percentileFromHistogram_eq h hsize, dispatched_of_pos hpos (by omega)] at houtput
  split_ifs at houtput with hlists
  · obtain rfl := Except.ok.inj houtput
    have hrow' := Option.some.inj (hrow.symm.trans (rowIs_lists (by omega) hi))
    unfold filledRow at hrow'
    split_ifs at hrow'
    rw [Option.some.inj hrow', List.getElem?_map, List.getElem?_range hj]
    rfl
  · obtain ⟨isNull, rfl, -⟩ := exists_isNull houtput
    exact (hrow j hj).2.2 l rfl

end Accepted

/-! ### Columns with a first offset of zero -/

theorem validEntries_eq_nil_iff (h : Sorted input order) (hi : i < input.lists.size) :
    validEntries input order i = [] ↔ ∀ e ∈ input.lists.list i, e.isValid = false := by
  unfold validEntries
  rw [List.filter_eq_nil_iff]
  simp only [Bool.not_eq_true, (rowEntries_perm h hi).mem_iff]

section FirstZero

variable (hzero : input.lists.position 0 = 0) (h : Sorted input order)
  (hi : i < input.lists.size) (hl : IsHistogram (input.lists.list i)) (hlen : 0 < ps.length)
  (hp : ∀ p ∈ ps, 0 ≤ p ∧ p ≤ 1)

include hzero h hi hl hlen hp

/-- A histogram is null if it has no value. -/
theorem isSome_fill_iff (toDouble : ν → ℚ) (memory : Memory ν) :
    (fill input order memory toDouble ps (i * ps.length)).isSome = true ↔
      validEntries input order i ≠ [] := by
  by_cases hnil : validEntries input order i = []
  · have hnone := fill_eq_none memory h hi hl toDouble hzero hlen hnil
    rw [Nat.add_zero] at hnone
    rw [hnone]
    exact iff_of_false Bool.false_ne_true fun h => h hnil
  · obtain ⟨filled, hfilled, -⟩ := exists_fill memory h hi hl toDouble hzero hnil
      (List.getElem?_eq_getElem hlen) (hp _ (List.getElem_mem hlen))
    rw [Nat.add_zero] at hfilled
    rw [hfilled]
    exact iff_of_true rfl hnil

theorem rowExact_of_first_zero (hrow : output.RowIs ps.length i
      (filledRow (fill input order memory toDouble ps) ps.length i)) :
    RowExact input ps order output i := by
  refine ⟨_, hrow, ?_⟩
  have hsome := isSome_fill_iff hzero h hi hl hlen hp toDouble memory
  rw [← validEntries_eq_nil_iff h hi]
  unfold filledRow
  split_ifs with hfill
  · have hvalues := hsome.1 hfill
    refine ⟨iff_of_false not_false hvalues, fun l hrow => ?_⟩
    obtain rfl := Option.some.inj hrow
    refine ⟨by rw [List.length_map, List.length_range], fun j p hj => ?_⟩
    obtain ⟨filled, hfilled, hranks⟩ := exists_fill memory h hi hl toDouble hzero hvalues hj
      (hp p (List.mem_of_getElem? hj))
    refine ⟨filled, ?_, hranks⟩
    rw [List.getElem?_map, List.getElem?_range (List.getElem?_eq_some_iff.1 hj).1, Option.map_some,
      hfilled]
  · exact ⟨iff_of_true rfl (not_not.1 fun hne => hfill (hsome.2 hne)), fun l hl => by cases hl⟩

end FirstZero

/-! ### Columns with another first offset -/

/-- The key of an index, for the sort. -/
def sortKey (input : HistogramsColumn ν) (o : ℕ) : ℕ ×ₗ WithBot (WithTop ν ×ₗ ℤ) :=
  toLex (histogramLabels input o, ((getSlicedChild input.lists)[o]?).elim ⊥ fun e => (e.key : WithBot _))

theorem exists_sorted (input : HistogramsColumn ν) : ∃ order, Sorted input order := by
  let le (o o' : ℕ) : Bool := decide (sortKey input o ≤ sortKey input o')
  refine ⟨(List.range (getSlicedChild input.lists).length).mergeSort le, List.mergeSort_perm _ _, ?_⟩
  have hsorted : ((List.range (getSlicedChild input.lists).length).mergeSort le).Pairwise
      fun o o' => le o o' = true := by
    apply List.pairwise_mergeSort
    · intro a b c hab hbc
      exact decide_eq_true ((of_decide_eq_true hab).trans (of_decide_eq_true hbc))
    · intro a b
      rcases le_total (sortKey input a) (sortKey input b) with hab | hba
      · exact Bool.or_eq_true_iff.2 (.inl (decide_eq_true hab))
      · exact Bool.or_eq_true_iff.2 (.inr (decide_eq_true hba))
  refine hsorted.imp fun {o o'} hle e e' he he' => ?_
  have hkey : sortKey input o ≤ sortKey input o' := of_decide_eq_true hle
  unfold sortKey at hkey
  rw [he, he'] at hkey
  rcases Prod.Lex.toLex_le_toLex.1 hkey with hlt | ⟨heq, hle⟩
  · exact Prod.Lex.toLex_le_toLex.2 (.inl hlt)
  · exact Prod.Lex.toLex_le_toLex.2 (.inr ⟨heq, WithBot.coe_le_coe.1 hle⟩)

/-- The element at rank zero comes from the first entry. -/
theorem eq_rowStart_of_atRank_zero (h : Sorted input order) (hi : i < input.lists.size)
    (hl : IsHistogram (input.lists.list i)) {index : ℤ}
    (hrank : AtRank input order i index 0) : index = rowStart input i := by
  obtain ⟨k, e, rfl, hk, ⟨hle, -⟩, -⟩ := hrank
  cases k with
  | zero => exact add_zero _
  | succ k =>
    -- the first entry has a positive count
    have hpos : 0 < (rowEntries input order i).length :=
      (Nat.zero_lt_succ k).trans (List.getElem?_eq_some_iff.1 hk).1
    have hcount := (hl.of_perm (rowEntries_perm h hi)).count_pos _ (List.getElem_mem hpos)
    have hfirst : ((rowEntries input order i).map Entry.run)[0]? =
        some ((rowEntries input order i)[0]).run := by
      rw [List.getElem?_map, List.getElem?_eq_getElem hpos]
      rfl
    have hbefore := before_succ hfirst
    have hmono := before_mono ((rowEntries input order i).map Entry.run)
      (show 0 + 1 ≤ k + 1 by omega)
    have hrun : ((rowEntries input order i)[0]).run.2 =
        (rowEntries input order i)[0].count.toInt.toNat := rfl
    rw [hbefore, before_zero, hrun] at hmono
    omega

/-- A thread searches from the offset of its list on. -/
theorem position_le_lowerIndex {filled : Filled} (hi : i < input.lists.size)
    (hj : j < ps.length)
    (hfill : fill input order memory toDouble ps (i * ps.length + j) =
      some filled) : input.lists.position i ≤ filled.lowerIndex := by
  have hstart := input.lists.toInt_offsetsBegin hi.le
  unfold fill at hfill
  by_cases hle : rangeEnd (sortedValidity input order memory)
      (input.lists.offsetsBegin (i + 1)).toInt ≤ input.lists.position i
  · rw [fillPercentile_eq_none hj hstart rfl hle] at hfill
    cases hfill
  · obtain ⟨filled', hfill', hlower, -⟩ := @exists_fillPercentile ν _ toDouble _
      (sortedInput input order memory) _
      (accumulatedBuffer input order memory).read _ _ _ _ _ hj hstart rfl (not_le.1 hle)
    rw [hfill] at hfill'
    obtain rfl := Option.some.inj hfill'
    rw [hlower]
    exact le_lowerBound _ _ _ _

/-- A memory in which all bits of a mask are set, and the ones of the new mask are given. -/
def allValid [Inhabited ν] (bit : Bool) : Memory ν where
  data _ := default
  validity _ := true
  orderedIndices _ := -1
  accumulatedCounts _ := 0
  nullMask _ := bit

theorem sortedValidity_of_le [Inhabited ν] {k : ℕ} (h : Sorted input order)
    (hk : numEntries input ≤ k) :
    sortedValidity input order (allValid false) k = true := by
  unfold sortedValidity
  split
  · rfl
  · unfold orderedBuffer
    rw [Buffer.read_of_length_le (by rwa [List.length_map, h.length_eq])]
    rfl

/-- Where the validity of the last entry is read behind all entries, a null may be a value. -/
theorem fill_isSome [Inhabited ν] (h : Sorted input order) (hi : i < input.lists.size)
    (hlen : 0 < ps.length) (hlt : input.lists.position i < input.lists.position (i + 1))
    (hbehind : numEntries input < input.lists.position (i + 1)) :
    (fill input order (allValid false) toDouble ps
      (i * ps.length)).isSome = true := by
  have hend : (input.lists.offsetsBegin (i + 1)).toInt = input.lists.position (i + 1) :=
    input.lists.toInt_offsetsBegin hi
  have hrange : rangeEnd (sortedValidity input order (allValid false))
      (input.lists.offsetsBegin (i + 1)).toInt = input.lists.position (i + 1) := by
    unfold rangeEnd
    rw [hend, show (input.lists.position (i + 1) : ℤ) - 1 =
      (input.lists.position (i + 1) - 1 : ℕ) by omega, sortedValidity_of_le h (by omega)]
    rfl
  obtain ⟨filled, hfill, -⟩ := @exists_fillPercentile ν _ toDouble _
    (sortedInput input order (allValid false)) _
    (accumulatedBuffer input order (allValid false)).read _ _ _ _ _ hlen
    (input.lists.toInt_offsetsBegin hi.le) hrange (by omega)
  rw [Nat.add_zero] at hfill
  unfold fill
  rw [hfill]
  rfl

omit [LinearOrder ν] [GetSlicedChild (Entry ν)] [LabelSegments] in
/-- The last entry of the view is one of a histogram. -/
theorem exists_last_row (h : 0 < numEntries input) :
    ∃ i < input.lists.size, 0 < rowLength input i ∧
      rowStart input i + rowLength input i = numEntries input := by
  obtain ⟨i, hi, hle, hlt⟩ := exists_row (show numEntries input - 1 < numEntries input by omega)
  have hend := rowEnd_le hi
  exact ⟨i, hi, by omega, by omega⟩

/-! ### When the percentiles are right -/

section Iff

variable [NullMasks] {numPercentages : ℕ} (h : Accepted input)
  (hl : ∀ i < input.lists.size, IsHistogram (input.lists.list i)) (hlen : 0 < numPercentages)
  (hsize : input.lists.size * numPercentages ≤ 2 ^ 31 - 1)

include h hl hlen hsize

theorem picksOrderStatistics_of_first_zero (toDouble : ν → ℚ)
    (hzero : input.lists.position 0 = 0 ∨ numEntries input = 0)
    (hmode : outputAsList = true ∨ numPercentages = 1 ∨
      ∀ i < input.lists.size, ∃ e ∈ input.lists.list i, e.isValid = true) :
    PicksOrderStatistics input toDouble numPercentages outputAsList := by
  rintro ps order memory rfl hp hsorted
  rcases Nat.eq_zero_or_pos (numEntries input) with hempty | hpos
  · -- all histograms are empty
    obtain ⟨output, houtput, hrow⟩ := exists_output_of_empty h hsize outputAsList toDouble order
      memory hempty
    refine ⟨output, houtput, fun i hi => ?_⟩
    have hend := rowEnd_le hi
    have hnil : input.lists.list i = [] := by
      rw [list_eq_segment hi, show rowLength input i = 0 by omega, List.take_zero]
    have hmode := (or_assoc.2 hmode).resolve_right fun hall => by
      obtain ⟨e, he, -⟩ := hall i hi
      exact List.not_mem_nil (hnil ▸ he)
    refine ⟨none, hrow hmode i hi, ?_, fun l hl => by cases hl⟩
    rw [hnil]
    exact iff_of_true rfl fun e he => absurd he List.not_mem_nil
  · have hzero := hzero.resolve_right hpos.ne'
    obtain ⟨output, houtput, hrow⟩ := exists_output h hsize outputAsList toDouble order memory
      hlen hpos (hmode.imp_right fun hmode => hmode.imp_right fun hall i hi => by
        rw [isSome_fill_iff hzero hsorted hi (hl i hi) hlen hp, Ne, validEntries_eq_nil_iff hsorted hi]
        obtain ⟨e, he, hvalid⟩ := hall i hi
        exact fun hnone => absurd hvalid (by simp [hnone e he]))
    exact ⟨output, houtput, fun i hi =>
      rowExact_of_first_zero hzero hsorted hi (hl i hi) hlen hp (hrow i hi)⟩

variable [Inhabited ν]

omit hl in
/-- In a column of numbers, the last row is not in the mask for the histograms. -/
theorem mode_of_picksOrderStatistics
    (hpicks : PicksOrderStatistics input toDouble numPercentages outputAsList) :
    outputAsList = true ∨ numPercentages = 1 ∨
      ∀ i < input.lists.size, ∃ e ∈ input.lists.list i, e.isValid = true := by
  by_contra hne
  push Not at hne
  obtain ⟨hlists, hsome, i, hi, hnone⟩ := hne
  obtain ⟨order, hsorted⟩ := exists_sorted input
  -- the bit there is the wrong one for the last histogram
  let last := input.lists.size - 1
  let bit := decide (∀ e ∈ input.lists.list last, e.isValid = false)
  obtain ⟨ps, rfl, hzeros⟩ := exists_zeros numPercentages
  obtain ⟨output, houtput, hexact⟩ := hpicks ps order (allValid bit) rfl
    (fun p hp => by simp [hzeros p hp]) hsorted
  rw [percentileFromHistogram_eq h hsize, if_neg hlists] at houtput
  obtain ⟨isNull, rfl, hmask⟩ := exists_isNull houtput
  rcases hmask with hvalid | hbehind
  · -- without a mask, the histogram without values is not null
    obtain ⟨row, hrow, hnull, -⟩ := hexact i hi
    have hrow := (hrow 0 hlen).2.1
    rw [hnull.2 fun e he => Bool.eq_false_of_not_eq_true (hnone e he), hvalid] at hrow
    cases hrow
  · obtain ⟨row, hrow, hnull, -⟩ := hexact last (by omega)
    have hmul := Nat.mul_le_mul_left last (show 2 ≤ ps.length by omega)
    have hrow := (hrow (ps.length - 1) (by omega)).2.1
    rw [hbehind _ (by omega)] at hrow
    change (!bit) = row.isNone at hrow
    rw [← Option.isNone_iff_eq_none, ← hrow, Bool.not_eq_true'] at hnull
    by_cases hlast : ∀ e ∈ input.lists.list last, e.isValid = false
    · exact absurd (decide_eq_true hlast) (Bool.eq_false_iff.1 (hnull.2 hlast))
    · exact hlast (hnull.1 (decide_eq_false hlast))

theorem first_zero_of_picksOrderStatistics
    (hpicks : PicksOrderStatistics input toDouble numPercentages outputAsList) :
    input.lists.position 0 = 0 ∨ numEntries input = 0 := by
  have hmode := mode_of_picksOrderStatistics h hlen hsize hpicks
  by_contra hne
  push Not at hne
  obtain ⟨hfirst, hentries⟩ := hne
  have hpos : 0 < numEntries input := Nat.pos_of_ne_zero hentries
  obtain ⟨i, hi, hlength, hend⟩ := exists_last_row hpos
  have hmono := input.lists.position_mono (Nat.zero_le i) hi.le
  have hstart : input.lists.position i = rowStart input i + input.lists.position 0 := by
    unfold rowStart
    omega
  unfold rowLength at hlength hend
  obtain ⟨order, hsorted⟩ := exists_sorted input
  -- the percentages are zero, and there are ones in memory
  obtain ⟨ps, rfl, hzeros⟩ := exists_zeros numPercentages
  obtain ⟨output, houtput, hexact⟩ := hpicks ps order (allValid false) rfl
    (fun p hp => by simp [hzeros p hp]) hsorted
  obtain ⟨row, hrow, hnull, hranks⟩ := hexact i hi
  have hsome : row ≠ none := by
    rintro rfl
    rcases or_assoc.2 hmode with hone | hall
    · obtain ⟨output', houtput', hrows⟩ := exists_output h hsize outputAsList toDouble
        order (allValid false) hlen hpos (or_assoc.1 (.inl hone))
      obtain rfl : output' = output := Except.ok.inj (houtput'.symm.trans houtput)
      have hisNone := (hrows i hi).isNone_eq hrow hlen
      rw [filledRow, if_pos (fill_isSome hsorted hi hlen (by omega) (by omega))] at hisNone
      exact absurd hisNone Bool.false_ne_true
    · obtain ⟨e, he, hvalid⟩ := hall i hi
      exact absurd hvalid (by simp [hnull.1 rfl e he])
  obtain ⟨l, rfl⟩ := Option.ne_none_iff_exists'.1 hsome
  -- the row is not null, and its element is found in front of where the search begins
  obtain ⟨filled, hfilled, hlower, -⟩ := (hranks l rfl).2 0 _ (List.getElem?_eq_getElem hlen)
  rw [hzeros _ (List.getElem_mem hlen), mul_zero, Int.floor_zero] at hlower
  rw [getElem?_of_rowIs h hsize hpos hlen houtput hi hrow] at hfilled
  have hindex := eq_rowStart_of_atRank_zero hsorted hi (hl i hi) hlower
  have hsearch := position_le_lowerIndex hi hlen (Option.some.inj hfilled)
  omega

/-- For the columns and percentages that are accepted, of histograms with positive counts, a sum in range
and no more than one null each: the percentiles are right exactly if the first offset of the view is zero,
or it has empty histograms only, and if, in a column of numbers with several percentages, no histogram is
null. -/
theorem picksOrderStatistics_iff (toDouble : ν → ℚ) :
    PicksOrderStatistics input toDouble numPercentages outputAsList ↔
      (input.lists.position 0 = 0 ∨ numEntries input = 0) ∧
        (outputAsList = true ∨ numPercentages = 1 ∨
          ∀ i < input.lists.size, ∃ e ∈ input.lists.list i, e.isValid = true) :=
  ⟨fun hpicks => ⟨first_zero_of_picksOrderStatistics h hl hlen hsize hpicks,
      mode_of_picksOrderStatistics h hlen hsize hpicks⟩,
    fun hcond => picksOrderStatistics_of_first_zero h hl hlen hsize toDouble hcond.1 hcond.2⟩

end Iff

end Columns

/-- The histograms of 1, twice, and 3, and of 2, or the second one only. -/
def histogramsFrom (first : Fin 2) : HistogramsColumn ℤ where
  typeId := .list
  childTypeId := .struct
  numChildren := 2
  countsTypeId := .int64
  lists := {
    offsets := fun k => Int32.ofNat (min (2 * k) 3)
    offsetsSize := 3
    child := [⟨1, true, 2, false, false⟩, ⟨3, true, 1, false, false⟩, ⟨2, true, 1, false, false⟩]
    nullMask := none
    offset := first
    size := 2 - first
    offsetsSize_gt := by decide +revert
    offsets_nonneg := by decide
    offsets_mono := by decide +revert
    offsets_le := by decide +revert
    child_lt := by decide }
  offsets_zero := rfl
  offsets_last := rfl
  size_lt := show 2 - first.val < 2 ^ 31 by omega

theorem accepted_histogramsFrom (first : Fin 2) : Accepted (histogramsFrom first) :=
  ⟨rfl, by decide +revert, rfl, rfl, by decide +revert, rfl⟩

theorem isHistogram_histogramsFrom : ∀ (first : Fin 2), ∀ i < (histogramsFrom first).lists.size,
    IsHistogram ((histogramsFrom first).lists.list i) :=
  fun first i hi => ⟨by decide +revert, by decide +revert, by decide +revert⟩

/-- Three percentages of both histograms, as numbers. -/
theorem picksOrderStatistics_iff_twoHistograms :
    PicksOrderStatistics (histogramsFrom 0) (fun x : ℤ => (x : ℚ)) 3 false :=
  (picksOrderStatistics_iff (accepted_histogramsFrom 0) (isHistogram_histogramsFrom 0) (by decide)
    (by decide) _).2 ⟨.inl (by decide), .inr (.inr (by decide))⟩

/-- In the arrays, the second histogram is looked for behind its only entry. -/
theorem not_picksOrderStatistics : ¬∀ (input : HistogramsColumn ℤ) (numPercentages : ℕ)
    (outputAsList : Bool), Accepted input →
      (∀ i < input.lists.size, IsHistogram (input.lists.list i)) → 0 < numPercentages →
        input.lists.size * numPercentages ≤ 2 ^ 31 - 1 →
          PicksOrderStatistics input (fun x => (x : ℚ)) numPercentages outputAsList := by
  intro hall
  have haccepted := accepted_histogramsFrom 1
  have hl := isHistogram_histogramsFrom 1
  have hzero := first_zero_of_picksOrderStatistics haccepted hl Nat.one_pos (by decide)
    (hall _ 1 true haccepted hl Nat.one_pos (by decide))
  exact absurd hzero (by decide)

end SparkRapids.Histogram
