import SparkRapidsJni.Cudf.Lists
import SparkRapidsJni.Lib.BinarySearch
import SparkRapidsJni.Lib.Checks

/-!
# `histogram.cu`: percentiles of histograms

A histogram is a list of values, each with a count. All entries of all histograms are sorted at once, by
their histogram and then by their value, and the counts are summed up within each histogram. The value at a
position is found in the sums by a binary search.

The sums and the sorted entries are arrays over the entries of the view (`getSlicedChild`). The ranges of
the histograms in them are taken from the offsets of the lists.

A read outside of an array finds whatever is in memory there, which is an argument here (`Memory`). The
sort may order equal entries in any way, and the mask of a column may be for fewer rows than it has. The
values are of an order, and a `double` is a rational number,
with exact arithmetic.
-/

namespace SparkRapids.Histogram

open BinarySearch Checks Cudf

/-! ### Columns -/

/-- `type_id`, as far as it is looked at. -/
inductive TypeId
  | list
  | struct
  | int64
  | other
deriving DecidableEq, Repr

/-- A row of the structs column: a value, which may be null, and a count. -/
structure Entry (ν : Type) where
  data : ν
  isValid : Bool
  count : Int64
  countIsNull : Bool
  isNull : Bool

/-- `column_view`, of the histograms. The offsets of the whole column begin at zero and end where its
child does. -/
structure HistogramsColumn (ν : Type) where
  typeId : TypeId
  childTypeId : TypeId
  numChildren : ℕ
  countsTypeId : TypeId
  lists : ListsColumnView (Entry ν)
  offsets_zero : lists.offsets 0 = 0
  offsets_last : (lists.offsets (lists.offsetsSize - 1)).toInt = lists.child.length
  size_lt : lists.size < 2 ^ 31

/-- A buffer of the device, and what a read outside of it finds. -/
structure Buffer (α : Type) where
  values : List α
  outside : ℤ → α

def Buffer.read {α : Type} (b : Buffer α) (i : ℤ) : α :=
  if 0 ≤ i then b.values[i.toNat]?.getD (b.outside i) else b.outside i

/-- What is in memory around the buffers. -/
structure Memory (ν : Type) where
  data : ℤ → ν
  validity : ℤ → Bool
  orderedIndices : ℤ → ℤ
  accumulatedCounts : ℤ → Int64
  nullMask : ℕ → Bool

/-! ### Sort and scan -/

section Sorting

variable {ν : Type} [LinearOrder ν]

/-- A null value is behind all others. -/
def Entry.key (e : Entry ν) : WithTop ν ×ₗ ℤ :=
  toLex (if e.isValid then (e.data : WithTop ν) else ⊤, e.count.toInt)

/-- What `sorted_order` returns, for the labels and the entries. -/
structure SortedOrder (labels : ℕ → ℕ) (entries : List (Entry ν)) (orderedIndices : List ℕ) :
    Prop where
  perm : orderedIndices.Perm (List.range entries.length)
  sorted : orderedIndices.Pairwise fun o o' => ∀ e e', entries[o]? = some e →
    entries[o']? = some e' → toLex (labels o, e.key) ≤ toLex (labels o', e'.key)

/-- `inclusive_scan_by_key` -/
def inclusiveScanByKey (keys : ℕ → ℕ) (values : ℕ → Int64) : ℕ → Int64
  | 0 => values 0
  | k + 1 =>
    if keys (k + 1) = keys k then inclusiveScanByKey keys values k + values (k + 1)
    else values (k + 1)

end Sorting

/-! ### The kernel -/

/-- What a thread computes: between which entries it interpolates, and the percentile. -/
structure Filled where
  lowerIndex : ℤ
  higherIndex : ℤ
  output : ℚ

section Fill

variable {ν : Type} [LinearOrder ν] (toDouble : ν → ℚ)

/-- `search_counts` -/
def searchCounts (accumulatedCounts : ℤ → Int64) (position : Int64) (start end_ : ℤ) : ℤ :=
  lowerBound accumulatedCounts position start (end_ - start).toNat

/-- `fill_percentile_fn`: the percentile of a thread, or none if its histogram has no value. -/
def fillPercentile (offsets : ℕ → Int32) (sortedInput : ℤ → ν) (sortedValidity : ℤ → Bool)
    (accumulatedCounts : ℤ → Int64) (percentages : List ℚ) (idx : ℕ) : Option Filled :=
  let histogramIdx := idx / percentages.length
  let start := (offsets histogramIdx).toInt
  let tryEnd := (offsets (histogramIdx + 1)).toInt
  -- a null is sorted to the end
  let allValid := sortedValidity (tryEnd - 1)
  let end_ := if allValid then tryEnd else tryEnd - 1
  if start ≥ end_ then none
  else
    let percentageIdx := idx % percentages.length
    let maxPositions := accumulatedCounts (end_ - 1) - 1
    let percentage := percentages.getD percentageIdx 0
    let position := maxPositions.toInt * percentage
    let lower := Int64.ofInt ⌊position⌋
    let higher := Int64.ofInt ⌈position⌉
    let lowerIndex := searchCounts accumulatedCounts (lower + 1) start end_
    let lowerElement := sortedInput lowerIndex
    -- no second element is looked for
    if higher = lower then some ⟨lowerIndex, lowerIndex, toDouble lowerElement⟩
    else
      let higherIndex := searchCounts accumulatedCounts (higher + 1) start end_
      let higherElement := sortedInput higherIndex
      if higherElement = lowerElement then some ⟨lowerIndex, higherIndex, toDouble lowerElement⟩
      else
        let lowerPart := (higher.toInt - position) * toDouble lowerElement
        let higherPart := (position - lower.toInt) * toDouble higherElement
        some ⟨lowerIndex, higherIndex, lowerPart + higherPart⟩

/-- A column of percentiles, and the mask for its histograms. -/
structure Percentiles where
  size : ℕ
  values : ℕ → Option Filled
  nullMask : Option (ℕ → Bool)

def Percentiles.isNull (percentiles : Percentiles) (i : ℕ) : Bool := !IsValid percentiles.nullMask i

/-- `percentile_dispatcher`, for a type of numbers -/
def percentileDispatcher (offsets : ℕ → Int32) (orderedIndices : Buffer ℤ) (data : Buffer ν)
    (validity : Buffer Bool) (accumulatedCounts : Buffer Int64) (percentages : List ℚ)
    (hasNull : Bool) (numHistograms : ℕ) : Percentiles :=
  -- all nulls for totally empty input
  if data.values.length = 0 || percentages.length = 0 then
    { size := numHistograms, values := fun _ => none, nullMask := some fun _ => false }
  else
    let sortedInput := fun k => data.read (orderedIndices.read k)
    let sortedValidity := fun k =>
      if !hasNull then true else validity.read (orderedIndices.read k)
    let fill := fillPercentile toDouble offsets sortedInput sortedValidity accumulatedCounts.read
      percentages
    -- the thread of the first percentage writes the validity of the histogram
    let outValidity := fun i => (fill (i * percentages.length)).isSome
    { size := numHistograms * percentages.length
      values := fill
      nullMask :=
        if ((List.range numHistograms).filter fun i => !outValidity i).length > 0 then
          some outValidity
        else none }

end Fill

/-! ### The function -/

inductive Exception
  | invalidArgument (what : String)
  | overflowError (what : String)
  | logicError (what : String)
deriving DecidableEq, Repr

/-- `check_input` -/
def checkInput {ν : Type} (input : HistogramsColumn ν) (percentages : List ℚ) :
    Except Exception Unit := do
  expects (input.typeId = .list) (.invalidArgument "The input column must be of type LIST.")
  expects (!input.lists.child.any (·.isNull))
    (.invalidArgument "Child of the input column must not have nulls.")
  expects (input.childTypeId = .struct && input.numChildren = 2)
    (.invalidArgument "Child of the input column must be of STRUCT type having two children.")
  expects (!input.lists.child.any (·.countIsNull)) (.invalidArgument
    "Child of the input column must have its second child containing non-null elements.")
  expects (input.countsTypeId = .int64)
    (.invalidArgument "Child of the input column must have its second child of type INT64.")
  expects (input.lists.size * percentages.length ≤ 2 ^ 31 - 1)
    (.overflowError "Size of output exceeds cudf column size limit.")

/-- The result: a column of lists, or a column of numbers. -/
inductive Output
  | lists (rows : List (Option (List (Option Filled))))
  | numbers (size : ℕ) (values : ℕ → Option Filled) (isNull : ℕ → Bool)

/-- The percentiles of a histogram in the result, or none if they are null. In a column of numbers, they
have a row each, one behind the other. -/
def Output.RowIs (numPercentages i : ℕ) (row : Option (List (Option Filled))) : Output → Prop
  | lists rows => rows[i]? = some row
  | numbers size values isNull => ∀ j < numPercentages,
    i * numPercentages + j < size ∧ isNull (i * numPercentages + j) = row.isNone ∧
      ∀ l ∈ row, l[j]? = some (values (i * numPercentages + j))

/-- `wrap_in_list` -/
def wrapInList (input : Percentiles) (numHistograms numPercentages : ℕ) :
    List (Option (List (Option Filled))) :=
  if input.size = 0 then []
  else
    (List.range numHistograms).map fun i =>
      if input.isNull i then none
      else some ((List.range numPercentages).map fun j => input.values (i * numPercentages + j))

/-- `set_null_mask`, of a mask for the histograms: the rows behind it find what is in memory there. -/
def setNullMask [NullMasks] (percentiles : Percentiles) (numHistograms : ℕ) (memory : ℕ → Bool) :
    Except Exception Output :=
  match percentiles.nullMask with
  | none => .ok (.numbers percentiles.size percentiles.values fun _ => false)
  | some mask => do
    expects (NullMasks.fits numHistograms percentiles.size)
      (.logicError "Column with null values must be nullable, and the null mask buffer should match the size of the column.")
    return .numbers percentiles.size percentiles.values fun row =>
      !if row < numHistograms then mask row else memory row

section Function

variable {ν : Type} [LinearOrder ν] [GetSlicedChild (Entry ν)] [LabelSegments] (toDouble : ν → ℚ)

/-- `histogram_labels` -/
def histogramLabels (input : HistogramsColumn ν) (k : ℕ) : ℕ :=
  labelSegments input.lists.position input.lists.size k

/-- `accumulated_counts` -/
def accumulatedCounts (input : HistogramsColumn ν) (orderedIndices : List ℕ) : List Int64 :=
  let entries := getSlicedChild input.lists
  -- all of the indices are inside
  let sortedCounts := fun k =>
    (orderedIndices[k]?.bind fun o => entries[o]?).elim (0 : Int64) fun e => e.count
  (List.range entries.length).map (inclusiveScanByKey (histogramLabels input) sortedCounts)

/-- `percentile_from_histogram`, for an order that the sort returns -/
def percentileFromHistogram [NullMasks] (input : HistogramsColumn ν) (percentages : List ℚ)
    (outputAsList : Bool) (orderedIndices : List ℕ) (memory : Memory ν) : Except Exception Output := do
  checkInput input percentages
  let histograms := getSlicedChild input.lists
  let percentiles := percentileDispatcher toDouble input.lists.offsetsBegin
    ⟨orderedIndices.map fun o : ℕ => (o : ℤ), memory.orderedIndices⟩
    ⟨histograms.map (·.data), memory.data⟩ ⟨histograms.map (·.isValid), memory.validity⟩
    ⟨accumulatedCounts input orderedIndices, memory.accumulatedCounts⟩ percentages
    (histograms.any fun e => !e.isValid) input.lists.size
  if outputAsList then
    return .lists (wrapInList percentiles input.lists.size percentages.length)
  setNullMask percentiles input.lists.size memory.nullMask

end Function

end SparkRapids.Histogram
