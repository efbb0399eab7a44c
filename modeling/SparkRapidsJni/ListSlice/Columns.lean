import SparkRapidsJni.Cudf.Lists
import SparkRapidsJni.Lib.Checks
import SparkRapidsJni.Lib.Threads

/-!
# `list_slice.cu`: columns and kernels

A row of the result is made of some elements of the same row of the input, from a start on. A kernel
computes where they start in their list and how many they are, another one where they are in the child
column, and a gather reads them there.

The offsets of the lists are offsets into the whole child column. The gather, however, reads the
*sliced* child (`Cudf.getSlicedChild`), which begins where the first list of the view does.

A buffer that is not initialised may have any values in it, so the ones before a kernel are arguments
here. The threads of the second kernel write their indices in any order.
-/

namespace SparkRapids.ListSlice

open Checks Cudf

/-! ### Columns of integers -/

/-- `type_id`, as far as it is looked at. -/
inductive TypeId
  | int32
  | other
deriving DecidableEq, Repr

/-- `column_view`, of starts or of lengths: the buffers of a column, and the rows of the view. -/
structure ColumnView where
  typeId : TypeId
  data : ℕ → Int32
  nullMask : Option (ℕ → Bool)
  offset : ℕ
  size : ℕ

namespace ColumnView

def isNull (cdv : ColumnView) (index : ℕ) : Bool :=
  !IsValid cdv.nullMask (cdv.offset + index)

def element (cdv : ColumnView) (index : ℕ) : Int32 := cdv.data (cdv.offset + index)

end ColumnView

/-- `int_iterator_from_scalar` and `int_iterator_from_column` -/
inductive IntIterator
  | fromScalar (value : Int32)
  | fromColumn (cdv : ColumnView)

namespace IntIterator

def isNull : IntIterator → ℕ → Bool
  | fromScalar _, _ => false
  | fromColumn cdv, index => cdv.isNull index

/-- `operator()` -/
def value : IntIterator → ℕ → Int32
  | fromScalar value, _ => value
  | fromColumn cdv, index => cdv.element index

end IntIterator

/-! ### The kernels -/

/-- `compute_starts_and_sizes_kernel`, for one thread: its entries of `d_starts` and `d_sizes` at the
end. -/
def computeStartsAndSizesKernel (offsetsOfInputLists : ℕ → Int32)
    (startIterator lengthIterator : IntIterator) (dStarts : ℕ → Int32) (tid : ℕ) : Int32 × Int32 :=
  -- if either start or length is null, produce an empty list
  if startIterator.isNull tid || lengthIterator.isNull tid then (dStarts tid, 0)
  else
    let lengthOfList := offsetsOfInputLists (tid + 1) - offsetsOfInputLists tid
    let start := startIterator.value tid
    let length := lengthIterator.value tid
    let start := if start < 0 then lengthOfList + start else start - 1
    -- the entry of `d_starts` stays as it is
    if start < 0 || start ≥ lengthOfList || length ≤ 0 then (dStarts tid, 0)
    else (start, min (lengthOfList - start) length)

/-- `generate_starts_and_sizes`: the starts -/
def generateStarts (offsetsOfInputLists : ℕ → Int32) (start length : IntIterator)
    (dStarts : ℕ → Int32) (tid : ℕ) : Int32 :=
  (computeStartsAndSizesKernel offsetsOfInputLists start length dStarts tid).1

/-- `generate_starts_and_sizes`: the sizes -/
def generateSizes (offsetsOfInputLists : ℕ → Int32) (start length : IntIterator)
    (dStarts : ℕ → Int32) (tid : ℕ) : Int32 :=
  (computeStartsAndSizesKernel offsetsOfInputLists start length dStarts tid).2

/-- `compute_gather_map`: what a thread writes, in its order. -/
def computeGatherMap (dOffsets dStarts outputOffset : ℕ → Int32) (tid : ℕ) : List (ℕ × Int32) :=
  let offset := outputOffset tid
  let beginIndex := dStarts tid + dOffsets tid
  let rows := outputOffset (tid + 1) - outputOffset tid
  (List.range rows.toInt.toNat).map fun i =>
    ((offset + Int32.ofNat i).toInt.toNat, beginIndex + Int32.ofNat i)

/-- The gather map is in memory when all threads are done. -/
def GatherMap (numRows : ℕ) (dOffsets dStarts outputOffset memory gatherMap : ℕ → Int32) : Prop :=
  ∃ s : Threads (ℕ → Int32) (ℕ × Int32), (Threads.lts Threads.write
    ⟨memory, (List.range numRows).map (computeGatherMap dOffsets dStarts outputOffset)⟩).Reachable s ∧
    s.Done ∧ s.memory = gatherMap

/-! ### The result -/

inductive Exception
  | logicError (what : String)
  | dataTypeError (what : String)
  | overflowError (what : String)
deriving DecidableEq, Repr

/-- A lists column that is not a view of some of its rows. -/
structure ListsColumn (α : Type) where
  size : ℕ
  offsets : ℕ → Int32
  child : List α
  nullMask : Option (ℕ → Bool)

/-- A row of the column, or none if it is null. -/
def ListsColumn.row {α : Type} (column : ListsColumn α) (i : ℕ) : Option (List α) :=
  if IsValid column.nullMask i then
    some ((column.child.take (column.offsets (i + 1)).toInt.toNat).drop (column.offsets i).toInt.toNat)
  else none

section Slice

variable {α : Type} [GetSlicedChild α] [MakeOffsetsChildColumn] [Gather α] [NullMasks]
  (input : ListsColumnView α)

/-- `legal_list_slice`, with the gather map that its kernel leaves. -/
def legalListSlice (sizes gatherMap : ℕ → Int32) : Except Exception (ListsColumn (Option α)) :=
  match makeOffsetsChildColumn input.size sizes with
  | none => .error (.overflowError "Size of output exceeds the column size limit")
  | some (outputOffset, numTotalElements) => .ok {
    size := input.size
    offsets := outputOffset
    child := gather (getSlicedChild input) ((List.range numTotalElements).map gatherMap)
    nullMask := copyBitmask input.nullMask input.offset }

/-- `assert_start_is_not_zero` -/
def assertStartIsNotZero (start : ColumnView) : Bool :=
  (List.range start.size).all fun index =>
    if start.isNull index then true else start.element index ≠ 0

/-- `assert_length_is_not_negative` -/
def assertLengthIsNotNegative (length : ColumnView) : Bool :=
  (List.range length.size).all fun index =>
    if length.isNull index then true else length.element index ≥ 0

/-- A check of the column, if it is one. -/
def expectsColumn (condition : ColumnView → Bool) (error : Exception) :
    IntIterator → Except Exception Unit
  | .fromScalar _ => .ok ()
  | .fromColumn cdv => expects (condition cdv) error

/-- The check of the starts, whether they are a scalar or a column. -/
def checkStart : IntIterator → Except Exception Unit
  | .fromScalar start => expects (start ≠ 0) (.logicError "Invalid start value: start must not be 0")
  | .fromColumn start =>
    expects (assertStartIsNotZero start) (.logicError "Invalid start value: start must not be 0")

/-- The check of the lengths, whether they are a scalar or a column. -/
def checkLength : IntIterator → Except Exception Unit
  | .fromScalar length =>
    expects (length ≥ 0) (.logicError "Invalid length value: length must be >= 0")
  | .fromColumn length =>
    expects (assertLengthIsNotNegative length)
      (.logicError "Invalid length value: length must be >= 0")

/-- What the four functions `list_slice` check first. -/
def checkInputs (inputSize : ℕ) (start length : IntIterator) (checkStartLength : Bool) :
    Except Exception Unit := do
  expectsColumn (·.typeId = .int32) (.dataTypeError "Invalid start type: start must be INT32") start
  expectsColumn (·.typeId = .int32) (.dataTypeError "Invalid length type: length must be INT32") length
  expectsColumn (inputSize = ·.size) (.logicError "Input and start size mismatch") start
  expectsColumn (inputSize = ·.size) (.logicError "Input and length size mismatch") length
  if checkStartLength then
    checkStart start
    checkLength length

/-- The masks of the columns that the rows of the result are made of. -/
def masks (start length : IntIterator) : List (Option (ℕ → Bool) × ℕ) :=
  let mask : IntIterator → List (Option (ℕ → Bool) × ℕ)
    | .fromScalar _ => []
    | .fromColumn cdv => [(cdv.nullMask, cdv.offset)]
  (input.nullMask, input.offset) :: (mask start ++ mask length)

/-- The four functions `list_slice`, for the entries that `starts` has before its kernel and the gather
map that the other kernel leaves. -/
def listSlice (start length : IntIterator) (checkStartLength : Bool) (dStarts gatherMap : ℕ → Int32) :
    Except Exception (ListsColumn (Option α)) := do
  checkInputs input.size start length checkStartLength
  if input.size = 0 then return { size := 0, offsets := fun _ => 0, child := [], nullMask := none }
  let sizes := generateSizes input.offsetsBegin start length dStarts
  let result ← legalListSlice input sizes gatherMap
  match start, length with
  | .fromScalar _, .fromScalar _ => return result
  | _, _ => return { result with nullMask := bitmaskAnd (masks input start length) }

end Slice

end SparkRapids.ListSlice
