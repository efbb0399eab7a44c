import Mathlib

/-!
# Hilbert indices of rows

The columns of a row are packed into 64 bits, turned in place, and their bits interleaved to the index
of the row on a Hilbert curve.
-/

namespace SparkRapids.ZOrder

/-! ### Packed arrays -/

/-- `uint_backed_array<uint64_t>`, of entries of `numBitsPerEntry` bits -/
structure UintBackedArray (numBitsPerEntry : Nat) where
  data : BitVec 64
  deriving DecidableEq, Repr

namespace UintBackedArray

variable {numBitsPerEntry : Nat}

def mask (numBitsPerEntry : Nat) : BitVec 32 := ((1#64 <<< numBitsPerEntry) - 1).truncate 32

/-- `operator[]` -/
def get (x : UintBackedArray numBitsPerEntry) (i : Nat) : BitVec 32 :=
  let offset := numBitsPerEntry * i
  ((x.data >>> offset) &&& (mask numBitsPerEntry).zeroExtend 64).truncate 32

/-- `set` -/
def set (x : UintBackedArray numBitsPerEntry) (i : Nat) (value : BitVec 32) :
    UintBackedArray numBitsPerEntry :=
  let offset := i * numBitsPerEntry
  let maskedData := x.data &&& ~~~((mask numBitsPerEntry).zeroExtend 64 <<< offset)
  ⟨maskedData ||| ((value &&& mask numBitsPerEntry).zeroExtend 64 <<< offset)⟩

end UintBackedArray

variable {numBitsPerEntry : Nat}

/-! ### Indices of points -/

/-- The locals of the loops of `to_hilbert_index`. -/
structure IndexLoop where
  b : BitVec 64
  bIndex : Int
  mask : BitVec 64

/-- The inner loop of `to_hilbert_index`, over the dimensions. -/
def indexInner (transposedIndex : UintBackedArray numBitsPerEntry) (numDimensions : Nat)
    (s : IndexLoop) : IndexLoop :=
  (List.range numDimensions).foldl (fun s j =>
    { s with
      b := if (transposedIndex.get j).zeroExtend 64 &&& s.mask ≠ 0 then s.b ||| 1#64 <<< s.bIndex.toNat
        else s.b
      bIndex := s.bIndex - 1 }) s

/-- The outer loop of `to_hilbert_index`, for the bits that are left. -/
def indexOuter (transposedIndex : UintBackedArray numBitsPerEntry) (numDimensions : Nat) :
    Nat → IndexLoop → IndexLoop
  | 0, s => s
  | i + 1, s =>
    let s := indexInner transposedIndex numDimensions s
    indexOuter transposedIndex numDimensions i { s with mask := s.mask >>> 1 }

/-- `to_hilbert_index` -/
def toHilbertIndex (transposedIndex : UintBackedArray numBitsPerEntry) (numDimensions : Nat) :
    BitVec 64 :=
  let length : Int := numBitsPerEntry * numDimensions
  (indexOuter transposedIndex numDimensions numBitsPerEntry
    ⟨0, length - 1, 1#64 <<< (numBitsPerEntry - 1)⟩).b

/-! ### Transposed indices -/

/-- The body of the inner loop of "inverse undo". -/
def undoEntry (q : BitVec 32) (x : UintBackedArray numBitsPerEntry) (i : Nat) :
    UintBackedArray numBitsPerEntry :=
  let p := q - 1
  if x.get i &&& q ≠ 0 then x.set 0 (x.get 0 ^^^ p)  -- invert
  else
    let t := (x.get 0 ^^^ x.get i) &&& p
    let x := x.set 0 (x.get 0 ^^^ t)
    x.set i (x.get i ^^^ t)

/-- "Inverse undo", for `q` from `1 << k` down to 2. -/
def inverseUndo (n : Nat) : Nat → UintBackedArray numBitsPerEntry → UintBackedArray numBitsPerEntry
  | 0, x => x
  | k + 1, x => inverseUndo n k ((List.range n).foldl (undoEntry (1#32 <<< (k + 1))) x)

/-- The first loop of "Gray encode", for `i` from 1 on. -/
def grayEntries (n : Nat) (x : UintBackedArray numBitsPerEntry) : UintBackedArray numBitsPerEntry :=
  (List.range' 1 (n - 1)).foldl (fun x i => x.set i (x.get i ^^^ x.get (i - 1))) x

/-- The loop that computes `t`, for `q` from `1 << k` down to 2. -/
def grayParity (last : BitVec 32) : Nat → BitVec 32 → BitVec 32
  | 0, t => t
  | k + 1, t =>
    let q := 1#32 <<< (k + 1)
    grayParity last k (if last &&& q ≠ 0 then t ^^^ (q - 1) else t)

/-- `hilbert_transposed_index` -/
def hilbertTransposedIndex (point : UintBackedArray numBitsPerEntry) (numDimensions : Nat) :
    UintBackedArray numBitsPerEntry :=
  let n := numDimensions
  let x := inverseUndo n (numBitsPerEntry - 1) point
  let x := grayEntries n x
  let t := grayParity (x.get (n - 1)) (numBitsPerEntry - 1) 0
  (List.range n).foldl (fun x i => x.set i (x.get i ^^^ t)) x

/-! ### Rows -/

/-- A column, with `none` for its nulls. -/
structure Column where
  isInt32 : Bool
  rows : List (Option (BitVec 32))

/-- The packed values of a row. -/
def packRow (numBitsPerEntry : Nat) (row : List (Option (BitVec 32))) :
    UintBackedArray numBitsPerEntry :=
  (List.range row.length).foldl (fun x columnIndex =>
    x.set columnIndex ((row.getD columnIndex none).getD 0)) ⟨0⟩

/-- The transform of `hilbert_index`. -/
def hilbertIndexRow (numBitsPerEntry : Nat) (row : List (Option (BitVec 32))) : BitVec 64 :=
  toHilbertIndex (hilbertTransposedIndex (packRow numBitsPerEntry row) row.length) row.length

/-- `hilbert_index`, of a table of `numRows` rows -/
def hilbertIndex (numBitsPerEntry : Int) (tbl : List Column) (numRows : Nat) :
    Except String (List (BitVec 64)) := do
  let numColumns := tbl.length
  unless numBitsPerEntry > 0 ∧ numBitsPerEntry ≤ 32 do
    throw "the number of bits must be >0 and <= 32."
  unless numBitsPerEntry * numColumns ≤ 64 do
    throw "we only support up to 64 bits of output right now."
  unless numColumns > 0 do
    throw "at least one column is required."
  unless tbl.all (·.isInt32) do
    throw "All columns of the input table must be INT32."
  return (List.range numRows).map fun rowIndex =>
    hilbertIndexRow numBitsPerEntry.toNat (tbl.map fun column => column.rows.getD rowIndex none)

example : hilbertIndexRow 2 [some 2, some 0] = 14 := by decide

end SparkRapids.ZOrder
