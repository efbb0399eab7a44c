import SparkRapidsJni.Kudo.HostMemory
import SparkRapidsJni.Lib.Nested

/-!
# Host columns, and slices of them

A host column is a tree of cores, each with the buffers it has: validity bits, 32-bit offsets and
data. A slice of the rows of a table is a slice of the rows of every column of it: the child of a
list has the rows between the first and the last offset of the slice.
-/

namespace SparkRapids.Kudo

open Bytes

/-- The types without children: `DType` with its size in bytes, or `STRING`. -/
inductive LeafType
  | fixedWidth (sizeInBytes : Nat)
  | string
  deriving DecidableEq, Repr

/-- The type of a column. -/
abbrev DType := NodeKind LeafType

namespace LeafType

def hasOffsets : LeafType → Bool
  | fixedWidth _ => false
  | string => true

/-- `getSizeInBytes`. -/
def sizeInBytes : LeafType → Nat
  | fixedWidth n => n
  | string => 0

end LeafType

/-- Whether a column of the type has an offset buffer. -/
def hasOffsets : DType → Bool
  | .leaf t => t.hasOffsets
  | .list => true
  | .struct => false

/-- `Schema`: the types of the top level columns. -/
abbrev Schema := List (Nested LeafType Unit)

/-- `HostColumnVectorCore`, without its children. -/
structure HostColumnVectorCore where
  rowCount : Nat
  validity : Option (List Byte)
  offsets : Option (List Byte)
  data : Option (List Byte)
  deriving DecidableEq

/-- `HostColumnVector`. -/
abbrev HostColumn := Nested LeafType HostColumnVectorCore

namespace HostColumnVectorCore

variable (c : HostColumnVectorCore)

/-- `hasValidityVector`. -/
def hasValidityVector : Bool := c.validity.isSome

/-- Offset `i`. -/
def offset (i : Nat) : Nat := (word (c.offsets.getD []) (4 * i)).toNat

/-- A column whose buffers hold its rows: a row count is an `int`, the offsets are not negative and
do not decrease, and a buffer is only missing where it would be empty. -/
structure Valid (kind : DType) : Prop where
  rowCount_le : c.rowCount ≤ intMax
  validity_le : ∀ v ∈ c.validity, c.rowCount ≤ 8 * v.length
  offsets_isSome : hasOffsets kind → 0 < c.rowCount → c.offsets.isSome
  offsets_le : hasOffsets kind → ∀ o ∈ c.offsets, 4 * (c.rowCount + 1) ≤ o.length
  offset_nonneg : hasOffsets kind → ∀ i ≤ c.rowCount, c.offset i ≤ intMax
  offset_mono : hasOffsets kind → ∀ i < c.rowCount, c.offset i ≤ c.offset (i + 1)
  fixedWidth_le : ∀ size, kind = .leaf (.fixedWidth size) →
    size * c.rowCount ≤ (c.data.getD []).length
  string_le : kind = .leaf .string → c.offset c.rowCount ≤ (c.data.getD []).length

/-- The rows of a list's child that the first `rows` rows of the list refer to. -/
def childRows (rows : Nat) : Nat := if rows = 0 then 0 else c.offset rows

/-- The rows of a list's child that a slice of the list refers to. -/
def childSlice (s : SliceInfo) : SliceInfo :=
  if s.rowCount = 0 then SliceInfo.empty
  else { offset := c.offset s.offset, rowCount := c.offset (s.offset + s.rowCount) - c.offset s.offset }

end HostColumnVectorCore

/-- A column of a table, and the rows of it that a slice of the table has. -/
abbrev Part := FlatNode LeafType HostColumnVectorCore SliceInfo

/-! ### A part is inside its column -/

/-- What is known of a part of a table. -/
structure PartOk (p : Part) : Prop where
  valid : p.val.Valid p.kind
  inside : p.ctx.offset + p.ctx.rowCount ≤ p.val.rowCount

namespace HostColumnVectorCore

variable {c : HostColumnVectorCore} {kind : DType}

theorem Valid.offset_le (h : c.Valid kind) (hk : hasOffsets kind) {i j : Nat} (hij : i ≤ j)
    (hj : j ≤ c.rowCount) : c.offset i ≤ c.offset j := by
  induction j, hij using Nat.le_induction with
  | base => exact Nat.le_refl _
  | succ j hij ih => exact Nat.le_trans (ih (by omega)) (h.offset_mono hk j (by omega))

/-- The child's rows of a slice inside the first rows are among the child's rows of these. -/
theorem Valid.childSlice_le (h : c.Valid kind) (hk : hasOffsets kind) {s : SliceInfo} {rows : Nat}
    (hs : s.offset + s.rowCount ≤ rows) (hrows : rows ≤ c.rowCount) :
    (c.childSlice s).offset + (c.childSlice s).rowCount ≤ c.childRows rows := by
  unfold childSlice childRows
  by_cases hzero : s.rowCount = 0
  · rw [if_pos hzero]
    exact Nat.zero_le _
  · have hfirst := h.offset_le hk (Nat.le_add_right s.offset s.rowCount) (by omega)
    have hlast := h.offset_le hk hs hrows
    rw [if_neg hzero, if_neg (by omega)]
    show c.offset s.offset + (c.offset (s.offset + s.rowCount) - c.offset s.offset) ≤ _
    omega

end HostColumnVectorCore

end SparkRapids.Kudo
