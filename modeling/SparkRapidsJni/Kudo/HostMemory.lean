import SparkRapidsJni.Lib.Bytes

/-!
# Host memory, Java integers and slices

The part of the Java platform and of cudf's `HostMemoryBuffer` that the Kudo classes use. A buffer
is the list of its bytes; an access outside of it fails (in cudf an assertion). The native byte
order is little endian.

`SliceInfo` and `SlicedValidityBufferInfo` say which rows of a column a table holds, and where their
validity bits are.
-/

namespace SparkRapids.Kudo

/-- How a call into the Kudo classes fails. -/
inductive JavaExn where
  | illegalArgument (msg : String)
  | illegalState (msg : String)
  /-- `Math.toIntExact` or `Math.addExact` overflows. -/
  | arithmetic
  /-- An access outside a `HostMemoryBuffer`. -/
  | outOfBounds
  /-- The stream ends inside a record. -/
  | eof
  /-- A Java assertion fails. -/
  | assertion
  | negativeArraySize
  | nullPointer
  | noSuchElement
  deriving DecidableEq, Repr

theorem ok_bind {α β : Type} (x : α) (f : α → Except JavaExn β) : (Except.ok x >>= f) = f x :=
  rfl

/-- `Integer.MAX_VALUE`. -/
def intMax : Int := 2 ^ 31 - 1

/-- The value of an `int` expression: it wraps around. -/
def javaInt (n : Int) : Int := n.bmod (2 ^ 32)

/-- `Math.toIntExact`. -/
def toIntExact (n : Int) : Except JavaExn Int :=
  if -(2 ^ 31) ≤ n ∧ n ≤ intMax then .ok n else .error .arithmetic

/-- `Preconditions.ensureNonNegative`. -/
def ensureNonNegative (value : Int) (name : String) : Except JavaExn Nat :=
  if value < 0 then .error (.illegalArgument s!"{name} must be non-negative, but was {value}")
  else .ok value.toNat

theorem javaInt_of_bounds {n : Int} (h1 : -(2 ^ 31) ≤ n) (h2 : n ≤ intMax) : javaInt n = n := by
  unfold javaInt intMax at *
  exact Int.bmod_eq_of_le (by omega) (by omega)

theorem toIntExact_of_bounds {n : Int} (h1 : -(2 ^ 31) ≤ n) (h2 : n ≤ intMax) :
    toIntExact n = .ok n :=
  if_pos ⟨h1, h2⟩

/-! ### `HostMemoryBuffer` -/

namespace HostMemoryBuffer

open Bytes

/-- `getInt`. -/
def getInt (buf : List Byte) (offset : Int) : Except JavaExn (BitVec 32) :=
  if 0 ≤ offset ∧ offset + 4 ≤ buf.length then .ok (word buf offset.toNat) else .error .outOfBounds

/-- `setInt`. -/
def setInt (buf : List Byte) (offset : Int) (v : BitVec 32) : Except JavaExn (List Byte) :=
  if 0 ≤ offset ∧ offset + 4 ≤ buf.length then .ok (overwrite buf offset.toNat (wordBytes v))
  else .error .outOfBounds

/-- `getInts`, of `count` words. -/
def getInts (buf : List Byte) (offset : Int) (count : Int) : Except JavaExn (List (BitVec 32)) :=
  if 0 ≤ offset ∧ 0 ≤ count ∧ offset + 4 * count ≤ buf.length then
    .ok ((List.range count.toNat).map fun k => word buf (offset.toNat + 4 * k))
  else .error .outOfBounds

/-- `setInts`. -/
def setInts (buf : List Byte) (offset : Int) (vs : List (BitVec 32)) : Except JavaExn (List Byte) :=
  if 0 ≤ offset ∧ offset + 4 * vs.length ≤ buf.length then
    .ok (overwrite buf offset.toNat (wordsBytes vs))
  else .error .outOfBounds

/-- `getBytes`: the bytes a writer or a copy takes from the buffer. -/
def getBytes (buf : List Byte) (offset len : Int) : Except JavaExn (List Byte) :=
  if 0 ≤ offset ∧ 0 ≤ len ∧ offset + len ≤ buf.length then
    .ok (slice buf offset.toNat len.toNat)
  else .error .outOfBounds

variable {buf : List Byte} {o n : Nat}

theorem getInt_of_le (h : o + 4 ≤ buf.length) : getInt buf o = .ok (word buf o) :=
  if_pos ⟨by omega, by omega⟩

theorem setInt_of_le (h : o + 4 ≤ buf.length) (v : BitVec 32) :
    setInt buf o v = .ok (overwrite buf o (wordBytes v)) :=
  if_pos ⟨by omega, by omega⟩

theorem getInts_of_le (h : o + 4 * n ≤ buf.length) :
    getInts buf o n = .ok ((List.range n).map fun k => word buf (o + 4 * k)) :=
  if_pos ⟨by omega, by omega, by omega⟩

theorem setInts_of_le {vs : List (BitVec 32)} (h : o + 4 * vs.length ≤ buf.length) :
    setInts buf o vs = .ok (overwrite buf o (wordsBytes vs)) :=
  if_pos ⟨by omega, by omega⟩

theorem getBytes_of_le (h : o + n ≤ buf.length) : getBytes buf o n = .ok (slice buf o n) :=
  if_pos ⟨by omega, by omega, by omega⟩

end HostMemoryBuffer

/-! ### Slices -/

/-- `SlicedValidityBufferInfo`. -/
structure SlicedValidityBufferInfo where
  bufferOffset : Nat
  bufferLength : Int
  /-- The bit within the first byte where the slice starts. -/
  beginBit : Nat
  deriving DecidableEq, Repr

/-- `SlicedValidityBufferInfo.calc`, of arguments that are not negative. The last row's index is a
sum of `int`s. -/
def SlicedValidityBufferInfo.calc (rowOffset numRows : Nat) : SlicedValidityBufferInfo where
  bufferOffset := rowOffset / 8
  bufferLength :=
    if 0 < numRows then (javaInt (rowOffset + numRows - 1)).tdiv 8 - (rowOffset / 8 : Nat) + 1 else 0
  beginBit := rowOffset % 8

/-- `SliceInfo`: the rows `[offset, offset + rowCount)` of a column. -/
structure SliceInfo where
  offset : Nat
  rowCount : Nat
  deriving DecidableEq, Repr

namespace SliceInfo

/-- The constructor: neither argument may be negative. -/
def make (offset rowCount : Int) : Except JavaExn SliceInfo :=
  if offset < 0 then
    .error (.illegalArgument s!"rowOffset must be >= 0, but was {offset}")
  else if rowCount < 0 then
    .error (.illegalArgument s!"numRows must be >= 0, but was {rowCount}")
  else .ok { offset := offset.toNat, rowCount := rowCount.toNat }

def validityBufferInfo (s : SliceInfo) : SlicedValidityBufferInfo :=
  SlicedValidityBufferInfo.calc s.offset s.rowCount

/-- `EMPTY_SLICE`. -/
def empty : SliceInfo := { offset := 0, rowCount := 0 }

theorem make_natCast (offset rowCount : Nat) :
    make offset rowCount = .ok { offset, rowCount } := by
  unfold make
  rw [if_neg (by omega), if_neg (by omega)]
  rfl

variable {s : SliceInfo}

@[simp] theorem beginBit_eq : s.validityBufferInfo.beginBit = s.offset % 8 := rfl

/-- The bytes that hold the bits from the first byte's start to the last row. -/
def validityBytes (s : SliceInfo) : Nat :=
  if 0 < s.rowCount then (s.offset % 8 + s.rowCount + 7) / 8 else 0

/-- The index of the last row is an `int`. -/
def LastRowFits (s : SliceInfo) : Prop := s.offset + s.rowCount ≤ 2 ^ 31

theorem bufferLength_eq (h : s.LastRowFits) :
    s.validityBufferInfo.bufferLength = s.validityBytes := by
  change (if 0 < s.rowCount then _ else _) = _
  unfold validityBytes
  unfold LastRowFits at h
  split_ifs with hpos
  · rw [javaInt_of_bounds (by omega) (by unfold intMax; omega), Int.tdiv_eq_ediv_of_nonneg (by omega)]
    omega
  · rfl

end SliceInfo

end SparkRapids.Kudo
