import SparkRapidsJni.Kudo.HostMemory

/-!
# `KudoTableHeader` and `KudoTable`

The header of a serialized table: seven integers in big endian, the first one a magic number, and one
bit for each column that says whether its validity bits are in the body. A table is a header and its
body.
-/

namespace SparkRapids.Kudo

open Bytes

/-- `SER_FORMAT_MAGIC_NUMBER`: "KUD0" in ASCII. -/
def serFormatMagicNumber : BitVec 32 := 0x4B554430

/-- `lengthOfHasValidityBuffer`. -/
def lengthOfHasValidityBuffer (numColumns : Nat) : Nat := (numColumns + 7) / 8

/-- `KudoTableHeader`. Its constructor checks that no field is negative, and the length of the
bitset. -/
structure KudoTableHeader where
  offset : Nat
  numRows : Nat
  validityBufferLen : Nat
  offsetBufferLen : Nat
  totalDataLen : Nat
  numColumns : Nat
  hasValidityBuffers : List Byte
  length_eq : hasValidityBuffers.length = lengthOfHasValidityBuffer numColumns
  isInt : ∀ n ∈ [offset, numRows, validityBufferLen, offsetBufferLen, totalDataLen, numColumns],
    n < 2 ^ 31

namespace KudoTableHeader

/-- The constructor, of arguments that are `int`s. -/
def make (offset numRows validityBufferLen offsetBufferLen totalDataLen numColumns : Int)
    (hasValidityBuffers : List Byte) : Except JavaExn KudoTableHeader := do
  let offset ← ensureNonNegative offset "offset"
  let numRows ← ensureNonNegative numRows "numRows"
  let validityBufferLen ← ensureNonNegative validityBufferLen "validityBufferLen"
  let offsetBufferLen ← ensureNonNegative offsetBufferLen "offsetBufferLen"
  let totalDataLen ← ensureNonNegative totalDataLen "totalDataLen"
  let numColumns ← ensureNonNegative numColumns "numColumns"
  if hlen : hasValidityBuffers.length = lengthOfHasValidityBuffer numColumns then
    if hint : ∀ n ∈ [offset, numRows, validityBufferLen, offsetBufferLen, totalDataLen, numColumns],
        n < 2 ^ 31 then
      .ok ⟨offset, numRows, validityBufferLen, offsetBufferLen, totalDataLen, numColumns,
        hasValidityBuffers, hlen, hint⟩
    -- no `int` is that large
    else .error .arithmetic
  else
    .error (.illegalArgument s!"{numColumns} columns expects hasValidityBuffer with length {lengthOfHasValidityBuffer numColumns}, but found {hasValidityBuffers.length}")

/-- `hasValidityBuffer`. -/
def hasValidityBuffer (h : KudoTableHeader) (columnIndex : Nat) : Except JavaExn Bool :=
  if columnIndex / 8 < h.hasValidityBuffers.length then .ok (bit h.hasValidityBuffers columnIndex)
  else .error .outOfBounds

/-- `getSerializedSize`. -/
def serializedSize (hasValiditySize : Nat) : Nat := 7 * 4 + hasValiditySize

/-- `startOffsetOf(OFFSET)`. -/
def startOfOffsets (h : KudoTableHeader) : Nat := h.validityBufferLen

/-- `startOffsetOf(DATA)`: a sum of `int`s. -/
def startOfData (h : KudoTableHeader) : Int := javaInt (h.validityBufferLen + h.offsetBufferLen)

/-- `writeTo`: the bytes written. -/
def writeTo (h : KudoTableHeader) : List Byte :=
  wordBytesBE serFormatMagicNumber ++ wordBytesBE (BitVec.ofNat 32 h.offset) ++
    wordBytesBE (BitVec.ofNat 32 h.numRows) ++ wordBytesBE (BitVec.ofNat 32 h.validityBufferLen) ++
    wordBytesBE (BitVec.ofNat 32 h.offsetBufferLen) ++ wordBytesBE (BitVec.ofNat 32 h.totalDataLen) ++
    wordBytesBE (BitVec.ofNat 32 h.numColumns) ++ h.hasValidityBuffers

end KudoTableHeader

/-! ### Reading from a stream -/

/-- `DataInputStream.readInt`: the value, and the rest of the stream. -/
def readInt (stream : List Byte) : Except JavaExn (Int × List Byte) :=
  if 4 ≤ stream.length then .ok ((wordBE stream 0).toInt, stream.drop 4) else .error .eof

/-- `DataInputStream.readFully` into an array of `n` bytes. -/
def readFully (stream : List Byte) (n : Nat) : Except JavaExn (List Byte × List Byte) :=
  if n ≤ stream.length then .ok (stream.take n, stream.drop n) else .error .eof

/-- `KudoTableHeader.readFrom`: `none` if the stream ends before the magic number does. -/
def KudoTableHeader.readFrom (stream : List Byte) :
    Except JavaExn (Option (KudoTableHeader × List Byte)) :=
  match readInt stream with
  | .error _ => .ok none
  | .ok (num, stream) =>
    if num ≠ serFormatMagicNumber.toInt then
      .error (.illegalState s!"Kudo format error, expected magic number {serFormatMagicNumber.toInt} found {num}")
    else do
      let (offset, stream) ← readInt stream
      let (numRows, stream) ← readInt stream
      let (validityBufferLen, stream) ← readInt stream
      let (offsetBufferLen, stream) ← readInt stream
      let (totalDataLen, stream) ← readInt stream
      let (numColumns, stream) ← readInt stream
      -- the length of the bitset is computed before `numColumns` is checked
      let validityBufferLength := (javaInt (numColumns + 7)).tdiv 8
      if validityBufferLength < 0 then .error .negativeArraySize
      else do
        let (hasValidityBuffers, stream) ← readFully stream validityBufferLength.toNat
        let header ← KudoTableHeader.make offset numRows validityBufferLen offsetBufferLen
          totalDataLen numColumns hasValidityBuffers
        .ok (some (header, stream))

/-- `KudoTable`. The body is absent if only rows are counted. -/
structure KudoTable where
  header : KudoTableHeader
  buffer : Option (List Byte)

/-- `KudoTable.from`, and the rest of the stream. -/
def KudoTable.from' (stream : List Byte) : Except JavaExn (Option (KudoTable × List Byte)) := do
  match ← KudoTableHeader.readFrom stream with
  | none => .ok none
  | some (header, stream) =>
    if header.numColumns = 0 then .ok (some ({ header, buffer := none }, stream))
    else do
      let (buffer, stream) ← readFully stream header.totalDataLen
      .ok (some ({ header, buffer := some buffer }, stream))

end SparkRapids.Kudo
