import SparkRapidsJni.Kudo.Column
import SparkRapidsJni.Kudo.Header

/-!
# The Kudo writer

A slice of a table is written in one pass over the columns for the header (`KudoTableHeaderCalc`),
which adds up the lengths of the buffers, and in three passes for the body
(`SlicedBufferSerializer`), which copy the validity bits, the offsets and the data. Every pass keeps
the slices of the columns it is inside of on a stack.

The writer is the one of a `DataOutputStream`. It copies nothing if the length is not positive, but
the serializer counts the length it asked for.
-/

namespace SparkRapids.Kudo

open Bytes HostMemoryBuffer

/-! ### Padding -/

/-- `roundUpSafe` -/
def roundUpSafe (toRound modulus : Int) : Except JavaExn Int :=
  let remainder := toRound.tmod modulus
  if remainder = 0 then .ok toRound
  else
    let roundedUp := toRound - remainder + modulus
    if roundedUp < toRound then .error (.illegalState "Overflow when rounding up")
    else .ok roundedUp

/-- `padForHostAlignment` -/
def padForHostAlignment (orig : Int) : Except JavaExn Int := roundUpSafe orig 4

/-- `padForValidityAlignment`: the header is part of what is aligned. -/
def padForValidityAlignment (orig headerSize : Int) : Except JavaExn Int := do
  let rounded ← roundUpSafe (orig + headerSize) 4
  .ok (rounded - headerSize)

/-- The padding that is written. -/
def padding (paddedBytes bytes : Int) : List Byte := List.replicate (paddedBytes - bytes).toNat 0

/-! ### Slices of children -/

/-- The slice on top of the stack. -/
def getLast : List SliceInfo → Except JavaExn SliceInfo
  | [] => .error .noSuchElement
  | slice :: _ => .ok slice

theorem getLast_of_cons {infos stack : List SliceInfo} {g : SliceInfo} (h : infos = g :: stack) :
    getLast infos = .ok g := h ▸ rfl

theorem of_getLast {α : Type} {infos stack : List SliceInfo} {g : SliceInfo}
    {f : SliceInfo → Except JavaExn α} {r : α} (h : infos = g :: stack)
    (hrun : (getLast infos >>= f) = .ok r) : f g = .ok r := by
  rw [getLast_of_cons h] at hrun
  exact hrun

/-- The slice of the child of a list, as `preVisitList` pushes it. -/
def listSlice (col : HostColumnVectorCore) (parent : SliceInfo) : Except JavaExn SliceInfo :=
  match col.offsets with
  | some offsets => do
    let start ← getInt offsets (javaInt (parent.offset * 4))
    let last ← getInt offsets
      (javaInt (javaInt (parent.offset + parent.rowCount) * 4))
    SliceInfo.make start.toInt (javaInt (last.toInt - start.toInt))
  | none => .ok SliceInfo.empty

/-! ### The header -/

/-- `KudoTableHeaderCalc`; the root slice is an argument of `getHeader`. -/
structure KudoTableHeaderCalc where
  bitset : List Byte
  validityBufferLen : Int
  offsetBufferLen : Int
  dataOnlyLen : Int
  nextColIdx : Nat
  /-- The top of the stack comes first. -/
  sliceInfos : List SliceInfo

namespace KudoTableHeaderCalc

/-- The constructor: the length of the bitset is an `int`. -/
def make (root : SliceInfo) (numFlattenedCols : Nat) : Except JavaExn KudoTableHeaderCalc :=
  if javaInt (numFlattenedCols + 7) < 0 then .error .negativeArraySize
  else .ok {
    bitset := List.replicate ((javaInt (numFlattenedCols + 7)).toNat / 8) 0
    validityBufferLen := 0
    offsetBufferLen := 0
    dataOnlyLen := 0
    nextColIdx := 0
    sliceInfos := [root] }

/-- `getHeader` -/
def getHeader (st : KudoTableHeaderCalc) (root : SliceInfo) (numFlattenedCols : Nat) :
    Except JavaExn KudoTableHeader := do
  let headerSize := KudoTableHeader.serializedSize st.bitset.length
  let paddedValiditySize ← padForValidityAlignment st.validityBufferLen headerSize
  let paddedOffsetsSize ← padForHostAlignment st.offsetBufferLen
  let paddedDataSize ← padForHostAlignment st.dataOnlyLen
  let offset ← toIntExact root.offset
  let rowCount ← toIntExact root.rowCount
  let validityLen ← toIntExact paddedValiditySize
  let offsetsLen ← toIntExact paddedOffsetsSize
  let totalLen ← toIntExact (paddedValiditySize + paddedOffsetsSize + paddedDataSize)
  KudoTableHeader.make offset rowCount validityLen offsetsLen totalLen numFlattenedCols st.bitset

/-- `setHasValidity` -/
def setHasValidity (st : KudoTableHeaderCalc) (hasValidityBuffer : Bool) :
    Except JavaExn KudoTableHeaderCalc :=
  if hasValidityBuffer then
    let bytePos := st.nextColIdx / 8
    let bitPos := st.nextColIdx % 8
    if bytePos < st.bitset.length then
      .ok { st with
        bitset := st.bitset.set bytePos (st.bitset.getD bytePos 0 ||| (1 : BitVec 8) <<< bitPos)
        nextColIdx := st.nextColIdx + 1 }
    else .error .outOfBounds
  else .ok { st with nextColIdx := st.nextColIdx + 1 }

/-- `dataLenOfValidityBuffer` -/
def dataLenOfValidityBuffer (col : HostColumnVectorCore) (info : SliceInfo) : Int :=
  if col.hasValidityVector && 0 < info.rowCount then info.validityBufferInfo.bufferLength else 0

/-- `dataLenOfOffsetBuffer` -/
def dataLenOfOffsetBuffer (type : LeafType) (info : SliceInfo) : Int :=
  if type = .string ∧ 0 < info.rowCount then (info.rowCount + 1) * 4 else 0

/-- `dataLenOfDataBuffer`: a product of `int`s for a type of fixed width. -/
def dataLenOfDataBuffer (type : LeafType) (col : HostColumnVectorCore) (info : SliceInfo) :
    Except JavaExn Int :=
  match type with
  | .string =>
    match col.offsets with
    | some offsets => do
      let startByteOffset ← getInt offsets (javaInt (info.offset * 4))
      let endByteOffset ← getInt offsets
        (javaInt (javaInt (info.offset + info.rowCount) * 4))
      .ok (endByteOffset.toInt - startByteOffset.toInt)
    | none => .ok 0
  | .fixedWidth sizeInBytes =>
    .ok (if 0 < sizeInBytes then javaInt (sizeInBytes * info.rowCount) else 0)

/-- The visitor. -/
def visitor : Visitor JavaExn LeafType HostColumnVectorCore KudoTableHeaderCalc where
  preVisitStruct col st := do
    let parent ← getLast st.sliceInfos
    let includeValidity := col.hasValidityVector && 0 < parent.rowCount
    let st := { st with
      validityBufferLen := st.validityBufferLen + dataLenOfValidityBuffer col parent }
    st.setHasValidity includeValidity
  visitStruct _ st := .ok st
  preVisitList col st := do
    let parent ← getLast st.sliceInfos
    let includeValidity := col.hasValidityVector && 0 < parent.rowCount
    let offsetBufferLength : Int :=
      if col.offsets.isSome ∧ 0 < parent.rowCount then (parent.rowCount + 1) * 4 else 0
    let st := { st with
      validityBufferLen := st.validityBufferLen + dataLenOfValidityBuffer col parent
      offsetBufferLen := st.offsetBufferLen + offsetBufferLength }
    let st ← st.setHasValidity includeValidity
    let current ← listSlice col parent
    .ok { st with sliceInfos := current :: st.sliceInfos }
  visitList _ st := do
    let _ ← getLast st.sliceInfos
    .ok { st with sliceInfos := st.sliceInfos.tail }
  visit type col st := do
    let parent ← getLast st.sliceInfos
    let dataBufferLen ← dataLenOfDataBuffer type col parent
    let st := { st with
      validityBufferLen := st.validityBufferLen + dataLenOfValidityBuffer col parent
      offsetBufferLen := st.offsetBufferLen + dataLenOfOffsetBuffer type parent
      dataOnlyLen := st.dataOnlyLen + dataBufferLen }
    st.setHasValidity (col.hasValidityVector && 0 < parent.rowCount)

end KudoTableHeaderCalc

/-! ### The body -/

inductive BufferType
  | validity
  | offset
  | data
  deriving DecidableEq, Repr

/-- The arguments of `copyBuffer`. -/
structure CopyRange where
  buffer : Option (List Byte)
  offset : Int
  length : Int

/-- `copySlicedValidity`, up to the call of `copyBuffer` -/
def copySlicedValidity (column : HostColumnVectorCore) (sliceInfo : SliceInfo) : Option CopyRange :=
  if column.validity.isSome ∧ 0 < sliceInfo.rowCount then
    let info := sliceInfo.validityBufferInfo
    some ⟨column.validity, info.bufferOffset, info.bufferLength⟩
  else none

/-- `copySlicedOffset`, up to the call of `copyBuffer` -/
def copySlicedOffset (kudoSanityCheck : Bool) (column : HostColumnVectorCore)
    (sliceInfo : SliceInfo) : Except JavaExn (Option CopyRange) :=
  match column.offsets with
  | none => .ok none
  | some offsets =>
    if sliceInfo.rowCount = 0 then .ok none
    else
      let bytesToCopy := javaInt (javaInt (sliceInfo.rowCount + 1) * 4)
      let srcOffset := javaInt (sliceInfo.offset * 4)
      if kudoSanityCheck then do
        let startOffset ← getInt offsets srcOffset
        let endOffset ← getInt offsets
          (javaInt (javaInt (sliceInfo.offset + sliceInfo.rowCount) * 4))
        if startOffset.toInt < 0 ∨ endOffset.toInt < startOffset.toInt then
          .error (.illegalArgument
            s!"Invalid kudo offset: {startOffset.toInt}, {endOffset.toInt}")
        else .ok (some ⟨offsets, srcOffset, bytesToCopy⟩)
      else .ok (some ⟨offsets, srcOffset, bytesToCopy⟩)

/-- `copySlicedData`, up to the call of `copyBuffer` -/
def copySlicedData (type : LeafType) (column : HostColumnVectorCore) (sliceInfo : SliceInfo) :
    Except JavaExn (Option CopyRange) :=
  if 0 < sliceInfo.rowCount then
    match type with
    | .string =>
      match column.offsets with
      | none => .error .nullPointer
      | some offsets => do
        let startByteOffset ← getInt offsets (javaInt (sliceInfo.offset * 4))
        let endByteOffset ← getInt offsets
          (javaInt (javaInt (sliceInfo.offset + sliceInfo.rowCount) * 4))
        let bytesToCopy := endByteOffset.toInt - startByteOffset.toInt
        if column.data.isNone then
          if bytesToCopy ≠ 0 then
            .error (.illegalState
              s!"String column has no data buffer, but bytes to copy is not zero: {bytesToCopy}")
          else .ok none
        else .ok (some ⟨column.data, startByteOffset.toInt, bytesToCopy⟩)
    | .fixedWidth sizeInBytes =>
      if 0 < sizeInBytes then
        .ok (some ⟨column.data, javaInt (sliceInfo.offset * sizeInBytes),
          javaInt (sliceInfo.rowCount * sizeInBytes)⟩)
      else .ok none
  else .ok none

/-- What the visits of a pass copy of a column. -/
def copyRange (kudoSanityCheck : Bool) (bufferType : BufferType) (kind : DType)
    (column : HostColumnVectorCore) (sliceInfo : SliceInfo) : Except JavaExn (Option CopyRange) :=
  match bufferType, kind with
  | .validity, _ => .ok (copySlicedValidity column sliceInfo)
  | .offset, .struct => .ok none
  | .offset, _ => copySlicedOffset kudoSanityCheck column sliceInfo
  | .data, .leaf type => copySlicedData type column sliceInfo
  | .data, _ => .ok none

/-- `DataOutputStreamWriter.copyDataFrom`: the bytes written. The loop that copies pieces of 1024
bytes ends at once if the length is not positive. -/
def copyDataFrom (src : Option (List Byte)) (srcOffset len : Int) : Except JavaExn (List Byte) :=
  if len ≤ 0 then .ok []
  else
    match src with
    | none => .error .nullPointer
    | some src => getBytes src srcOffset len

/-- `SlicedBufferSerializer`, with what it has written. -/
structure SlicedBufferSerializer where
  /-- The top of the stack comes first. -/
  sliceInfos : List SliceInfo
  totalDataLen : Int
  out : List Byte

namespace SlicedBufferSerializer

/-- The constructor. -/
def make (root : SliceInfo) : SlicedBufferSerializer where
  sliceInfos := [root]
  totalDataLen := 0
  out := []

/-- A visit copies a part of the column to the writer and counts the length. -/
def copyColumn (kudoSanityCheck : Bool) (bufferType : BufferType) (kind : DType)
    (col : HostColumnVectorCore) (st : SlicedBufferSerializer) :
    Except JavaExn SlicedBufferSerializer := do
  let parent ← getLast st.sliceInfos
  match ← copyRange kudoSanityCheck bufferType kind col parent with
  | none => .ok st
  | some range => do
    let bytes ← copyDataFrom range.buffer range.offset range.length
    .ok { st with out := st.out ++ bytes, totalDataLen := st.totalDataLen + range.length }

/-- The visitor of a pass. -/
def visitor (kudoSanityCheck : Bool) (bufferType : BufferType) :
    Visitor JavaExn LeafType HostColumnVectorCore SlicedBufferSerializer where
  preVisitStruct col st := copyColumn kudoSanityCheck bufferType .struct col st
  visitStruct _ st := .ok st
  preVisitList col st := do
    let parent ← getLast st.sliceInfos
    let st ← copyColumn kudoSanityCheck bufferType .list col st
    let current ← listSlice col parent
    .ok { st with sliceInfos := current :: st.sliceInfos }
  visitList _ st := do
    let _ ← getLast st.sliceInfos
    .ok { st with sliceInfos := st.sliceInfos.tail }
  visit type col st := copyColumn kudoSanityCheck bufferType (.leaf type) col st

/-- The length of a part of the body with its padding. -/
def paddedLen (bufferType : BufferType) (totalDataLen headerSize : Int) : Except JavaExn Int :=
  match bufferType with
  | .validity => padForValidityAlignment totalDataLen headerSize
  | .offset | .data => padForHostAlignment totalDataLen

/-- `done` -/
def done (bufferType : BufferType) (headerSize : Nat) (st : SlicedBufferSerializer) :
    Except JavaExn SlicedBufferSerializer := do
  let padded ← paddedLen bufferType st.totalDataLen headerSize
  .ok { st with
    out := st.out ++ padding padded st.totalDataLen
    totalDataLen := padded }

/-- `Visitors.visitColumns` with the serializer of a pass -/
def run (kudoSanityCheck : Bool) (bufferType : BufferType) (columns : List HostColumn)
    (root : SliceInfo) (headerSize : Nat) : Except JavaExn SlicedBufferSerializer := do
  let st ← (visitor kudoSanityCheck bufferType).visitTrees columns (make root)
  st.done bufferType headerSize

end SlicedBufferSerializer

/-! ### Records -/

/-- A record as it is written: its header and its body. -/
structure KudoRecord where
  header : KudoTableHeader
  body : List Byte

/-- The bytes of a record. -/
def KudoRecord.bytes (r : KudoRecord) : List Byte := r.header.writeTo ++ r.body

/-- `writeSliced`, of columns that the schema of the serializer has. -/
def writeSliced (kudoSanityCheck : Bool) (columns : List HostColumn) (rowOffset numRows : Int) :
    Except JavaExn KudoRecord := do
  let flattenedColumnCount := Nested.sizeAll columns
  let root ← SliceInfo.make rowOffset numRows
  let headerCalc ← KudoTableHeaderCalc.make root flattenedColumnCount
  let headerCalc ← KudoTableHeaderCalc.visitor.visitTrees columns headerCalc
  let header ← headerCalc.getHeader root flattenedColumnCount
  let headerSize := KudoTableHeader.serializedSize header.hasValidityBuffers.length
  let validity ← SlicedBufferSerializer.run kudoSanityCheck .validity columns root headerSize
  let offset ← SlicedBufferSerializer.run kudoSanityCheck .offset columns root headerSize
  let data ← SlicedBufferSerializer.run kudoSanityCheck .data columns root headerSize
  let bytesWritten := validity.totalDataLen + offset.totalDataLen + data.totalDataLen
  if bytesWritten ≠ header.totalDataLen then
    .error (.illegalState s!"Header total data length: {header.totalDataLen} does not match actual written data length: {bytesWritten}, rowOffset: {rowOffset} numRows: {numRows}")
  else .ok { header, body := validity.out ++ offset.out ++ data.out }

/-- `writeToStreamWithMetrics` -/
def writeToStreamWithMetrics (kudoSanityCheck : Bool) (columns : List HostColumn)
    (rowOffset numRows : Int) : Except JavaExn KudoRecord :=
  if numRows ≤ 0 then .error (.illegalArgument s!"numRows must be > 0, but was {numRows}")
  else if columns = [] then
    .error (.illegalArgument "columns must not be empty, for row count only records please call writeRowCountToStream")
  else writeSliced kudoSanityCheck columns rowOffset numRows

/-- `writeRowCountToStream` -/
def writeRowCountToStream (numRows : Int) : Except JavaExn KudoRecord := do
  if numRows ≤ 0 then .error (.illegalArgument s!"Number of rows must be > 0, but was {numRows}")
  else
    let header ← KudoTableHeader.make 0 numRows 0 0 0 0 []
    .ok { header, body := [] }

end SparkRapids.Kudo
