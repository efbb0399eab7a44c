import SparkRapidsJni.Kudo.SliceRange

/-!
# Addresses of slices

If the positions of all columns fit, the header and the three passes of the serializer go through:
they visit the slices that `readSlice` says, the header counts the lengths of the ranges and the
passes copy them. Conversely a record whose ranges are the true ones has been made with positions
that fit. So a slice whose record is smaller than 2^31 bytes is written as it is exactly if the
positions fit (`writes_iff`), and the product of an offset and a width of eight bytes does not from
row 2^28 on (`position_wraps`).
-/

namespace SparkRapids.Kudo

open Bytes Nested HostColumnVectorCore

/-- The bytes with zeros behind them, such that they end at a multiple of four behind `start`. -/
def padded (start : Nat) (bytes : List Byte) : List Byte :=
  bytes ++ List.replicate ((start + bytes.length + 3) / 4 * 4 - (start + bytes.length)) 0

/-- A part that is read, with positions and ranges that fit. -/
structure PartFits (p : Part) : Prop extends PartRead p where
  positions : PositionsFit p
  ranges : RangesFit p

namespace SlicedColumns

variable (t : SlicedColumns)

/-- The size of the header. -/
def headerSize : Nat :=
  KudoTableHeader.serializedSize (lengthOfHasValidityBuffer (sizeAll t.columns))

/-- The body that holds the slice: the validity bits end at a multiple of four in the record. -/
def body : List Byte :=
  padded t.headerSize (sectionBytes .validity t.parts) ++ padded 0 (sectionBytes .offset t.parts) ++
    padded 0 (sectionBytes .data t.parts)

/-- The number of bytes that hold the slice. -/
def serializedSize : Nat := t.headerSize + t.body.length

/-- The slice is written as it is: the serializer returns a record, whose body has the length that
its header says and holds the bytes of the ranges, and each visit of each pass copies exactly the
range of its column. -/
def Writes (check : Bool) : Prop :=
  ∃ record, writeSliced check t.columns t.slice.offset t.slice.rowCount = .ok record ∧
    record.body.length = record.header.totalDataLen ∧ record.body = t.body ∧
    ∀ type, ((visited t.columns t.slice).map fun p => copyRange check type p.kind p.val p.ctx) =
      t.parts.map fun p => .ok (sourceRange type p)

end SlicedColumns

variable {type : BufferType} {parts : List Part} {k : Nat} {stack : List SliceInfo} {p : Part}

/-! ### Padding -/

theorem roundUpSafe_natCast (n : Nat) : roundUpSafe n 4 = .ok ((n + 3) / 4 * 4 : Nat) := by
  have hmod : (n : Int).tmod 4 = (n % 4 : Nat) := by
    rw [Int.tmod_eq_emod_of_nonneg (by omega)]
    rfl
  unfold roundUpSafe
  dsimp only
  rw [hmod]
  by_cases hzero : n % 4 = 0
  · rw [if_pos (by omega)]
    congr 1
    omega
  · rw [if_neg (by omega), if_neg (by omega)]
    congr 1
    omega

theorem length_padded (start : Nat) (bytes : List Byte) :
    (padded start bytes).length = (start + bytes.length + 3) / 4 * 4 - start := by
  unfold padded
  rw [List.length_append, List.length_replicate]
  omega

/-- Where the alignment of a section counts from. -/
def alignStart (bufferType : BufferType) (headerSize : Nat) : Nat :=
  match bufferType with
  | .validity => headerSize
  | .offset | .data => 0

theorem paddedLen_natCast (type : BufferType) (bytes : List Byte) (headerSize : Nat) :
    SlicedBufferSerializer.paddedLen type bytes.length headerSize =
      .ok (padded (alignStart type headerSize) bytes).length := by
  rw [length_padded]
  cases type with
  | validity =>
    show padForValidityAlignment _ _ = _
    unfold padForValidityAlignment
    rw [← Nat.cast_add, roundUpSafe_natCast, ok_bind]
    unfold alignStart
    dsimp only
    congr 1
    omega
  | offset =>
    show roundUpSafe _ 4 = .ok ((0 + bytes.length + 3) / 4 * 4 - 0 : Nat)
    rw [roundUpSafe_natCast, Nat.zero_add]
    rfl
  | data =>
    show roundUpSafe _ 4 = .ok ((0 + bytes.length + 3) / 4 * 4 - 0 : Nat)
    rw [roundUpSafe_natCast, Nat.zero_add]
    rfl

/-! ### The passes -/

theorem sectionBytes_take_succ (type : BufferType) (hp : parts[k]? = some p) :
    sectionBytes type (parts.take (k + 1)) =
      sectionBytes type (parts.take k) ++ rangeBytes (sourceRange type p) := by
  unfold sectionBytes
  rw [List.take_add_one, hp, List.flatMap_append]
  simp

/-- A pass before column `k`: it is inside of the columns whose slices are `stack`, and it has
written the ranges of the columns before. -/
structure SlicedPassAt (type : BufferType) (parts : List Part) (k : Nat) (stack : List SliceInfo)
    (st : SlicedBufferSerializer) : Prop where
  sliceInfos : st.sliceInfos = stack
  out : st.out = sectionBytes type (parts.take k)
  totalDataLen : st.totalDataLen = st.out.length

section Pass

variable {kind : DType} {col : HostColumnVectorCore} {g : SliceInfo}
  {st : SlicedBufferSerializer}

theorem SlicedPassAt.copyColumn (check : Bool) (hfits : ∀ p ∈ parts, PartFits p)
    (hp : parts[k]? = some ⟨kind, col, g⟩) (h : SlicedPassAt type parts k (g :: stack) st) :
    ∃ st', SlicedBufferSerializer.copyColumn check type kind col st = .ok st' ∧
      SlicedPassAt type parts (k + 1) (g :: stack) st' := by
  have hfit := hfits _ (List.mem_of_getElem? hp)
  have hrange := hfit.toPartRead.copyRange hfit.positions hfit.ranges check type
  dsimp only at hrange
  have htop := getLast_of_cons h.sliceInfos
  unfold SlicedBufferSerializer.copyColumn
  rw [htop, ok_bind, hrange, ok_bind]
  have hnext := sectionBytes_take_succ type hp
  cases hsource : sourceRange type ⟨kind, col, g⟩ with
  | none =>
    rw [hsource, rangeBytes, List.append_nil] at hnext
    exact ⟨st, rfl, h.sliceInfos, h.out.trans hnext.symm, h.totalDataLen⟩
  | some range =>
    obtain ⟨hcopy, hlen⟩ := hfit.toPartRead.copyDataFrom hsource
    dsimp only
    rw [hcopy, ok_bind]
    refine ⟨_, rfl, h.sliceInfos, ?_, ?_⟩
    · rw [hnext, hsource, ← h.out]
    · show st.totalDataLen + range.length = ((st.out ++ rangeBytes (some range)).length : Nat)
      rw [List.length_append, Nat.cast_add, hlen, h.totalDataLen]

/-- A pass goes through if the positions fit. -/
theorem steps_slicedPassAt (check : Bool) (hfits : ∀ p ∈ parts, PartFits p) :
    Visitor.Steps (SlicedBufferSerializer.visitor check type) readSlice parts
      (SlicedPassAt type parts) where
  preVisitStruct hp h := h.copyColumn check hfits hp
  visitStruct h := ⟨_, rfl, h⟩
  preVisitList {k a g stack st} hp h := by
    have hfit := hfits _ (List.mem_of_getElem? hp)
    have htop := getLast_of_cons h.sliceInfos
    obtain ⟨st₁, hcopy, h1⟩ := h.copyColumn check hfits hp
    have hslice := hfit.toPartRead.listSlice hfit.positions rfl
    refine ⟨{ st₁ with sliceInfos := a.readSlice g :: st₁.sliceInfos }, ?_, ?_, h1.out,
      h1.totalDataLen⟩
    · show (do
        let parent ← getLast st.sliceInfos
        let st ← SlicedBufferSerializer.copyColumn check type .list a st
        let current ← listSlice a parent
        Except.ok { st with sliceInfos := current :: st.sliceInfos }) = _
      rw [htop, ok_bind, hcopy, ok_bind, hslice, ok_bind]
    · show a.readSlice g :: st₁.sliceInfos = _
      rw [h1.sliceInfos]
  visitList {k a g stack st} h := by
    refine ⟨{ st with sliceInfos := st.sliceInfos.tail }, ?_, ?_, h.out, h.totalDataLen⟩
    · show (do
        let _ ← getLast st.sliceInfos
        Except.ok { st with sliceInfos := st.sliceInfos.tail }) = _
      rw [h.sliceInfos]
      rfl
    · show st.sliceInfos.tail = stack
      rw [h.sliceInfos]
      rfl
  visit hp h := h.copyColumn check hfits hp

end Pass

/-- A pass writes the ranges and the padding. -/
theorem exists_run {columns : List HostColumn} {root : SliceInfo} (check : Bool)
    (type : BufferType) (headerSize : Nat)
    (hfits : ∀ p ∈ flattenAll readSlice columns root, PartFits p) :
    ∃ st, SlicedBufferSerializer.run check type columns root headerSize = .ok st ∧
      st.out = padded (alignStart type headerSize)
        (sectionBytes type (flattenAll readSlice columns root)) ∧
      st.totalDataLen = st.out.length := by
  have hinit : SlicedPassAt type (flattenAll readSlice columns root) 0
      [root] (SlicedBufferSerializer.make root) := by
    constructor
    · rfl
    · rw [List.take_zero]
      rfl
    · rfl
  obtain ⟨st, hvisit, hpass⟩ := (steps_slicedPassAt check hfits).visitTrees columns
    Visitor.PartAt.self hinit
  have hout := hpass.out
  rw [Nat.zero_add, ← length_flattenAll columns root, List.take_length] at hout
  have hpadded := paddedLen_natCast type st.out headerSize
  unfold SlicedBufferSerializer.run SlicedBufferSerializer.done
  rw [hvisit, ok_bind, hpass.totalDataLen, hpadded, ok_bind]
  have hpadding : st.out ++ padding (padded (alignStart type headerSize) st.out).length st.out.length =
      padded (alignStart type headerSize) st.out := by
    rw [padding, length_padded]
    unfold padded
    congr 2
    omega
  refine ⟨_, rfl, ?_, ?_⟩
  · show st.out ++ padding _ _ = _
    rw [hpadding, hout]
  · show ((padded (alignStart type headerSize) st.out).length : Int) =
      (st.out ++ padding _ _).length
    rw [hpadding]

/-! ### The header -/

/-- The calculator of the header before column `k`. -/
structure CalcAt (parts : List Part) (k : Nat) (stack : List SliceInfo)
    (st : KudoTableHeaderCalc) : Prop where
  sliceInfos : st.sliceInfos = stack
  nextColIdx : st.nextColIdx = k
  length_bitset : st.bitset.length = lengthOfHasValidityBuffer parts.length
  bitset : ∀ j, bit st.bitset j = (parts.take k)[j]?.any hasValidity
  validityBufferLen : st.validityBufferLen = (sectionBytes .validity (parts.take k)).length
  offsetBufferLen : st.offsetBufferLen = (sectionBytes .offset (parts.take k)).length
  dataOnlyLen : st.dataOnlyLen = (sectionBytes .data (parts.take k)).length

section Calc

variable {kind : DType} {col : HostColumnVectorCore} {g : SliceInfo} {st : KudoTableHeaderCalc}

theorem length_sectionBytes_take_succ (type : BufferType) (hp : parts[k]? = some p) :
    ((sectionBytes type (parts.take (k + 1))).length : Int) =
      (sectionBytes type (parts.take k)).length + rangeLength type p := by
  rw [sectionBytes_take_succ type hp, List.length_append]
  push_cast
  rfl

theorem bit_set_or {bitset : List Byte} (hk : k / 8 < bitset.length) (j : Nat) :
    bit (bitset.set (k / 8) (bitset.getD (k / 8) 0 ||| (1 : BitVec 8) <<< (k % 8))) j =
      (bit bitset j || decide (j = k)) := by
  unfold bit
  by_cases hbyte : j / 8 = k / 8
  · have hbits : ((1 : BitVec 8) <<< (k % 8)).getLsbD (j % 8) = decide (j = k) := by
      rw [BitVec.getLsbD_shiftLeft, show (1 : BitVec 8) = 1#8 from rfl, BitVec.getLsbD_one]
      by_cases hjk : j = k
      · subst hjk
        simp [Nat.mod_lt j (by decide : 0 < 8)]
      · rw [decide_eq_false hjk]
        by_cases hlt : j % 8 < k % 8
        · simp [hlt]
        · rw [decide_eq_false (by omega : ¬j % 8 - k % 8 = 0)]
          simp
    rw [List.getD_eq_getElem?_getD, hbyte, List.getElem?_set_self hk, Option.getD_some,
      BitVec.getLsbD_or, hbits]
  · have hjk : j ≠ k := by
      rintro rfl
      exact hbyte rfl
    rw [List.getD_eq_getElem?_getD, List.getElem?_set_ne (Ne.symm hbyte), decide_eq_false hjk,
      Bool.or_false, ← List.getD_eq_getElem?_getD]

/-- A visit counts the lengths of the ranges and notes whether there are validity bits. -/
theorem CalcAt.setHasValidity (hp : parts[k]? = some p) (h : CalcAt parts k stack st)
    {validity offset data : Int} (hvalidity : validity = rangeLength .validity p)
    (hoffset : offset = rangeLength .offset p) (hdata : data = rangeLength .data p) :
    ∃ st', KudoTableHeaderCalc.setHasValidity
        { st with
          validityBufferLen := st.validityBufferLen + validity
          offsetBufferLen := st.offsetBufferLen + offset
          dataOnlyLen := st.dataOnlyLen + data } (hasValidity p) = .ok st' ∧
      CalcAt parts (k + 1) stack st' := by
  have hlt : k < parts.length := (List.getElem?_eq_some_iff.1 hp).1
  have hbyte : st.nextColIdx / 8 < st.bitset.length := by
    rw [h.nextColIdx, h.length_bitset, lengthOfHasValidityBuffer]
    omega
  have hlens (type : BufferType) := length_sectionBytes_take_succ type hp
  have hvalidityLen := (hlens .validity).trans (by rw [← h.validityBufferLen, ← hvalidity])
  have hoffsetLen := (hlens .offset).trans (by rw [← h.offsetBufferLen, ← hoffset])
  have hdataLen := (hlens .data).trans (by rw [← h.dataOnlyLen, ← hdata])
  -- the bit of the column is the next one
  have hbits (j : Nat) : (parts.take (k + 1))[j]?.any hasValidity =
      ((parts.take k)[j]?.any hasValidity || decide (j = k) && hasValidity p) := by
    rw [List.getElem?_take, List.getElem?_take]
    by_cases hjk : j = k
    · subst hjk
      rw [if_pos (by omega), if_neg (by omega), hp, decide_eq_true rfl]
      simp
    · rw [decide_eq_false hjk, Bool.false_and, Bool.or_false]
      by_cases hj : j < k
      · rw [if_pos (by omega), if_pos hj]
      · rw [if_neg (by omega), if_neg hj]
  unfold KudoTableHeaderCalc.setHasValidity
  cases hvalid : hasValidity p with
  | true =>
    dsimp only
    rw [if_pos rfl, if_pos hbyte]
    refine ⟨_, rfl, h.sliceInfos, by rw [h.nextColIdx], ?_, fun j => ?_, hvalidityLen.symm,
      hoffsetLen.symm, hdataLen.symm⟩
    · show (st.bitset.set _ _).length = _
      rw [List.length_set, h.length_bitset]
    · rw [h.nextColIdx] at hbyte ⊢
      rw [bit_set_or hbyte, hbits, h.bitset, hvalid, Bool.and_true]
  | false =>
    rw [if_neg (by simp)]
    refine ⟨_, rfl, h.sliceInfos, by rw [h.nextColIdx], h.length_bitset, fun j => ?_,
      hvalidityLen.symm, hoffsetLen.symm, hdataLen.symm⟩
    show bit st.bitset j = _
    rw [hbits, h.bitset, hvalid, Bool.and_false, Bool.or_false]

/-- The calculator goes through if the positions fit. -/
theorem steps_calcAt (hfits : ∀ p ∈ parts, PartFits p) :
    Visitor.Steps KudoTableHeaderCalc.visitor readSlice parts
      (CalcAt parts) where
  preVisitStruct {k a g stack st} hp h := by
    have hfit := hfits _ (List.mem_of_getElem? hp)
    have htop := getLast_of_cons h.sliceInfos
    obtain ⟨st', hset, hnext⟩ := h.setHasValidity hp hfit.toPartRead.dataLenOfValidityBuffer
      (rangeLength_struct rfl (by simp)).symm (rangeLength_struct rfl (by simp)).symm
    refine ⟨st', ?_, hnext⟩
    rw [Int.add_zero, Int.add_zero] at hset
    show (getLast st.sliceInfos >>= fun parent => _) = _
    rw [htop]
    exact hset
  visitStruct h := ⟨_, rfl, h⟩
  preVisitList {k a g stack st} hp h := by
    have hfit := hfits _ (List.mem_of_getElem? hp)
    have htop := getLast_of_cons h.sliceInfos
    obtain ⟨st', hset, hnext⟩ := h.setHasValidity hp hfit.toPartRead.dataLenOfValidityBuffer
      (hfit.toPartRead.rangeLength_offset (by simp)) (rangeLength_list rfl).symm
    rw [Int.add_zero] at hset
    have hslice := hfit.toPartRead.listSlice hfit.positions rfl
    dsimp only [hasValidity] at hset hslice
    -- the slice of the child goes on top of the stack
    refine ⟨{ st' with sliceInfos := a.readSlice g :: st'.sliceInfos }, ?_, ?_, hnext.nextColIdx,
      hnext.length_bitset, hnext.bitset, hnext.validityBufferLen, hnext.offsetBufferLen,
      hnext.dataOnlyLen⟩
    · show (getLast st.sliceInfos >>= fun parent => _) = _
      rw [htop, ok_bind]
      dsimp only
      rw [hset, ok_bind, hslice, ok_bind]
    · show a.readSlice g :: st'.sliceInfos = _
      rw [hnext.sliceInfos]
  visitList {k a g stack st} h := by
    refine ⟨{ st with sliceInfos := st.sliceInfos.tail }, ?_, ?_, h.nextColIdx, h.length_bitset,
      h.bitset, h.validityBufferLen, h.offsetBufferLen, h.dataOnlyLen⟩
    · show (getLast st.sliceInfos >>= fun _ => _) = _
      rw [h.sliceInfos]
      rfl
    · show st.sliceInfos.tail = stack
      rw [h.sliceInfos]
      rfl
  visit {k t a g stack st} hp h := by
    have hfit := hfits _ (List.mem_of_getElem? hp)
    have htop := getLast_of_cons h.sliceInfos
    obtain ⟨st', hset, hnext⟩ := h.setHasValidity hp hfit.toPartRead.dataLenOfValidityBuffer
      (hfit.toPartRead.dataLenOfOffsetBuffer rfl) rfl
    have hdata := hfit.toPartRead.dataLenOfDataBuffer hfit.positions hfit.ranges rfl
    dsimp only [hasValidity] at hset hdata
    refine ⟨st', ?_, hnext⟩
    show (getLast st.sliceInfos >>= fun parent => _) = _
    rw [htop, ok_bind]
    dsimp only
    rw [hdata, ok_bind]
    exact hset

end Calc

namespace SlicedColumns

variable {t : SlicedColumns}

theorem length_readParts (t : SlicedColumns) : t.readParts.length = sizeAll t.columns :=
  length_flattenAll t.columns t.slice

theorem length_body (t : SlicedColumns) : t.body.length =
    (padded t.headerSize (sectionBytes .validity t.readParts)).length +
      (padded 0 (sectionBytes .offset t.readParts)).length +
        (padded 0 (sectionBytes .data t.readParts)).length := by
  unfold body
  rw [List.length_append, List.length_append, sectionBytes_parts, sectionBytes_parts,
    sectionBytes_parts]

/-- The header of a slice whose size is an `int`. -/
theorem exists_header {st : KudoTableHeaderCalc} (hsize : t.serializedSize ≤ intMax)
    (hcols : sizeAll t.columns < 2 ^ 31)
    (h : CalcAt t.readParts t.readParts.length [t.slice] st) :
    ∃ header, st.getHeader t.slice (sizeAll t.columns) = .ok header ∧
      header.totalDataLen = t.body.length ∧
      header.hasValidityBuffers.length =
        lengthOfHasValidityBuffer (sizeAll t.columns) := by
  have hlen := h.length_bitset
  have hvalidity := h.validityBufferLen
  have hoffsets := h.offsetBufferLen
  have hdata := h.dataOnlyLen
  rw [List.take_length] at hvalidity hoffsets hdata
  rw [t.length_readParts] at hlen
  have hbody := t.length_body
  have hinside := t.inside
  have hrows := t.rowCount_le
  unfold serializedSize intMax at hsize
  unfold intMax at hrows
  have hpadValidity : padForValidityAlignment st.validityBufferLen t.headerSize =
      .ok (padded t.headerSize (sectionBytes .validity t.readParts)).length := by
    rw [hvalidity]
    exact paddedLen_natCast .validity _ _
  have hpadOffsets : padForHostAlignment st.offsetBufferLen =
      .ok (padded 0 (sectionBytes .offset t.readParts)).length := by
    rw [hoffsets]
    exact paddedLen_natCast .offset _ 0
  have hpadData : padForHostAlignment st.dataOnlyLen =
      .ok (padded 0 (sectionBytes .data t.readParts)).length := by
    rw [hdata]
    exact paddedLen_natCast .data _ 0
  have hint (n : Nat) (hn : (n : Int) ≤ 2 ^ 31 - 1) : toIntExact n = .ok (n : Int) :=
    toIntExact_of_bounds (by omega) hn
  -- every field is a length in a record smaller than `2 ^ 31`
  have hfields : ∀ n ∈ [t.slice.offset, t.slice.rowCount,
      (padded t.headerSize (sectionBytes .validity t.readParts)).length,
      (padded 0 (sectionBytes .offset t.readParts)).length, t.body.length,
      sizeAll t.columns], n < 2 ^ 31 := by
    simp only [List.forall_mem_cons, List.not_mem_nil, false_implies, implies_true, and_true]
    omega
  have hheader : st.getHeader t.slice (sizeAll t.columns) =
      KudoTableHeader.make t.slice.offset t.slice.rowCount
        (padded t.headerSize (sectionBytes .validity t.readParts)).length
        (padded 0 (sectionBytes .offset t.readParts)).length t.body.length
        (sizeAll t.columns) st.bitset := by
    unfold KudoTableHeaderCalc.getHeader
    rw [hlen]
    dsimp only
    rw [show KudoTableHeader.serializedSize
      (lengthOfHasValidityBuffer (sizeAll t.columns)) = t.headerSize from rfl]
    rw [hpadValidity, ok_bind, hpadOffsets, ok_bind, hpadData, ok_bind]
    rw [hint _ (by omega), ok_bind, hint _ (by omega), ok_bind, hint _ (by omega), ok_bind,
      hint _ (by omega), ok_bind, ← Nat.cast_add, ← Nat.cast_add, ← hbody, hint _ (by omega),
      ok_bind]
  let header : KudoTableHeader := ⟨_, _, _, _, _, _, st.bitset, hlen, hfields⟩
  exact ⟨header, hheader.trans header.make_fields, rfl, hlen⟩

/-! ### Positions that fit are enough -/

theorem map_ok_parts (t : SlicedColumns) (type : BufferType) :
    (t.parts.map fun p => (Except.ok (sourceRange type p) : Except JavaExn _)) =
      t.readParts.map fun p => .ok (sourceRange type p) := by
  have h := congrArg (List.map (@Except.ok JavaExn _)) (t.sourceRange_parts type)
  rwa [List.map_map, List.map_map] at h

theorem length_rangeBytes_le (type : BufferType) (hp : p ∈ parts) :
    (rangeBytes (sourceRange type p)).length ≤ (sectionBytes type parts).length := by
  obtain ⟨before, behind, rfl⟩ := List.append_of_mem hp
  unfold sectionBytes
  rw [List.flatMap_append, List.flatMap_cons, List.length_append, List.length_append]
  omega

theorem rangesFit (hsize : t.serializedSize ≤ intMax) : ∀ p ∈ t.readParts, RangesFit p := by
  intro p hp type
  have hle := length_rangeBytes_le type hp
  have hbody := t.length_body
  have hlen (start : Nat) (bytes : List Byte) : bytes.length ≤ (padded start bytes).length := by
    unfold padded
    rw [List.length_append]
    omega
  have hvalidity := hlen t.headerSize (sectionBytes .validity t.readParts)
  have hoffset := hlen 0 (sectionBytes .offset t.readParts)
  have hdata := hlen 0 (sectionBytes .data t.readParts)
  unfold serializedSize at hsize
  cases type <;> omega

theorem partFits (hsize : t.serializedSize ≤ intMax)
    (hfits : ∀ p ∈ t.readParts, PositionsFit p) : ∀ p ∈ t.readParts, PartFits p :=
  fun p hp => ⟨t.partRead p hp, hfits p hp, rangesFit hsize p hp⟩

/-- The slices that the passes visit are those that are read. -/
theorem visited_eq (hfits : ∀ p ∈ t.readParts, PartFits p) :
    visited t.columns t.slice = t.readParts := by
  refine (flattenAll_congr t.columns t.slice fun q hq hlist heq => ?_).2
  have hfit := hfits _ (snd_mem_flattenAll hq)
  have hslice := hfit.toPartRead.listSlice hfit.positions hlist
  rw [heq, childSliceInfo]
  show (listSlice q.val q.ctx.2).toOption.getD SliceInfo.empty = _
  rw [show listSlice q.val q.ctx.2 = .ok (q.val.readSlice q.ctx.2) from hslice]
  rfl

/-- The calculator before the first column. -/
def newCalc (t : SlicedColumns) : KudoTableHeaderCalc where
  bitset := List.replicate (lengthOfHasValidityBuffer (sizeAll t.columns)) 0
  validityBufferLen := 0
  offsetBufferLen := 0
  dataOnlyLen := 0
  nextColIdx := 0
  sliceInfos := [t.slice]

theorem writes_of_fits (check : Bool) (hsize : t.serializedSize ≤ intMax)
    (hcols : sizeAll t.columns + 7 < 2 ^ 31) (hfits : ∀ p ∈ t.readParts, PositionsFit p) :
    t.Writes check := by
  have hparts := partFits hsize hfits
  have hmake : KudoTableHeaderCalc.make t.slice (sizeAll t.columns) = .ok t.newCalc := by
    have hint : javaInt (sizeAll t.columns + 7) = (sizeAll t.columns + 7 : Nat) :=
      javaInt_of_bounds (by omega) (by unfold intMax; omega)
    unfold KudoTableHeaderCalc.make
    rw [hint, if_neg (by omega), Int.toNat_natCast]
    rfl
  have hinit : CalcAt t.readParts 0 [t.slice] t.newCalc := by
    constructor
    · rfl
    · rfl
    · rw [newCalc, List.length_replicate, t.length_readParts]
    · intro j
      rw [List.take_zero]
      show BitVec.getLsbD (List.getD (List.replicate _ 0) (j / 8) 0) (j % 8) = false
      rw [List.getD_eq_getElem?_getD, List.getElem?_replicate]
      split <;> exact BitVec.getLsbD_zero
    all_goals
      rw [List.take_zero]
      rfl
  -- the calculator visits the columns first, and then each of the three passes
  obtain ⟨calc₁, hvisit, hcalc⟩ := (steps_calcAt hparts).visitTrees t.columns Visitor.PartAt.self hinit
  rw [Nat.zero_add, ← t.length_readParts] at hcalc
  obtain ⟨header, hheader, htotal, hbitset⟩ := exists_header hsize (by omega) hcalc
  obtain ⟨validity, hvalidity, hvalidityOut, hvalidityLen⟩ :=
    exists_run check .validity t.headerSize hparts
  obtain ⟨offset, hoffset, hoffsetOut, hoffsetLen⟩ := exists_run check .offset t.headerSize hparts
  obtain ⟨data, hdata, hdataOut, hdataLen⟩ := exists_run check .data t.headerSize hparts
  have hout : validity.out ++ offset.out ++ data.out = t.body := by
    unfold body
    rw [hvalidityOut, hoffsetOut, hdataOut, sectionBytes_parts, sectionBytes_parts,
      sectionBytes_parts]
    rfl
  have hlen := congrArg List.length hout
  rw [List.length_append, List.length_append] at hlen
  refine ⟨⟨header, t.body⟩, ?_, htotal.symm, rfl, fun type => ?_⟩
  · unfold writeSliced
    dsimp only
    rw [SliceInfo.make_natCast, ok_bind, hmake, ok_bind, hvisit, ok_bind, hheader, ok_bind, hbitset]
    show (SlicedBufferSerializer.run check .validity t.columns t.slice t.headerSize >>= _) = _
    rw [hvalidity, ok_bind]
    show (SlicedBufferSerializer.run check .offset t.columns t.slice t.headerSize >>= _) = _
    rw [hoffset, ok_bind]
    show (SlicedBufferSerializer.run check .data t.columns t.slice t.headerSize >>= _) = _
    rw [hdata, ok_bind, hout]
    refine if_neg (not_not.2 ?_)
    rw [hvalidityLen, hoffsetLen, hdataLen, htotal]
    omega
  · rw [visited_eq hparts, map_ok_parts]
    refine List.map_congr_left fun p hp => ?_
    have hfit := hparts p hp
    exact hfit.toPartRead.copyRange hfit.positions hfit.ranges check type

end SlicedColumns

/-! ### Positions that fit are needed -/

theorem javaInt_le (n : Int) : javaInt n ≤ intMax := by
  unfold javaInt intMax
  have hlt := Int.bmod_lt (x := n) (m := 2 ^ 32) (by decide)
  omega

theorem javaInt_neg {n : Int} (h1 : intMax < n) (h2 : n < 2 ^ 32) : javaInt n < 0 := by
  unfold intMax at h1
  have hwrap : javaInt n = n - 2 ^ 32 := by
    rw [javaInt, ← Int.sub_bmod_right]
    exact Int.bmod_eq_of_le (m := 2 ^ 32) (by omega) (by omega)
  omega

theorem HostMemoryBuffer.nonneg_of_getInt {buf : List Byte} {offset : Int} {v : BitVec 32}
    (h : HostMemoryBuffer.getInt buf offset = .ok v) : 0 ≤ offset := by
  unfold HostMemoryBuffer.getInt at h
  split at h
  · next hbounds => exact hbounds.1
  · exact absurd h (by simp)

/-- The visit of a part by the calculator of the header reads its offsets. -/
structure OffsetsRead (p : Part) : Prop where
  list : p.kind = .list → ∃ slice, listSlice p.val p.ctx = .ok slice
  leaf : ∀ t, p.kind = .leaf t →
    ∃ len, KudoTableHeaderCalc.dataLenOfDataBuffer t p.val p.ctx = .ok len

/-- Both offsets that are read are inside of the buffer. -/
theorem OffsetsRead.nonneg {offsets : List Byte} (h : OffsetsRead p) (hk : hasOffsets p.kind)
    (ho : p.val.offsets = some offsets) : 0 ≤ javaInt (p.ctx.offset * 4) ∧
      0 ≤ javaInt (javaInt (p.ctx.offset + p.ctx.rowCount) * 4) := by
  cases hkind : p.kind with
  | struct =>
    rw [hkind] at hk
    exact absurd hk (by simp [hasOffsets])
  | list =>
    obtain ⟨slice, hslice⟩ := h.list hkind
    unfold listSlice at hslice
    rw [ho] at hslice
    obtain ⟨first, hfirst, hslice⟩ := exists_of_bind_ok hslice
    obtain ⟨last, hlast, hslice⟩ := exists_of_bind_ok hslice
    exact ⟨HostMemoryBuffer.nonneg_of_getInt hfirst, HostMemoryBuffer.nonneg_of_getInt hlast⟩
  | leaf t =>
    obtain ⟨len, hlen⟩ := h.leaf t hkind
    cases t with
    | fixedWidth width =>
      rw [hkind] at hk
      exact absurd hk (by simp [hasOffsets, LeafType.hasOffsets])
    | string =>
      unfold KudoTableHeaderCalc.dataLenOfDataBuffer at hlen
      dsimp only at hlen
      rw [ho] at hlen
      obtain ⟨first, hfirst, hlen⟩ := exists_of_bind_ok hlen
      obtain ⟨last, hlast, hlen⟩ := exists_of_bind_ok hlen
      exact ⟨HostMemoryBuffer.nonneg_of_getInt hfirst, HostMemoryBuffer.nonneg_of_getInt hlast⟩

theorem copyRange_offset {check : Bool} {kind : DType} (hk : kind ≠ .struct)
    (col : HostColumnVectorCore) (s : SliceInfo) :
    copyRange check .offset kind col s = copySlicedOffset check col s := by
  cases kind with
  | struct => exact absurd rfl hk
  | list => rfl
  | leaf t => rfl

/-- The position at which the offsets are copied is a product of `int`s. -/
theorem offset_of_copySlicedOffset {check : Bool} {col : HostColumnVectorCore} {s : SliceInfo}
    {range : CopyRange} (h : copySlicedOffset check col s = .ok (some range)) :
    range.offset = javaInt (s.offset * 4) := by
  unfold copySlicedOffset at h
  cases ho : col.offsets with
  | none =>
    rw [ho] at h
    exact absurd (Except.ok.inj h) (by simp)
  | some offsets =>
    rw [ho] at h
    dsimp only at h
    split at h
    · exact absurd (Except.ok.inj h) (by simp)
    · split at h
      · obtain ⟨first, -, h⟩ := exists_of_bind_ok h
        obtain ⟨last, -, h⟩ := exists_of_bind_ok h
        split at h
        · exact absurd h (by simp)
        · rw [← Option.some.inj (Except.ok.inj h)]
      · rw [← Option.some.inj (Except.ok.inj h)]

/-- The position of the values of a fixed width is a product of `int`s. -/
theorem offset_of_copySlicedData {width : Nat} {col : HostColumnVectorCore} {s : SliceInfo}
    {range : CopyRange} (h : copySlicedData (.fixedWidth width) col s = .ok (some range)) :
    range.offset = javaInt (s.offset * width) := by
  unfold copySlicedData at h
  split at h
  · dsimp only at h
    split at h
    · rw [← Option.some.inj (Except.ok.inj h)]
    · exact absurd (Except.ok.inj h) (by simp)
  · exact absurd (Except.ok.inj h) (by simp)

/-- If the offsets of a part are read and its ranges copied, then its positions fit. -/
theorem PartRead.positionsFit (hp : PartRead p) (hranges : RangesFit p) (hread : OffsetsRead p)
    (check : Bool) (hcopy : ∀ type, Kudo.copyRange check type p.kind p.val p.ctx =
      .ok (sourceRange type p)) : PositionsFit p where
  offsets hsome hpos := by
    have hk := hp.hasOffsets hsome
    have hrows := hp.inside
    have hmax := hp.valid.rowCount_le
    obtain ⟨offsets, ho⟩ := Option.isSome_iff_exists.1 hsome
    have hstruct : p.kind ≠ .struct := by
      intro hkind
      rw [hkind] at hk
      exact absurd hk (by simp [Kudo.hasOffsets])
    have hrange := sourceRange_offset hstruct hpos ho
    have hcopied := hcopy .offset
    rw [copyRange_offset hstruct, hrange] at hcopied
    -- the product does not wrap, as the range starts at the true position
    have hposition := offset_of_copySlicedOffset hcopied
    dsimp only at hposition
    have hle := javaInt_le (p.ctx.offset * 4)
    have hlen := hp.length_le hranges hrange
    dsimp only at hlen
    obtain ⟨-, hlast⟩ := hread.nonneg hk ho
    rw [javaInt_of_bounds (n := p.ctx.offset + p.ctx.rowCount) (by omega) (by omega)] at hlast
    by_contra hlarge
    have hneg := javaInt_neg (n := (p.ctx.offset + p.ctx.rowCount) * 4) (by omega)
      (by unfold intMax at *; omega)
    omega
  offsets_zero hsome hzero := by
    obtain ⟨offsets, ho⟩ := Option.isSome_iff_exists.1 hsome
    exact (hread.nonneg (hp.hasOffsets hsome) ho).1
  data width hk hpos := by
    have hdata := hcopy .data
    have hsource := sourceRange_fixedWidth hk hpos
    rw [hk] at hdata
    by_cases hwidth : width = 0
    · rw [hwidth]
      exact le_trans (by simp) (by decide : (0 : Int) ≤ intMax)
    · rw [if_neg hwidth] at hsource
      rw [hsource] at hdata
      have hposition := offset_of_copySlicedData hdata
      dsimp only at hposition
      have hle := javaInt_le (p.ctx.offset * width)
      push_cast at hposition
      rwa [← hposition] at hle

/-! ### The offsets are read in a run -/

/-- The calculator of the header before column `k`: it has read the offsets of the columns before. -/
structure OffsetsReadAt (parts : List Part) (k : Nat) (stack : List SliceInfo)
    (st : KudoTableHeaderCalc) : Prop where
  sliceInfos : st.sliceInfos = stack
  offsetsRead : ∀ p ∈ parts.take k, OffsetsRead p

section Calc

variable {g : SliceInfo} {st st' : KudoTableHeaderCalc}

theorem sliceInfos_of_setHasValidity {hasValidityBuffer : Bool}
    (h : st.setHasValidity hasValidityBuffer = .ok st') : st'.sliceInfos = st.sliceInfos := by
  unfold KudoTableHeaderCalc.setHasValidity at h
  split at h
  · dsimp only at h
    split at h
    · rw [← Except.ok.inj h]
    · exact absurd h (by simp)
  · rw [← Except.ok.inj h]

theorem OffsetsReadAt.next (hp : parts[k]? = some p) (h : OffsetsReadAt parts k stack st)
    (hread : OffsetsRead p) {stack' : List SliceInfo} (hstack : st'.sliceInfos = stack') :
    OffsetsReadAt parts (k + 1) stack' st' := by
  refine ⟨hstack, fun q hq => ?_⟩
  rw [List.take_add_one, hp] at hq
  obtain hq | hq := List.mem_append.1 hq
  · exact h.offsetsRead q hq
  · obtain rfl : q = p := by simpa using hq
    exact hread

/-- Where the calculator goes through, it has read the offsets. -/
theorem keeps_offsetsReadAt : Visitor.Keeps KudoTableHeaderCalc.visitor childSliceInfo parts
    (OffsetsReadAt parts) where
  preVisitStruct {k a g stack st st'} hp h hrun := by
    obtain ⟨parent, htop, hrun⟩ := exists_of_bind_ok hrun
    refine h.next hp ⟨fun hk => ?_, fun t hk => ?_⟩ ?_
    · exact absurd hk (by simp)
    · exact absurd hk (by simp)
    · rw [sliceInfos_of_setHasValidity hrun]
      exact h.sliceInfos
  visitStruct h hrun := by
    obtain rfl := Except.ok.inj hrun
    exact h
  preVisitList {k a g stack st st'} hp h hrun := by
    have hrun := of_getLast h.sliceInfos hrun
    obtain ⟨st₁, hset, hrun⟩ := exists_of_bind_ok hrun
    obtain ⟨current, hslice, hrun⟩ := exists_of_bind_ok hrun
    obtain rfl := Except.ok.inj hrun
    -- the slice that is pushed is the one the offsets give
    have hchild : childSliceInfo a g = current := childSliceInfo_of_ok hslice
    refine h.next hp ⟨fun hk => ⟨current, hslice⟩, fun t hk => ?_⟩ ?_
    · exact absurd hk (by simp)
    · show current :: st₁.sliceInfos = _
      rw [sliceInfos_of_setHasValidity hset, hchild]
      exact congrArg _ h.sliceInfos
  visitList {k a g stack st st'} h hrun := by
    obtain ⟨parent, htop, hrun⟩ := exists_of_bind_ok hrun
    obtain rfl := Except.ok.inj hrun
    refine ⟨?_, h.offsetsRead⟩
    show st.sliceInfos.tail = stack
    rw [h.sliceInfos]
    rfl
  visit {k t a g stack st st'} hp h hrun := by
    have hrun := of_getLast h.sliceInfos hrun
    obtain ⟨len, hlen, hrun⟩ := exists_of_bind_ok hrun
    refine h.next hp ⟨fun hk => ?_, fun t' hk => ⟨len, ?_⟩⟩ ?_
    · exact absurd hk (by simp)
    · obtain rfl := NodeKind.leaf.inj hk
      exact hlen
    · rw [sliceInfos_of_setHasValidity hrun]
      exact h.sliceInfos

end Calc

namespace SlicedColumns

variable {t : SlicedColumns}

theorem offsetsRead_of_writes {check : Bool} {record : KudoRecord}
    (h : writeSliced check t.columns t.slice.offset t.slice.rowCount = .ok record) :
    ∀ p ∈ visited t.columns t.slice, OffsetsRead p := by
  obtain ⟨root, hroot, h⟩ := exists_of_bind_ok h
  rw [SliceInfo.make_natCast] at hroot
  obtain rfl : t.slice = root := Except.ok.inj hroot
  obtain ⟨calc₀, hcalc0, h⟩ := exists_of_bind_ok h
  obtain ⟨headerCalc, hvisit, -⟩ := exists_of_bind_ok h
  have hinit : OffsetsReadAt (visited t.columns t.slice) 0 [t.slice] calc₀ := by
    refine ⟨?_, fun p hp => absurd hp (by simp)⟩
    unfold KudoTableHeaderCalc.make at hcalc0
    split at hcalc0
    · exact absurd hcalc0 (by simp)
    · rw [← Except.ok.inj hcalc0]
  have hkeeps : OffsetsReadAt (visited t.columns t.slice) (0 + sizeAll t.columns) [t.slice]
      headerCalc :=
    keeps_offsetsReadAt.visitTrees t.columns Visitor.PartAt.self hinit hvisit
  have hlen : (visited t.columns t.slice).length = sizeAll t.columns :=
    length_flattenAll t.columns t.slice
  have hall := hkeeps.offsetsRead
  rwa [Nat.zero_add, ← hlen, List.take_length] at hall

theorem fits_of_writes {check : Bool} (hsize : t.serializedSize ≤ intMax) (h : t.Writes check) :
    sizeAll t.columns + 7 < 2 ^ 31 ∧ ∀ p ∈ t.readParts, PositionsFit p := by
  obtain ⟨record, hwrite, -, -, hranges⟩ := h
  obtain ⟨root, -, hnum, hlt, -⟩ := writeSliced_spec hwrite
  have hread := offsetsRead_of_writes hwrite
  refine ⟨hnum ▸ hlt, ?_⟩
  -- the slices that the passes visit and those that are read, side by side
  have hcopied (type : BufferType) (q) (hq : q ∈ flattenAll (both childSliceInfo
      readSlice) t.columns (t.slice, t.slice)) :
      copyRange check type q.kind q.val q.ctx.1 =
        .ok (sourceRange type (FlatNode.mapCtx Prod.snd q)) := by
    have hmap := hranges type
    rw [map_ok_parts] at hmap
    unfold visited readParts at hmap
    rw [← flattenAll_both_fst childSliceInfo readSlice t.columns t.slice
      t.slice, ← flattenAll_both_snd childSliceInfo readSlice t.columns
      t.slice t.slice, List.map_map, List.map_map] at hmap
    exact List.map_inj_left.1 hmap q hq
  have hfit (q) (hq : q ∈ flattenAll (both childSliceInfo
      readSlice) t.columns (t.slice, t.slice)) (heq : q.ctx.1 = q.ctx.2) :
      PositionsFit (FlatNode.mapCtx Prod.snd q) := by
    have hmem := snd_mem_flattenAll hq
    have hsame : FlatNode.mapCtx Prod.fst q = FlatNode.mapCtx Prod.snd q := by
      unfold FlatNode.mapCtx
      rw [heq]
    refine (t.partRead _ hmem).positionsFit (rangesFit hsize _ hmem)
      (hsame ▸ hread _ (fst_mem_flattenAll hq)) check fun type => ?_
    rw [← hcopied type q hq, heq]
    rfl
  -- from the columns on top to those below, both are the same
  have hsame := (flattenAll_congr t.columns t.slice fun q hq hlist heq => by
    have hslice := (t.partRead _ (snd_mem_flattenAll hq)).listSlice (hfit q hq heq) hlist
    rw [heq, childSliceInfo]
    rw [show listSlice q.val q.ctx.2 = .ok (q.val.readSlice q.ctx.2) from hslice]
    rfl).1
  intro p hp
  obtain ⟨q, hq, rfl⟩ := exists_both_of_mem childSliceInfo t.slice hp
  exact hfit q hq (hsame q hq)

/-- A slice whose record is smaller than 2^31 bytes is written as it is exactly if the positions in
all its columns fit, and the number of bits in the header does. -/
theorem writes_iff (check : Bool) (hsize : t.serializedSize ≤ intMax) :
    t.Writes check ↔
      sizeAll t.columns + 7 < 2 ^ 31 ∧ ∀ p ∈ t.readParts, PositionsFit p :=
  ⟨fits_of_writes hsize, fun h => writes_of_fits check hsize h.1 h.2⟩

/-- A row of a column of values of eight bytes. -/
def rowOfLongs (rowCount row : Nat) (hrows : rowCount ≤ intMax) (hrow : row + 1 ≤ rowCount) :
    SlicedColumns where
  columns := [.leaf (.fixedWidth 8) ⟨rowCount, none, none, some (List.replicate (8 * rowCount) 0)⟩]
  rowCount := rowCount
  slice := ⟨row, 1⟩
  rowCount_le := hrows
  inside := hrow
  valid := by
    intro p hp
    obtain rfl : p = ⟨_, _, _⟩ := List.mem_singleton.1 hp
    refine ⟨Nat.le_refl rowCount, ?_⟩
    constructor
    · exact hrows
    · simp
    · simp [Kudo.hasOffsets, LeafType.hasOffsets]
    · simp
    · simp [Kudo.hasOffsets, LeafType.hasOffsets]
    · simp [Kudo.hasOffsets, LeafType.hasOffsets]
    · rintro size ⟨⟩
      simp
    · simp
  hasOffsets := by
    intro p hp
    obtain rfl : p = ⟨_, _, _⟩ := List.mem_singleton.1 hp
    simp

theorem serializedSize_rowOfLongs {rowCount row : Nat} (hrows : rowCount ≤ intMax)
    (hrow : row + 1 ≤ rowCount) : (rowOfLongs rowCount row hrows hrow).serializedSize = 40 := by
  have hvalidity : sectionBytes .validity (rowOfLongs rowCount row hrows hrow).parts = [] := rfl
  have hoffset : sectionBytes .offset (rowOfLongs rowCount row hrows hrow).parts = [] := rfl
  have hdata : sectionBytes .data (rowOfLongs rowCount row hrows hrow).parts =
      Bytes.slice (List.replicate (8 * rowCount) 0) (8 * row) 8 ++ [] := rfl
  have hlen : (Bytes.slice (List.replicate (8 * rowCount) (0 : Byte)) (8 * row) 8).length = 8 := by
    rw [length_slice_of_le]
    rw [List.length_replicate]
    omega
  have hheader : (rowOfLongs rowCount row hrows hrow).headerSize = 29 := by
    unfold headerSize
    rw [show sizeAll (rowOfLongs rowCount row hrows hrow).columns = 1 from rfl]
    rfl
  unfold serializedSize body
  rw [hvalidity, hoffset, hdata, List.append_nil, List.length_append, List.length_append,
    length_padded, length_padded, length_padded, hlen, hheader]
  rfl

/-- The last two of three rows: a column of lists of strings, and one of values of eight bytes. -/
def lastRows : SlicedColumns where
  columns := [
    .list ⟨3, none, some [0, 0, 0, 0, 1, 0, 0, 0, 1, 0, 0, 0, 3, 0, 0, 0], none⟩
      (.leaf .string ⟨3, some [5], some [0, 0, 0, 0, 2, 0, 0, 0, 2, 0, 0, 0, 5, 0, 0, 0],
        some [1, 2, 3, 4, 5]⟩),
    .leaf (.fixedWidth 8) ⟨3, some [6], none, some (List.replicate 24 7)⟩]
  rowCount := 3
  slice := ⟨1, 2⟩
  rowCount_le := by decide
  inside := by decide
  valid := by
    rintro p (_ | ⟨_, _ | ⟨_, _ | ⟨_, ⟨⟩⟩⟩⟩)
    all_goals refine ⟨by decide, by decide, ?_, by decide, ?_, by decide, by decide, ?_, by decide⟩ <;> simp
  hasOffsets := by
    rintro p (_ | ⟨_, _ | ⟨_, _ | ⟨_, ⟨⟩⟩⟩⟩) <;> decide

theorem writes_iff_lastRows : lastRows.Writes true := by
  refine (writes_iff true (by decide)).2 ⟨by decide, ?_⟩
  rintro p (_ | ⟨_, _ | ⟨_, _ | ⟨_, ⟨⟩⟩⟩⟩)
  · exact ⟨by decide, by decide, by rintro _ ⟨⟩⟩
  · exact ⟨by decide, by decide, by rintro _ ⟨⟩⟩
  · exact ⟨by decide, by decide, by rintro _ ⟨⟩; decide⟩

/-- The position of row 2^28 of values of eight bytes wraps around. -/
theorem position_wraps : ¬∀ (check : Bool) (t : SlicedColumns), t.serializedSize ≤ intMax →
    t.Writes check := by
  intro h
  have hrows : ((2 ^ 28 + 1 : Nat) : Int) ≤ intMax := by decide
  have hsize : ((rowOfLongs (2 ^ 28 + 1) (2 ^ 28) hrows (Nat.le_refl _)).serializedSize : Int) ≤
      intMax := by
    rw [serializedSize_rowOfLongs]
    decide
  obtain ⟨-, hfits⟩ := fits_of_writes hsize (h false _ hsize)
  have hfit := (hfits _ (List.mem_singleton.2 rfl)).data 8 rfl Nat.one_pos
  exact absurd hfit (by decide : ¬((8 : Nat) * (2 ^ 28 : Nat) : Int) ≤ intMax)

end SlicedColumns

end SparkRapids.Kudo
