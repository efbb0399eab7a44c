import SparkRapidsJni.Kudo.Writer

/-!
# Framing of Kudo records

Records follow each other in a stream without anything between them: a reader knows the end of a
record from its header. So the body has to be as long as the header says. The serializer checks the
lengths it has counted against the header, and these are the lengths of what it has written unless
one of them is negative (`written_of_write`).

A stream that ends at the end of a record is read as complete. One that ends inside a record makes
the last call fail, except inside the magic number, where the end of the stream is taken for the end
of the records, and behind the length that the header says (`framing_iff`).
-/

namespace SparkRapids.Kudo

open Bytes KudoRecord

/-! ### The length of a body -/

/-- The slice of a list's child, with an empty one where the offsets cannot be read. -/
def childSliceInfo (col : HostColumnVectorCore) (parent : SliceInfo) : SliceInfo :=
  (listSlice col parent).toOption.getD SliceInfo.empty

theorem childSliceInfo_of_ok {col : HostColumnVectorCore} {parent current : SliceInfo}
    (h : listSlice col parent = .ok current) : childSliceInfo col parent = current := by
  rw [childSliceInfo, h]
  rfl

/-- The columns of a slice in preorder, with the slices of them that the passes visit. -/
def visited (columns : List HostColumn) (root : SliceInfo) : List Part :=
  Nested.flattenAll childSliceInfo columns root

/-- The length that a pass copies of a column, zero where it copies nothing. -/
def copyLength (kudoSanityCheck : Bool) (bufferType : BufferType) (p : Part) : Int :=
  match copyRange kudoSanityCheck bufferType p.kind p.val p.ctx with
  | .ok (some range) => range.length
  | _ => 0

/-- How much more is written than counted. -/
def deficit (kudoSanityCheck : Bool) (bufferType : BufferType) (parts : List Part) : Nat :=
  (parts.map fun p => (-copyLength kudoSanityCheck bufferType p).toNat).sum

variable {check : Bool} {type : BufferType} {columns : List HostColumn} {root : SliceInfo}
  {parts : List Part}

theorem deficit_eq_zero_iff :
    deficit check type parts = 0 ↔ ∀ p ∈ parts, 0 ≤ copyLength check type p := by
  unfold deficit
  rw [List.sum_eq_zero_iff]
  simp only [List.mem_map, forall_exists_index, and_imp, forall_apply_eq_imp_iff₂]
  exact forall₂_congr fun p _ => by omega

theorem deficit_take_succ {k : Nat} {p : Part} (hp : parts[k]? = some p) :
    deficit check type (parts.take (k + 1)) =
      deficit check type (parts.take k) + (-copyLength check type p).toNat := by
  unfold deficit
  rw [List.take_add_one, hp]
  simp

theorem length_copyDataFrom {src : Option (List Byte)} {srcOffset len : Int} {bytes : List Byte}
    (h : copyDataFrom src srcOffset len = .ok bytes) :
    (bytes.length : Int) = len + (-len).toNat := by
  unfold copyDataFrom at h
  split at h
  · obtain rfl := Except.ok.inj h
    show (0 : Int) = _
    omega
  · split at h
    · exact absurd h (by simp)
    · next src =>
      unfold HostMemoryBuffer.getBytes at h
      split at h
      · next hbounds =>
        obtain rfl := Except.ok.inj h
        rw [length_slice_of_le (by omega)]
        omega
      · exact absurd h (by simp)

/-- A pass before the column `k`: it is inside of the columns whose slices are `stack`, and it has
written what it has counted and the deficit of the columns before. -/
structure PassAt (check : Bool) (type : BufferType) (parts : List Part) (k : Nat)
    (stack : List SliceInfo) (st : SlicedBufferSerializer) : Prop where
  sliceInfos : st.sliceInfos = stack
  length : (st.out.length : Int) = st.totalDataLen + deficit check type (parts.take k)

variable {k : Nat} {stack : List SliceInfo} {kind : DType} {col : HostColumnVectorCore}
  {g : SliceInfo} {st st' : SlicedBufferSerializer}

theorem PassAt.copyColumn (hp : parts[k]? = some ⟨kind, col, g⟩)
    (h : PassAt check type parts k (g :: stack) st)
    (hrun : SlicedBufferSerializer.copyColumn check type kind col st = .ok st') :
    PassAt check type parts (k + 1) (g :: stack) st' := by
  have hlen := h.length
  have hrun := of_getLast h.sliceInfos hrun
  obtain ⟨range, hrange, hrun⟩ := exists_of_bind_ok hrun
  cases range with
  | none =>
    have hcopy : copyLength check type ⟨kind, col, g⟩ = 0 := by
      unfold copyLength
      rw [hrange]
    obtain rfl := Except.ok.inj hrun
    refine ⟨h.sliceInfos, ?_⟩
    rw [deficit_take_succ hp, hcopy]
    exact hlen
  | some range =>
    have hcopy : copyLength check type ⟨kind, col, g⟩ = range.length := by
      unfold copyLength
      rw [hrange]
    obtain ⟨bytes, hbytes, hrun⟩ := exists_of_bind_ok hrun
    obtain rfl := Except.ok.inj hrun
    have hlenbytes := length_copyDataFrom hbytes
    refine ⟨h.sliceInfos, ?_⟩
    rw [deficit_take_succ hp, hcopy]
    show ((st.out ++ bytes).length : Int) = st.totalDataLen + range.length + _
    rw [List.length_append]
    push_cast
    omega

/-- A pass keeps to what it has counted. -/
theorem keeps_passAt : Visitor.Keeps (SlicedBufferSerializer.visitor check type) childSliceInfo
    parts (PassAt check type parts) where
  preVisitStruct hp h hrun := h.copyColumn hp hrun
  visitStruct h hrun := by
    obtain rfl := Except.ok.inj hrun
    exact h
  preVisitList {k a g stack st st'} hp h hrun := by
    have hrun := of_getLast h.sliceInfos hrun
    obtain ⟨st₁, hcopy, hrun⟩ := exists_of_bind_ok hrun
    obtain ⟨current, hslice, hrun⟩ := exists_of_bind_ok hrun
    obtain rfl := Except.ok.inj hrun
    have hchild : childSliceInfo a g = current := childSliceInfo_of_ok hslice
    have h1 := h.copyColumn hp hcopy
    refine ⟨?_, h1.length⟩
    show current :: st₁.sliceInfos = _
    rw [h1.sliceInfos, hchild]
  visitList {k a g stack st st'} h hrun := by
    obtain ⟨parent, htop, hrun⟩ := exists_of_bind_ok hrun
    obtain rfl := Except.ok.inj hrun
    refine ⟨?_, h.length⟩
    show st.sliceInfos.tail = stack
    rw [h.sliceInfos]
    rfl
  visit hp h hrun := h.copyColumn hp hrun

theorem roundUpSafe_ge {toRound rounded : Int} (h : roundUpSafe toRound 4 = .ok rounded) :
    toRound ≤ rounded := by
  unfold roundUpSafe at h
  dsimp only at h
  split at h
  · exact (Except.ok.inj h).le
  · split at h
    · exact absurd h (by simp)
    · next hlt => exact (Except.ok.inj h) ▸ not_lt.1 hlt

/-- The padding is counted. -/
theorem length_done {headerSize : Nat} (h : st.done type headerSize = .ok st') :
    (st'.out.length : Int) - st'.totalDataLen = st.out.length - st.totalDataLen := by
  obtain ⟨padded, hpad, hrun⟩ := exists_of_bind_ok h
  obtain rfl := Except.ok.inj hrun
  have hle : st.totalDataLen ≤ padded := by
    cases type with
    | validity =>
      obtain ⟨rounded, hround, hpad⟩ := exists_of_bind_ok hpad
      have hge := roundUpSafe_ge hround
      obtain rfl := Except.ok.inj hpad
      omega
    | offset => exact roundUpSafe_ge hpad
    | data => exact roundUpSafe_ge hpad
  show ((st.out ++ padding padded st.totalDataLen).length : Int) - padded = _
  rw [List.length_append, padding, List.length_replicate]
  push_cast
  omega

theorem length_run {headerSize : Nat}
    (h : SlicedBufferSerializer.run check type columns root headerSize = .ok st) :
    (st.out.length : Int) = st.totalDataLen + deficit check type (visited columns root) := by
  obtain ⟨st₁, hvisit, hdone⟩ := exists_of_bind_ok h
  have hinit : PassAt check type (visited columns root) 0 [root]
      (SlicedBufferSerializer.make root) := by
    constructor
    · rfl
    · rw [List.take_zero]
      rfl
  have hpass : PassAt check type (visited columns root) (0 + Nested.sizeAll columns) [root] st₁ :=
    keeps_passAt.visitTrees columns Visitor.PartAt.self hinit hvisit
  have hsize : (visited columns root).length = Nested.sizeAll columns :=
    Nested.length_flattenAll columns root
  have hlen := hpass.length
  rw [Nat.zero_add, List.take_of_length_le hsize.le] at hlen
  have hpad := length_done hdone
  omega

/-- The deficit of all passes. -/
def totalDeficit (check : Bool) (columns : List HostColumn) (root : SliceInfo) : Nat :=
  deficit check .validity (visited columns root) + deficit check .offset (visited columns root) +
    deficit check .data (visited columns root)

theorem totalDeficit_eq_zero_iff : totalDeficit check columns root = 0 ↔
    ∀ type, ∀ p ∈ visited columns root, 0 ≤ copyLength check type p := by
  unfold totalDeficit
  rw [Nat.add_eq_zero_iff, Nat.add_eq_zero_iff, deficit_eq_zero_iff, deficit_eq_zero_iff,
    deficit_eq_zero_iff]
  constructor
  · rintro ⟨⟨hv, ho⟩, hd⟩ (_ | _ | _)
    · exact hv
    · exact ho
    · exact hd
  · exact fun h => ⟨⟨h .validity, h .offset⟩, h .data⟩

theorem eq_toNat_of_ensureNonNegative {value : Int} {name : String} {n : Nat}
    (h : ensureNonNegative value name = .ok n) : n = value.toNat := by
  unfold ensureNonNegative at h
  split at h
  · exact absurd h (by simp)
  · exact (Except.ok.inj h).symm

/-- The lengths in a header are those it is made of. -/
theorem fields_of_make {offset numRows validityBufferLen offsetBufferLen totalDataLen n : Int}
    {hasValidityBuffers : List Byte} {header : KudoTableHeader}
    (h : KudoTableHeader.make offset numRows validityBufferLen offsetBufferLen totalDataLen n
      hasValidityBuffers = .ok header) :
    header.totalDataLen = totalDataLen.toNat ∧ header.numColumns = n.toNat := by
  obtain ⟨o, -, h⟩ := exists_of_bind_ok h
  obtain ⟨r, -, h⟩ := exists_of_bind_ok h
  obtain ⟨v, -, h⟩ := exists_of_bind_ok h
  obtain ⟨l, -, h⟩ := exists_of_bind_ok h
  obtain ⟨t, ht, h⟩ := exists_of_bind_ok h
  obtain ⟨c, hc, h⟩ := exists_of_bind_ok h
  obtain rfl := eq_toNat_of_ensureNonNegative ht
  obtain rfl := eq_toNat_of_ensureNonNegative hc
  split at h
  · split at h
    · obtain rfl := Except.ok.inj h
      exact ⟨rfl, rfl⟩
    · exact absurd h (by simp)
  · exact absurd h (by simp)

theorem numColumns_of_getHeader {headerCalc : KudoTableHeaderCalc} {n : Nat} {header : KudoTableHeader}
    (h : headerCalc.getHeader root n = .ok header) : header.numColumns = n := by
  obtain ⟨v, -, h⟩ := exists_of_bind_ok h
  obtain ⟨o, -, h⟩ := exists_of_bind_ok h
  obtain ⟨d, -, h⟩ := exists_of_bind_ok h
  obtain ⟨offset, -, h⟩ := exists_of_bind_ok h
  obtain ⟨rowCount, -, h⟩ := exists_of_bind_ok h
  obtain ⟨validityLen, -, h⟩ := exists_of_bind_ok h
  obtain ⟨offsetsLen, -, h⟩ := exists_of_bind_ok h
  obtain ⟨totalLen, -, h⟩ := exists_of_bind_ok h
  exact (fields_of_make h).2

/-- The length of the bitset is an `int`. -/
theorem numColumns_of_calc {n : Nat} {headerCalc : KudoTableHeaderCalc} (hn : n < 2 ^ 31)
    (h : KudoTableHeaderCalc.make root n = .ok headerCalc) : n + 7 < 2 ^ 31 := by
  unfold KudoTableHeaderCalc.make at h
  split at h
  · exact absurd h (by simp)
  · next hneg =>
    by_contra hlarge
    have hwrap : javaInt (n + 7) = n + 7 - 2 ^ 32 := by
      rw [javaInt, ← Int.sub_bmod_right]
      exact Int.bmod_eq_of_le (m := 2 ^ 32) (by omega) (by omega)
    omega

/-- What is known of a record: it has columns, and its body has the length that the header says and
the deficit. -/
theorem writeSliced_spec {rowOffset numRows : Int} {record : KudoRecord}
    (h : writeSliced check columns rowOffset numRows = .ok record) :
    ∃ root, SliceInfo.make rowOffset numRows = .ok root ∧
      record.header.numColumns = Nested.sizeAll columns ∧ record.header.numColumns + 7 < 2 ^ 31 ∧
      record.body.length = record.header.totalDataLen + totalDeficit check columns root := by
  obtain ⟨root, hroot, h⟩ := exists_of_bind_ok h
  obtain ⟨calc₀, hcalc0, h⟩ := exists_of_bind_ok h
  obtain ⟨headerCalc, -, h⟩ := exists_of_bind_ok h
  obtain ⟨header, hheader, h⟩ := exists_of_bind_ok h
  obtain ⟨validity, hvalidity, h⟩ := exists_of_bind_ok h
  obtain ⟨offset, hoffset, h⟩ := exists_of_bind_ok h
  obtain ⟨data, hdata, h⟩ := exists_of_bind_ok h
  have hcols := numColumns_of_getHeader hheader
  have hint : header.numColumns < 2 ^ 31 := header.isInt _ (by simp)
  dsimp only at h
  split at h
  · exact absurd h (by simp)
  · next htotal =>
    obtain rfl := Except.ok.inj h
    have hv := length_run hvalidity
    have ho := length_run hoffset
    have hd := length_run hdata
    refine ⟨root, hroot, hcols, ?_, ?_⟩
    · show header.numColumns + 7 < 2 ^ 31
      rw [hcols] at hint ⊢
      exact numColumns_of_calc hint hcalc0
    · show (validity.out ++ offset.out ++ data.out).length = header.totalDataLen + _
      rw [List.length_append, List.length_append]
      unfold totalDeficit
      have heq := not_not.1 htotal
      omega

/-! ### Calls of the writer -/

/-- A call that writes a record: of a slice of the rows of columns, of which there are at most as
many as an `int` counts, or of a row count. -/
inductive WriteCall
  | table (columns : List HostColumn) (rowOffset numRows : Int) (rows : rowOffset + numRows ≤ intMax)
  | rowCount (numRows : Int)

namespace WriteCall

/-- The record that the call writes. -/
def write (kudoSanityCheck : Bool) : WriteCall → Except JavaExn KudoRecord
  | table columns rowOffset numRows _ =>
    writeToStreamWithMetrics kudoSanityCheck columns rowOffset numRows
  | rowCount numRows => writeRowCountToStream numRows

/-- A length that the writer would copy of a column is negative: the `int` product of a row count
and a size, or the difference of two offsets. -/
def HasNegativeLength (kudoSanityCheck : Bool) : WriteCall → Prop
  | table columns rowOffset numRows _ => ∃ type, ∃ p ∈ visited columns ⟨rowOffset.toNat, numRows.toNat⟩,
      copyLength kudoSanityCheck type p < 0
  | rowCount _ => False

end WriteCall

/-- What is known of a record that has been written: it can be read, and its body is longer than the
header says exactly if a length was negative. -/
structure KudoRecord.Written (r : KudoRecord) (hasNegativeLength : Prop) : Prop where
  numColumns_lt : r.header.numColumns + 7 < 2 ^ 31
  totalDataLen_le : r.header.totalDataLen ≤ r.body.length
  length_iff : r.body.length = r.header.totalDataLen ↔ ¬hasNegativeLength
  body_of_numColumns : r.header.numColumns = 0 → r.body = []

theorem sizeAll_pos (h : columns ≠ []) : 0 < Nested.sizeAll columns := by
  obtain _ | ⟨c, cs⟩ := columns
  · exact absurd rfl h
  · have hc : 0 < c.size := by cases c <;> exact Nat.succ_pos _
    exact Nat.add_pos_left hc _

theorem written_of_write {call : WriteCall} {record : KudoRecord}
    (h : call.write check = .ok record) : record.Written (call.HasNegativeLength check) := by
  cases call with
  | table columns rowOffset numRows rows =>
    have h : writeToStreamWithMetrics check columns rowOffset numRows = .ok record := h
    unfold writeToStreamWithMetrics at h
    split at h
    · exact absurd h (by simp)
    · split at h
      · exact absurd h (by simp)
      · next hne =>
        obtain ⟨root, hroot, hcols, hlt, hlen⟩ := writeSliced_spec h
        have hroot' : root = ⟨rowOffset.toNat, numRows.toNat⟩ := by
          unfold SliceInfo.make at hroot
          split at hroot
          · exact absurd hroot (by simp)
          · split at hroot
            · exact absurd hroot (by simp)
            · exact (Except.ok.inj hroot).symm
        have hpos := sizeAll_pos hne
        refine ⟨hlt, by omega, ?_, fun hzero => by omega⟩
        -- the body is as long as the header says if no range is too short
        have hiff : record.body.length = record.header.totalDataLen ↔
            totalDeficit check columns root = 0 := by omega
        rw [hiff, totalDeficit_eq_zero_iff, hroot']
        unfold WriteCall.HasNegativeLength
        push Not
        rfl
  | rowCount numRows =>
    have h : writeRowCountToStream numRows = .ok record := h
    unfold writeRowCountToStream at h
    split at h
    · exact absurd h (by simp)
    · obtain ⟨header, hheader, h⟩ := exists_of_bind_ok h
      obtain rfl := Except.ok.inj h
      obtain ⟨htotal, hcols⟩ := fields_of_make hheader
      refine ⟨?_, ?_, ?_, fun _ => rfl⟩
      · show header.numColumns + 7 < 2 ^ 31
        rw [hcols]
        decide
      · show header.totalDataLen ≤ 0
        rw [htotal]
        decide
      · show 0 = header.totalDataLen ↔ ¬False
        rw [htotal]
        decide

/-! ### Reading a header -/

/-- An integer is read if the stream is not cut inside of it. -/
theorem readInt_take (w : BitVec 32) (rest : List Byte) (n : Nat) :
    readInt ((wordBytesBE w ++ rest).take n) =
      if 4 ≤ n then .ok (w.toInt, rest.take (n - 4)) else .error .eof := by
  unfold readInt
  by_cases hn : 4 ≤ n
  · have htake : (wordBytesBE w ++ rest).take n = wordBytesBE w ++ rest.take (n - 4) := by
      rw [List.take_append, length_wordBytesBE, List.take_of_length_le hn]
    have hlen : 4 ≤ (wordBytesBE w ++ rest.take (n - 4)).length := by
      rw [List.length_append, length_wordBytesBE]
      exact Nat.le_add_right _ _
    have hword : wordBE (wordBytesBE w ++ rest.take (n - 4)) 0 = w := wordBE_wordBytesBE w
    rw [htake, if_pos hlen, if_pos hn, hword]
    rfl
  · have hlen : ((wordBytesBE w ++ rest).take n).length ≤ n := List.length_take_le _ _
    rw [if_neg (by omega), if_neg hn]

theorem readInt_take_bind {α : Type} (w : BitVec 32) (rest : List Byte) (n : Nat)
    (f : Int × List Byte → Except JavaExn α) :
    (readInt ((wordBytesBE w ++ rest).take n) >>= f) =
      if 4 ≤ n then f (w.toInt, rest.take (n - 4)) else .error .eof := by
  rw [readInt_take]
  split_ifs
  · rfl
  · rfl

theorem readFully_take (bs rest : List Byte) (n : Nat) :
    readFully ((bs ++ rest).take n) bs.length =
      if bs.length ≤ n then .ok (bs, rest.take (n - bs.length)) else .error .eof := by
  unfold readFully
  by_cases hn : bs.length ≤ n
  · have htake : (bs ++ rest).take n = bs ++ rest.take (n - bs.length) := by
      rw [List.take_append, List.take_of_length_le hn]
    rw [htake, if_pos (by rw [List.length_append]; exact Nat.le_add_right _ _), if_pos hn,
      List.take_left, List.drop_left]
  · have hlen : ((bs ++ rest).take n).length ≤ n := List.length_take_le _ _
    rw [if_neg (by omega), if_neg hn]

theorem toInt_ofNat_of_lt {n : Nat} (h : n < 2 ^ 31) : (BitVec.ofNat 32 n).toInt = n := by
  have hnat : (BitVec.ofNat 32 n).toNat = n := by
    rw [BitVec.toNat_ofNat]
    exact Nat.mod_eq_of_lt (by omega)
  rw [BitVec.toInt_eq_toNat_of_lt (by omega), hnat]

theorem ensureNonNegative_natCast (n : Nat) (name : String) : ensureNonNegative n name = .ok n :=
  if_neg (by omega)

namespace KudoTableHeader

/-- The fields of a header pass the checks of its constructor. -/
theorem make_fields (h : KudoTableHeader) : make h.offset h.numRows h.validityBufferLen
    h.offsetBufferLen h.totalDataLen h.numColumns h.hasValidityBuffers = .ok h := by
  unfold make
  simp only [ensureNonNegative_natCast, ok_bind]
  rw [dif_pos h.length_eq, dif_pos h.isInt]

theorem length_writeTo (h : KudoTableHeader) :
    h.writeTo.length = serializedSize h.hasValidityBuffers.length := by
  unfold writeTo serializedSize
  simp only [List.length_append, length_wordBytesBE]

/-- What is read of a header and the bytes behind it, of which the first `n` are there. -/
theorem readFrom_take (h : KudoTableHeader) (hcols : h.numColumns + 7 < 2 ^ 31) (rest : List Byte)
    (n : Nat) : readFrom ((h.writeTo ++ rest).take n) =
      if n < 4 then .ok none
      else if n < h.writeTo.length then .error .eof
      else .ok (some (h, rest.take (n - h.writeTo.length))) := by
  have hint := h.isInt
  simp only [List.mem_cons, List.not_mem_nil, or_false, forall_eq_or_imp, forall_eq] at hint
  obtain ⟨ho, hr, hv, hf, ht, hn⟩ := hint
  have hsize : ((javaInt (h.numColumns + 7)).tdiv 8) = h.hasValidityBuffers.length := by
    rw [javaInt_of_bounds (by omega) (by unfold intMax; omega), h.length_eq,
      lengthOfHasValidityBuffer, Int.tdiv_eq_ediv_of_nonneg (by omega)]
    omega
  have hlen := h.length_writeTo
  unfold serializedSize at hlen
  rw [hlen]
  unfold readFrom writeTo
  simp only [List.append_assoc]
  rw [readInt_take]
  by_cases h0 : 4 ≤ n
  · rw [if_pos h0, if_neg (by omega : ¬n < 4)]
    dsimp only
    rw [if_neg (not_not.2 rfl)]
    simp only [readInt_take_bind, toInt_ofNat_of_lt, ho, hr, hv, hf, ht, hn, hsize,
      Int.toNat_natCast, readFully_take]
    by_cases hall : 7 * 4 + h.hasValidityBuffers.length ≤ n
    · have hrest : n - 4 - 4 - 4 - 4 - 4 - 4 - 4 - h.hasValidityBuffers.length =
          n - (7 * 4 + h.hasValidityBuffers.length) := by omega
      rw [if_pos (by omega), if_pos (by omega), if_pos (by omega), if_pos (by omega),
        if_pos (by omega), if_pos (by omega), if_neg (by omega), if_pos (by omega),
        if_neg (by omega), ok_bind, make_fields, ok_bind, hrest]
    · rw [if_pos (by omega : n < 7 * 4 + h.hasValidityBuffers.length)]
      split_ifs
      · omega
      · omega
      -- the bitset or a field is cut
      all_goals rfl
  · rw [if_neg h0, if_pos (by omega)]

end KudoTableHeader

/-! ### Reading records -/

/-- The table that is read of a record. -/
def KudoRecord.table (r : KudoRecord) : KudoTable where
  header := r.header
  buffer := if r.header.numColumns = 0 then none else some r.body

/-- How many bytes of a record are read. -/
def KudoRecord.readSize (r : KudoRecord) : Nat := r.header.writeTo.length + r.header.totalDataLen

/-- The table that is read of a record whose body is longer than the header says. -/
def KudoRecord.readTable (r : KudoRecord) : KudoTable where
  header := r.header
  buffer :=
    if r.header.numColumns = 0 then none else some (r.body.take r.header.totalDataLen)

variable {r : KudoRecord} {P : Prop}

theorem KudoRecord.Written.readSize_le (hr : r.Written P) : r.readSize ≤ r.bytes.length := by
  unfold readSize bytes
  rw [List.length_append]
  exact Nat.add_le_add_left hr.totalDataLen_le _

/-- What is read of a record of which the first `n` bytes are there. -/
theorem KudoRecord.Written.from_take (hr : r.Written P) (rest : List Byte) (n : Nat) :
    KudoTable.from' ((r.bytes ++ rest).take n) =
      if n < 4 then .ok none
      else if n < r.readSize then .error .eof
      else .ok (some (r.readTable, (r.body.drop r.header.totalDataLen ++ rest).take
        (n - r.readSize))) := by
  have hlen : (r.body.take r.header.totalDataLen).length = r.header.totalDataLen := by
    rw [List.length_take]
    exact min_eq_left hr.totalDataLen_le
  have hbody : r.body ++ rest =
      r.body.take r.header.totalDataLen ++ (r.body.drop r.header.totalDataLen ++ rest) := by
    rw [← List.append_assoc, List.take_append_drop]
  unfold KudoTable.from' bytes readTable readSize
  rw [List.append_assoc, r.header.readFrom_take hr.numColumns_lt, hbody]
  by_cases h4 : n < 4
  · rw [if_pos h4, if_pos h4]
    rfl
  rw [if_neg h4, if_neg h4]
  by_cases hhead : n < r.header.writeTo.length
  · rw [if_pos hhead, if_pos (by omega)]
    rfl
  rw [if_neg hhead, ok_bind]
  dsimp only
  by_cases hcols : r.header.numColumns = 0
  · -- a row count has no body, and none is read
    have htotal : r.header.totalDataLen = 0 := by
      have hle := hr.totalDataLen_le
      rw [hr.body_of_numColumns hcols] at hle
      exact Nat.le_zero.1 hle
    rw [if_pos hcols, if_pos hcols, htotal, Nat.add_zero, if_neg hhead]
    rfl
  · have hread := readFully_take (r.body.take r.header.totalDataLen)
      (r.body.drop r.header.totalDataLen ++ rest) (n - r.header.writeTo.length)
    rw [hlen] at hread
    rw [if_neg hcols, if_neg hcols, hread]
    by_cases hall : r.header.totalDataLen ≤ n - r.header.writeTo.length
    · rw [if_pos hall, if_neg (by omega), ok_bind, Nat.sub_add_eq]
    · rw [if_neg hall, if_pos (by omega)]
      rfl

/-! ### Reading a stream -/

theorem length_of_readInt {stream rest : List Byte} {v : Int}
    (h : readInt stream = .ok (v, rest)) : rest.length + 4 = stream.length := by
  unfold readInt at h
  split at h
  · next hlen =>
    obtain ⟨-, rfl⟩ := Prod.mk.inj (Except.ok.inj h)
    rw [List.length_drop]
    omega
  · exact absurd h (by simp)

theorem length_of_readFully {stream bs rest : List Byte} {n : Nat}
    (h : readFully stream n = .ok (bs, rest)) : rest.length ≤ stream.length := by
  unfold readFully at h
  split at h
  · obtain ⟨-, rfl⟩ := Prod.mk.inj (Except.ok.inj h)
    rw [List.length_drop]
    exact Nat.sub_le _ _
  · exact absurd h (by simp)

/-- A header that is read shortens the stream. -/
theorem KudoTableHeader.length_of_readFrom {stream rest : List Byte} {header : KudoTableHeader}
    (h : readFrom stream = .ok (some (header, rest))) : rest.length < stream.length := by
  unfold readFrom at h
  split at h
  · exact absurd (Except.ok.inj h) (by simp)
  · next num s₁ hnum =>
    have hlen := length_of_readInt hnum
    split at h
    · exact absurd h (by simp)
    · obtain ⟨⟨o, s₂⟩, h2, h⟩ := exists_of_bind_ok h
      obtain ⟨⟨r, s₃⟩, h3, h⟩ := exists_of_bind_ok h
      obtain ⟨⟨v, s₄⟩, h4, h⟩ := exists_of_bind_ok h
      obtain ⟨⟨f, s₅⟩, h5, h⟩ := exists_of_bind_ok h
      obtain ⟨⟨t, s₆⟩, h6, h⟩ := exists_of_bind_ok h
      obtain ⟨⟨n, s₇⟩, h7, h⟩ := exists_of_bind_ok h
      have hlen2 := length_of_readInt h2
      have hlen3 := length_of_readInt h3
      have hlen4 := length_of_readInt h4
      have hlen5 := length_of_readInt h5
      have hlen6 := length_of_readInt h6
      have hlen7 := length_of_readInt h7
      dsimp only at h
      split at h
      · exact absurd h (by simp)
      · obtain ⟨⟨bs, s₈⟩, h8, h⟩ := exists_of_bind_ok h
        obtain ⟨header', -, h⟩ := exists_of_bind_ok h
        have hlen8 := length_of_readFully h8
        obtain ⟨-, rfl⟩ := Prod.mk.inj (Option.some.inj (Except.ok.inj h))
        show s₈.length < stream.length
        omega

theorem KudoTable.length_of_from {stream rest : List Byte} {table : KudoTable}
    (h : KudoTable.from' stream = .ok (some (table, rest))) : rest.length < stream.length := by
  obtain ⟨header, hheader, h⟩ := exists_of_bind_ok h
  cases header with
  | none => exact absurd (Except.ok.inj h) (by simp)
  | some header =>
    obtain ⟨header, s₁⟩ := header
    have hlt := KudoTableHeader.length_of_readFrom hheader
    dsimp only at h
    split at h
    · obtain ⟨-, rfl⟩ := Prod.mk.inj (Option.some.inj (Except.ok.inj h))
      exact hlt
    · obtain ⟨⟨bs, s₂⟩, h2, h⟩ := exists_of_bind_ok h
      obtain ⟨-, rfl⟩ := Prod.mk.inj (Option.some.inj (Except.ok.inj h))
      exact (length_of_readFully h2).trans_lt hlt

/-- The calls of `KudoTable.from` on a stream: the tables they return, and how the last call ends,
with `Optional.empty` or by throwing. -/
def KudoTable.readAll (stream : List Byte) : List KudoTable × Except JavaExn Unit :=
  match _ : KudoTable.from' stream with
  | .error e => ([], .error e)
  | .ok none => ([], .ok ())
  | .ok (some (table, rest)) =>
    let (tables, outcome) := KudoTable.readAll rest
    (table :: tables, outcome)
termination_by stream.length
decreasing_by exact KudoTable.length_of_from (by assumption)

namespace KudoTable

variable {stream rest : List Byte} {table : KudoTable}

theorem readAll_of_error {e : JavaExn} (h : from' stream = .error e) :
    readAll stream = ([], .error e) := by
  rw [readAll]
  split
  · next e' h' =>
    rw [h] at h'
    rw [Except.error.inj h']
  · next h' => exact absurd (h.symm.trans h') (by simp)
  · next h' => exact absurd (h.symm.trans h') (by simp)

theorem readAll_of_none (h : from' stream = .ok none) : readAll stream = ([], .ok ()) := by
  rw [readAll]
  split
  · next h' => exact absurd (h.symm.trans h') (by simp)
  · rfl
  · next h' => exact absurd (h.symm.trans h') (by simp)

theorem readAll_of_some (h : from' stream = .ok (some (table, rest))) :
    readAll stream = (table :: (readAll rest).1, (readAll rest).2) := by
  rw [readAll]
  split
  · next h' => exact absurd (h.symm.trans h') (by simp)
  · next h' => exact absurd (h.symm.trans h') (by simp)
  · next table' rest' h' =>
    obtain ⟨rfl, rfl⟩ := Prod.mk.inj (Option.some.inj (Except.ok.inj (h.symm.trans h')))
    rfl

end KudoTable

open KudoTable

variable {records : List KudoRecord}

theorem KudoRecord.Written.four_le_readSize (_ : r.Written P) : 4 ≤ r.readSize := by
  unfold readSize
  rw [r.header.length_writeTo, KudoTableHeader.serializedSize]
  omega

/-- A record is read from the front of a stream. -/
theorem KudoRecord.Written.readAll_append (hr : r.Written P) (rest : List Byte) :
    readAll (r.bytes ++ rest) =
      (r.readTable :: (readAll (r.body.drop r.header.totalDataLen ++ rest)).1,
        (readAll (r.body.drop r.header.totalDataLen ++ rest)).2) := by
  have hfrom := hr.from_take rest (r.bytes ++ rest).length
  have hsize := hr.readSize_le
  have hfour := hr.four_le_readSize
  have hlen : (r.bytes ++ rest).length = r.bytes.length + rest.length := List.length_append
  have hdrop : (r.body.drop r.header.totalDataLen ++ rest).length =
      (r.bytes ++ rest).length - r.readSize := by
    unfold bytes readSize
    simp only [List.length_append, List.length_drop]
    have htotal := hr.totalDataLen_le
    omega
  rw [List.take_length, if_neg (by omega), if_neg (by omega), ← hdrop, List.take_length] at hfrom
  exact readAll_of_some hfrom

/-- The table that is read is the one written exactly if the body has the length that the header
says. -/
theorem KudoRecord.Written.readTable_eq_iff (hr : r.Written P) :
    r.readTable = r.table ↔ r.body.length = r.header.totalDataLen := by
  unfold readTable table
  have hle := hr.totalDataLen_le
  by_cases hcols : r.header.numColumns = 0
  · have hbody := hr.body_of_numColumns hcols
    rw [hbody] at hle
    rw [if_pos hcols, if_pos hcols, hbody]
    exact iff_of_true rfl (Nat.le_zero.1 hle).symm
  · rw [if_neg hcols, if_neg hcols]
    constructor
    · intro h
      have htake : r.body.take r.header.totalDataLen = r.body :=
        Option.some.inj (KudoTable.mk.inj h).2
      have hlen := congrArg List.length htake
      rw [List.length_take, min_eq_left hle] at hlen
      exact hlen.symm
    · intro h
      rw [← h, List.take_length]

/-- Reading returns the tables of the records and goes on behind them, exactly if no body is longer
than its header says. -/
theorem readAll_records (hall : ∀ r ∈ records, ∃ P, r.Written P) (tail : List Byte) :
    ((∀ r ∈ records, r.body.length = r.header.totalDataLen) →
      readAll (records.flatMap bytes ++ tail) =
        (records.map table ++ (readAll tail).1, (readAll tail).2)) ∧
    ((readAll (records.flatMap bytes ++ tail)).1 = records.map table →
      ∀ r ∈ records, r.body.length = r.header.totalDataLen) := by
  induction records with
  | nil => exact ⟨fun _ => rfl, fun _ r hr => absurd hr (by simp)⟩
  | cons r records ih =>
    obtain ⟨P, hr⟩ := hall r (List.mem_cons_self ..)
    obtain ⟨ih₁, ih₂⟩ := ih fun r hr => hall r (List.mem_cons_of_mem _ hr)
    rw [List.flatMap_cons, List.append_assoc, hr.readAll_append]
    constructor
    · intro hlens
      have hlen := hlens r (List.mem_cons_self ..)
      rw [hr.readTable_eq_iff.2 hlen, ← hlen, List.drop_length, List.nil_append,
        ih₁ fun r hr => hlens r (List.mem_cons_of_mem _ hr)]
      rfl
    · intro h
      obtain ⟨htable, hrest⟩ := List.cons.inj h
      have hlen := hr.readTable_eq_iff.1 htable
      rw [← hlen, List.drop_length, List.nil_append] at hrest
      intro r' hr'
      obtain rfl | hr' := List.mem_cons.1 hr'
      · exact hlen
      · exact ih₂ hrest r' hr'

/-- What is read of a record that is cut. -/
theorem KudoRecord.Written.readAll_take (hr : r.Written P) {c : Nat} (hc : c < r.bytes.length) :
    ((readAll (r.bytes.take c)).1 = [] ∧ ((readAll (r.bytes.take c)).2.isOk ↔ c = 0)) ↔
      c = 0 ∨ 4 ≤ c ∧ c < r.readSize := by
  have hfrom := hr.from_take [] c
  have hfour := hr.four_le_readSize
  rw [List.append_nil] at hfrom
  by_cases h4 : c < 4
  · -- the end of the stream inside of the magic number is taken for the end of the records
    rw [if_pos h4] at hfrom
    rw [readAll_of_none hfrom]
    constructor
    · rintro ⟨-, h⟩
      exact Or.inl (h.1 rfl)
    · rintro (rfl | h)
      · exact ⟨rfl, iff_of_true rfl rfl⟩
      · omega
  rw [if_neg h4] at hfrom
  by_cases hsize : c < r.readSize
  · rw [if_pos hsize] at hfrom
    rw [readAll_of_error hfrom]
    refine iff_of_true ⟨rfl, iff_of_false (by simp [Except.isOk, Except.toBool]) (by omega)⟩
      (Or.inr ⟨by omega, hsize⟩)
  · rw [if_neg hsize] at hfrom
    rw [readAll_of_some hfrom]
    refine iff_of_false ?_ (by omega)
    rintro ⟨h, -⟩
    exact absurd h (by simp)

/-! ### The framing theorem -/

/-- A stream of records and the first `c` bytes of a record is read as the records, and then the
reader says that it is at the end if nothing follows the records, and throws if something does. -/
def Framed (records : List KudoRecord) (record : KudoRecord) (c : Nat) : Prop :=
  let read := readAll (records.flatMap bytes ++ record.bytes.take c)
  read.1 = records.map table ∧ (read.2.isOk ↔ c = 0)

/-- The records of calls: each can be read, and its body has the length that the header says exactly
if no length was negative. -/
theorem written_of_calls {calls : List WriteCall}
    (h : List.Forall₂ (fun call record => call.write check = .ok record) calls records) :
    (∀ r ∈ records, ∃ P, r.Written P) ∧
      ((∀ r ∈ records, r.body.length = r.header.totalDataLen) ↔
        ∀ call ∈ calls, ¬call.HasNegativeLength check) := by
  induction h with
  | nil => exact ⟨fun r hr => absurd hr (by simp), iff_of_true (by simp) (by simp)⟩
  | cons hwrite _ ih =>
    have hr := written_of_write hwrite
    obtain ⟨ih₁, ih₂⟩ := ih
    constructor
    · intro r hmem
      obtain rfl | hmem := List.mem_cons.1 hmem
      · exact ⟨_, hr⟩
      · exact ih₁ r hmem
    · rw [List.forall_mem_cons, List.forall_mem_cons, ih₂, hr.length_iff]

/-- The stream is read as the records that were written, and a cut is noticed, exactly if the writer
has taken no length to be negative in the records before the cut, and the cut is neither inside of
the magic number nor behind the length that the header says. -/
theorem framing_iff {calls : List WriteCall} {call : WriteCall} {record : KudoRecord} {c : Nat}
    (hcalls : List.Forall₂ (fun call record => call.write check = .ok record) calls records)
    (hcall : call.write check = .ok record) (hc : c < record.bytes.length) :
    Framed records record c ↔
      (∀ call ∈ calls, ¬call.HasNegativeLength check) ∧ (c = 0 ∨ 4 ≤ c ∧ c < record.readSize) := by
  have hrecord := written_of_write hcall
  obtain ⟨hall, hiff⟩ := written_of_calls hcalls
  obtain ⟨hread, hlens⟩ := readAll_records hall (record.bytes.take c)
  rw [← hrecord.readAll_take hc, ← hiff]
  constructor
  · rintro ⟨htables, hend⟩
    have hlen := hlens htables
    rw [hread hlen] at htables hend
    exact ⟨hlen, List.append_right_eq_self.1 htables, hend⟩
  · rintro ⟨hlen, hnil, hend⟩
    unfold Framed
    rw [hread hlen]
    exact ⟨by rw [hnil, List.append_nil], hend⟩

/-- A record of a row count. -/
def fiveRows : KudoRecord where
  header := ⟨0, 5, 0, 0, 0, 0, [], rfl, by decide⟩
  body := []

theorem framing_iff_fiveRows : Framed [fiveRows] fiveRows 4 ↔
    (∀ call ∈ [WriteCall.rowCount 5], ¬call.HasNegativeLength false) ∧
      (4 = 0 ∨ 4 ≤ 4 ∧ 4 < fiveRows.readSize) :=
  framing_iff (.cons rfl .nil) (show (WriteCall.rowCount 5).write false = .ok fiveRows from rfl)
    (by decide)

/-- A record that is cut inside of the magic number is not noticed. -/
theorem cut_not_noticed : ¬∀ (check : Bool) (calls : List WriteCall) (records : List KudoRecord)
    (call : WriteCall) (record : KudoRecord) (c : Nat),
    List.Forall₂ (fun call record => call.write check = .ok record) calls records →
    call.write check = .ok record → c < record.bytes.length → Framed records record c := by
  intro h
  have hframed := h false [] [] (.rowCount 5) fiveRows 1 .nil rfl (by decide)
  have hread : readAll (fiveRows.bytes.take 1) = ([], .ok ()) := readAll_of_none rfl
  have hend : (readAll (fiveRows.bytes.take 1)).2.isOk ↔ 1 = 0 := hframed.2
  rw [hread] at hend
  exact absurd (hend.1 rfl) (by decide)

end SparkRapids.Kudo
