import SparkRapidsJni.Lib.Bytes
import SparkRapidsJni.Lib.Limbs

/-!
# `zorder.cu`: interleaved bits

`interleave_bits` makes one string of bytes of the values of a row: the most significant bits of all
columns first, in the order of the columns, then the bits behind them. A thread makes one byte. It turns
the order of the bytes around within a group of as many bytes as there are columns, counts the bits of
the result from the least significant one of its group, and reads each from the little-endian bytes of a
column.

These bytes are `data<uint8_t>()`, which is moved by the offset of the view in bytes, not in values. So
the bits are the right ones exactly if the bytes at the two places are the same
(`interleavesExactly_iff`), as they are in a view without an offset, or of values of one byte.
-/

namespace SparkRapids.ZOrder

/-- The types of cudf: which of them have a fixed width, and how wide they are. -/
structure TypeTable (τ : Type) where
  isFixedWidth : τ → Bool
  sizeOf : τ → ℕ

namespace Interleave

variable {τ : Type}

/-- `column_device_view` of a table: `head` are the bytes of the base memory. -/
structure ColumnView (τ : Type) where
  type : τ
  head : ℕ → Byte
  nullMask : Option (ℕ → Bool)
  offset : ℕ

/-- `is_valid` -/
def ColumnView.isValid (c : ColumnView τ) (row : ℕ) : Bool :=
  c.nullMask.elim true fun mask => mask (c.offset + row)

/-- `data<uint8_t>()[i]`, where `data<T>()` is `head<T>() + offset()`. -/
def ColumnView.dataUInt8 (c : ColumnView τ) (i : ℕ) : Byte := c.head (c.offset + i)

/-- `table_view` -/
structure Table (τ : Type) where
  columns : List (ColumnView τ)
  numRows : ℕ

/-- The list column of the result. -/
structure ListColumn where
  numRows : ℕ
  offsets : ℕ → ℕ
  child : List Byte

/-! ### The code -/

/-- Where a bit of the result is read: the column, the byte in it and its row, and the bit of the
byte. -/
structure BitSource where
  columnIdx : ℕ
  readByteIndex : ℕ
  inputRowNumber : ℕ
  readBitOffset : ℕ

/-- The turn of the loop for `output_bit_offset`, up to the read. -/
def bitSource (numColumns dataTypeSize retIdx outputBitOffset : ℕ) : BitSource :=
  -- the order of the output bytes is switched, for the most significant column
  let flippedStartByteIndex := retIdx / numColumns * numColumns
  let flippedRetIdx := flippedStartByteIndex + (numColumns - 1 - (retIdx - flippedStartByteIndex))
  let outputBitIndex := flippedRetIdx * 8 + outputBitOffset
  -- the order of the columns is switched: 0 is the most significant column
  let columnIdx := numColumns - 1 - outputBitIndex % numColumns
  -- the endian byte order is converted
  let bitIndexWithinColumn := outputBitIndex / numColumns
  let littleEndianReadByteIndex := bitIndexWithinColumn / 8
  let readBitOffset := bitIndexWithinColumn % 8
  let inputRowNumber := littleEndianReadByteIndex / dataTypeSize
  let startRowByteIndex := inputRowNumber * dataTypeSize
  let readByteIndex :=
    startRowByteIndex + (dataTypeSize - 1 - (littleEndianReadByteIndex - startRowByteIndex))
  { columnIdx, readByteIndex, inputRowNumber, readBitOffset }

/-- `byte_data`, which is 0 for a null. -/
def byteData (columns : List (ColumnView τ)) (source : BitSource) : BitVec 32 :=
  match columns[source.columnIdx]? with
  | none => 0
  | some column =>
    if column.isValid source.inputRowNumber then
      (column.dataUInt8 source.readByteIndex).zeroExtend 32
    else 0

/-- The byte at `ret_idx`. -/
def retByte (columns : List (ColumnView τ)) (dataTypeSize retIdx : ℕ) : Byte :=
  [7, 6, 5, 4, 3, 2, 1, 0].foldl (fun retByte outputBitOffset =>
    let source := bitSource columns.length dataTypeSize retIdx outputBitOffset
    let tmp := (byteData columns source >>> source.readBitOffset &&& 1) <<< outputBitOffset
    (retByte.zeroExtend 32 ||| tmp).truncate 8) 0

/-- `numeric_limits<size_type>::max()` -/
def maxBytesAllowed : ℕ := 2 ^ 31 - 1

/-- `interleave_bits`. With at most `max_bytes_allowed` bytes, no index leaves its type. -/
def interleaveBits [DecidableEq τ] (types : TypeTable τ) (tbl : Table τ) : Except String ListColumn :=
  match tbl.columns with
  | [] => .error "The input table must have at least one column."
  | first :: rest =>
    if !types.isFixedWidth first.type then .error "Only fixed width columns can be used"
    else if !(first :: rest).all (fun col => col.type = first.type) then
      .error "All columns of the input table must be the same type."
    else
      let dataTypeSize := types.sizeOf first.type
      let totalOutputSize := tbl.numRows * dataTypeSize * (first :: rest).length
      if !(totalOutputSize ≤ maxBytesAllowed) then .error "Input is too large to process"
      else .ok
        { numRows := tbl.numRows
          offsets := fun i => i * (dataTypeSize * (first :: rest).length)
          child := (List.range totalOutputSize).map (retByte (first :: rest) dataTypeSize) }

/-! ### Interleaved values -/

/-- The bytes of a value of `s` bytes, as they are in the memory. -/
def ColumnView.valueBytes (s : ℕ) (c : ColumnView τ) (row : ℕ) : List Byte :=
  (List.range s).map fun i => c.head (s * (c.offset + row) + i)

/-- The value of a row, 0 for a null. -/
def ColumnView.value (s : ℕ) (c : ColumnView τ) (row : ℕ) : BitVec (8 * s) :=
  if c.isValid row then BitVec.ofNat (8 * s) (Limbs.value (c.valueBytes s row)) else 0

/-- The bytes of a row of the result. -/
def ListColumn.row (l : ListColumn) (row : ℕ) : List Byte :=
  Bytes.slice l.child (l.offsets row) (l.offsets (row + 1) - l.offsets row)

/-- Bit `k` of a string of bytes, from the most significant end. -/
def msb (bytes : List Byte) (k : ℕ) : Bool := (bytes.getD (k / 8) 0).getMsbD (k % 8)

/-- The value of a column from the bits of a row: every `n`-th bit from `idx` on. -/
def deinterleave (s n : ℕ) (bytes : List Byte) (idx : ℕ) : BitVec (8 * s) :=
  BitVec.ofFnLE fun j : Fin (8 * s) => msb bytes (n * (8 * s - 1 - j) + idx)

/-- What `interleave_bits` is to return for a table of values of `s` bytes: the interleaved bits, from
which the values of each row are recovered. -/
structure IsInterleaved (s : ℕ) (tbl : Table τ) (l : ListColumn) : Prop where
  numRows_eq : l.numRows = tbl.numRows
  length_row : ∀ row < tbl.numRows, (l.row row).length = s * tbl.columns.length
  msb_row : ∀ row < tbl.numRows, ∀ k < 8 * (s * tbl.columns.length), ∀ c,
    tbl.columns[k % tbl.columns.length]? = some c →
      msb (l.row row) k = (c.value s row).getMsbD (k / tbl.columns.length)
  recovers : ∀ row < tbl.numRows, ∀ idx c, tbl.columns[idx]? = some c →
    deinterleave s tbl.columns.length (l.row row) idx = c.value s row

/-- The bytes that are read are those of the values. -/
def BytesAgree (s : ℕ) (tbl : Table τ) : Prop :=
  ∀ c ∈ tbl.columns, ∀ row < tbl.numRows, c.isValid row = true → ∀ i < s,
    c.dataUInt8 (row * s + i) = c.head (s * (c.offset + row) + i)

/-! ### A byte of the result -/

section Bits

variable {columns : List (ColumnView τ)} {n s row gi k t i : ℕ}

/-- A turn of the loop sets its bit. -/
theorem getLsbD_turn (b : Byte) (v : BitVec 32) (off : ℕ) (hi : i < 8) :
    ((b.zeroExtend 32 ||| (v &&& 1) <<< off).truncate 8).getLsbD i =
      (b.getLsbD i || (decide (i = off) && v.getLsbD 0)) := by
  have hone : (1 : BitVec 32) = 1#32 := rfl
  simp only [BitVec.truncate_eq_setWidth, BitVec.getLsbD_setWidth, BitVec.getLsbD_or,
    BitVec.getLsbD_shiftLeft, BitVec.getLsbD_and, hone, BitVec.getLsbD_one]
  grind

/-- The loop sets the bits of its turns. -/
theorem getLsbD_foldl_turn (v : ℕ → BitVec 32) (offs : List ℕ) (b : Byte) (hi : i < 8) :
    (offs.foldl (fun b off => (b.zeroExtend 32 ||| (v off &&& 1) <<< off).truncate 8) b).getLsbD i =
      (b.getLsbD i || (decide (i ∈ offs) && (v i).getLsbD 0)) := by
  induction offs generalizing b with
  | nil => simp
  | cons off offs ih =>
    rw [List.foldl_cons, ih, getLsbD_turn b (v off) off hi, Bool.or_assoc]
    congr 1
    by_cases heq : i = off
    · subst heq
      simp
    · simp [heq]

theorem getLsbD_retByte (retIdx : ℕ) (hi : i < 8) :
    (retByte columns s retIdx).getLsbD i =
      (byteData columns (bitSource columns.length s retIdx i)).getLsbD
        (bitSource columns.length s retIdx i).readBitOffset := by
  have hmem : i ∈ [7, 6, 5, 4, 3, 2, 1, 0] := by
    simp only [List.mem_cons, List.not_mem_nil]
    omega
  unfold retByte
  rw [getLsbD_foldl_turn (fun off => byteData columns (bitSource columns.length s retIdx off) >>>
    (bitSource columns.length s retIdx off).readBitOffset) _ 0 hi, decide_eq_true hmem]
  simp

/-- The arithmetic of the positions: `k` counts the bits of a group of `n` bytes from the most
significant one, and `gi` the groups of a row. -/
theorem bitSource_eq (hgi : gi < s) (hk : k < 8 * n) :
    bitSource n s (row * (s * n) + (gi * n + k / 8)) (7 - k % 8) =
      { columnIdx := k % n
        readByteIndex := row * s + (s - 1 - gi)
        inputRowNumber := row
        readBitOffset := 7 - k / n } := by
  have hn : 0 < n := by omega
  have hretIdx : row * (s * n) + (gi * n + k / 8) = n * (row * s + gi) + k / 8 := by ring
  have hdiv : (n * (row * s + gi) + k / 8) / n = row * s + gi := by
    rw [Nat.mul_add_div hn, Nat.div_eq_of_lt (by omega), Nat.add_zero]
  -- the bits of the group, counted from the least significant one
  have hindex : (n * (row * s + gi) + (n - 1 - k / 8)) * 8 + (7 - k % 8) =
      n * (8 * (row * s + gi)) + (8 * n - 1 - k) := by
    have hgroup : n * (row * s + gi) * 8 = n * (8 * (row * s + gi)) := by ring
    rw [Nat.add_mul, hgroup]
    omega
  have hkdiv : k / n < 8 := Nat.div_lt_of_lt_mul (by rwa [Nat.mul_comm])
  have hkmod : k % n < n := Nat.mod_lt _ hn
  have hrest : 8 * n - 1 - k = n * (7 - k / n) + (n - 1 - k % n) := by
    have hsplit := Nat.div_add_mod k n
    have hmul : n * (7 - k / n) + n * (k / n) = n * 7 := by
      rw [← Nat.mul_add]
      congr 1
      omega
    omega
  have hmod : (n * (8 * (row * s + gi)) + (8 * n - 1 - k)) % n = n - 1 - k % n := by
    rw [Nat.mul_add_mod, hrest, Nat.mul_add_mod, Nat.mod_eq_of_lt (by omega)]
  have hbit : (n * (8 * (row * s + gi)) + (8 * n - 1 - k)) / n = 8 * (row * s + gi) + (7 - k / n) := by
    have hsmall : (n - 1 - k % n) / n = 0 := Nat.div_eq_of_lt (by omega)
    rw [Nat.mul_add_div hn, hrest, Nat.mul_add_div hn, hsmall, Nat.add_zero]
  have hrow : (row * s + gi) / s = row := by
    rw [Nat.mul_comm, Nat.mul_add_div (by omega), Nat.div_eq_of_lt hgi, Nat.add_zero]
  unfold bitSource
  dsimp only
  rw [hretIdx, hdiv, Nat.mul_comm (row * s + gi) n, Nat.add_sub_cancel_left, hindex, hmod, hbit]
  have hlt : 7 - k / n < 8 := Nat.lt_succ_of_le (Nat.sub_le ..)
  have hbyte : (8 * (row * s + gi) + (7 - k / n)) / 8 = row * s + gi := by
    rw [Nat.mul_add_div (by decide), Nat.div_eq_of_lt hlt, Nat.add_zero]
  have hoff : (8 * (row * s + gi) + (7 - k / n)) % 8 = 7 - k / n := by
    rw [Nat.mul_add_mod, Nat.mod_eq_of_lt hlt]
  rw [hbyte, hoff, hrow, Nat.add_sub_cancel_left]
  congr 1
  omega

variable {c : ColumnView τ} {tbl : Table τ} {l : ListColumn}

/-- A bit of a value, from the most significant one. -/
theorem getMsbD_value (hgi : gi < s) (ht : t < 8) : (c.value s row).getMsbD (8 * gi + t) =
    (c.isValid row && (c.head (s * (c.offset + row) + (s - 1 - gi))).getLsbD (7 - t)) := by
  have hbit : 8 * s - 1 - (8 * gi + t) = 8 * (s - 1 - gi) + (7 - t) := by omega
  have hlen : (c.valueBytes s row).length = s := by
    rw [ColumnView.valueBytes, List.length_map, List.length_range]
  have hbyte : (c.valueBytes s row).getD (s - 1 - gi) 0 =
      c.head (s * (c.offset + row) + (s - 1 - gi)) := by
    rw [ColumnView.valueBytes, List.getD_eq_getElem?_getD, List.getElem?_map,
      List.getElem?_range (by omega)]
    rfl
  unfold ColumnView.value
  cases c.isValid row with
  | false =>
    rw [if_neg Bool.false_ne_true, Bool.false_and]
    exact BitVec.getMsbD_zero
  | true =>
    have hlow : 8 * (s - 1 - gi) + (7 - t) < 8 * s := by omega
    have hdiv : (8 * (s - 1 - gi) + (7 - t)) / 8 = s - 1 - gi := by omega
    have hmod : (8 * (s - 1 - gi) + (7 - t)) % 8 = 7 - t := by omega
    rw [if_pos rfl, BitVec.getMsbD_eq_getLsbD, decide_eq_true (by omega), hbit,
      BitVec.getLsbD_ofNat, decide_eq_true hlow, Limbs.testBit_value _ _ (by rwa [hlen]), hdiv,
      hmod, hbyte, Bool.true_and]

/-- The bytes of the result in the rows. -/
structure HasRows (s : ℕ) (tbl : Table τ) (l : ListColumn) : Prop where
  numRows_eq : l.numRows = tbl.numRows
  offsets_eq : ∀ i, l.offsets i = i * (s * tbl.columns.length)
  child_eq : l.child =
    (List.range (tbl.numRows * s * tbl.columns.length)).map (retByte tbl.columns s)

variable (h : HasRows s tbl l)
include h

theorem HasRows.row_eq (row : ℕ) : l.row row =
    Bytes.slice l.child (row * (s * tbl.columns.length)) (s * tbl.columns.length) := by
  rw [ListColumn.row, h.offsets_eq, h.offsets_eq, Nat.succ_mul, Nat.add_sub_cancel_left]

omit h in
theorem HasRows.room (hrow : row < tbl.numRows) : row * (s * tbl.columns.length) +
    s * tbl.columns.length ≤ tbl.numRows * s * tbl.columns.length := by
  calc row * (s * tbl.columns.length) + s * tbl.columns.length
      = (row + 1) * (s * tbl.columns.length) := (Nat.succ_mul ..).symm
    _ ≤ tbl.numRows * (s * tbl.columns.length) := Nat.mul_le_mul_right _ hrow
    _ = tbl.numRows * s * tbl.columns.length := (Nat.mul_assoc ..).symm

theorem HasRows.length_row (hrow : row < tbl.numRows) :
    (l.row row).length = s * tbl.columns.length := by
  rw [h.row_eq, Bytes.length_slice_of_le]
  rw [h.child_eq, List.length_map, List.length_range]
  exact HasRows.room hrow

theorem HasRows.getD_row (hrow : row < tbl.numRows) (hi : i < s * tbl.columns.length) :
    (l.row row).getD i 0 = retByte tbl.columns s (row * (s * tbl.columns.length) + i) := by
  have hroom := HasRows.room (s := s) hrow
  rw [h.row_eq, Bytes.getD_slice, if_pos hi, h.child_eq, List.getD_eq_getElem?_getD,
    List.getElem?_map, List.getElem?_range (by omega)]
  rfl

/-- A bit of a row: what the kernel reads for it. -/
theorem HasRows.msb_row (hrow : row < tbl.numRows) (hgi : gi < s) (hk : k < 8 * tbl.columns.length)
    (hc : tbl.columns[k % tbl.columns.length]? = some c) :
    msb (l.row row) (8 * tbl.columns.length * gi + k) =
      (c.isValid row &&
        (c.dataUInt8 (row * s + (s - 1 - gi))).getLsbD (7 - k / tbl.columns.length)) := by
  set n := tbl.columns.length
  have hdiv : (8 * n * gi + k) / 8 = gi * n + k / 8 := by
    rw [Nat.mul_assoc, Nat.mul_add_div (by decide), Nat.mul_comm]
  have hmod : (8 * n * gi + k) % 8 = k % 8 := by
    rw [Nat.mul_assoc, Nat.mul_add_mod]
  have hbyte : gi * n + k / 8 < s * n := by
    calc gi * n + k / 8
        < gi * n + n := by omega
      _ = (gi + 1) * n := (Nat.succ_mul ..).symm
      _ ≤ s * n := Nat.mul_le_mul_right _ hgi
  have hmsb : ∀ b : Byte, b.getMsbD (k % 8) = b.getLsbD (7 - k % 8) := by
    intro b
    rw [BitVec.getMsbD_eq_getLsbD, decide_eq_true (Nat.mod_lt _ (by decide)), Bool.true_and]
  have hoff : 7 - k % 8 < 8 := by omega
  have hlt : 7 - k / n < 32 := (Nat.sub_le ..).trans_lt (by decide)
  rw [msb, hdiv, hmod, h.getD_row hrow hbyte, hmsb, getLsbD_retByte _ hoff, bitSource_eq hgi hk]
  unfold byteData
  dsimp only
  rw [hc]
  dsimp only
  cases c.isValid row with
  | false => simp
  | true =>
    rw [if_pos rfl, BitVec.zeroExtend_eq_setWidth, BitVec.getLsbD_setWidth, decide_eq_true hlt]

/-- The bits of the rows are those of the values iff the bytes that are read are. -/
theorem HasRows.msb_row_iff :
    (∀ row < tbl.numRows, ∀ k < 8 * (s * tbl.columns.length), ∀ c,
      tbl.columns[k % tbl.columns.length]? = some c →
        msb (l.row row) k = (c.value s row).getMsbD (k / tbl.columns.length)) ↔
      BytesAgree s tbl := by
  set n := tbl.columns.length with hn
  constructor
  · intro hmsb c hc row hrow hvalid i hi
    obtain ⟨idx, hidx⟩ := List.mem_iff_getElem?.1 hc
    have hidxlt : idx < n := (List.getElem?_eq_some_iff.1 hidx).1
    -- bit `t` of byte `i`
    apply BitVec.eq_of_getLsbD_eq
    intro t ht
    have hk : (7 - t) * n + idx < 8 * n := by
      have hmul : (7 - t) * n ≤ 7 * n := Nat.mul_le_mul_right _ (Nat.sub_le ..)
      omega
    have hkmod : ((7 - t) * n + idx) % n = idx := by
      rw [Nat.mul_comm, Nat.mul_add_mod, Nat.mod_eq_of_lt hidxlt]
    have hkdiv : ((7 - t) * n + idx) / n = 7 - t := by
      rw [Nat.mul_comm, Nat.mul_add_div (by omega), Nat.div_eq_of_lt hidxlt, Nat.add_zero]
    have hgi : s - 1 - i < s := by omega
    have hbyte : s - 1 - (s - 1 - i) = i := by omega
    have hbit : 7 - (7 - t) = t := by omega
    have hplace : (8 * n * (s - 1 - i) + ((7 - t) * n + idx)) % n = idx := by
      rw [Nat.mul_comm 8 n, Nat.mul_assoc, Nat.mul_add_mod, hkmod]
    have hindex : (8 * n * (s - 1 - i) + ((7 - t) * n + idx)) / n = 8 * (s - 1 - i) + (7 - t) := by
      rw [Nat.mul_comm 8 n, Nat.mul_assoc, Nat.mul_add_div (by omega), hkdiv]
    have hlt : 8 * n * (s - 1 - i) + ((7 - t) * n + idx) < 8 * (s * n) := by
      calc 8 * n * (s - 1 - i) + ((7 - t) * n + idx)
          < 8 * n * (s - 1 - i) + 8 * n := Nat.add_lt_add_left hk _
        _ = 8 * n * (s - 1 - i + 1) := (Nat.mul_succ ..).symm
        _ ≤ 8 * n * s := Nat.mul_le_mul_left _ hgi
        _ = 8 * (s * n) := by ring
    have hread := h.msb_row hrow hgi hk (c := c) (by rw [← hn, hkmod, hidx])
    have hvalue := hmsb row hrow _ hlt c (by rw [hplace, hidx])
    rw [hindex, getMsbD_value hgi (by omega), hvalid, Bool.true_and, hbyte, hbit] at hvalue
    rw [← hn, hkdiv, hvalid, Bool.true_and, hbyte, hbit] at hread
    rw [← hread, hvalue]
  · intro hagree row hrow k hk c hc
    have hnpos : 0 < n := by
      apply Nat.pos_of_ne_zero
      intro hzero
      rw [hzero] at hk
      omega
    have hgi : k / (8 * n) < s := by
      apply Nat.div_lt_of_lt_mul
      calc k < 8 * (s * n) := hk
        _ = 8 * n * s := by ring
    have hlt : k % (8 * n) < 8 * n := Nat.mod_lt _ (by omega)
    have hmod : k % (8 * n) % n = k % n := Nat.mod_mod_of_dvd _ (Dvd.intro_left 8 rfl)
    have hsplit : 8 * n * (k / (8 * n)) + k % (8 * n) = k := Nat.div_add_mod ..
    have hdiv : k / n = 8 * (k / (8 * n)) + k % (8 * n) / n := by
      conv_lhs => rw [← hsplit, Nat.mul_comm 8 n, Nat.mul_assoc, Nat.mul_add_div hnpos]
      rw [Nat.mul_comm n 8]
    have hread := h.msb_row hrow hgi hlt (c := c) (by rw [← hn, hmod, hc])
    rw [hsplit] at hread
    rw [hread, hdiv, getMsbD_value hgi (Nat.div_lt_of_lt_mul (hlt.trans_eq (Nat.mul_comm ..)))]
    cases hvalid : c.isValid row with
    | false => rfl
    | true =>
      rw [hagree c (List.mem_iff_getElem?.2 ⟨_, hc⟩) row hrow hvalid _ (by omega)]

omit h in
/-- The bits of a column are recovered from those of the row. -/
theorem deinterleave_eq {bytes : List Byte} {idx : ℕ} {v : BitVec (8 * s)}
    (hbits : ∀ j < 8 * s, msb bytes (n * j + idx) = v.getMsbD j) :
    deinterleave s n bytes idx = v := by
  apply BitVec.eq_of_getLsbD_eq
  intro j hj
  have hj' : 8 * s - 1 - j < 8 * s := by omega
  have hback : 8 * s - 1 - (8 * s - 1 - j) = j := by omega
  rw [deinterleave, BitVec.getLsbD_ofFnLE, dif_pos hj, hbits _ hj', BitVec.getMsbD_eq_getLsbD,
    decide_eq_true hj', Bool.true_and, hback]

theorem HasRows.isInterleaved_iff : IsInterleaved s tbl l ↔ BytesAgree s tbl := by
  rw [← h.msb_row_iff]
  constructor
  · exact IsInterleaved.msb_row
  · intro hmsb
    refine ⟨h.numRows_eq, fun row hrow => h.length_row hrow, hmsb, fun row hrow idx c hc => ?_⟩
    have hidx : idx < tbl.columns.length := (List.getElem?_eq_some_iff.1 hc).1
    apply deinterleave_eq
    intro j hj
    have hmod : (tbl.columns.length * j + idx) % tbl.columns.length = idx := by
      rw [Nat.mul_add_mod, Nat.mod_eq_of_lt hidx]
    have hdiv : (tbl.columns.length * j + idx) / tbl.columns.length = j := by
      rw [Nat.mul_add_div (by omega), Nat.div_eq_of_lt hidx, Nat.add_zero]
    have hlt : tbl.columns.length * j + idx < 8 * (s * tbl.columns.length) := by
      calc tbl.columns.length * j + idx
          < tbl.columns.length * (j + 1) := by rw [Nat.mul_succ]; omega
        _ ≤ tbl.columns.length * (8 * s) := Nat.mul_le_mul_left _ hj
        _ = 8 * (s * tbl.columns.length) := by ring
    rw [hmsb row hrow _ hlt c (by rw [hmod, hc]), hdiv]

end Bits

section

variable [DecidableEq τ] {types : TypeTable τ} {tbl : Table τ} {T : τ}

/-- A table that passes the checks has a result. -/
theorem exists_hasRows (hne : tbl.columns ≠ []) (htype : ∀ c ∈ tbl.columns, c.type = T)
    (hfixed : types.isFixedWidth T = true)
    (hsize : tbl.numRows * types.sizeOf T * tbl.columns.length ≤ maxBytesAllowed) :
    ∃ l, interleaveBits types tbl = .ok l ∧ HasRows (types.sizeOf T) tbl l := by
  obtain ⟨columns, numRows⟩ := tbl
  obtain ⟨first, rest, rfl⟩ := List.exists_cons_of_ne_nil hne
  have hfirst : first.type = T := htype first (List.mem_cons_self ..)
  have hall : (first :: rest).all (fun col => col.type = first.type) = true := by
    rw [List.all_eq_true]
    intro c hc
    rw [decide_eq_true_iff, htype c hc, hfirst]
  have hfits : (numRows * types.sizeOf T * (first :: rest).length ≤ maxBytesAllowed : Bool) = true :=
    decide_eq_true hsize
  refine ⟨{
      numRows
      offsets := fun i => i * (types.sizeOf T * (first :: rest).length)
      child := (List.range (numRows * types.sizeOf T * (first :: rest).length)).map
        (retByte (first :: rest) (types.sizeOf T)) }, ?_, rfl, fun i => rfl, rfl⟩
  unfold interleaveBits
  dsimp only
  rw [hall, hfirst, hfixed, hfits]
  rfl

/-- **Interleaved bits**: for every table of columns of one type of a fixed width, up to the limit of
the size, `interleave_bits` returns the interleaved values of the rows, from which they are recovered,
exactly if the bytes it reads are those of the values. -/
theorem interleavesExactly_iff (types : TypeTable τ) (tbl : Table τ) (T : τ) (hne : tbl.columns ≠ [])
    (htype : ∀ c ∈ tbl.columns, c.type = T) (hfixed : types.isFixedWidth T = true)
    (hsize : tbl.numRows * types.sizeOf T * tbl.columns.length ≤ maxBytesAllowed) :
    (∃ l, interleaveBits types tbl = .ok l ∧ IsInterleaved (types.sizeOf T) tbl l) ↔
      BytesAgree (types.sizeOf T) tbl := by
  obtain ⟨l, hok, hrows⟩ := exists_hasRows hne htype hfixed hsize
  rw [← hrows.isInterleaved_iff]
  constructor
  · rintro ⟨l', hok', hinterleaved⟩
    cases hok.symm.trans hok'
    exact hinterleaved
  · exact fun hinterleaved => ⟨l, hok, hinterleaved⟩

end

/-- Two of the types of cudf. -/
inductive SomeType
  | int16
  | string
deriving DecidableEq

def someTypes : TypeTable SomeType where
  isFixedWidth
    | .int16 => true
    | .string => false
  sizeOf
    | .int16 => 2
    | .string => 0

/-- The second of the values `0x0100` and `0x0302`. -/
def slicedTable : Table SomeType where
  columns := [{ type := .int16, head := fun i => BitVec.ofNat 8 i, nullMask := none, offset := 1 }]
  numRows := 1

theorem interleavesExactly_iff_slicedTable :
    (∃ l, interleaveBits someTypes slicedTable = .ok l ∧
      IsInterleaved (someTypes.sizeOf .int16) slicedTable l) ↔
      BytesAgree (someTypes.sizeOf .int16) slicedTable :=
  interleavesExactly_iff someTypes slicedTable .int16 nofun
    (List.forall_mem_singleton.2 rfl) rfl (by decide)

/-- The bytes `0x02` and `0x01` are returned for `0x0302`. -/
theorem not_interleavesExactly :
    ¬∀ (τ : Type) (_ : DecidableEq τ) (types : TypeTable τ) (tbl : Table τ) (T : τ),
      tbl.columns ≠ [] → (∀ c ∈ tbl.columns, c.type = T) → types.isFixedWidth T = true →
      tbl.numRows * types.sizeOf T * tbl.columns.length ≤ maxBytesAllowed →
      ∃ l, interleaveBits types tbl = .ok l ∧ IsInterleaved (types.sizeOf T) tbl l := by
  intro hall
  obtain ⟨l, hok, hinterleaved⟩ := hall SomeType inferInstance someTypes slicedTable .int16
    nofun (List.forall_mem_singleton.2 rfl) rfl (by decide)
  obtain ⟨l', hok', hrows⟩ := @exists_hasRows _ _ someTypes slicedTable .int16
    nofun (List.forall_mem_singleton.2 rfl) rfl (by decide)
  cases hok.symm.trans hok'
  have hagree := hrows.isInterleaved_iff.1 hinterleaved _ (List.mem_singleton.2 rfl) 0 Nat.one_pos rfl
    0 (by decide)
  exact absurd hagree (by decide)

end Interleave

end SparkRapids.ZOrder
