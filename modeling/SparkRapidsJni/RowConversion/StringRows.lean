import SparkRapidsJni.RowConversion.Batches
import SparkRapidsJni.RowConversion.RowCopies

/-!
# `row_conversion.cu`: `copy_strings_to_rows`

The characters of a row's strings follow its validity, column by column, and its string columns hold
where they are. The kernel runs once for each batch, with the number of the batch's rows as `num_rows`.

Its rows are those of the table, and not of the batch: a row from `num_rows` on is not written, and in
a batch that does not start with the first row, that is the last one at least
(`stringsEncoded_iff`).
-/

namespace SparkRapids.RowConversion

open PrefixSums Bytes Threads

/-! ### The code -/

/-- A string column: its buffers, and the row of them that it starts with. The offsets ascend. -/
structure StringColumn where
  offset : ℕ
  offsets : ℕ → ℕ
  ascend : Monotone offsets
  head : ℕ → Byte

namespace StringColumn

variable (col : StringColumn) (row : ℕ)

/-- `variable_col_offsets[col][row]`: the iterator of the offsets starts at the offset of the column. -/
def variableColOffsets : ℕ := col.offsets (col.offset + row)

/-- `variable_input_data[col]`: `data` starts at the offset of the column as well. -/
def variableInputData (i : ℕ) : Byte := col.head (col.offset + i)

/-- `string_length` -/
def stringLength : ℕ := col.variableColOffsets (row + 1) - col.variableColOffsets row

/-- The characters of a string. -/
def character (i : ℕ) : Byte := col.head (col.variableColOffsets row + i)

end StringColumn

/-- `NUM_STRING_ROWS_PER_BLOCK_TO_ROWS` -/
def stringRowsPerBlock : ℕ := 1024

/-- `cudf::detail::warp_size`. A block of so many threads has as many warps. -/
def warpSize : ℕ := 32

/-- `MAX_STRING_BLOCKS` -/
def maxStringBlocks : ℕ := maxBatchSize

/-- `string_blocks` -/
def stringBlocks (batchNumRows : ℕ) : ℕ :=
  min maxStringBlocks (divRoundingUp batchNumRows stringRowsPerBlock)

/-- The rows of a warp: each `warpSize` behind the one before, and below `end_row`. Where `end_row` would
not be a `size_type`, it is negative, and the loop has no turn with a row of the table. -/
def warpRows (numRows batchRowOffset block warp : ℕ) : List ℕ :=
  let startRow := block * stringRowsPerBlock + warp + batchRowOffset
  if startRow + stringRowsPerBlock < 2 ^ 31 then
    ((List.range (stringRowsPerBlock / warpSize)).map (startRow + warpSize * ·)).filter
      (· < min numRows (startRow + stringRowsPerBlock))
  else []

section Kernel

variable (columns : ℕ → StringColumn) (variableColOutputOffsets : List ℕ) (batch baseRowOffset row : ℕ)

/-- The two words a column writes. -/
def offsetAndLength (offset length : ℕ) : List Byte :=
  wordBytes (BitVec.ofNat 32 offset) ++ wordBytes (BitVec.ofNat 32 length)

/-- The bytes that a column writes for a row: the offset and the length, and the characters. -/
def columnWrites (offset col : ℕ) : List (Address × Byte) :=
  let stringStartOffset := (columns col).variableColOffsets row
  let stringLength := (columns col).stringLength row
  ((List.range 8).map fun i =>
    ((batch, baseRowOffset + variableColOutputOffsets.getD col 0 + i),
      (offsetAndLength offset stringLength).getD i 0)) ++
  (List.range stringLength).map fun i =>
    ((batch, baseRowOffset + offset + i), (columns col).variableInputData (stringStartOffset + i))

/-- The loop over the columns: what was written so far, and the offset of the next characters. -/
def rowWrites (numVariableColumns fixedWidthRowSize : ℕ) : List (Address × Byte) × ℕ :=
  (List.range numVariableColumns).foldl
    (fun st col =>
      (st.1 ++ columnWrites columns variableColOutputOffsets batch baseRowOffset row st.2 col,
        st.2 + (columns col).stringLength row))
    ([], fixedWidthRowSize)

end Kernel

/-- `d_row_sizes`: the size of a row, with the characters of its strings. -/
def stringRowSize (types : List ColumnType) (columns : ℕ → StringColumn) (row : ℕ) : ℕ :=
  roundUp ((computeColumnInformation types).sizePerRow +
    exclusiveScan (fun col => (columns col).stringLength row) (types.countP ColumnType.isCompound))
    jcudfRowAlignment

/-- A table with string columns, and a division of its rows into batches that fit. The offsets of the
rows are those of `build_batches`: in each batch, the sum of the sizes of the rows before. -/
structure StringTable where
  types : List ColumnType
  columns : ℕ → StringColumn
  compound : 0 < types.countP ColumnType.isCompound
  rowCounts : List ℕ
  dRowOffsets : List ℕ
  offsets_eq : ∀ batch < rowCounts.length, ∀ row,
    exclusiveScan (rowsOfBatch rowCounts) batch ≤ row →
    row < exclusiveScan (rowsOfBatch rowCounts) (batch + 1) →
      dRowOffsets.getD row 0 + exclusiveScan (stringRowSize types columns)
        (exclusiveScan (rowsOfBatch rowCounts) batch) = exclusiveScan (stringRowSize types columns) row
  fits : ∀ batch < rowCounts.length,
    exclusiveScan (stringRowSize types columns) (exclusiveScan (rowsOfBatch rowCounts) (batch + 1)) ≤
      exclusiveScan (stringRowSize types columns) (exclusiveScan (rowsOfBatch rowCounts) batch) +
        maxBatchSize

namespace StringTable

variable (table : StringTable)

/-- `column_info` -/
def info : ColumnInfo := computeColumnInformation table.types

/-- `variable_width_table.num_columns()` -/
def numVariableColumns : ℕ := table.types.countP ColumnType.isCompound

/-- The size of a row. -/
def rowSize (row : ℕ) : ℕ := stringRowSize table.types table.columns row

/-- The first row of a batch. -/
def batchStart (batch : ℕ) : ℕ := exclusiveScan (rowsOfBatch table.rowCounts) batch

/-- The rows of the table in their batches. -/
def layout : RowLayout table.types table.rowCounts where
  rowOffsets := stringRowOffset table.dRowOffsets
  rowSize := table.rowSize
  sizePerRow_le _ _ := Nat.le_trans (Nat.le_add_right _ _) (le_roundUp (by decide))
  apart := by
    intro batch hbatch row row' hstart hlt hend
    have hrow := table.offsets_eq batch hbatch row hstart (by omega)
    have hrow' := table.offsets_eq batch hbatch row' (by omega) hend
    have hsucc := exclusiveScan_succ (stringRowSize table.types table.columns) row
    have hmono := exclusiveScan_mono (stringRowSize table.types table.columns)
      (show row + 1 ≤ row' from hlt)
    unfold stringRowOffset rowSize
    omega

/-- What a warp writes for a row of a batch. -/
def rowBytes (batch row : ℕ) : List (Address × Byte) :=
  (rowWrites table.columns table.info.variableWidthColumnStarts batch
    (stringRowOffset table.dRowOffsets row 0) row table.numVariableColumns table.info.sizePerRow).1

/-- `copy_strings_to_rows`, for a batch. -/
def copyStringsToRows (batch : ℕ) : List (Address × Byte) :=
  let batchRowOffset := (boundariesOf table.rowCounts).getD batch 0
  let batchNumRows := rowsOfBatch table.rowCounts batch
  (List.range (stringBlocks batchNumRows)).flatMap fun block =>
    (List.range (stringRowsPerBlock / warpSize)).flatMap fun warp =>
      (warpRows batchNumRows batchRowOffset block warp).flatMap (table.rowBytes batch)

/-- What is written for the batches. -/
def stringWrites : List (Address × Byte) :=
  (List.range table.rowCounts.length).flatMap table.copyStringsToRows

end StringTable

/-! ### What should be written -/

/-- The strings of a row are in a buffer: the characters of the columns one behind the other, from a
place on that is behind the row's validity, and in each column its place and its length. -/
structure RowEncoded (table : StringTable) (memory : Address → Byte) (batch row : ℕ) (place : ℕ → ℕ) :
    Prop where
  first : table.info.sizePerRow ≤ place 0
  next : ∀ col < table.numVariableColumns,
    place (col + 1) = place col + (table.columns col).stringLength row
  last : place table.numVariableColumns ≤ table.rowSize row
  pairs : ∀ col < table.numVariableColumns, ∀ i < 8,
    memory (batch, table.layout.rowStart batch row +
      table.info.variableWidthColumnStarts.getD col 0 + i) =
        (offsetAndLength (place col) ((table.columns col).stringLength row)).getD i 0
  characters : ∀ col < table.numVariableColumns, ∀ i < (table.columns col).stringLength row,
    memory (batch, table.layout.rowStart batch row + place col + i) =
      (table.columns col).character row i

/-- Every row has its strings in the buffer of its batch, in whatever order the bytes of the kernels
are written, and whatever is in the buffers before. -/
def StringsEncoded (table : StringTable) : Prop :=
  ∀ (output : Address → Byte) s, (lts write (anyOrder output table.stringWrites)).Reachable s →
    s.Done → ∀ batch < table.rowCounts.length, ∀ row, table.batchStart batch ≤ row →
      row < table.batchStart (batch + 1) → ∃ place, RowEncoded table s.memory batch row place

/-- All rows are in one batch. -/
def StringTable.OneBatch (table : StringTable) : Prop :=
  ∀ batch < table.rowCounts.length, 0 < rowsOfBatch table.rowCounts batch → table.batchStart batch = 0

/-- The characters are the same where the kernel reads them: so far behind as the column's offset
says. -/
def StringTable.SameCharacters (table : StringTable) : Prop :=
  ∀ col < table.numVariableColumns, ∀ row < table.rowCounts.sum,
    ∀ i < (table.columns col).stringLength row,
      (table.columns col).variableInputData ((table.columns col).variableColOffsets row + i) =
        (table.columns col).character row i

/-! ### The writes of a row -/

section Row

variable {table : StringTable} {batch row p : ℕ} {v : Byte}

theorem rowWrites_eq (columns : ℕ → StringColumn) (starts : List ℕ) (batch base row n size : ℕ) :
    rowWrites columns starts batch base row n size =
      ((List.range n).flatMap fun col => columnWrites columns starts batch base row
        (size + exclusiveScan (fun col => (columns col).stringLength row) col) col,
        size + exclusiveScan (fun col => (columns col).stringLength row) n) := by
  induction n with
  | zero => rfl
  | succ n ih =>
    unfold rowWrites at ih ⊢
    rw [List.range_succ, List.foldl_append, ih, List.flatMap_append, exclusiveScan_succ]
    rw [List.foldl_cons, List.foldl_nil, List.flatMap_singleton, Nat.add_assoc]

/-- Where the characters of a column start in a row. -/
def StringTable.place (table : StringTable) (row col : ℕ) : ℕ :=
  table.info.sizePerRow + exclusiveScan (fun col => (table.columns col).stringLength row) col

/-- A byte of a row, and what is written there. -/
inductive Written (table : StringTable) (row : ℕ) : ℕ → Byte → Prop where
  | pair {col i : ℕ} (hcol : col < table.numVariableColumns) (hi : i < 8) :
    Written table row (table.info.variableWidthColumnStarts.getD col 0 + i)
      ((offsetAndLength (table.place row col) ((table.columns col).stringLength row)).getD i 0)
  | character {col i : ℕ} (hcol : col < table.numVariableColumns)
    (hi : i < (table.columns col).stringLength row) :
    Written table row (table.place row col + i)
      ((table.columns col).variableInputData ((table.columns col).variableColOffsets row + i))

theorem mem_rowBytes {a : Address} : (a, v) ∈ table.rowBytes batch row ↔
    ∃ p, a = (batch, table.layout.rowStart batch row + p) ∧ Written table row p v := by
  unfold StringTable.rowBytes
  rw [rowWrites_eq]
  constructor
  · intro h
    obtain ⟨col, hcol, h⟩ := List.mem_flatMap.1 h
    rw [List.mem_range] at hcol
    rcases List.mem_append.1 h with h | h
    · obtain ⟨i, hi, heq⟩ := List.mem_map.1 h
      obtain ⟨rfl, rfl⟩ := Prod.mk.inj heq
      exact ⟨_, congrArg _ (Nat.add_assoc _ _ _), .pair hcol (List.mem_range.1 hi)⟩
    · obtain ⟨i, hi, heq⟩ := List.mem_map.1 h
      obtain ⟨rfl, rfl⟩ := Prod.mk.inj heq
      exact ⟨_, congrArg _ (Nat.add_assoc _ _ _), .character hcol (List.mem_range.1 hi)⟩
  · rintro ⟨p, rfl, hwritten⟩
    cases hwritten with
    | @pair col i hcol hi =>
      refine List.mem_flatMap.2 ⟨col, List.mem_range.2 hcol, List.mem_append_left _ ?_⟩
      refine List.mem_map.2 ⟨i, List.mem_range.2 hi, ?_⟩
      exact Prod.ext (congrArg (Prod.mk batch) (Nat.add_assoc _ _ _)) rfl
    | @character col i hcol hi =>
      refine List.mem_flatMap.2 ⟨col, List.mem_range.2 hcol, List.mem_append_right _ ?_⟩
      refine List.mem_map.2 ⟨i, List.mem_range.2 hi, ?_⟩
      exact Prod.ext (congrArg (Prod.mk batch) (Nat.add_assoc _ _ _)) rfl

theorem place_succ (table : StringTable) (row col : ℕ) : table.place row (col + 1) =
    table.place row col + (table.columns col).stringLength row := by
  unfold StringTable.place
  rw [exclusiveScan_succ, Nat.add_assoc]

theorem place_le_rowSize (table : StringTable) (row : ℕ) :
    table.place row table.numVariableColumns ≤ table.rowSize row :=
  le_roundUp (by decide)

theorem pair_le_sizePerRow {col : ℕ} (hcol : col < table.numVariableColumns) :
    table.info.variableWidthColumnStarts.getD col 0 + 8 ≤ table.info.sizePerRow :=
  variableStart_le_sizePerRow hcol

theorem sizePerRow_le_place (table : StringTable) (row col : ℕ) :
    table.info.sizePerRow ≤ table.place row col := Nat.le_add_right _ _

theorem Written.lt_rowSize (h : Written table row p v) : p < table.rowSize row := by
  have hsize := place_le_rowSize table row
  cases h with
  | @pair col i hcol hi =>
    have hpair := pair_le_sizePerRow hcol
    have hplace := sizePerRow_le_place table row table.numVariableColumns
    omega
  | @character col i hcol hi =>
    have hnext := place_succ table row col
    have hmono : table.place row (col + 1) ≤ table.place row table.numVariableColumns :=
      Nat.add_le_add_left (exclusiveScan_mono _ hcol) _
    omega

/-- A byte of a row is written with one value. -/
theorem Written.unique {v' : Byte} (h : Written table row p v) (h' : Written table row p v') :
    v' = v := by
  generalize hp : p = p' at h'
  cases h with
  | @pair col i hcol hi =>
    have hpair := pair_le_sizePerRow hcol
    cases h' with
    | @pair col' i' hcol' hi' =>
      -- the pairs of two columns are apart
      have hsame : col = col' := by
        rcases Nat.lt_trichotomy col col' with hlt | heq | hgt
        · have hapart : table.info.variableWidthColumnStarts.getD col 0 + 8 ≤
              table.info.variableWidthColumnStarts.getD col' 0 := variableStart_apart hlt hcol'
          omega
        · exact heq
        · have hapart : table.info.variableWidthColumnStarts.getD col' 0 + 8 ≤
              table.info.variableWidthColumnStarts.getD col 0 := variableStart_apart hgt hcol
          omega
      subst hsame
      obtain rfl : i = i' := by omega
      rfl
    | @character col' i' hcol' hi' =>
      have hplace := sizePerRow_le_place table row col'
      omega
  | @character col i hcol hi =>
    cases h' with
    | @pair col' i' hcol' hi' =>
      have hpair := pair_le_sizePerRow hcol'
      have hplace := sizePerRow_le_place table row col
      omega
    | @character col' i' hcol' hi' =>
      unfold StringTable.place at hp
      obtain ⟨rfl, rfl⟩ := @segment_unique (fun col => (table.columns col).stringLength row) i col
        col' i' hi hi' (by omega)
      rfl

end Row

/-! ### The rows that are written -/

section Rows

variable {table : StringTable} {batch row numRows batchRowOffset block warp : ℕ}

theorem mem_warpRows (h : row ∈ warpRows numRows batchRowOffset block warp) :
    batchRowOffset ≤ row ∧ row < numRows := by
  unfold warpRows at h
  dsimp only at h
  split_ifs at h
  · obtain ⟨hmem, hlt⟩ := List.mem_filter.1 h
    obtain ⟨t, -, rfl⟩ := List.mem_map.1 hmem
    have hmin := Nat.lt_min.1 (of_decide_eq_true hlt)
    exact ⟨Nat.le_trans (Nat.le_add_left _ _) (Nat.le_add_right _ _), hmin.1⟩
  · exact absurd h List.not_mem_nil

/-- A row is written by the warp of its number in its block, if the rows start with the first one. -/
theorem mem_warpRows_self (hrow : row < numRows) (hnum : numRows ≤ maxBatchSize / 8) :
    row ∈ warpRows numRows 0 (row / stringRowsPerBlock) (row % stringRowsPerBlock % warpSize) := by
  have hsplit := Nat.div_add_mod row stringRowsPerBlock
  have hsplit' := Nat.div_add_mod (row % stringRowsPerBlock) warpSize
  have hlt := Nat.mod_lt row (show 0 < stringRowsPerBlock by decide)
  have hwarp := Nat.mod_lt (row % stringRowsPerBlock) (show 0 < warpSize by decide)
  have hturn : row % stringRowsPerBlock / warpSize < stringRowsPerBlock / warpSize :=
    Nat.div_lt_div_of_lt_of_dvd (by decide) hlt
  unfold maxBatchSize at hnum
  unfold stringRowsPerBlock warpSize at *
  unfold warpRows stringRowsPerBlock warpSize
  dsimp only
  rw [if_pos (by omega)]
  refine List.mem_filter.2 ⟨List.mem_map.2 ⟨_, List.mem_range.2 hturn, by omega⟩, ?_⟩
  exact decide_eq_true (Nat.lt_min.2 ⟨hrow, by omega⟩)

theorem mem_copyStringsToRows {w : Address × Byte} (hbatch : batch < table.rowCounts.length)
    (h : w ∈ table.copyStringsToRows batch) :
    ∃ row, table.batchStart batch ≤ row ∧ row < rowsOfBatch table.rowCounts batch ∧
      w ∈ table.rowBytes batch row := by
  unfold StringTable.copyStringsToRows at h
  obtain ⟨block, -, h⟩ := List.mem_flatMap.1 h
  obtain ⟨warp, -, h⟩ := List.mem_flatMap.1 h
  obtain ⟨row, hrow, h⟩ := List.mem_flatMap.1 h
  obtain ⟨hstart, hlt⟩ := mem_warpRows hrow
  rw [getD_boundariesOf (Nat.le_of_lt hbatch)] at hstart
  exact ⟨row, hstart, hlt, h⟩

theorem copyStringsToRows_of_mem {w : Address × Byte} (hbatch : batch < table.rowCounts.length)
    (hstart : table.batchStart batch = 0) (hrow : row < rowsOfBatch table.rowCounts batch)
    (hnum : rowsOfBatch table.rowCounts batch ≤ maxBatchSize / 8) (h : w ∈ table.rowBytes batch row) :
    w ∈ table.copyStringsToRows batch := by
  have hboundary : (boundariesOf table.rowCounts).getD batch 0 = 0 :=
    (getD_boundariesOf (Nat.le_of_lt hbatch)).trans hstart
  unfold StringTable.copyStringsToRows
  refine List.mem_flatMap.2 ⟨row / stringRowsPerBlock, List.mem_range.2 ?_, List.mem_flatMap.2
    ⟨row % stringRowsPerBlock % warpSize, List.mem_range.2 ?_, List.mem_flatMap.2 ⟨row, ?_, h⟩⟩⟩
  · -- the blocks are enough for the rows
    unfold stringBlocks maxStringBlocks maxBatchSize divRoundingUp
    unfold maxBatchSize at hnum
    unfold stringRowsPerBlock
    omega
  · exact Nat.mod_lt _ (by decide)
  · rw [hboundary]
    exact mem_warpRows_self hrow hnum

/-- What is written for the batches is written for rows of them. -/
theorem mem_stringWrites {a : Address} {v : Byte} (h : (a, v) ∈ table.stringWrites) :
    ∃ batch < table.rowCounts.length, ∃ row p, table.batchStart batch ≤ row ∧
      row < rowsOfBatch table.rowCounts batch ∧
      a = (batch, table.layout.rowStart batch row + p) ∧ Written table row p v := by
  obtain ⟨batch, hbatch, h⟩ := List.mem_flatMap.1 h
  rw [List.mem_range] at hbatch
  obtain ⟨row, hstart, hlt, h⟩ := mem_copyStringsToRows hbatch h
  obtain ⟨p, hp, hwritten⟩ := mem_rowBytes.1 h
  exact ⟨batch, hbatch, row, p, hstart, hlt, hp, hwritten⟩

/-- At the place of a row, only the bytes of the row are written. -/
theorem written_of_mem {p : ℕ} {v : Byte} (hbatch : batch < table.rowCounts.length)
    (hrow : RowOf table.rowCounts batch row) (hp : p < table.rowSize row)
    (h : ((batch, table.layout.rowStart batch row + p), v) ∈ table.stringWrites) :
    row < rowsOfBatch table.rowCounts batch ∧ Written table row p v := by
  obtain ⟨batch', hbatch', row', p', hstart', hlt', heq, hwritten⟩ := mem_stringWrites h
  obtain ⟨rfl, hposition⟩ := Prod.mk.inj heq
  have hscan : table.batchStart (batch + 1) = table.batchStart batch +
      rowsOfBatch table.rowCounts batch := exclusiveScan_succ _ _
  obtain ⟨rfl, rfl⟩ := @rowStart_unique _ _ _ _ _ table.layout _ _ hbatch hrow
    ⟨hstart', show row' < table.batchStart (batch + 1) by omega⟩ hp hwritten.lt_rowSize hposition
  exact ⟨hlt', hwritten⟩

/-- At the end, a byte that a row writes has its value. -/
theorem memory_eq {output : Address → Byte} {s : Threads (Address → Byte) (Address × Byte)} {p : ℕ}
    {v : Byte} (hrun : (lts write (anyOrder output table.stringWrites)).Reachable s) (hdone : s.Done)
    (hbatch : batch < table.rowCounts.length) (hstart : table.batchStart batch = 0)
    (hrow : row < rowsOfBatch table.rowCounts batch)
    (hnum : rowsOfBatch table.rowCounts batch ≤ maxBatchSize / 8) (hwritten : Written table row p v) :
    s.memory (batch, table.layout.rowStart batch row + p) = v := by
  have hscan : table.batchStart (batch + 1) = table.batchStart batch +
      rowsOfBatch table.rowCounts batch := exclusiveScan_succ _ _
  refine hdone.memory_eq hrun ?_ fun v' hv' => ?_
  · rw [flatten_anyOrder]
    exact List.mem_flatMap.2 ⟨batch, List.mem_range.2 hbatch, copyStringsToRows_of_mem hbatch hstart
      hrow hnum (mem_rowBytes.2 ⟨p, rfl, hwritten⟩)⟩
  · rw [flatten_anyOrder] at hv'
    have hrow' : RowOf table.rowCounts batch row :=
      ⟨show table.batchStart batch ≤ row by omega, show row < table.batchStart (batch + 1) by omega⟩
    exact hwritten.unique (written_of_mem hbatch hrow' hwritten.lt_rowSize hv').2

/-- A batch that fits has not more rows than bytes, by far. -/
theorem rowsOfBatch_le (hbatch : batch < table.rowCounts.length) :
    rowsOfBatch table.rowCounts batch ≤ maxBatchSize / 8 := by
  have hsize : ∀ row, 8 ≤ stringRowSize table.types table.columns row := by
    intro row
    have hpair : _ + 8 ≤ (computeColumnInformation table.types).sizePerRow :=
      @pair_le_sizePerRow table 0 table.compound
    have hround := @le_roundUp ((computeColumnInformation table.types).sizePerRow + exclusiveScan
      (fun col => (table.columns col).stringLength row) (table.types.countP ColumnType.isCompound))
      jcudfRowAlignment (by decide)
    unfold stringRowSize
    omega
  have hrows : ∀ start n, exclusiveScan (stringRowSize table.types table.columns) start + 8 * n ≤
      exclusiveScan (stringRowSize table.types table.columns) (start + n) := by
    intro start n
    induction n with
    | zero => exact Nat.le_refl _
    | succ n ih =>
      have hnext := hsize (start + n)
      rw [← Nat.add_assoc, exclusiveScan_succ]
      omega
  have hfits := table.fits batch hbatch
  rw [exclusiveScan_succ] at hfits
  have hall := hrows (exclusiveScan (rowsOfBatch table.rowCounts) batch)
    (rowsOfBatch table.rowCounts batch)
  rw [Nat.le_div_iff_mul_le (by decide)]
  omega

/-- A row that fits into its batch has places that are numbers of 32 bits. -/
theorem rowSize_lt (hbatch : batch < table.rowCounts.length) (hrow : RowOf table.rowCounts batch row) :
    table.rowSize row < 2 ^ 32 := by
  have hfits := table.fits batch hbatch
  have hsucc := exclusiveScan_succ (stringRowSize table.types table.columns) row
  have hbefore := exclusiveScan_mono (stringRowSize table.types table.columns) hrow.start_le
  have hbehind := exclusiveScan_mono (stringRowSize table.types table.columns)
    (Nat.succ_le_of_lt hrow.row_lt)
  unfold maxBatchSize at hfits
  unfold StringTable.rowSize
  rw [Nat.succ_eq_add_one] at hbehind
  omega

end Rows

/-! ### When the strings are encoded -/

section Encoded

variable {table : StringTable} {memory : Address → Byte} {batch row : ℕ} {place : ℕ → ℕ}

/-- The first word of a pair is the place. -/
theorem offset_eq {offset offset' : ℕ} (length length' : ℕ) (h : offset < 2 ^ 32)
    (h' : offset' < 2 ^ 32) (hbytes : ∀ i < 4, (offsetAndLength offset length).getD i 0 =
      (offsetAndLength offset' length').getD i 0) : offset = offset' := by
  have hword : ∀ {n m : ℕ}, ∀ i < 4, (offsetAndLength n m).getD i 0 =
      (wordBytes (BitVec.ofNat 32 n)).getD i 0 :=
    fun i hi => List.getD_append _ _ _ _ hi
  have hwords : wordBytes (BitVec.ofNat 32 offset) = wordBytes (BitVec.ofNat 32 offset') := by
    refine List.ext_getElem rfl fun i hi hi' => ?_
    have hbyte := hbytes i hi
    rw [hword i hi, hword i hi, List.getD_eq_getElem _ _ hi, List.getD_eq_getElem _ _ hi'] at hbyte
    exact hbyte
  have hnat := congrArg (fun bs => (word bs 0).toNat) hwords
  rwa [word_wordBytes, word_wordBytes, BitVec.toNat_ofNat, BitVec.toNat_ofNat, Nat.mod_eq_of_lt h,
    Nat.mod_eq_of_lt h'] at hnat

theorem RowEncoded.place_mono (h : RowEncoded table memory batch row place) {col : ℕ}
    (hcol : col ≤ table.numVariableColumns) : place 0 ≤ place col := by
  induction col with
  | zero => exact Nat.le_refl _
  | succ col ih =>
    have hnext := h.next col hcol
    have hbefore := ih (Nat.le_of_lt hcol)
    omega

/-- A row of which nothing is written has no place for its characters. -/
theorem not_rowEncoded_zero (hbatch : batch < table.rowCounts.length)
    (hrow : RowOf table.rowCounts batch row)
    (hzero : ∀ p < table.rowSize row, memory (batch, table.layout.rowStart batch row + p) = 0) :
    ¬RowEncoded table memory batch row place := by
  intro h
  have hsize := rowSize_lt hbatch hrow
  have hplace := h.place_mono (Nat.le_refl _)
  have hlast := h.last
  have hfirst := h.first
  have hpair := @pair_le_sizePerRow table 0 table.compound
  -- the bytes of the pair are those of the place zero
  have hoffset : place 0 = 0 := by
    refine offset_eq ((table.columns 0).stringLength row) 0 (by omega) (by decide) fun i hi => ?_
    rw [← h.pairs 0 table.compound i (by omega), Nat.add_assoc, hzero _ (by omega)]
    interval_cases i <;> rfl
  omega

theorem StringsEncoded.oneBatch (h : StringsEncoded table) : table.OneBatch := by
  intro batch hbatch hrows
  by_contra hstart
  have hscan : table.batchStart (batch + 1) = table.batchStart batch +
      rowsOfBatch table.rowCounts batch := exclusiveScan_succ _ _
  -- the last row of the batch is not below the number of its rows
  have hstart' : table.batchStart batch ≤ table.batchStart (batch + 1) - 1 := by omega
  have hrow : RowOf table.rowCounts batch (table.batchStart (batch + 1) - 1) :=
    ⟨hstart', show _ < table.batchStart (batch + 1) by omega⟩
  obtain ⟨s, hrun, hdone⟩ := exists_done_anyOrder (fun _ => 0) table.stringWrites
  obtain ⟨place, hencoded⟩ := h _ s hrun hdone batch hbatch _ hrow.start_le hrow.row_lt
  refine not_rowEncoded_zero hbatch hrow (fun p hp => ?_) hencoded
  obtain ⟨applied, hperm, hmemory⟩ := hdone.exists_perm hrun
  rw [flatten_anyOrder] at hperm
  refine foldlM_write hmemory (fun v' hv' => ?_) (.inr rfl)
  have hlt := (written_of_mem hbatch hrow hp (hperm.mem_iff.1 hv')).1
  omega

/-- Each row of the table is in a batch. -/
theorem exists_batch (hrow : row < table.rowCounts.sum) : ∃ batch < table.rowCounts.length,
    RowOf table.rowCounts batch row := by
  rw [sum_eq_exclusiveScan] at hrow
  obtain ⟨batch, hbatch, r, hr, rfl⟩ := exists_segment hrow
  have hscan := exclusiveScan_succ (rowsOfBatch table.rowCounts) batch
  exact ⟨batch, hbatch, Nat.le_add_right _ _, by omega⟩

theorem StringTable.OneBatch.row_lt (h : table.OneBatch) (hbatch : batch < table.rowCounts.length)
    (hrow : RowOf table.rowCounts batch row) :
    table.batchStart batch = 0 ∧ row < rowsOfBatch table.rowCounts batch := by
  obtain ⟨hstart, hend⟩ := hrow
  have hscan := exclusiveScan_succ (rowsOfBatch table.rowCounts) batch
  have hzero : exclusiveScan (rowsOfBatch table.rowCounts) batch = 0 := h batch hbatch (by omega)
  exact ⟨hzero, by omega⟩

theorem StringsEncoded.sameCharacters (h : StringsEncoded table) : table.SameCharacters := by
  intro col hcol row hrow i hi
  obtain ⟨batch, hbatch, hmem⟩ := exists_batch hrow
  obtain ⟨hzero, hlt⟩ := h.oneBatch.row_lt hbatch hmem
  obtain ⟨s, hrun, hdone⟩ := exists_done_anyOrder (fun _ => 0) table.stringWrites
  obtain ⟨place, hencoded⟩ := h _ s hrun hdone batch hbatch row hmem.start_le hmem.row_lt
  have hsize := rowSize_lt hbatch hmem
  have hnum := rowsOfBatch_le hbatch
  -- the places are those of the kernel, since the pairs are
  have hplace : ∀ k ≤ table.numVariableColumns, place k = table.place row k := by
    intro k hk
    induction k with
    | zero =>
      have hmono := hencoded.place_mono (Nat.le_refl _)
      have hlast := hencoded.last
      have hlast' := place_le_rowSize table row
      have hmono' : table.place row 0 ≤ table.place row table.numVariableColumns :=
        Nat.add_le_add_left (exclusiveScan_mono _ (Nat.zero_le _)) _
      refine offset_eq ((table.columns 0).stringLength row) ((table.columns 0).stringLength row)
        (by omega) (by omega) fun i hi => ?_
      have hpair := hencoded.pairs 0 table.compound i (by omega)
      rw [Nat.add_assoc, memory_eq hrun hdone hbatch hzero hlt hnum
        (.pair table.compound (show i < 8 by omega))] at hpair
      exact hpair.symm
    | succ k ih => rw [hencoded.next k hk, ih (Nat.le_of_lt hk), place_succ]
  have hcharacter := hencoded.characters col hcol i hi
  rw [hplace col (Nat.le_of_lt hcol), Nat.add_assoc,
    memory_eq hrun hdone hbatch hzero hlt hnum (.character hcol hi)] at hcharacter
  exact hcharacter

theorem stringsEncoded_of_oneBatch (hone : table.OneBatch) (hsame : table.SameCharacters) :
    StringsEncoded table := by
  intro output s hrun hdone batch hbatch row hstart hend
  obtain ⟨hzero, hlt⟩ := hone.row_lt hbatch ⟨hstart, hend⟩
  have hnum := rowsOfBatch_le hbatch
  refine ⟨table.place row, Nat.le_refl _, fun col _ => place_succ table row col,
    place_le_rowSize table row, fun col hcol i hi => ?_, fun col hcol i hi => ?_⟩
  · rw [Nat.add_assoc]
    exact memory_eq hrun hdone hbatch hzero hlt hnum (.pair hcol hi)
  · rw [Nat.add_assoc, memory_eq hrun hdone hbatch hzero hlt hnum (.character hcol hi)]
    exact hsame col hcol row (row_lt_sum hbatch hend) i hi

/-- The strings of all rows are encoded exactly where the rows are in one batch, and the characters
are the same where the kernel reads them. -/
theorem stringsEncoded_iff (table : StringTable) :
    StringsEncoded table ↔ table.OneBatch ∧ table.SameCharacters :=
  ⟨fun h => ⟨h.oneBatch, h.sameCharacters⟩, fun h => stringsEncoded_of_oneBatch h.1 h.2⟩

/-- Strings of 30 MiB each, of one character. -/
def longStrings : StringColumn where
  offset := 0
  offsets row := row * 31457280
  ascend := fun _ _ h => Nat.mul_le_mul_right _ h
  head _ := 0x61

theorem stringRowSize_longStrings (row : ℕ) :
    stringRowSize [.compound, .compound] (fun _ => longStrings) row = 62914584 := by
  have hlen : longStrings.stringLength row = 31457280 := by
    unfold StringColumn.stringLength StringColumn.variableColOffsets longStrings
    dsimp only
    omega
  show roundUp (17 + exclusiveScan (fun _ => longStrings.stringLength row) 2) 8 = 62914584
  have hzero : exclusiveScan (fun _ => 31457280) 0 = 0 := rfl
  rw [hlen, exclusiveScan_succ, exclusiveScan_succ, hzero]
  norm_num [roundUp]

theorem exclusiveScan_longStrings (row : ℕ) :
    exclusiveScan (stringRowSize [.compound, .compound] fun _ => longStrings) row =
      row * 62914584 := by
  induction row with
  | zero => rfl
  | succ row ih => rw [exclusiveScan_succ, ih, stringRowSize_longStrings, Nat.succ_mul]

/-- Two such columns, of 64 rows in two batches. -/
def longStringTable : StringTable where
  types := [.compound, .compound]
  columns _ := longStrings
  compound := by decide
  rowCounts := [32, 32]
  dRowOffsets := (List.range 64).map fun row => row % 32 * 62914584
  offsets_eq := by
    intro batch hbatch row hstart hend
    have hrows : ∀ k ≤ 2, exclusiveScan (rowsOfBatch [32, 32]) k = 32 * k := by decide
    have hlen : batch < 2 := hbatch
    rw [hrows batch (by omega)] at hstart ⊢
    rw [hrows (batch + 1) (by omega)] at hend
    rw [exclusiveScan_longStrings, exclusiveScan_longStrings, List.getD_eq_getElem?_getD,
      List.getElem?_map, List.getElem?_range (by omega)]
    show row % 32 * 62914584 + 32 * batch * 62914584 = row * 62914584
    rw [← Nat.add_mul]
    refine congrArg (· * 62914584) ?_
    omega
  fits := by
    intro batch hbatch
    rw [exclusiveScan_longStrings, exclusiveScan_longStrings, exclusiveScan_succ, Nat.add_mul]
    have hcount : rowsOfBatch [32, 32] batch = 32 := by
      have hlen : batch < 2 := hbatch
      interval_cases batch <;> rfl
    rw [hcount]
    exact Nat.add_le_add_left (by decide) _

/-- The kernel writes no row of the second batch. -/
theorem not_stringsEncoded_longStringTable : ¬StringsEncoded longStringTable := fun h =>
  absurd (h.oneBatch 1 (by decide) (by decide)) (by decide)

end Encoded

end SparkRapids.RowConversion
