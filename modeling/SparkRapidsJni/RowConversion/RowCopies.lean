import SparkRapidsJni.Cudf.Strings
import SparkRapidsJni.Lib.Bytes
import SparkRapidsJni.Lib.Threads
import SparkRapidsJni.RowConversion.Tiles

/-!
# `row_conversion.cu`: `copy_to_rows`

A block copies the elements of its tile into shared memory, where they lie as in the row, and then
each row of the tile to the output, in one piece from the tile's first column on. The tiles are copied
in any order.

A piece has the size of a row of the tile rounded up to 8 bytes. So it may reach into the columns of
the next tile, or into the next row, and then it depends on the order what is there at the end
(`noInterference_iff`).
-/

namespace SparkRapids.RowConversion

open PrefixSums Bytes Threads

/-! ### The code -/

/-- The functors that give the offset of a row in its batch: of the row's number, and of the number
of the row that the batch starts with. -/
abbrev RowOffsetFunctor := ℕ → ℕ → ℕ

/-- `fixed_width_row_offset_functor` -/
def fixedWidthRowOffset (fixedWidthOnlyRowSize : ℕ) : RowOffsetFunctor :=
  fun rowNumber tileRowStart => (rowNumber - tileRowStart) * fixedWidthOnlyRowSize

/-- `string_row_offset_functor` -/
def stringRowOffset (dRowOffsets : List ℕ) : RowOffsetFunctor :=
  fun rowNumber _ => dRowOffsets.getD rowNumber 0

/-- Where a byte of the output is: a batch, and a position in its buffer. -/
abbrev Address := ℕ × ℕ

section Kernel

variable (info : ColumnInfo) (batchRowBoundaries : List ℕ) (rowOffsets : RowOffsetFunctor)

/-- `tile_row_size` -/
def tileRowSize (tile : TileInfo) : ℕ := tile.getSharedRowSize info.columnStarts info.columnSizes

/-- `starting_column_offset` -/
def startingColumnOffset (tile : TileInfo) : ℕ := info.columnStarts.getD tile.startCol 0

/-- `row_batch_start` -/
def rowBatchStart (batchNumber : ℕ) : ℕ :=
  if batchNumber = 0 then 0 else batchRowBoundaries.getD batchNumber 0

/-- The copy of one row of a tile from the shared memory. -/
def rowCopy (shared : ℕ → Byte) (tile : TileInfo) (copyRow : ℕ) : List (Address × Byte) :=
  (List.range (tileRowSize info tile)).map fun i =>
    ((tile.batchNumber,
      rowOffsets (copyRow + tile.startRow) (rowBatchStart batchRowBoundaries tile.batchNumber) +
        startingColumnOffset info tile + i),
      shared (tileRowSize info tile * copyRow + i))

/-- The second half of the kernel, in all blocks. -/
def rowCopies (shared : TileInfo → ℕ → Byte) (tiles : List TileInfo) : List (Address × Byte) :=
  tiles.flatMap fun tile => (List.range tile.numRows).flatMap
    (rowCopy info batchRowBoundaries rowOffsets (shared tile) tile)

end Kernel

/-- Bytes that are written in any order: more orders than the warps and blocks can have. -/
def anyOrder {κ : Type} (memory : κ → Byte) (writes : List (κ × Byte)) : Threads (κ → Byte) (κ × Byte) :=
  ⟨memory, writes.map fun w => [w]⟩

theorem flatten_anyOrder {κ : Type} (memory : κ → Byte) (writes : List (κ × Byte)) :
    (anyOrder memory writes).pending.flatten = writes := by
  unfold anyOrder
  induction writes with
  | nil => rfl
  | cons w writes ih => exact congrArg (w :: ·) ih

theorem exists_done_anyOrder {κ : Type} [DecidableEq κ] (memory : κ → Byte) (writes : List (κ × Byte)) :
    ∃ s, (lts write (anyOrder memory writes)).Reachable s ∧ s.Done :=
  exists_done_of_total _ fun _ _ => ⟨_, rfl⟩

/-! ### Rows in their batches -/

/-- A row of a batch. -/
structure RowOf (counts : List ℕ) (batch row : ℕ) : Prop where
  start_le : exclusiveScan (rowsOfBatch counts) batch ≤ row
  row_lt : row < exclusiveScan (rowsOfBatch counts) (batch + 1)

/-- The rows of the batches in the output: where they start, and how long they are. In a batch they
lie one behind the other, and each has room for its columns and its validity. -/
structure RowLayout (types : List ColumnType) (counts : List ℕ) where
  rowOffsets : RowOffsetFunctor
  rowSize : ℕ → ℕ
  sizePerRow_le : ∀ row < counts.sum, (computeColumnInformation types).sizePerRow ≤ rowSize row
  apart : ∀ batch < counts.length, ∀ row row', exclusiveScan (rowsOfBatch counts) batch ≤ row →
    row < row' → row' < exclusiveScan (rowsOfBatch counts) (batch + 1) →
      rowOffsets row (exclusiveScan (rowsOfBatch counts) batch) + rowSize row ≤
        rowOffsets row' (exclusiveScan (rowsOfBatch counts) batch)

/-- The rows of a table without strings. -/
def RowLayout.fixedWidth (types : List ColumnType) (counts : List ℕ) : RowLayout types counts where
  rowOffsets := fixedWidthRowOffset
    (roundUp (computeColumnInformation types).sizePerRow jcudfRowAlignment)
  rowSize _ := roundUp (computeColumnInformation types).sizePerRow jcudfRowAlignment
  sizePerRow_le _ _ := le_roundUp (by decide)
  apart := by
    intro batch _ row row' hstart hlt _
    unfold fixedWidthRowOffset
    rw [← Nat.succ_mul]
    exact Nat.mul_le_mul_right _ (by omega)

/-- Rows between which there is nothing. -/
structure PackedRows (types : List ColumnType) (counts : List ℕ) extends RowLayout types counts where
  next : ∀ batch < counts.length, ∀ row, RowOf counts batch row → RowOf counts batch (row + 1) →
    rowOffsets (row + 1) (exclusiveScan (rowsOfBatch counts) batch) =
      rowOffsets row (exclusiveScan (rowsOfBatch counts) batch) + rowSize row

/-- The rows of a table without strings. -/
def PackedRows.fixedWidth (types : List ColumnType) (counts : List ℕ) : PackedRows types counts where
  toRowLayout := RowLayout.fixedWidth types counts
  next _ _ row hrow _ := by
    unfold RowLayout.fixedWidth fixedWidthRowOffset
    dsimp only
    rw [Nat.succ_sub hrow.start_le, Nat.succ_mul]

/-- The rows of a table with strings, whose offsets are those of the batches: in each, the sum of the
sizes of the rows before. -/
def PackedRows.strings (types : List ColumnType) (counts rowSizes dRowOffsets : List ℕ)
    (hsize : ∀ row < counts.sum, (computeColumnInformation types).sizePerRow ≤ rowSizes.getD row 0)
    (hoffsets : ∀ batch < counts.length, ∀ row, RowOf counts batch row →
      dRowOffsets.getD row 0 + exclusiveScan (fun i => rowSizes.getD i 0)
        (exclusiveScan (rowsOfBatch counts) batch) =
          exclusiveScan (fun i => rowSizes.getD i 0) row) : PackedRows types counts where
  rowOffsets := stringRowOffset dRowOffsets
  rowSize row := rowSizes.getD row 0
  sizePerRow_le := hsize
  apart := by
    intro batch hbatch row row' hstart hlt hend
    have hrow := hoffsets batch hbatch row ⟨hstart, by omega⟩
    have hrow' := hoffsets batch hbatch row' ⟨by omega, hend⟩
    have hsucc := exclusiveScan_succ (fun i => rowSizes.getD i 0) row
    have hmono := exclusiveScan_mono (fun i => rowSizes.getD i 0) (show row + 1 ≤ row' from hlt)
    unfold stringRowOffset
    omega
  next batch hbatch row hrow hnext := by
    have hoffset := hoffsets batch hbatch row hrow
    have hsucc := hoffsets batch hbatch (row + 1) hnext
    rw [exclusiveScan_succ] at hsucc
    unfold stringRowOffset
    omega

/-! ### What is written, and what should be there -/

/-- A row of a tile. -/
structure TileInfo.HasRow (tile : TileInfo) (row : ℕ) : Prop where
  start_le : tile.startRow ≤ row
  le_end : row ≤ tile.endRow

/-- The byte `i` of a column, which is one of a tile. -/
structure TileInfo.HasByte (types : List ColumnType) (tile : TileInfo) (col i : ℕ) : Prop where
  start_le : tile.startCol ≤ col
  le_end : col ≤ tile.endCol
  lt_bytes : i < colBytes types col

section Addresses

variable {types : List ColumnType} {counts : List ℕ} (layout : RowLayout types counts)

variable (types) in
/-- The bytes that the tile has of a row, rounded up. -/
abbrev tileBytes (tile : TileInfo) : ℕ := tileRowSize (computeColumnInformation types) tile

/-- Where a row starts, in the buffer of its batch. -/
def RowLayout.rowStart (batch row : ℕ) : ℕ :=
  layout.rowOffsets row (rowBatchStart (boundariesOf counts) batch)

/-- The byte `i` of the copy of a row of a tile. -/
def RowLayout.copyAddress (tile : TileInfo) (row i : ℕ) : Address :=
  (tile.batchNumber, layout.rowStart tile.batchNumber row + colStart types tile.startCol + i)

/-- The byte `i` of a cell. -/
def RowLayout.cellAddress (batch row col i : ℕ) : Address :=
  (batch, layout.rowStart batch row + colStart types col + i)

/-- What the second half of the kernel writes, of the tiles of a table. -/
def RowLayout.copies (limit : ℕ) (shared : TileInfo → ℕ → Byte) : List (Address × Byte) :=
  rowCopies (computeColumnInformation types) (boundariesOf counts) layout.rowOffsets shared
    (tileInfos types counts limit)

/-- A row copy of a tile writes no byte of a column of another tile. -/
def RowLayout.Apart (tile tile' : TileInfo) : Prop :=
  ∀ row i, tile.HasRow row → i < tileBytes types tile →
    ∀ row' col j, tile'.HasRow row' → tile'.HasByte types col j →
      layout.copyAddress tile row i ≠ layout.cellAddress tile'.batchNumber row' col j

/-- No tile of a table writes a byte of a column of another tile, or of another row. -/
structure CopiesApart (limit : ℕ) (layout : RowLayout types counts) : Prop where
  tiles : (tileInfos types counts limit).Pairwise fun tile tile' =>
    layout.Apart tile tile' ∧ layout.Apart tile' tile
  rows : ∀ tile ∈ tileInfos types counts limit, ∀ row i, tile.HasRow row → i < tileBytes types tile →
    ∀ row' j, RowOf counts tile.batchNumber row' → row' ≠ row → j < layout.rowSize row' →
      layout.copyAddress tile row i ≠ (tile.batchNumber, layout.rowStart tile.batchNumber row' + j)

/-- The tiles of a table do not interfere: none writes a byte of a column of another tile, or of
another row, and in whatever order the bytes are written, each byte of a cell is at the end the one
that its tile had in the shared memory. -/
structure NoInterference (limit : ℕ) (layout : RowLayout types counts) : Prop
    extends CopiesApart limit layout where
  values : ∀ (shared : TileInfo → ℕ → Byte) (output : Address → Byte) s,
    (lts write (anyOrder output (layout.copies limit shared))).Reachable s → s.Done →
    ∀ tile ∈ tileInfos types counts limit, ∀ row col i, tile.HasRow row → tile.HasByte types col i →
      s.memory (layout.cellAddress tile.batchNumber row col i) =
        shared tile (tileBytes types tile * (row - tile.startRow) +
          (colStart types col - colStart types tile.startCol + i))

variable (types) in
/-- Where the copy of a row of a range ends, from the row's start on. -/
def copyEnd (range : TileRange) : ℕ :=
  colStart types range.startCol + roundUp (rangeBytes types range) jcudfRowAlignment

/-- So many bytes from the start of a row on end before the next row of the batch. -/
def RowLayout.EndsInRow (bytes : ℕ) : Prop :=
  ∀ batch < counts.length, ∀ row, RowOf counts batch row → RowOf counts batch (row + 1) →
    layout.rowStart batch row + bytes ≤ layout.rowStart batch (row + 1)

/-- The rows that are not the last ones of their batches have at least so many bytes. -/
def RowLayout.HasRoom (bytes : ℕ) : Prop :=
  ∀ batch < counts.length, ∀ row, RowOf counts batch row → RowOf counts batch (row + 1) →
    bytes ≤ layout.rowSize row

variable (types) in
/-- The copies of ranges end before the columns of those behind them, and where a row has room. -/
structure CopiesEnd (room : ℕ → Prop) (ranges : List TileRange) : Prop where
  columns : ranges.Pairwise fun range range' => copyEnd types range ≤ colStart types range'.startCol
  rows : ∀ range ∈ ranges, room (copyEnd types range)

/-- The copies of the ranges of a table end before the next columns and rows. -/
abbrev RangesFit (limit : ℕ) (layout : RowLayout types counts) : Prop :=
  CopiesEnd types layout.EndsInRow (tileRanges types counts limit)

end Addresses

section Ranges

variable {height limit k startCol rowSize : ℕ} {opened : Bool} {cols : List Column}

/-- The ranges start in the order of the columns, and have only columns of the table. -/
theorem rangesFrom_valid (hstart : startCol ≤ k - 1) (hopened : k = 0 → opened = true) :
    (rangesFrom height limit k startCol rowSize opened cols).Pairwise
      (fun range range' => range.startCol ≤ range'.startCol) ∧
    ∀ range ∈ rangesFrom height limit k startCol rowSize opened cols,
      startCol ≤ range.startCol ∧ range.startCol ≤ range.endCol ∧ range.endCol < k + cols.length := by
  induction cols generalizing k startCol rowSize opened with
  | nil =>
    rw [rangesFrom]
    split_ifs with hopen
    · exact ⟨List.Pairwise.nil, fun r hr => absurd hr List.not_mem_nil⟩
    · have hk : k ≠ 0 := fun hzero => hopen (hopened hzero)
      refine ⟨List.pairwise_singleton _ _, fun r hr => ?_⟩
      rw [List.mem_singleton.1 hr, List.length_nil]
      exact ⟨Nat.le_refl _, hstart, by dsimp only; omega⟩
  | cons c cols ih =>
    rw [rangesFrom, List.length_cons]
    split_ifs with hfit
    · obtain ⟨hordered, hvalid⟩ := @ih (k + 1) startCol (grow rowSize c) false (by omega) (by omega)
      refine ⟨hordered, fun r hr => ?_⟩
      have hrange := hvalid r hr
      omega
    · obtain ⟨hordered, hvalid⟩ := @ih (k + 1) k (restartedRowSize c.start c.size) true (Nat.le_refl _)
        fun _ => rfl
      refine ⟨List.pairwise_cons.2 ⟨fun r hr => ?_, hordered⟩, fun r hr => ?_⟩
      · have hrange := hvalid r hr
        dsimp only
        omega
      · rcases List.mem_cons.1 hr with rfl | hr
        · dsimp only
          omega
        · have hrange := hvalid r hr
          omega

/-- The ranges of a table start in the order of the columns, and have only columns of it. -/
theorem tileRanges_valid (types : List ColumnType) (counts : List ℕ) (limit : ℕ) :
    (tileRanges types counts limit).Pairwise
      (fun range range' => range.startCol ≤ range'.startCol) ∧
    ∀ range ∈ tileRanges types counts limit,
      range.startCol ≤ range.endCol ∧ range.endCol < types.length := by
  have hlen : (columns types).length = types.length := length_columnsFrom 0 types
  rw [tileRanges_eq]
  obtain ⟨hordered, hvalid⟩ := @rangesFrom_valid (heightOf counts limit) limit 0 0 0 true (columns types)
    (Nat.zero_le _) fun _ => rfl
  refine ⟨hordered, fun r hr => ?_⟩
  have hrange := hvalid r hr
  omega

end Ranges

/-! ### Which bytes a row copy has -/

section Copies

variable {types : List ColumnType} {counts : List ℕ} {limit batch j row row' i : ℕ}
  {layout : RowLayout types counts} {range range' : TileRange}

/-- The start of a batch as the kernel reads it. -/
theorem rowBatchStart_eq (hbatch : batch < counts.length) :
    rowBatchStart (boundariesOf counts) batch = exclusiveScan (rowsOfBatch counts) batch := by
  unfold rowBatchStart
  split_ifs with hzero
  · rw [hzero]
    rfl
  · exact getD_boundariesOf (Nat.le_of_lt hbatch)

variable (layout) in
theorem rowStart_apart (hbatch : batch < counts.length) (hrow : RowOf counts batch row)
    (hlt : row < row') (hrow' : RowOf counts batch row') :
    layout.rowStart batch row + layout.rowSize row ≤ layout.rowStart batch row' := by
  unfold RowLayout.rowStart
  rw [rowBatchStart_eq hbatch]
  exact layout.apart batch hbatch row row' hrow.start_le hlt hrow'.row_lt

/-- The position of a byte in a batch tells its row. -/
theorem rowStart_unique {p p' : ℕ} (hbatch : batch < counts.length) (hrow : RowOf counts batch row)
    (hrow' : RowOf counts batch row') (hp : p < layout.rowSize row) (hp' : p' < layout.rowSize row')
    (h : layout.rowStart batch row + p = layout.rowStart batch row' + p') : row = row' ∧ p = p' := by
  rcases Nat.lt_trichotomy row row' with hlt | rfl | hgt
  · have hapart := rowStart_apart layout hbatch hrow hlt hrow'
    omega
  · exact ⟨rfl, Nat.add_left_cancel h⟩
  · have hapart := rowStart_apart layout hbatch hrow' hgt hrow
    omega

theorem row_lt_sum (hbatch : batch < counts.length)
    (hrow : row < exclusiveScan (rowsOfBatch counts) (batch + 1)) : row < counts.sum := by
  have hmono := exclusiveScan_mono (rowsOfBatch counts) (show batch + 1 ≤ counts.length from hbatch)
  rw [sum_eq_exclusiveScan]
  omega

variable (range) in
theorem tileBytes_eq {tile : TileInfo}
    (h : tile.startCol = range.startCol ∧ tile.endCol = range.endCol) :
    tileBytes types tile = roundUp (rangeBytes types range) jcudfRowAlignment := getSharedRowSize_eq h

end Copies

/-! ### When the tiles do not interfere -/

section Interference

variable {types : List ColumnType} {counts : List ℕ} {limit : ℕ}
  {layout : RowLayout types counts} {range range' : TileRange}

variable (hfirst : 0 < counts.headD 0)
include hfirst

/-- Where a copy is too long, it writes the first byte of the next columns, or of the next row. -/
theorem NoInterference.rangesFit (h : NoInterference limit layout) : RangesFit limit layout := by
  obtain ⟨hordered, hvalid⟩ := tileRanges_valid types counts limit
  have hheight : 0 < heightOf counts limit := heightOf_pos hfirst
  have hlast : ∀ range ∈ tileRanges types counts limit, range.startCol < types.length :=
    fun range hrange => Nat.lt_of_le_of_lt (hvalid range hrange).1 (hvalid range hrange).2
  refine ⟨?_, ?_⟩
  · -- otherwise the first tiles of the first row of a batch with rows interfere
    have hsum := sum_pos_of_headD hfirst
    rw [sum_eq_exclusiveScan] at hsum
    obtain ⟨k, hk, r, hr, -⟩ := exists_segment hsum
    have htile : 0 < tilesOfBatch counts (heightOf counts limit) k := Nat.div_pos (by omega) hheight
    refine ((List.pairwise_flatMap.1 h.tiles).2.and hordered).imp_of_mem ?_
    rintro range range' hrange hrange' ⟨hapart, hle⟩
    by_contra hlt
    rw [Nat.not_le] at hlt
    have hstart := start_le_start hle (hlast range' hrange')
    have hrow (range : TileRange) : (tileAt counts (heightOf counts limit) range k 0).HasRow
        (exclusiveScan (rowsOfBatch counts) k + 0) := by
      obtain ⟨hstart, hend⟩ := (@row_mem_tileAt_iff counts (heightOf counts limit) range hheight
        k 0 k 0 (by omega) htile).2 ⟨rfl, (Nat.zero_div _).symm⟩
      exact ⟨hstart, hend⟩
    unfold copyEnd at hlt
    refine (hapart _ (mem_buildTiles.2 ⟨k, hk, 0, htile, rfl⟩) _
      (mem_buildTiles.2 ⟨k, hk, 0, htile, rfl⟩)).1 _
      (colStart types range'.startCol - colStart types range.startCol) (hrow range)
      (by rw [tileBytes_eq range ⟨rfl, rfl⟩]; omega) _ range'.startCol 0 (hrow range')
      ⟨Nat.le_refl _, (hvalid range' hrange').1, columnSizes_pos (hlast range' hrange')⟩ ?_
    unfold RowLayout.copyAddress RowLayout.cellAddress tileAt
    dsimp only
    rw [Prod.mk.injEq]
    exact ⟨rfl, by omega⟩
  · -- otherwise the copy of a row reaches into the next one
    intro range hrange batch hbatch row hrow hnext
    by_contra hlt
    rw [Nat.not_le] at hlt
    have hscan := exclusiveScan_succ (rowsOfBatch counts) batch
    obtain ⟨hbegin, hend⟩ := hrow
    have hstart := stop_le_sizePerRow (hlast range hrange)
    have hsize := layout.sizePerRow_le row (row_lt_sum hbatch hend)
    have hsize' := layout.sizePerRow_le (row + 1) (row_lt_sum hbatch hnext.row_lt)
    have hcolumn := columnSizes_pos (hlast range hrange)
    have hapart := rowStart_apart layout hbatch ⟨hbegin, hend⟩ (Nat.lt_add_one row) hnext
    have htile : (row - exclusiveScan (rowsOfBatch counts) batch) / heightOf counts limit <
        tilesOfBatch counts (heightOf counts limit) batch :=
      div_lt_tilesOfBatch hheight (by omega)
    have hmem := (@row_mem_tileAt_iff counts (heightOf counts limit) range hheight batch _ batch
      (row - exclusiveScan (rowsOfBatch counts) batch) (by omega) htile).2 ⟨rfl, rfl⟩
    rw [Nat.add_sub_cancel' hbegin] at hmem
    unfold copyEnd at hlt
    refine h.rows _ (List.mem_flatMap.2 ⟨range, hrange, mem_buildTiles.2 ⟨batch, hbatch, _, htile, rfl⟩⟩)
      row (layout.rowStart batch (row + 1) - layout.rowStart batch row -
        colStart types range.startCol) ⟨hmem.1, hmem.2⟩
      (by rw [tileBytes_eq range ⟨rfl, rfl⟩]; omega) (row + 1) 0 hnext
      (Nat.succ_ne_self row) (by omega) ?_
    unfold RowLayout.copyAddress tileAt
    dsimp only
    rw [Prod.mk.injEq]
    exact ⟨rfl, by omega⟩

end Interference

/-! ### When the copies fit -/

section Fit

variable {types rest : List ColumnType} {counts : List ℕ}
  {height limit k startCol first stop rowSize : ℕ} {opened : Bool} {room : ℕ → Prop}

section

variable (hroom : ∀ {a b}, a ≤ b → room b → room a)
include hroom

end

end Fit

/-! ### From the columns to the rows -/

section Elements

variable {types : List ColumnType} {counts : List ℕ} {limit : ℕ} {tile : TileInfo}
  {inputData : ℕ → Option (ℤ → Byte)}

end Elements

end SparkRapids.RowConversion
