import SparkRapidsJni.RowConversion.ValidityCopies

/-!
# `row_conversion.cu`: the null masks of a table

A table has the tiles of `build_validity_tile_infos`, and both kernels run on them. Each cell is in one
tile, the tiles fit into the shared memory, and at the end each row has the validity of its cells, or each
null mask that of its rows: `ValidityTable.Exact`.

That holds exactly where the `int`s of `build_validity_tile_infos` do not overflow (`exact_iff_fitsInts`). With
648 columns and `2 ^ 30` rows, the number of tiles to reserve memory for is computed from
`3 * 2 ^ 30`, which is none (`not_exact_wideTable`).
-/

namespace SparkRapids.RowConversion

open PrefixSums Bytes

/-- A table that is copied: its columns, the batches of its rows, and where the rows are in them. -/
structure ValidityTable where
  types : List ColumnType
  rowCounts : List ℕ
  shmemLimitPerTile : ℕ
  layout : RowLayout types rowCounts
  columns_pos : 0 < types.length
  columns_lt : types.length < 2 ^ 31
  batches : AlignedBatches rowCounts
  rows_lt : rowCounts.sum < 2 ^ 31
  shmem_ge : minimalShmem ≤ shmemLimitPerTile
  shmem_lt : shmemLimitPerTile < 2 ^ 31
  fits : ∀ batch < rowCounts.length, ∀ row, exclusiveScan (rowsOfBatch rowCounts) batch ≤ row →
    row < exclusiveScan (rowsOfBatch rowCounts) (batch + 1) →
      layout.rowStart batch row + layout.rowSize row ≤ maxBatchSize

namespace ValidityTable

variable (table : ValidityTable)

/-- A row is in a batch. -/
structure InBatch (batch row : ℕ) : Prop where
  batch_lt : batch < table.rowCounts.length
  start_le : exclusiveScan (rowsOfBatch table.rowCounts) batch ≤ row
  row_lt : row < exclusiveScan (rowsOfBatch table.rowCounts) (batch + 1)

/-- `validity_offset`: `column_info.column_starts.back()` -/
def validityOffset : ℕ := (computeColumnInformation table.types).columnStarts.getLastD 0

/-- Where a row has the validity of eight columns. -/
def validityAddress (batch row b : ℕ) : Address :=
  (batch, table.layout.rowStart batch row + table.validityOffset + b)

/-- The run of `build_validity_tile_infos` for the table. -/
def tileInfos (turns : ℕ) : Option (List TileInfo) :=
  buildValidityTileInfos table.types.length table.rowCounts.sum table.shmemLimitPerTile
    table.rowCounts turns

/-- The kernel that copies the null masks to the rows. -/
def toRows (inputNm : ℕ → Option (List (BitVec 32))) : TileKernel :=
  copyValidityToRows table.rowCounts.sum table.types.length table.layout.rowOffsets
    (boundariesOf table.rowCounts) table.validityOffset inputNm

/-- The kernel that copies them from rows. Its number of columns counts the ones that hold the strings. -/
def fromRows (numColumns validityOffset : ℕ) (inputData : List Byte) : TileKernel :=
  copyValidityFromRows table.rowCounts.sum numColumns table.layout.rowOffsets
    (boundariesOf table.rowCounts) validityOffset inputData

/-! ### What the tiles and the kernels should do -/

/-- Each cell is in one tile. The tiles start at multiples of 8 columns and 32 rows, and stay inside the
table and one of its batches. -/
structure Partition (tiles : List TileInfo) : Prop where
  cells : ∀ row < table.rowCounts.sum, ∀ col < table.types.length,
    tiles.countP (TileInfo.hasCell row col) = 1
  cols : ∀ tile ∈ tiles, 8 ∣ tile.startCol ∧ tile.startCol ≤ tile.endCol ∧
    tile.endCol < table.types.length
  rows : ∀ tile ∈ tiles, 32 ∣ tile.startRow ∧ tile.startRow ≤ tile.endRow ∧
    table.InBatch tile.batchNumber tile.startRow ∧ table.InBatch tile.batchNumber tile.endRow

/-- Each row has the validity of its cells, and nothing else is written. -/
structure ToRowsExact (tiles : List TileInfo) (inputNm : ℕ → Option (List (BitVec 32))) : Prop where
  within : (table.toRows inputNm).Within tiles table.shmemLimitPerTile
  valid : ∀ output result, (table.toRows inputNm).Outcome tiles output result →
    ∀ batch row, table.InBatch batch row → ∀ col < table.types.length,
      (result (table.validityAddress batch row (col / 8))).getLsbD (col % 8) = isValid inputNm row col
  frame : ∀ output result, (table.toRows inputNm).Outcome tiles output result →
    ∀ a, (∀ batch row, table.InBatch batch row → ∀ b < divRoundingUp table.types.length 8,
      a ≠ table.validityAddress batch row b) → result a = output a

/-- Each null mask has the validity of its column's rows, and nothing but the words of the masks is
written. -/
structure FromRowsExact (tiles : List TileInfo) (numColumns validityOffset : ℕ) (inputData : List Byte) :
    Prop where
  within : (table.fromRows numColumns validityOffset inputData).Within tiles table.shmemLimitPerTile
  valid : ∀ output result,
    (table.fromRows numColumns validityOffset inputData).Outcome tiles output result →
    ∀ batch row, table.InBatch batch row → ∀ col < table.types.length,
      (result (col, row / 8)).getLsbD (row % 8) =
        rowIsValid table.layout.rowOffsets validityOffset inputData
          (rowBatchStart (boundariesOf table.rowCounts) batch) row col
  frame : ∀ output result,
    (table.fromRows numColumns validityOffset inputData).Outcome tiles output result →
    ∀ a : Address, ¬(a.1 < table.types.length ∧ a.2 < 4 * divRoundingUp table.rowCounts.sum 32) →
      result a = output a

/-- The tiles are made, and with them both kernels do what they should. -/
def Exact : Prop :=
  ∃ tiles, (∃ turns, ∀ n, turns ≤ n → table.tileInfos n = some tiles) ∧ table.Partition tiles ∧
    (∀ inputNm, table.ToRowsExact tiles inputNm) ∧
    ∀ numColumns, table.types.length ≤ numColumns → ∀ validityOffset inputData,
      table.FromRowsExact tiles numColumns validityOffset inputData

/-! ### Rows and their validity -/

section Rows

variable {table : ValidityTable} {batch batch' row row' b b' : ℕ} {tile : TileInfo}

/-- A row is in one batch. -/
theorem InBatch.unique (h : table.InBatch batch row) (h' : table.InBatch batch' row) :
    batch = batch' := by
  have hscan := exclusiveScan_succ (rowsOfBatch table.rowCounts) batch
  have hscan' := exclusiveScan_succ (rowsOfBatch table.rowCounts) batch'
  have hlt := h.row_lt
  have hlt' := h'.row_lt
  have hle := h.start_le
  have hle' := h'.start_le
  refine (@segment_unique (rowsOfBatch table.rowCounts)
    (row - exclusiveScan (rowsOfBatch table.rowCounts) batch) batch batch'
    (row - exclusiveScan (rowsOfBatch table.rowCounts) batch') (by omega) (by omega) (by omega)).1

theorem InBatch.row_lt_sum (h : table.InBatch batch row) : row < table.rowCounts.sum :=
  RowConversion.row_lt_sum h.batch_lt h.row_lt

/-- The rows of a tile are in its batch. -/
theorem inBatch_of_tile
    (h : ValidityTile table.types.length table.shmemLimitPerTile table.rowCounts tile)
    (hrow : tile.startRow ≤ row) (hrow' : row ≤ tile.endRow) : table.InBatch tile.batchNumber row :=
  ⟨h.batch_lt, Nat.le_trans h.start_le hrow, Nat.lt_of_le_of_lt hrow' h.endRow_lt⟩

theorem rows_of_hasCell {col : ℕ} (h : tile.hasCell row col = true) :
    tile.startRow ≤ row ∧ row ≤ tile.endRow := by
  unfold TileInfo.hasCell at h
  simp only [Bool.and_eq_true, decide_eq_true_eq] at h
  exact ⟨h.1.2, h.2⟩

theorem validityOffset_add (table : ValidityTable) :
    table.validityOffset + divRoundingUp table.types.length 8 =
      (computeColumnInformation table.types).sizePerRow := by
  unfold validityOffset
  rw [columnStarts_eq, List.getLastD_concat, sizePerRow_eq]

/-- The validity of a row is inside the row, so another row has none of it. -/
theorem validityAddress_unique (h : table.InBatch batch row) (h' : table.InBatch batch' row')
    (hb : b < divRoundingUp table.types.length 8) (hb' : b' < divRoundingUp table.types.length 8)
    (heq : table.validityAddress batch row b = table.validityAddress batch' row' b') :
    row = row' ∧ b = b' := by
  obtain ⟨rfl, hposition⟩ := Prod.mk.inj heq
  have hsize := validityOffset_add table
  have hrow := table.layout.sizePerRow_le row h.row_lt_sum
  have hrow' := table.layout.sizePerRow_le row' h'.row_lt_sum
  rw [Nat.add_assoc, Nat.add_assoc] at hposition
  obtain ⟨rfl, hoffset⟩ := rowStart_unique h.batch_lt ⟨h.start_le, h.row_lt⟩ ⟨h'.start_le, h'.row_lt⟩
    (by omega) (by omega) hposition
  exact ⟨rfl, Nat.add_left_cancel hoffset⟩

end Rows

/-! ### The tiles of a table -/

section Tiles

/-- The tiles that the function makes, if it makes them. -/
def tiles : List TileInfo :=
  validityTiles table.types.length table.shmemLimitPerTile table.rowCounts

theorem validityTile_of_mem {tile : TileInfo} (h : tile ∈ table.tiles) :
    ValidityTile table.types.length table.shmemLimitPerTile table.rowCounts tile :=
  mem_validityTiles h table.columns_pos table.batches table.shmem_ge

theorem exists_tile {row col : ℕ} (hrow : row < table.rowCounts.sum) (hcol : col < table.types.length) :
    ∃ tile ∈ table.tiles, tile.hasCell row col = true := by
  refine List.countP_pos_iff.1 ?_
  unfold tiles
  rw [countP_validityTiles table.columns_pos table.batches table.shmem_ge hrow hcol]
  exact Nat.one_pos

theorem partition_tiles : table.Partition table.tiles := by
  refine ⟨fun row hrow col hcol => ?_, fun tile htile => ?_, fun tile htile => ?_⟩
  · exact countP_validityTiles table.columns_pos table.batches table.shmem_ge hrow hcol
  · have h := table.validityTile_of_mem htile
    exact ⟨h.startCol_dvd, h.cols, h.endCol_lt⟩
  · have h := table.validityTile_of_mem htile
    exact ⟨h.startRow_dvd, h.rows, inBatch_of_tile h (Nat.le_refl _) h.rows,
      inBatch_of_tile h h.rows (Nat.le_refl _)⟩

end Tiles

/-! ### To the rows -/

section ToRows

variable {table} {output result : Address → Byte} {batch row b : ℕ}
  {inputNm : ℕ → Option (List (BitVec 32))}

/-- At the end, the validity of a row is where it belongs. -/
theorem toRows_byte (hrun : (table.toRows inputNm).Outcome table.tiles output result)
    (hrow : table.InBatch batch row) (hb : b < divRoundingUp table.types.length 8) :
    result (table.validityAddress batch row b) =
      validityByte table.types.length inputNm row b := by
  have hcol : 8 * b < table.types.length := by
    unfold divRoundingUp at hb
    omega
  obtain ⟨tile, htile, hcell⟩ := table.exists_tile hrow.row_lt_sum hcol
  have hvalid := table.validityTile_of_mem htile
  obtain rfl := (inBatch_of_tile hvalid (rows_of_hasCell hcell).1 (rows_of_hasCell hcell).2).unique hrow
  have hexists : ∃ copy ∈ (table.toRows inputNm).copies tile, ∃ i < copy.bytes,
      copy.buffer = tile.batchNumber ∧
        copy.dst + i = table.layout.rowStart tile.batchNumber row + table.validityOffset + b :=
    exists_toRows_copy hvalid.startCol_dvd hcell
  obtain ⟨copy, hcopy, i, hi, hbuffer, hdst⟩ := hexists
  have haddress : (copy.buffer, copy.dst + i) = table.validityAddress tile.batchNumber row b :=
    Prod.ext hbuffer hdst
  -- every copy that writes there copies this byte
  have hvalue : ∀ tile' ∈ table.tiles, ∀ copy' ∈ (table.toRows inputNm).copies tile', ∀ i' < copy'.bytes,
      (copy'.buffer, copy'.dst + i') = (copy.buffer, copy.dst + i) →
        rowsValue table.types.length inputNm tile' (copy'.src + i') =
          validityByte table.types.length inputNm row b := by
    intro tile' htile' copy' hcopy' i' hi' heq
    have hvalid' := table.validityTile_of_mem htile'
    obtain ⟨row', hrow', hend', hbuffer', hbytes⟩ := toRows_copy hvalid' hcopy'
    obtain ⟨hlt, hdst', hvalue⟩ := hbytes i' hi'
    have haddress' : (copy'.buffer, copy'.dst + i') =
        table.validityAddress tile'.batchNumber row' (tile'.startCol / 8 + i') :=
      Prod.ext hbuffer' hdst'
    rw [haddress', haddress] at heq
    obtain ⟨rfl, rfl⟩ := validityAddress_unique (inBatch_of_tile hvalid' hrow' hend') hrow hlt hb heq
    exact hvalue
  have hdetermined := @determined_toRows table.types.length table.shmemLimitPerTile table.rowCounts
    inputNm table.layout.rowOffsets (boundariesOf table.rowCounts) table.validityOffset table.tiles
    fun tile htile => table.validityTile_of_mem htile
  rw [← haddress, hdetermined.memory_eq hrun htile hcopy hi fun tile' htile' copy' hcopy' i' hi' heq =>
    (hvalue tile' htile' copy' hcopy' i' hi' heq).trans (hvalue tile htile copy hcopy i hi rfl).symm]
  exact hvalue tile htile copy hcopy i hi rfl

theorem toRowsExact_tiles (table : ValidityTable) (inputNm : ℕ → Option (List (BitVec 32))) :
    table.ToRowsExact table.tiles inputNm := by
  refine ⟨within_toRows fun tile htile => table.validityTile_of_mem htile, ?_, ?_⟩
  · intro output result hrun batch row hrow col hcol
    have hbyte : col / 8 < divRoundingUp table.types.length 8 := by
      unfold divRoundingUp
      omega
    rw [toRows_byte hrun hrow hbyte, getLsbD_validityByte (Nat.mod_lt _ (by decide)), Nat.div_add_mod,
      decide_eq_true hcol, Bool.true_and]
  · intro output result hrun a ha
    refine memory_of_no_copy hrun fun tile htile copy hcopy i hi heq => ?_
    have hvalid := table.validityTile_of_mem htile
    obtain ⟨row, hrow, hend, hbuffer, hbytes⟩ := toRows_copy hvalid hcopy
    obtain ⟨hlt, hdst, -⟩ := hbytes i hi
    exact ha tile.batchNumber row (inBatch_of_tile hvalid hrow hend) _ hlt
      (heq.trans (Prod.ext hbuffer hdst))

end ToRows

/-! ### And from the rows -/

section FromRows

variable {table} {output result : Address → Byte} {batch row col numColumns validityOffset : ℕ}
  {inputData : List Byte}

/-- At the end, the validity of a column is in its null mask. -/
theorem fromRows_byte (hcolumns : table.types.length ≤ numColumns)
    (hrun : (table.fromRows numColumns validityOffset inputData).Outcome table.tiles output result)
    (hrow : table.InBatch batch row) (hcol : col < table.types.length) :
    result (col, row / 8) = maskByte table.rowCounts.sum table.layout.rowOffsets validityOffset inputData
      (rowBatchStart (boundariesOf table.rowCounts) batch) col (row / 8) := by
  have hrowLt := hrow.row_lt_sum
  obtain ⟨tile, htile, hcell⟩ := table.exists_tile hrowLt hcol
  have hvalid := table.validityTile_of_mem htile
  have hrows := rows_of_hasCell hcell
  obtain rfl := (inBatch_of_tile hvalid hrows.1 hrows.2).unique hrow
  have hexists : ∃ copy ∈ (table.fromRows numColumns validityOffset inputData).copies tile,
      ∃ i < copy.bytes, copy.buffer = col ∧ copy.dst + i = row / 8 :=
    exists_fromRows_copy hvalid.startRow_dvd hcell
  obtain ⟨copy, hcopy, i, hi, rfl, hdst⟩ := hexists
  have hstartDvd := hvalid.startRow_dvd
  have hfirst := inBatch_of_tile hvalid (show tile.startRow ≤ 8 * (row / 8) by omega) (by omega)
  -- every copy that writes there copies this byte: the first of its rows is in the same batch
  have hvalue : ∀ tile' ∈ table.tiles,
      ∀ copy' ∈ (table.fromRows numColumns validityOffset inputData).copies tile', ∀ i' < copy'.bytes,
      (copy'.buffer, copy'.dst + i') = (copy.buffer, copy.dst + i) →
        columnsValue table.rowCounts.sum table.layout.rowOffsets (boundariesOf table.rowCounts)
          validityOffset inputData tile' (copy'.src + i') =
        maskByte table.rowCounts.sum table.layout.rowOffsets validityOffset inputData
          (rowBatchStart (boundariesOf table.rowCounts) tile.batchNumber) copy.buffer (row / 8) := by
    intro tile' htile' copy' hcopy' i' hi' heq
    obtain ⟨hbuffer, hposition⟩ := Prod.mk.inj heq
    have hvalid' := table.validityTile_of_mem htile'
    have hstartDvd' := hvalid'.startRow_dvd
    obtain ⟨-, -, hbytes⟩ := fromRows_copy hvalid' hcopy'
    obtain ⟨hdst', -, hend', hvalue⟩ := hbytes i' hi'
    rw [hposition, hdst] at hend' hvalue
    have hfirst' := inBatch_of_tile hvalid' (show tile'.startRow ≤ 8 * (row / 8) by omega)
      (hend' (by omega))
    rw [hvalue, hbuffer, hfirst'.unique hfirst]
  have hdetermined := @determined_fromRows table.types.length numColumns table.shmemLimitPerTile
    table.rowCounts table.layout.rowOffsets (boundariesOf table.rowCounts) validityOffset inputData
    table.tiles (fun tile htile => table.validityTile_of_mem htile) hcolumns
  rw [← hdst, hdetermined.memory_eq hrun htile hcopy hi fun tile' htile' copy' hcopy' i' hi' heq =>
    (hvalue tile' htile' copy' hcopy' i' hi' heq).trans (hvalue tile htile copy hcopy i hi rfl).symm,
    hdst]
  exact hvalue tile htile copy hcopy i hi rfl

theorem fromRowsExact_tiles (table : ValidityTable) (hcolumns : table.types.length ≤ numColumns)
    (validityOffset : ℕ) (inputData : List Byte) :
    table.FromRowsExact table.tiles numColumns validityOffset inputData := by
  refine ⟨within_fromRows fun tile htile => table.validityTile_of_mem htile, ?_, ?_⟩
  · intro output result hrun batch row hrow col hcol
    rw [fromRows_byte hcolumns hrun hrow hcol, getLsbD_maskByte (Nat.mod_lt _ (by decide)),
      Nat.div_add_mod, decide_eq_true hrow.row_lt_sum, Bool.true_and]
  · intro output result hrun a ha
    refine memory_of_no_copy hrun fun tile htile copy hcopy i hi heq => ha ?_
    have hvalid := table.validityTile_of_mem htile
    obtain ⟨-, hbuffer, hbytes⟩ := fromRows_copy hvalid hcopy
    rw [heq]
    exact ⟨Nat.lt_of_le_of_lt hbuffer hvalid.endCol_lt, (hbytes i hi).2.1⟩

end FromRows

/-! ### When the tiles are made -/

variable {table}

/-- Where the tiles are made, the `int`s did not overflow. -/
theorem Exact.fitsInts (h : table.Exact) :
    FitsInts table.types.length table.rowCounts.sum table.shmemLimitPerTile := by
  obtain ⟨tiles, ⟨turns, hturns⟩, -⟩ := h
  exact (hasInts_iff table.columns_pos table.rows_lt table.shmem_lt).1 (buildValidityTileInfos_ints
    (columnStride_pos table.columns_pos table.shmem_ge) (hturns turns (Nat.le_refl _)))

/-- The null masks of a table are cut and copied as they should exactly where the `int`s of
`build_validity_tile_infos` do not overflow. -/
theorem exact_iff_fitsInts (table : ValidityTable) :
    table.Exact ↔ FitsInts table.types.length table.rowCounts.sum table.shmemLimitPerTile := by
  refine ⟨Exact.fitsInts, fun hfits => ⟨table.tiles, ?_, table.partition_tiles,
    table.toRowsExact_tiles, fun _ hcolumns => table.fromRowsExact_tiles hcolumns⟩⟩
  exact buildValidityTileInfos_eq (columnStride_pos table.columns_pos table.shmem_ge)
    (rowStride_pos table.columns_pos table.batches.sum_pos table.shmem_ge) table.batches.batches_ne
    (fun _ => table.batches.rowsOfBatch_pos)
    ((hasInts_iff table.columns_pos table.rows_lt table.shmem_lt).2 hfits)

end ValidityTable

/-! ### A wide table -/

/-- The rows of 648 columns of one byte have 736 bytes. These are the batches of `2 ^ 30` of them. -/
def wideRowCounts : List ℕ := List.replicate 368 2917760 ++ [6144]

theorem wideRowCounts_le {k : ℕ} : rowsOfBatch wideRowCounts k ≤ 2917760 := by
  unfold rowsOfBatch
  rcases Nat.lt_or_ge k wideRowCounts.length with hlt | hge
  · rw [List.getD_eq_getElem _ _ hlt]
    rcases List.mem_append.1 (List.getElem_mem hlt) with hmem | hmem
    · exact Nat.le_of_eq (List.eq_of_mem_replicate hmem)
    · rw [List.mem_singleton.1 hmem]
      decide
  · rw [List.getD_eq_default _ _ hge]
    exact Nat.zero_le _

theorem sum_wideRowCounts : wideRowCounts.sum = 2 ^ 30 := by
  unfold wideRowCounts
  rw [List.sum_append, List.sum_replicate]
  norm_num

/-- The rows of a batch without strings take as many bytes as there are rows of one size. -/
theorem fixedWidth_end_le (types : List ColumnType) (rowCounts : List ℕ) {batch row : ℕ}
    (hbatch : batch < rowCounts.length) (hend : row < exclusiveScan (rowsOfBatch rowCounts) (batch + 1))
    (hrow : exclusiveScan (rowsOfBatch rowCounts) batch ≤ row) :
    (RowLayout.fixedWidth types rowCounts).rowStart batch row +
        (RowLayout.fixedWidth types rowCounts).rowSize row ≤
      rowsOfBatch rowCounts batch *
        roundUp (computeColumnInformation types).sizePerRow jcudfRowAlignment := by
  rw [exclusiveScan_succ] at hend
  unfold RowLayout.rowStart RowLayout.fixedWidth fixedWidthRowOffset
  dsimp only
  rw [rowBatchStart_eq hbatch, ← Nat.succ_mul]
  exact Nat.mul_le_mul_right _ (by omega)

/-- A table of 648 columns of one byte and `2 ^ 30` rows, with 48 KB of shared memory. -/
def wideTable : ValidityTable where
  types := List.replicate 648 (.fixedWidth 1)
  rowCounts := wideRowCounts
  shmemLimitPerTile := minimalShmem
  layout := RowLayout.fixedWidth _ _
  columns_pos := by rw [List.length_replicate]; decide
  columns_lt := by rw [List.length_replicate]; decide
  batches := by
    refine ⟨List.append_ne_nil_of_right_ne_nil _ (List.cons_ne_nil _ _), fun rowCount hmem => ?_,
      fun k hk => ?_⟩
    · rcases List.mem_append.1 hmem with hmem | hmem
      · rw [List.eq_of_mem_replicate hmem]
        decide
      · rw [List.mem_singleton.1 hmem]
        decide
    · have hlength : wideRowCounts.length = 369 := by
        unfold wideRowCounts
        rw [List.length_append, List.length_replicate, List.length_singleton]
      have htake : wideRowCounts.take k = List.replicate k 2917760 := by
        unfold wideRowCounts
        rw [List.take_append_of_le_length (by rw [List.length_replicate]; omega),
          List.take_replicate, Nat.min_eq_left (by omega)]
      rw [htake, List.sum_replicate, smul_eq_mul]
      exact Dvd.dvd.mul_left (by decide) k
  rows_lt := by
    rw [sum_wideRowCounts]
    decide
  shmem_ge := Nat.le_refl _
  shmem_lt := by decide
  fits := by
    intro batch hbatch row hrow hend
    have hsize : roundUp (computeColumnInformation (List.replicate 648 (.fixedWidth 1))).sizePerRow
        jcudfRowAlignment = 736 := by decide +kernel
    have hbytes := fixedWidth_end_le (List.replicate 648 (.fixedWidth 1)) wideRowCounts hbatch hend hrow
    have hrows := Nat.mul_le_mul_right 736 (@wideRowCounts_le batch)
    rw [hsize] at hbytes
    exact Nat.le_trans hbytes (Nat.le_trans hrows (by decide))

/-- The number of its tiles is computed from `648 / 216 * 2 ^ 30`, which is no `int`. -/
theorem not_exact_wideTable : ¬wideTable.Exact := by
  intro h
  have hroot : Nat.sqrt wideTable.shmemLimitPerTile = 221 :=
    (Nat.eq_sqrt.2 ⟨by decide, by decide⟩).symm
  have hcolumns : wideTable.types.length = 648 := List.length_replicate
  have hrows : wideTable.rowCounts.sum = 2 ^ 30 := sum_wideRowCounts
  have hfits := h.fitsInts
  unfold FitsInts at hfits
  rw [hroot, hcolumns, hrows] at hfits
  exact absurd hfits (by decide)

end SparkRapids.RowConversion
