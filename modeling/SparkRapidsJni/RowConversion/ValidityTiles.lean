import SparkRapidsJni.RowConversion.Batches
import SparkRapidsJni.RowConversion.RowCopies

/-!
# `row_conversion.cu`: tiles of the null masks

The null masks are copied in tiles as well. `build_validity_tile_infos` cuts the columns into strides of
a multiple of 8, about the square root of the shared memory, and the rows of every batch into strides of
a multiple of 64, as many as fit. Its two loops make the tiles that `build_tiles` makes of the column
ranges (`buildValidityTileInfos_eq`), so that what is known of these holds for them.

Before the loops, memory is reserved for the tiles, and the number of them is computed with `int`s: the
number of strides times the number of rows. That product overflows for large tables
(`buildValidityTileInfos_ints`).
-/

namespace SparkRapids.RowConversion

open PrefixSums

/-! ### The code -/

/-- An `int`: there is none where its computation overflows. -/
def checkedInt (n : ℕ) : Option ℕ := if n < 2 ^ 31 then some n else none

/-- `column_stride` -/
def columnStride (numColumns shmemLimitPerTile : ℕ) : ℕ :=
  let desiredRowsAndColumns := Nat.sqrt shmemLimitPerTile
  roundUp
    -- not many columns: a single tile for the width of the table
    (if numColumns < desiredRowsAndColumns then numColumns else roundDown desiredRowsAndColumns 8)
    jcudfRowAlignment

/-- `bytes_per_row` -/
def bytesPerRow (columnStride : ℕ) : ℕ := roundUp (divRoundingUp columnStride 8) jcudfRowAlignment

/-- `row_stride` -/
def rowStride (numRows columnStride shmemLimitPerTile : ℕ) : ℕ :=
  min numRows (roundDown (shmemLimitPerTile / bytesPerRow columnStride) 64)

/-- The locals of the inner loop in `build_validity_tile_infos`. -/
structure RowTilesState where
  currentTileRowBatch : ℕ
  rowsLeftInBatch : ℕ
  row : ℕ
  validityTileInfos : List TileInfo

/-- The locals of the outer loop. -/
structure ColTilesState where
  col : ℕ
  validityTileInfos : List TileInfo

section Code

variable (numColumns numRows shmemLimitPerTile : ℕ) (rowCounts : List ℕ)

/-- The next batch, if no rows are left in this one; `none` if there is no next batch. -/
def enterBatch (st : RowTilesState) : Option RowTilesState :=
  if st.rowsLeftInBatch = 0 then
    (rowCounts[st.currentTileRowBatch + 1]?).map fun rowCount =>
      { st with
        currentTileRowBatch := st.currentTileRowBatch + 1
        rowsLeftInBatch := rowCount }
  else some st

/-- A tile is appended. -/
def appendTile (columnStride rowStride col : ℕ) (st : RowTilesState) : Option RowTilesState :=
  let tileHeight := min rowStride st.rowsLeftInBatch
  (checkedInt (col + columnStride)).map fun colEnd =>
    { currentTileRowBatch := st.currentTileRowBatch
      rowsLeftInBatch := st.rowsLeftInBatch - tileHeight
      row := st.row + tileHeight
      validityTileInfos := st.validityTileInfos ++
        [⟨col, st.row, min (colEnd - 1) (numColumns - 1), st.row + tileHeight - 1,
          st.currentTileRowBatch⟩] }

/-- One turn of the inner loop. -/
def marchRows (columnStride rowStride col : ℕ) (st : RowTilesState) : Option RowTilesState :=
  (enterBatch rowCounts st).bind (appendTile numColumns columnStride rowStride col)

/-- One turn of the outer loop, when the inner one may take so many turns. -/
def marchColumns (columnStride rowStride turns : ℕ) (st : ColTilesState) : Option ColTilesState :=
  (rowCounts[0]?).bind fun rowCount =>
    (whileLoop (fun st => decide (numRows ≤ st.row))
      (marchRows numColumns rowCounts columnStride rowStride st.col) turns
      ⟨0, rowCount, 0, st.validityTileInfos⟩).bind fun rows =>
        (checkedInt (st.col + columnStride)).map fun col => ⟨col, rows.validityTileInfos⟩

/-- `build_validity_tile_infos`, when its loops may take so many turns. The memory that is reserved makes
no difference but that its size is computed. -/
def buildValidityTileInfos (turns : ℕ) : Option (List TileInfo) :=
  let columnStride := columnStride numColumns shmemLimitPerTile
  let rowStride := rowStride numRows columnStride shmemLimitPerTile
  (checkedInt (numColumns / columnStride * numRows)).bind fun _ =>
    (whileLoop (fun st => decide (numColumns ≤ st.col))
      (marchColumns numColumns numRows rowCounts columnStride rowStride turns) turns ⟨0, []⟩).map
        ColTilesState.validityTileInfos

end Code

theorem checkedInt_of_lt {n : ℕ} (h : n < 2 ^ 31) : checkedInt n = some n := if_pos h

theorem lt_of_checkedInt {n m : ℕ} (h : checkedInt n = some m) : n = m ∧ n < 2 ^ 31 := by
  unfold checkedInt at h
  split_ifs at h with hlt
  exact ⟨Option.some.inj h, hlt⟩

/-! ### The loop through the rows -/

section Rows

variable {numCols columnStride rowStride col k j : ℕ} {counts : List ℕ} {tiles : List TileInfo}

/-- The columns of a stride. -/
def strideRange (numCols columnStride col : ℕ) : TileRange :=
  ⟨col, min (col + columnStride - 1) (numCols - 1)⟩

/-- The tiles of a batch. -/
def batchTiles (counts : List ℕ) (height : ℕ) (range : TileRange) (k : ℕ) : List TileInfo :=
  (List.range (tilesOfBatch counts height k)).map (tileAt counts height range k)

/-- `build_tiles` goes from batch to batch. -/
theorem buildTiles_eq_flatMap (counts : List ℕ) (height : ℕ) (range : TileRange) :
    buildTiles (boundariesOf counts) height counts.sum range =
      (List.range counts.length).flatMap (batchTiles counts height range) := by
  rw [buildTiles_eq]
  unfold tileStart
  rw [range_exclusiveScan, List.map_flatMap]
  refine List.flatMap_congr fun k hk => ?_
  unfold batchTiles
  rw [List.map_map]
  refine List.map_congr_left fun j hj => ?_
  exact nthTile_eq (List.mem_range.1 hk) (List.mem_range.1 hj)

/-- The locals when a batch has `j` tiles. -/
def batchState (counts : List ℕ) (rowStride k j : ℕ) (tiles : List TileInfo) : RowTilesState where
  currentTileRowBatch := k
  rowsLeftInBatch := rowsOfBatch counts k - j * rowStride
  row := exclusiveScan (rowsOfBatch counts) k + min (j * rowStride) (rowsOfBatch counts k)
  validityTileInfos := tiles

/-- In a batch with rows left, a turn appends its next tile. -/
theorem marchRows_inside (hstride : 0 < rowStride) (hcol : col + columnStride < 2 ^ 31)
    (hj : j < tilesOfBatch counts rowStride k) :
    marchRows numCols counts columnStride rowStride col (batchState counts rowStride k j tiles) =
      some (batchState counts rowStride k (j + 1)
        (tiles ++ [tileAt counts rowStride (strideRange numCols columnStride col) k j])) := by
  have hinside := mul_lt_rowsOfBatch hstride hj
  have hnext : (j + 1) * rowStride = j * rowStride + rowStride := Nat.succ_mul j rowStride
  have hscan := exclusiveScan_succ (rowsOfBatch counts) k
  have henter : enterBatch counts (batchState counts rowStride k j tiles) =
      some (batchState counts rowStride k j tiles) := by
    refine if_neg ?_
    unfold batchState
    dsimp only
    omega
  unfold marchRows
  rw [henter, Option.bind_some]
  unfold appendTile batchState tileAt strideRange
  rw [checkedInt_of_lt hcol, Option.map_some]
  dsimp only
  congr 2
  · omega
  · omega
  · congr 3
    · omega
    · omega

/-- The tiles of a batch have all its rows. -/
theorem le_tilesOfBatch_mul (counts : List ℕ) (k : ℕ) (hstride : 0 < rowStride) :
    rowsOfBatch counts k ≤ tilesOfBatch counts rowStride k * rowStride := by
  have hdiv := Nat.div_add_mod (rowsOfBatch counts k + rowStride - 1) rowStride
  have hmod := Nat.mod_lt (rowsOfBatch counts k + rowStride - 1) hstride
  rw [Nat.mul_comm] at hdiv
  unfold tilesOfBatch divRoundingUp
  omega

/-- Behind the last tile of a batch, a turn is one at the start of the next batch. -/
theorem marchRows_next (hstride : 0 < rowStride) (hk : k + 1 < counts.length)
    (hnext : 0 < rowsOfBatch counts (k + 1)) :
    marchRows numCols counts columnStride rowStride col
        (batchState counts rowStride k (tilesOfBatch counts rowStride k) tiles) =
      marchRows numCols counts columnStride rowStride col
        (batchState counts rowStride (k + 1) 0 tiles) := by
  have hcount : counts[k + 1]? = some (rowsOfBatch counts (k + 1)) := by
    unfold rowsOfBatch
    rw [List.getD_eq_getElem?_getD, List.getElem?_eq_getElem hk, Option.getD_some]
  have hall := le_tilesOfBatch_mul counts k hstride
  have hscan := exclusiveScan_succ (rowsOfBatch counts) k
  have hlast : enterBatch counts
      (batchState counts rowStride k (tilesOfBatch counts rowStride k) tiles) =
        some (batchState counts rowStride (k + 1) 0 tiles) := by
    unfold enterBatch batchState
    dsimp only
    rw [if_pos (by omega), hcount, Option.map_some]
    congr 2
    · omega
    · omega
  have hfirst : enterBatch counts (batchState counts rowStride (k + 1) 0 tiles) =
      some (batchState counts rowStride (k + 1) 0 tiles) := by
    refine if_neg ?_
    unfold batchState
    dsimp only
    omega
  unfold marchRows
  rw [hlast, hfirst]

/-- The batches have rows, and there are so few columns that the next stride has an `int`. -/
structure InnerLoop (counts : List ℕ) (columnStride rowStride col : ℕ) : Prop where
  stride_pos : 0 < rowStride
  rows_pos : ∀ k < counts.length, 0 < rowsOfBatch counts k
  col_lt : col + columnStride < 2 ^ 31

/-- Turns lead from a tile of a batch to any later one. -/
theorem turns_batch (numCols : ℕ) (tiles : List TileInfo)
    (h : InnerLoop counts columnStride rowStride col) (hk : k < counts.length) {i : ℕ}
    (hij : i ≤ j) (hj : j ≤ tilesOfBatch counts rowStride k) :
    Turns (fun st => decide (counts.sum ≤ st.row))
      (marchRows numCols counts columnStride rowStride col)
      (batchState counts rowStride k i (tiles ++ (List.range i).map
        (tileAt counts rowStride (strideRange numCols columnStride col) k)))
      (batchState counts rowStride k j (tiles ++ (List.range j).map
        (tileAt counts rowStride (strideRange numCols columnStride col) k))) := by
  induction j, hij using Nat.le_induction with
  | base => exact .refl _
  | succ j hij ih =>
    have hinside := mul_lt_rowsOfBatch h.stride_pos hj
    have hmono := exclusiveScan_mono (rowsOfBatch counts) (show k + 1 ≤ counts.length from hk)
    have hscan := exclusiveScan_succ (rowsOfBatch counts) k
    refine (ih (Nat.le_of_succ_le hj)).trans (.single ?_ ?_)
    · unfold batchState
      rw [decide_eq_false_iff_not, sum_eq_exclusiveScan]
      dsimp only
      omega
    · rw [marchRows_inside h.stride_pos h.col_lt hj, List.range_succ, List.map_append,
        List.append_assoc, List.map_singleton]

/-- And from the first batch to the end of any other. -/
theorem turns_batches (numCols : ℕ) (tiles : List TileInfo)
    (h : InnerLoop counts columnStride rowStride col) (hk : k < counts.length) :
    Turns (fun st => decide (counts.sum ≤ st.row))
      (marchRows numCols counts columnStride rowStride col)
      (batchState counts rowStride 0 0 tiles)
      (batchState counts rowStride k (tilesOfBatch counts rowStride k)
        (tiles ++ (List.range (k + 1)).flatMap
          (batchTiles counts rowStride (strideRange numCols columnStride col)))) := by
  induction k with
  | zero =>
    have hbatch := turns_batch numCols tiles h hk (Nat.zero_le _) (Nat.le_refl _)
    rw [List.range_zero, List.map_nil, List.append_nil] at hbatch
    rwa [List.range_one, List.flatMap_singleton]
  | succ k ih =>
    have hrows := h.rows_pos (k + 1) hk
    have htile : 0 < tilesOfBatch counts rowStride (k + 1) :=
      Nat.div_pos (by omega) h.stride_pos
    refine (ih (Nat.lt_of_succ_lt hk)).trans ?_
    rw [List.range_succ (n := k + 1), List.flatMap_append, List.flatMap_singleton, ← List.append_assoc]
    generalize tiles ++ (List.range (k + 1)).flatMap _ = before
    -- the first tile of the batch is appended by the turn that enters it
    refine .head ?_ ?_ (turns_batch numCols before h hk (show 1 ≤ _ from htile) (Nat.le_refl _))
    · have hmono := exclusiveScan_mono (rowsOfBatch counts) (show k + 1 + 1 ≤ counts.length from hk)
      have hscan := exclusiveScan_succ (rowsOfBatch counts) k
      have hscan' := exclusiveScan_succ (rowsOfBatch counts) (k + 1)
      unfold batchState
      rw [decide_eq_false_iff_not, sum_eq_exclusiveScan]
      dsimp only
      omega
    · rw [marchRows_next h.stride_pos hk hrows, marchRows_inside h.stride_pos h.col_lt htile,
        List.range_one, List.map_singleton]

/-- The loop makes the tiles that `build_tiles` makes of the range of the stride. -/
theorem whileLoop_marchRows (numCols : ℕ) (tiles : List TileInfo)
    (h : InnerLoop counts columnStride rowStride col) (hbatch : counts ≠ []) :
    ∃ turns, ∀ n, turns ≤ n →
      (whileLoop (fun st => decide (counts.sum ≤ st.row))
        (marchRows numCols counts columnStride rowStride col) n
        (batchState counts rowStride 0 0 tiles)).map RowTilesState.validityTileInfos =
          some (tiles ++ buildTiles (boundariesOf counts) rowStride counts.sum
            (strideRange numCols columnStride col)) := by
  obtain ⟨last, hlast⟩ : ∃ last, counts.length = last + 1 :=
    Nat.exists_eq_succ_of_ne_zero (mt List.eq_nil_of_length_eq_zero hbatch)
  have hturns := turns_batches numCols tiles h (show last < counts.length by omega)
  obtain ⟨turns, hrun⟩ := hturns.whileLoop_eq (by
    have hall := le_tilesOfBatch_mul counts last h.stride_pos
    have hscan := exclusiveScan_succ (rowsOfBatch counts) last
    unfold batchState
    rw [decide_eq_true_eq, sum_eq_exclusiveScan, hlast]
    dsimp only
    omega)
  refine ⟨turns, fun n hn => ?_⟩
  rw [hrun n hn, Option.map_some, buildTiles_eq_flatMap, hlast]
  rfl

end Rows

/-! ### The loop through the columns -/

section Columns

variable {numCols columnStride rowStride : ℕ} {counts : List ℕ}

/-- The tiles of strides of columns, one stride after the other. -/
def strideTiles (numCols : ℕ) (counts : List ℕ) (columnStride rowStride num : ℕ) : List TileInfo :=
  (List.range num).flatMap fun c => buildTiles (boundariesOf counts) rowStride counts.sum
    (strideRange numCols columnStride (c * columnStride))

/-- A turn appends the tiles of a stride. -/
theorem marchColumns_eq {c : ℕ} (h : InnerLoop counts columnStride rowStride (c * columnStride))
    (hbatch : counts ≠ []) : ∃ turns, ∀ n, turns ≤ n →
      marchColumns numCols counts.sum counts columnStride rowStride n
        ⟨c * columnStride, strideTiles numCols counts columnStride rowStride c⟩ =
      some ⟨(c + 1) * columnStride,
        strideTiles numCols counts columnStride rowStride (c + 1)⟩ := by
  obtain ⟨turns, hrun⟩ := whileLoop_marchRows numCols
    (strideTiles numCols counts columnStride rowStride c) h hbatch
  refine ⟨turns, fun n hn => ?_⟩
  obtain ⟨rows, hrows, htiles⟩ := Option.map_eq_some_iff.1 (hrun n hn)
  have hcount : counts[0]? = some (rowsOfBatch counts 0) := by
    obtain ⟨rowCount, rest, rfl⟩ := List.exists_cons_of_ne_nil hbatch
    rfl
  have hstart : (⟨0, rowsOfBatch counts 0, 0,
      strideTiles numCols counts columnStride rowStride c⟩ : RowTilesState) =
        batchState counts rowStride 0 0
          (strideTiles numCols counts columnStride rowStride c) := by
    unfold batchState
    rw [Nat.zero_mul, Nat.sub_zero, Nat.zero_min]
    rfl
  unfold marchColumns
  rw [hcount, Option.bind_some, hstart, hrows, Option.bind_some, checkedInt_of_lt h.col_lt,
    Option.map_some, htiles, ← Nat.succ_mul]
  unfold strideTiles
  rw [List.range_succ, List.flatMap_append, List.flatMap_singleton]

/-- The loop ends behind the last stride, if the strides have `int`s. -/
theorem whileLoop_marchColumns (hcolumns : 0 < columnStride) (hrows : 0 < rowStride)
    (hbatch : counts ≠ []) (hpos : ∀ k < counts.length, 0 < rowsOfBatch counts k)
    (hint : divRoundingUp numCols columnStride * columnStride < 2 ^ 31) :
    ∃ turns, ∀ n, turns ≤ n →
      whileLoop (fun st => decide (numCols ≤ st.col))
        (marchColumns numCols counts.sum counts columnStride rowStride n) n ⟨0, []⟩ =
      some ⟨divRoundingUp numCols columnStride * columnStride,
        strideTiles numCols counts columnStride rowStride
          (divRoundingUp numCols columnStride)⟩ := by
  generalize hnum : divRoundingUp numCols columnStride = num at hint ⊢
  have hdiv := Nat.div_add_mod (numCols + columnStride - 1) columnStride
  have hmod := Nat.mod_lt (numCols + columnStride - 1) hcolumns
  unfold divRoundingUp at hnum
  rw [hnum, Nat.mul_comm] at hdiv
  have hle : ∀ c < num, (c + 1) * columnStride ≤ num * columnStride := fun c hc =>
    Nat.mul_le_mul_right columnStride hc
  -- as many turns of the inner loop as the strides need
  have hinner : ∀ᶠ n in Filter.atTop, ∀ c ∈ Finset.range num,
      marchColumns numCols counts.sum counts columnStride rowStride n
        ⟨c * columnStride, strideTiles numCols counts columnStride rowStride c⟩ =
      some ⟨(c + 1) * columnStride,
        strideTiles numCols counts columnStride rowStride (c + 1)⟩ := by
    rw [Filter.eventually_all_finset]
    intro c hc
    have hnext := hle c (Finset.mem_range.1 hc)
    rw [Nat.succ_mul] at hnext
    exact Filter.eventually_atTop.2 (marchColumns_eq ⟨hrows, hpos, by omega⟩ hbatch)
  obtain ⟨turns, hturns⟩ := Filter.eventually_atTop.1 hinner
  refine ⟨max turns num, fun n hn => ?_⟩
  have hstart : (⟨0, []⟩ : ColTilesState) = ⟨0 * columnStride,
      strideTiles numCols counts columnStride rowStride 0⟩ := by
    rw [Nat.zero_mul]
    rfl
  rw [hstart]
  refine @whileLoop_of_count ColTilesState _ _ (fun c => ⟨c * columnStride,
    strideTiles numCols counts columnStride rowStride c⟩) num n ?_ (fun c hc => ⟨?_, ?_⟩)
    (by omega)
  · rw [decide_eq_true_eq]
    dsimp only
    omega
  · have hnext := hle c hc
    rw [Nat.succ_mul] at hnext
    rw [decide_eq_false_iff_not]
    dsimp only
    omega
  · exact hturns n (by omega) c (Finset.mem_range.2 hc)

end Columns

/-! ### The function -/

section Function

variable {numCols numRows limit : ℕ} {counts : List ℕ}

/-- The tiles that should be made. -/
def validityTiles (numCols shmemLimitPerTile : ℕ) (counts : List ℕ) : List TileInfo :=
  strideTiles numCols counts (columnStride numCols shmemLimitPerTile)
    (rowStride counts.sum (columnStride numCols shmemLimitPerTile) shmemLimitPerTile)
    (divRoundingUp numCols (columnStride numCols shmemLimitPerTile))

/-- The `int`s of the function do not overflow. -/
def HasInts (numCols numRows shmemLimitPerTile : ℕ) : Prop :=
  numCols / columnStride numCols shmemLimitPerTile * numRows < 2 ^ 31 ∧
    divRoundingUp numCols (columnStride numCols shmemLimitPerTile) *
      columnStride numCols shmemLimitPerTile < 2 ^ 31

theorem eight_dvd_columnStride (numCols limit : ℕ) : 8 ∣ columnStride numCols limit :=
  dvd_roundUp _ _

theorem buildValidityTileInfos_eq (hcolumns : 0 < columnStride numCols limit)
    (hrows : 0 < rowStride counts.sum (columnStride numCols limit) limit)
    (hbatch : counts ≠ []) (hpos : ∀ k < counts.length, 0 < rowsOfBatch counts k)
    (hints : HasInts numCols counts.sum limit) : ∃ turns, ∀ n, turns ≤ n →
      buildValidityTileInfos numCols counts.sum limit counts n =
        some (validityTiles numCols limit counts) := by
  obtain ⟨turns, hrun⟩ := whileLoop_marchColumns hcolumns hrows hbatch hpos hints.2
  refine ⟨turns, fun n hn => ?_⟩
  unfold buildValidityTileInfos
  dsimp only
  rw [checkedInt_of_lt hints.1, Option.bind_some, hrun n hn, Option.map_some]
  rfl

/-- A turn that has a result goes to the next multiple of the stride, and that is an `int`. -/
theorem col_of_marchColumns {columnStride rowStride turns : ℕ} {st st' : ColTilesState}
    (h : marchColumns numCols numRows counts columnStride rowStride turns st = some st') :
    st'.col = st.col + columnStride ∧ st'.col < 2 ^ 31 := by
  unfold marchColumns at h
  obtain ⟨rowCount, -, h⟩ := Option.bind_eq_some_iff.1 h
  obtain ⟨rows, -, h⟩ := Option.bind_eq_some_iff.1 h
  obtain ⟨col, hcol, rfl⟩ := Option.map_eq_some_iff.1 h
  obtain ⟨rfl, hlt⟩ := lt_of_checkedInt hcol
  exact ⟨rfl, hlt⟩

/-- If there are tiles, no `int` overflowed. -/
theorem buildValidityTileInfos_ints {turns : ℕ} {tiles : List TileInfo}
    (hcolumns : 0 < columnStride numCols limit)
    (h : buildValidityTileInfos numCols numRows limit counts turns = some tiles) :
    HasInts numCols numRows limit := by
  unfold buildValidityTileInfos at h
  dsimp only at h
  unfold HasInts
  generalize columnStride numCols limit = stride at h hcolumns ⊢
  obtain ⟨size, hsize, h⟩ := Option.bind_eq_some_iff.1 h
  obtain ⟨st, hst, -⟩ := Option.map_eq_some_iff.1 h
  obtain ⟨hturns, hdone⟩ := turns_of_whileLoop hst
  refine ⟨(lt_of_checkedInt hsize).2, ?_⟩
  have hkeep : ∀ a b : ColTilesState, stride ∣ a.col ∧ a.col < 2 ^ 31 →
      decide (numCols ≤ a.col) = false →
      marchColumns numCols numRows counts stride (rowStride numRows stride limit) turns a =
        some b → stride ∣ b.col ∧ b.col < 2 ^ 31 := by
    intro a b ha _ hstep
    obtain ⟨hcol, hlt⟩ := col_of_marchColumns hstep
    rw [hcol] at hlt ⊢
    exact ⟨Nat.dvd_add ha.1 (Nat.dvd_refl _), hlt⟩
  obtain ⟨⟨c, hc⟩, hlt⟩ := hturns.keeps hkeep ⟨Nat.dvd_zero _, by decide⟩
  rw [decide_eq_true_eq] at hdone
  refine Nat.lt_of_le_of_lt ?_ hlt
  rw [hc, Nat.mul_comm]
  refine Nat.mul_le_mul_left stride (Nat.lt_succ_iff.1 ?_)
  unfold divRoundingUp
  rw [Nat.div_lt_iff_lt_mul hcolumns, Nat.succ_mul, Nat.mul_comm]
  omega

end Function

/-! ### The strides -/

section Strides

variable {numCols numRows limit : ℕ}

/-- 48 KB without the barrier, which takes 16 bytes. -/
def minimalShmem : ℕ := 48 * 1024 - 16

theorem sqrt_ge (hlimit : minimalShmem ≤ limit) : 221 ≤ Nat.sqrt limit :=
  Nat.le_sqrt.2 (Nat.le_trans (by decide) hlimit)

/-- With many columns, the stride is about the square root of the shared memory. -/
theorem columnStride_of_le (h : Nat.sqrt limit ≤ numCols) :
    columnStride numCols limit = roundDown (Nat.sqrt limit) 8 := by
  unfold columnStride
  dsimp only
  rw [if_neg (Nat.not_lt.2 h)]
  exact if_pos (Nat.mul_mod_left _ _)

/-- With few columns, one stride has them all. -/
theorem columnStride_of_lt (h : numCols < Nat.sqrt limit) :
    columnStride numCols limit = roundUp numCols 8 := by
  unfold columnStride
  dsimp only
  rw [if_pos h]
  rfl

theorem columnStride_pos (hcolumns : 0 < numCols) (hlimit : minimalShmem ≤ limit) :
    0 < columnStride numCols limit := by
  have hroot := sqrt_ge hlimit
  rcases Nat.lt_or_ge numCols (Nat.sqrt limit) with hlt | hge
  · rw [columnStride_of_lt hlt]
    exact Nat.lt_of_lt_of_le hcolumns (le_roundUp (by decide))
  · rw [columnStride_of_le hge]
    unfold roundDown
    omega

theorem columnStride_lt (numCols limit : ℕ) :
    columnStride numCols limit < Nat.sqrt limit + 8 := by
  rcases Nat.lt_or_ge numCols (Nat.sqrt limit) with hlt | hge
  · rw [columnStride_of_lt hlt]
    exact Nat.lt_of_lt_of_le (roundUp_lt (by decide)) (by omega)
  · rw [columnStride_of_le hge]
    exact Nat.lt_of_le_of_lt (Nat.div_mul_le_self _ _) (by omega)

/-- A row of a stride has room for its bits. -/
theorem columnStride_le_bytesPerRow (numCols limit : ℕ) :
    columnStride numCols limit ≤ 8 * bytesPerRow (columnStride numCols limit) := by
  have hround := @le_roundUp (divRoundingUp (columnStride numCols limit) 8) jcudfRowAlignment
    (by decide)
  unfold bytesPerRow
  unfold divRoundingUp at hround ⊢
  omega

/-- And 64 of its rows fit into the shared memory. -/
theorem bytesPerRow_mul_le (numCols : ℕ) (hlimit : minimalShmem ≤ limit) :
    64 * bytesPerRow (columnStride numCols limit) ≤ limit := by
  have hroot := sqrt_ge hlimit
  have hstride := columnStride_lt numCols limit
  have hsquare := Nat.sqrt_le limit
  have hmul := Nat.mul_le_mul_right (Nat.sqrt limit) hroot
  have hround := @roundUp_lt (divRoundingUp (columnStride numCols limit) 8) jcudfRowAlignment
    (by decide)
  unfold bytesPerRow
  unfold divRoundingUp at hround ⊢
  unfold jcudfRowAlignment at hround ⊢
  omega

theorem bytesPerRow_pos (hcolumns : 0 < numCols) (hlimit : minimalShmem ≤ limit) :
    0 < bytesPerRow (columnStride numCols limit) := by
  have hstride := columnStride_pos hcolumns hlimit
  have hle := columnStride_le_bytesPerRow numCols limit
  omega

/-- The rows that fit into the shared memory, in steps of 64. -/
def fittingRows (numCols limit : ℕ) : ℕ :=
  roundDown (limit / bytesPerRow (columnStride numCols limit)) 64

theorem rowStride_eq (numCols numRows limit : ℕ) :
    rowStride numRows (columnStride numCols limit) limit =
      min numRows (fittingRows numCols limit) := rfl

theorem dvd_fittingRows (numCols limit : ℕ) : 64 ∣ fittingRows numCols limit :=
  Nat.dvd_mul_left _ _

theorem fittingRows_ge (hcolumns : 0 < numCols) (hlimit : minimalShmem ≤ limit) :
    64 ≤ fittingRows numCols limit := by
  have hle := (Nat.le_div_iff_mul_le (bytesPerRow_pos hcolumns hlimit)).2
    (bytesPerRow_mul_le numCols hlimit)
  unfold fittingRows roundDown
  omega

theorem fittingRows_mul_le (numCols limit : ℕ) :
    fittingRows numCols limit * bytesPerRow (columnStride numCols limit) ≤ limit :=
  Nat.le_trans (Nat.mul_le_mul_right _ (Nat.div_mul_le_self _ _)) (Nat.div_mul_le_self _ _)

theorem rowStride_pos (hcolumns : 0 < numCols) (hrows : 0 < numRows)
    (hlimit : minimalShmem ≤ limit) :
    0 < rowStride numRows (columnStride numCols limit) limit := by
  have hge := fittingRows_ge hcolumns hlimit
  rw [rowStride_eq]
  omega

/-- The `int`s, from the columns, the rows and the shared memory: with few columns there is one stride, and
with many it is the square root rounded down to a multiple of 8. -/
def FitsInts (numCols numRows shmemLimitPerTile : ℕ) : Prop :=
  numCols < Nat.sqrt shmemLimitPerTile ∨
    numCols / roundDown (Nat.sqrt shmemLimitPerTile) 8 * numRows < 2 ^ 31 ∧
      divRoundingUp numCols (roundDown (Nat.sqrt shmemLimitPerTile) 8) *
        roundDown (Nat.sqrt shmemLimitPerTile) 8 < 2 ^ 31

theorem hasInts_iff (hcolumns : 0 < numCols) (hrows : numRows < 2 ^ 31) (hlimit : limit < 2 ^ 31) :
    HasInts numCols numRows limit ↔ FitsInts numCols numRows limit := by
  unfold HasInts FitsInts
  rcases Nat.lt_or_ge numCols (Nat.sqrt limit) with hlt | hge
  · have hroot := Nat.sqrt_le_self limit
    have hsquare := Nat.sqrt_le limit
    have hle := @le_roundUp numCols 8 (by decide)
    have hlt' := @roundUp_lt numCols 8 (by decide)
    rw [columnStride_of_lt hlt]
    generalize roundUp numCols 8 = stride at hle hlt'
    refine ⟨fun _ => .inl hlt, fun _ => ⟨?_, ?_⟩⟩
    · have hone : numCols / stride ≤ 1 := Nat.div_le_of_le_mul (by omega)
      exact Nat.lt_of_le_of_lt (Nat.mul_le_mul_right numRows hone) (by omega)
    · have hone : divRoundingUp numCols stride ≤ 1 := by
        unfold divRoundingUp
        exact Nat.lt_succ_iff.1 ((Nat.div_lt_iff_lt_mul (by omega)).2 (by omega))
      have hroot' : Nat.sqrt limit < 2 ^ 16 := Nat.sqrt_lt.2 (by omega)
      exact Nat.lt_of_le_of_lt (Nat.mul_le_mul_right stride hone) (by omega)
  · rw [columnStride_of_le hge]
    exact ⟨.inr, fun h => h.resolve_left (Nat.not_lt.2 hge)⟩

end Strides

/-! ### The tiles -/

section Tiles

variable {numCols limit : ℕ} {counts : List ℕ} {tile : TileInfo}

/-- The batches have rows, and each starts at a multiple of 32. -/
structure AlignedBatches (counts : List ℕ) : Prop where
  batches_ne : counts ≠ []
  rows_pos : ∀ rowCount ∈ counts, 0 < rowCount
  aligned : ∀ k < counts.length, 32 ∣ (counts.take k).sum

theorem AlignedBatches.rowsOfBatch_pos (h : AlignedBatches counts) {k : ℕ}
    (hk : k < counts.length) : 0 < rowsOfBatch counts k := by
  unfold rowsOfBatch
  rw [List.getD_eq_getElem _ _ hk]
  exact h.rows_pos _ (List.getElem_mem hk)

theorem AlignedBatches.sum_pos (h : AlignedBatches counts) : 0 < counts.sum := by
  obtain ⟨rowCount, rest, rfl⟩ := List.exists_cons_of_ne_nil h.batches_ne
  have hpos := h.rows_pos rowCount (List.mem_cons_self ..)
  rw [List.sum_cons]
  omega

/-- A batch ends at a multiple of 32, or with the table. -/
theorem AlignedBatches.dvd_end (h : AlignedBatches counts) {k : ℕ} (hk : k < counts.length) :
    32 ∣ exclusiveScan (rowsOfBatch counts) (k + 1) ∨
      exclusiveScan (rowsOfBatch counts) (k + 1) = counts.sum := by
  rcases Nat.eq_or_lt_of_le (Nat.succ_le_of_lt hk) with heq | hlt
  · right
    rw [sum_eq_exclusiveScan, ← heq]
  · left
    have hscan : exclusiveScan (rowsOfBatch counts) (k + 1) = _ := exclusiveScan_getD counts (k + 1)
    rw [hscan]
    exact h.aligned (k + 1) hlt

theorem AlignedBatches.dvd_start (h : AlignedBatches counts) {k : ℕ} (hk : k < counts.length) :
    32 ∣ exclusiveScan (rowsOfBatch counts) k := by
  have hscan : exclusiveScan (rowsOfBatch counts) k = _ := exclusiveScan_getD counts k
  rw [hscan]
  exact h.aligned k hk

/-- What is known of a tile: where it starts and ends, and how much of it there can be. -/
structure ValidityTile (numCols limit : ℕ) (counts : List ℕ) (tile : TileInfo) : Prop where
  startCol_dvd : 8 ∣ tile.startCol
  cols : tile.startCol ≤ tile.endCol
  endCol_lt : tile.endCol < numCols
  endCol_dvd : 8 ∣ tile.endCol + 1 ∨ tile.endCol + 1 = numCols
  numCols_le : tile.numCols ≤ columnStride numCols limit
  batch_lt : tile.batchNumber < counts.length
  start_le : exclusiveScan (rowsOfBatch counts) tile.batchNumber ≤ tile.startRow
  startRow_dvd : 32 ∣ tile.startRow
  rows : tile.startRow ≤ tile.endRow
  endRow_lt : tile.endRow < exclusiveScan (rowsOfBatch counts) (tile.batchNumber + 1)
  endRow_dvd : 32 ∣ tile.endRow + 1 ∨ tile.endRow + 1 = counts.sum
  numRows_le : tile.numRows ≤ fittingRows numCols limit

/-- The rows of a tile of a batch. -/
theorem tileAt_rows {k j height fitting : ℕ} {range : TileRange} (h : AlignedBatches counts)
    (hk : k < counts.length) (hfitting : 64 ∣ fitting) (hheight : height = min counts.sum fitting)
    (hpos : 0 < height) (hj : j < tilesOfBatch counts height k) :
    32 ∣ (tileAt counts height range k j).startRow ∧
      (tileAt counts height range k j).startRow ≤ (tileAt counts height range k j).endRow ∧
      (tileAt counts height range k j).endRow < exclusiveScan (rowsOfBatch counts) (k + 1) ∧
      (32 ∣ (tileAt counts height range k j).endRow + 1 ∨
        (tileAt counts height range k j).endRow + 1 = counts.sum) ∧
      (tileAt counts height range k j).numRows ≤ fitting := by
  have hinside := mul_lt_rowsOfBatch hpos hj
  have hstart := h.dvd_start hk
  have hend := h.dvd_end hk
  have hscan := exclusiveScan_succ (rowsOfBatch counts) k
  have hmono := exclusiveScan_mono (rowsOfBatch counts) (show k + 1 ≤ counts.length from hk)
  have hnext : (j + 1) * height = j * height + height := Nat.succ_mul j height
  rw [← sum_eq_exclusiveScan] at hmono
  -- either the strides are multiples of 64, or all rows are one stride
  have hstride : 64 ∣ j * height ∧ 64 ∣ height ∨ j * height = 0 ∧ counts.sum ≤ height := by
    rcases Nat.le_total fitting counts.sum with hle | hle
    · rw [Nat.min_eq_right hle] at hheight
      rw [hheight]
      exact .inl ⟨Dvd.dvd.mul_left hfitting j, hfitting⟩
    · rw [Nat.min_eq_left hle] at hheight
      right
      rcases Nat.eq_zero_or_pos j with rfl | hj
      · exact ⟨Nat.zero_mul _, Nat.le_of_eq hheight.symm⟩
      · have hmul := Nat.mul_le_mul_right height hj
        omega
  unfold TileInfo.numRows tileAt
  dsimp only
  rw [hnext]
  generalize j * height = offset at *
  refine ⟨?_, ?_, ?_, ?_, ?_⟩
  · omega
  · omega
  · omega
  · omega
  · omega

theorem mem_validityTiles (h : tile ∈ validityTiles numCols limit counts)
    (hcolumns : 0 < numCols) (hbatches : AlignedBatches counts) (hlimit : minimalShmem ≤ limit) :
    ValidityTile numCols limit counts tile := by
  have hstride := columnStride_pos hcolumns hlimit
  have hdvd := eight_dvd_columnStride numCols limit
  have hheight := rowStride_pos hcolumns hbatches.sum_pos hlimit
  unfold validityTiles strideTiles at h
  obtain ⟨c, hc, htile⟩ := List.mem_flatMap.1 h
  obtain ⟨k, hk, j, hj, rfl⟩ := mem_buildTiles.1 htile
  obtain ⟨hstart, hrows, hend, hendDvd, hfits⟩ := @tileAt_rows counts k j _ _
    (strideRange numCols (columnStride numCols limit) (c * columnStride numCols limit))
    hbatches hk (dvd_fittingRows numCols limit) (rowStride_eq numCols counts.sum limit)
    hheight hj
  have hcol : c * columnStride numCols limit < numCols := by
    have hlt := List.mem_range.1 hc
    unfold divRoundingUp at hlt
    rw [Nat.lt_div_iff_mul_lt hstride] at hlt
    omega
  have hcolDvd : 8 ∣ c * columnStride numCols limit := Dvd.dvd.mul_left hdvd c
  refine ⟨hcolDvd, ?_, ?_, ?_, ?_, hk, ?_, hstart, hrows, hend, hendDvd, hfits⟩
  · unfold tileAt strideRange
    dsimp only
    omega
  · unfold tileAt strideRange
    dsimp only
    omega
  · unfold tileAt strideRange
    dsimp only
    omega
  · unfold TileInfo.numCols tileAt strideRange
    dsimp only
    omega
  · unfold tileAt
    exact Nat.le_add_right _ _

/-- A cell of the table is in one tile. -/
theorem countP_validityTiles (hcolumns : 0 < numCols) (hbatches : AlignedBatches counts)
    (hlimit : minimalShmem ≤ limit) {row col : ℕ} (hrow : row < counts.sum) (hcol : col < numCols) :
    (validityTiles numCols limit counts).countP (TileInfo.hasCell row col) = 1 := by
  have hstride := columnStride_pos hcolumns hlimit
  have hheight := rowStride_pos hcolumns hbatches.sum_pos hlimit
  unfold validityTiles strideTiles
  rw [List.countP_flatMap]
  generalize columnStride numCols limit = stride at *
  have hdiv := Nat.div_add_mod col stride
  have hmod := Nat.mod_lt col hstride
  rw [Nat.mul_comm] at hdiv
  have hlast : col / stride < divRoundingUp numCols stride := by
    unfold divRoundingUp
    rw [Nat.lt_div_iff_mul_lt hstride]
    omega
  -- the stride of the column is the only one that counts
  refine (Finset.sum_eq_single_of_mem (col / stride) (Finset.mem_range.2 hlast) fun c _ hne => ?_).trans ?_
  · rw [Function.comp_apply, countP_buildTiles hheight hrow, if_neg]
    rintro ⟨hle, hge⟩
    unfold strideRange at hle hge
    dsimp only at hle hge
    refine hne (Nat.div_eq_of_lt_le ?_ ?_).symm
    · omega
    · rw [Nat.succ_mul]
      omega
  · rw [Function.comp_apply, countP_buildTiles hheight hrow, if_pos]
    unfold strideRange
    dsimp only
    omega

end Tiles

end SparkRapids.RowConversion
