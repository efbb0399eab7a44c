import SparkRapidsJni.Lib.PrefixSums
import SparkRapidsJni.RowConversion.Layout

/-!
# `row_conversion.cu`: tiles

A kernel works on tiles of a table, each a range of columns and a range of rows of one batch.
`determine_tiles` cuts the columns, so that a row of a tile fits into the shared memory, and
`build_tiles` the rows of every batch.

The cut compares a running row size with the limit. Where a column does not fit, a tile is closed, and
the running size starts again: with the *end* of the column modulo 8 in place of its start. So the
size of a tile can be more than what was compared (`Packs`). And a last column that does not fit into
the tile before it is in no tile.
-/

namespace SparkRapids.RowConversion

open PrefixSums

/-! ### The code -/

/-- `std::clamp` -/
def clamp (v lo hi : ℕ) : ℕ := if v < lo then lo else if hi < v then hi else v

/-- `tile_height`, where `sqrt` of a `size_type` is exact below the comma. -/
def tileHeight (firstRowBatchSize totalNumberOfRows shmemLimitPerTile : ℕ) : ℕ :=
  let squareBias := 32
  let optimalSquareLen := Nat.sqrt shmemLimitPerTile
  let desiredTileHeight := roundUp (min (optimalSquareLen / squareBias) totalNumberOfRows) 32
  clamp desiredTileHeight 1 firstRowBatchSize

/-- The columns of a tile, as the callback gets them. -/
structure TileRange where
  startCol : ℕ
  endCol : ℕ
  deriving DecidableEq

/-- The locals of the loop in `determine_tiles`, and the calls of the callback. -/
structure TilesState where
  currentTileWidth : ℕ
  currentTileStartCol : ℕ
  rowSize : ℕ
  ranges : List TileRange
  deriving DecidableEq

section Code

variable (columnSizes columnStarts : List ℕ) (height shmemLimitPerTile : ℕ)

/-- The running size behind the column that opens a tile. -/
def restartedRowSize (columnStart columnSize : ℕ) : ℕ :=
  roundUp ((columnStart + columnSize) % 8) columnSize + columnSize

/-- One turn of the loop in `determine_tiles`. -/
def marchColumn (st : TilesState) (col : ℕ) : TilesState :=
  let colSize := columnSizes.getD col 0
  let rowSizeWithThisCol := roundUp st.rowSize colSize + colSize
  let rowSizeWithEndPad := roundUp rowSizeWithThisCol jcudfRowAlignment
  if rowSizeWithEndPad * height > shmemLimitPerTile then
    -- too large: the tile is closed
    { currentTileWidth := 0
      currentTileStartCol := col
      rowSize := restartedRowSize (columnStarts.getD col 0) colSize
      ranges := st.ranges ++ [⟨st.currentTileStartCol, if col = 0 then col else col - 1⟩] }
  else
    { st with rowSize := rowSizeWithThisCol, currentTileWidth := st.currentTileWidth + 1 }

/-- The last set of tiles. -/
def closeLast (st : TilesState) : List TileRange :=
  st.ranges ++
    if 0 < st.currentTileWidth then [⟨st.currentTileStartCol, columnSizes.length - 1⟩] else []

/-- `determine_tiles`, of tiles of a height. -/
def determineTiles : List TileRange :=
  closeLast columnSizes ((List.range columnSizes.length).foldl
    (marchColumn columnSizes columnStarts height shmemLimitPerTile) ⟨0, 0, 0, []⟩)

/-- `thrust::upper_bound`, in a list that ascends: the values before the first that is above. -/
def upperBound (values : List ℕ) (value : ℕ) : ℕ := values.findIdx (value < ·)

/-- `build_tiles` -/
def buildTiles (batchRowBoundaries : List ℕ) (desiredTileHeight totalNumberOfRows : ℕ)
    (range : TileRange) : List TileInfo :=
  let numBatches := batchRowBoundaries.length - 1
  let numTiles batchIndex := divRoundingUp
    (batchRowBoundaries.getD (batchIndex + 1) 0 - batchRowBoundaries.getD batchIndex 0)
    desiredTileHeight
  let tileStarts := (List.range numBatches).map (exclusiveScan numTiles)
  let totalTiles := exclusiveScan numTiles numBatches
  (List.range totalTiles).map fun tileIndex =>
    let batchIndex := upperBound tileStarts tileIndex - 1
    let localTileIndex := tileIndex - tileStarts.getD batchIndex 0
    let batchRowStart := batchRowBoundaries.getD batchIndex 0
    let tileRowStart := batchRowStart + localTileIndex * desiredTileHeight
    let maxRow := min (totalNumberOfRows - 1)
      (if batchIndex + 1 > numBatches then 2 ^ 31 - 1
        else batchRowBoundaries.getD (batchIndex + 1) 0 - 1)
    let tileRowEnd := min (batchRowStart + (localTileIndex + 1) * desiredTileHeight - 1) maxRow
    ⟨range.startCol, tileRowStart, range.endCol, tileRowEnd, batchIndex⟩

end Code

/-- The row boundaries of batches with so many rows each. -/
def boundariesOf (counts : List ℕ) : List ℕ :=
  (List.range (counts.length + 1)).map fun k => (counts.take k).sum

section Table

variable (types : List ColumnType) (counts : List ℕ) (shmemLimitPerTile : ℕ)

/-- The height of the tiles of a table whose batches have so many rows. -/
def heightOf : ℕ := tileHeight (counts.headD 0) counts.sum shmemLimitPerTile

/-- The column ranges `determine_tiles` finds for a table. -/
def tileRanges : List TileRange :=
  let columnInfo := computeColumnInformation types
  determineTiles columnInfo.columnSizes columnInfo.columnStarts
    (heightOf counts shmemLimitPerTile) shmemLimitPerTile

/-- `gpu_tile_infos`: the tiles of all ranges. -/
def tileInfos : List TileInfo :=
  (tileRanges types counts shmemLimitPerTile).flatMap
    (buildTiles (boundariesOf counts) (heightOf counts shmemLimitPerTile) counts.sum)

end Table

/-! ### What the tiles should be -/

/-- The columns of a range. -/
def TileRange.cols (range : TileRange) : List ℕ :=
  List.range' range.startCol (range.endCol + 1 - range.startCol)

/-- A cell is in a tile. -/
def TileInfo.hasCell (row col : ℕ) (tile : TileInfo) : Bool :=
  tile.startCol ≤ col && col ≤ tile.endCol && tile.startRow ≤ row && row ≤ tile.endRow

/-- The ranges are a partition of the columns in their order, the tiles fit into the shared memory,
and each cell is in one of them. -/
structure Covers (types : List ColumnType) (counts : List ℕ) (shmemLimitPerTile : ℕ) : Prop where
  partition : (tileRanges types counts shmemLimitPerTile).flatMap TileRange.cols =
    List.range types.length
  fits : ∀ tile ∈ tileInfos types counts shmemLimitPerTile,
    heightOf counts shmemLimitPerTile *
      tile.getSharedRowSize (computeColumnInformation types).columnStarts
        (computeColumnInformation types).columnSizes ≤ shmemLimitPerTile
  cells : ∀ row < counts.sum, ∀ col < types.length,
    (tileInfos types counts shmemLimitPerTile).countP (TileInfo.hasCell row col) = 1

/-- The running size with one more column. -/
def grow (rowSize : ℕ) (c : Column) : ℕ := roundUp rowSize c.size + c.size

/-- A row of so many bytes fits into the shared memory, for all rows of a tile. -/
def FitsTile (height limit rowSize : ℕ) : Prop := roundUp rowSize jcudfRowAlignment * height ≤ limit

instance (height limit rowSize : ℕ) : Decidable (FitsTile height limit rowSize) :=
  inferInstanceAs (Decidable (_ ≤ _))

/-- The ranges that are still closed, by recursion over the columns to come, of which the first is column
`k`. The open tile starts with the column `startCol`, and has the running size `rowSize`. A tile that has
no column but the one that opened it is not closed behind the last column. -/
def rangesFrom (height limit : ℕ) : (k startCol rowSize : ℕ) → (opened : Bool) → List Column →
    List TileRange
  | k, startCol, _, opened, [] => if opened then [] else [⟨startCol, k - 1⟩]
  | k, startCol, rowSize, _, c :: cols =>
    if FitsTile height limit (grow rowSize c) then
      rangesFrom height limit (k + 1) startCol (grow rowSize c) false cols
    else
      ⟨startCol, k - 1⟩ ::
        rangesFrom height limit (k + 1) k (restartedRowSize c.start c.size) true cols

/-- How columns have to follow a tile that starts at the position `first`, ends at `stop` so far, and
has the running size `rowSize`. The columns join it as long as the running size fits. A column that
does not opens a tile, and then another column has to follow. In the tiles behind the first one
(`restarted`) the columns have to fit as they lie in the row: the running size bounds that only where the
tile starts at a multiple of the alignments of its columns (`sub_le_grow`). -/
inductive Packs (height limit : ℕ) : (restarted : Bool) → (first stop rowSize : ℕ) →
    List Column → Prop
  | done {restarted : Bool} {first stop rowSize : ℕ}
      (layout : restarted → FitsTile height limit (stop - first)) :
      Packs height limit restarted first stop rowSize []
  | join {restarted : Bool} {first stop rowSize : ℕ} {c : Column} {cols : List Column}
      (fits : FitsTile height limit (grow rowSize c))
      (rest : Packs height limit restarted first c.stop (grow rowSize c) cols) :
      Packs height limit restarted first stop rowSize (c :: cols)
  | opens {restarted : Bool} {first stop rowSize : ℕ} {c : Column} {cols : List Column}
      (full : ¬FitsTile height limit (grow rowSize c))
      (layout : restarted → FitsTile height limit (stop - first)) (more : cols ≠ [])
      (rest : Packs height limit true c.start c.stop (restartedRowSize c.start c.size) cols) :
      Packs height limit restarted first stop rowSize (c :: cols)

/-! ### The column ranges -/

section Ranges

variable {types rest : List ColumnType} {height limit k startCol first stop rowSize : ℕ}
  {restarted : Bool} {st : TilesState} {c : Column} {cols : List Column}

theorem FitsTile.mono {a b : ℕ} (h : FitsTile height limit b) (hle : a ≤ b) :
    FitsTile height limit a :=
  Nat.le_trans (Nat.mul_le_mul_right height (roundUp_mono (by decide) hle)) h

/-- The running size bounds the real one as long as the alignments of the columns divide the position
at which the tile starts: in the first tile, and behind a column at a multiple of 8 if no alignment is
greater. -/
theorem sub_le_grow {t : ColumnType} (hdvd : t.alignmentNeeded ∣ first) (hle : first ≤ stop)
    (h : stop - first ≤ rowSize) :
    roundUp stop t.alignmentNeeded + t.colSize - first ≤ roundUp rowSize t.colSize + t.colSize := by
  have hround := le_roundUp (n := rowSize) t.colSize_pos
  have hstart : roundUp stop t.alignmentNeeded ≤ first + roundUp rowSize t.colSize :=
    roundUp_le (Nat.dvd_add hdvd (Nat.dvd_trans t.alignmentNeeded_dvd_colSize (dvd_roundUp _ _))) (by omega)
  omega

theorem packs_nil : Packs height limit restarted first stop rowSize [] ↔
    (restarted → FitsTile height limit (stop - first)) := by
  constructor
  · rintro ⟨⟩
    assumption
  · exact .done

theorem packs_cons_of_fits (h : FitsTile height limit (grow rowSize c)) :
    Packs height limit restarted first stop rowSize (c :: cols) ↔
      Packs height limit restarted first c.stop (grow rowSize c) cols := by
  constructor
  · intro hpacks
    cases hpacks with
    | join _ rest => exact rest
    | opens full => exact absurd h full
  · exact .join h

theorem packs_cons_of_full (h : ¬FitsTile height limit (grow rowSize c)) :
    Packs height limit restarted first stop rowSize (c :: cols) ↔
      (restarted → FitsTile height limit (stop - first)) ∧ cols ≠ [] ∧
        Packs height limit true c.start c.stop (restartedRowSize c.start c.size) cols := by
  constructor
  · intro hpacks
    cases hpacks with
    | join fits => exact absurd fits h
    | opens _ layout more rest => exact ⟨layout, more, rest⟩
  · rintro ⟨layout, more, rest⟩
    exact .opens h layout more rest

variable (types) in
/-- The bytes from the first column of a range to the end of its last one. -/
def rangeBytes (range : TileRange) : ℕ :=
  colStart types range.endCol + colBytes types range.endCol - colStart types range.startCol

/-- The ranges are a partition of the columns from one on, and they fit. -/
structure GoodRanges (types : List ColumnType) (height limit start : ℕ) (ranges : List TileRange) :
    Prop where
  partition : ranges.flatMap TileRange.cols = List.range' start (types.length - start)
  fits : ∀ range ∈ ranges, FitsTile height limit (rangeBytes types range)

theorem goodRanges_cons {start : ℕ} {ranges : List TileRange} (hstart : start < k)
    (hk : k ≤ types.length) :
    GoodRanges types height limit start (⟨start, k - 1⟩ :: ranges) ↔
      FitsTile height limit (rangeBytes types ⟨start, k - 1⟩) ∧
        GoodRanges types height limit k ranges := by
  have hcols : TileRange.cols ⟨start, k - 1⟩ = List.range' start (k - start) := by
    unfold TileRange.cols
    rw [Nat.sub_add_cancel (by omega)]
  have hsplit : List.range' start (types.length - start) =
      List.range' start (k - start) ++ List.range' k (types.length - k) := by
    have happend := List.range'_append_1 (s := start) (m := k - start) (n := types.length - k)
    rw [Nat.add_sub_cancel' (Nat.le_of_lt hstart)] at happend
    rw [happend]
    congr 1
    omega
  constructor
  · rintro ⟨hpart, hfits⟩
    rw [List.flatMap_cons, hcols, hsplit, List.append_right_inj] at hpart
    exact ⟨hfits _ List.mem_cons_self, hpart, fun r hr => hfits r (List.mem_cons_of_mem _ hr)⟩
  · rintro ⟨hfit, hpart, hfits⟩
    refine ⟨?_, ?_⟩
    · rw [List.flatMap_cons, hcols, hsplit, hpart]
    · rintro r (_ | ⟨_, hr⟩)
      · exact hfit
      · exact hfits r hr

/-- One turn of the loop: the column joins the open tile or opens the next one. -/
theorem marchColumn_eq (hget : (columns types)[k]? = some c) :
    marchColumn (computeColumnInformation types).columnSizes
      (computeColumnInformation types).columnStarts height limit st k =
    if FitsTile height limit (grow st.rowSize c) then
      { st with rowSize := grow st.rowSize c, currentTileWidth := st.currentTileWidth + 1 }
    else
      { currentTileWidth := 0
        currentTileStartCol := k
        rowSize := restartedRowSize c.start c.size
        ranges := st.ranges ++ [⟨st.currentTileStartCol, k - 1⟩] } := by
  -- of the first column, `k - 1` is 0 as well
  have hend : (if k = 0 then k else k - 1) = k - 1 := by
    split_ifs <;> omega
  unfold marchColumn
  rw [columnSizes_getD hget, columnStarts_getD hget, hend]
  by_cases hfit : FitsTile height limit (grow st.rowSize c)
  · rw [if_pos hfit]
    exact if_neg (Nat.not_lt.2 hfit)
  · rw [if_neg hfit]
    exact if_pos (Nat.lt_of_not_le hfit)

theorem getElem?_of_drop {l : List Column} (h : l.drop k = c :: cols) :
    l[k]? = some c ∧ l.drop (k + 1) = cols := by
  rw [← List.head?_drop, ← List.tail_drop, h]
  exact ⟨rfl, rfl⟩

/-- The loop is the recursion over the columns to come. -/
theorem foldl_marchColumn (hcols : (columns types).drop k = cols) (hk : k + cols.length = types.length) :
    closeLast (computeColumnInformation types).columnSizes
      ((List.range' k cols.length).foldl (marchColumn (computeColumnInformation types).columnSizes
        (computeColumnInformation types).columnStarts height limit) st) =
      st.ranges ++ rangesFrom height limit k st.currentTileStartCol st.rowSize
        (st.currentTileWidth = 0) cols := by
  induction cols generalizing k st with
  | nil =>
    have hlast : (computeColumnInformation types).columnSizes.length - 1 = k - 1 := by
      rw [columnSizes_eq, List.length_map, columns, length_columnsFrom, ← hk, List.length_nil, Nat.add_zero]
    rw [List.length_nil, List.range'_zero, List.foldl_nil, closeLast, hlast, rangesFrom]
    rcases Nat.eq_zero_or_pos st.currentTileWidth with hzero | hpos
    · rw [if_neg (by omega), if_pos (decide_eq_true hzero)]
    · rw [if_pos hpos, if_neg (by simpa using Nat.ne_of_gt hpos)]
  | cons c cols ih =>
    obtain ⟨hget, hnext⟩ := getElem?_of_drop hcols
    rw [List.length_cons] at hk
    rw [List.length_cons, List.range'_succ, List.foldl_cons, ih hnext (by omega), rangesFrom,
      marchColumn_eq hget]
    split_ifs with hfit
    · rfl
    · exact List.append_assoc _ _ _

theorem tileRanges_eq (types : List ColumnType) (counts : List ℕ) (limit : ℕ) :
    tileRanges types counts limit =
      rangesFrom (heightOf counts limit) limit 0 0 0 true (columns types) := by
  have hlen : (columns types).length = types.length := length_columnsFrom 0 types
  unfold tileRanges determineTiles
  dsimp only
  rw [List.range_eq_range', columnSizes_eq, List.length_map, ← columnSizes_eq]
  exact @foldl_marchColumn _ _ _ _ ⟨0, 0, 0, []⟩ _ List.drop_zero (by omega)

/-- What is open before column `k`: a tile of the columns from `startCol` on, which start at the
position `first` and end at `stop`. The running size of the first tile is not less than the real one. -/
structure OpenTile (types : List ColumnType) (height limit k startCol : ℕ) (restarted : Bool)
    (first stop rowSize : ℕ) : Prop where
  start_lt : startCol < k
  start_eq : colStart types startCol = first
  stop_eq : colStart types (k - 1) + colBytes types (k - 1) = stop
  notRestarted : restarted = false → first = 0 ∧ stop ≤ rowSize ∧ FitsTile height limit rowSize

namespace OpenTile

section

variable (h : OpenTile types height limit k startCol restarted first stop rowSize)
include h

theorem rangeBytes_eq : rangeBytes types ⟨startCol, k - 1⟩ = stop - first := by
  unfold rangeBytes
  rw [h.stop_eq, h.start_eq]

/-- The first tile fits, and a later one if its columns do as they lie in the row. -/
theorem fits_iff :
    FitsTile height limit (rangeBytes types ⟨startCol, k - 1⟩) ↔
      (restarted → FitsTile height limit (stop - first)) := by
  rw [h.rangeBytes_eq]
  refine ⟨fun hfit _ => hfit, fun hlayout => ?_⟩
  cases hr : restarted with
  | true => exact hlayout hr
  | false =>
    obtain ⟨-, hle, hfit⟩ := h.notRestarted hr
    exact hfit.mono (by omega)

theorem join {t : ColumnType}
    (hget : (columns types)[k]? = some ⟨roundUp stop t.alignmentNeeded, t.colSize⟩)
    (hfit : FitsTile height limit (roundUp rowSize t.colSize + t.colSize)) :
    OpenTile types height limit (k + 1) startCol restarted first
      (roundUp stop t.alignmentNeeded + t.colSize) (roundUp rowSize t.colSize + t.colSize) where
  start_lt := Nat.lt_succ_of_lt h.start_lt
  start_eq := h.start_eq
  stop_eq := by rw [Nat.add_sub_cancel, colStart, colBytes, columnStarts_getD hget, columnSizes_getD hget]
  notRestarted hr := by
    obtain ⟨rfl, hle, -⟩ := h.notRestarted hr
    exact ⟨rfl, sub_le_grow (Nat.dvd_zero _) (Nat.zero_le stop) hle, hfit⟩

end

theorem opens {c : Column} (hget : (columns types)[k]? = some c) :
    OpenTile types height limit (k + 1) k true c.start c.stop rowSize where
  start_lt := Nat.lt_succ_self k
  start_eq := columnStarts_getD hget
  stop_eq := by
    rw [Nat.add_sub_cancel, colStart, colBytes, columnStarts_getD hget, columnSizes_getD hget]
    rfl
  notRestarted hr := absurd hr (by decide)

end OpenTile

/-- The ranges from the open tile on are good where the columns to come pack. -/
theorem goodRanges_iff_packs {opened : Bool} (hcols : (columns types).drop k = columnsFrom stop rest)
    (hk : k + rest.length = types.length)
    (h : OpenTile types height limit k startCol restarted first stop rowSize)
    (hmore : rest ≠ [] ∨ opened = false) :
    GoodRanges types height limit startCol
        (rangesFrom height limit k startCol rowSize opened (columnsFrom stop rest)) ↔
      Packs height limit restarted first stop rowSize (columnsFrom stop rest) := by
  induction rest generalizing k startCol restarted first stop rowSize opened with
  | nil =>
    rw [List.length_nil, Nat.add_zero] at hk
    have hclosed : opened = false := hmore.resolve_left fun hne => hne rfl
    have hnone : GoodRanges types height limit k [] :=
      ⟨by rw [hk, Nat.sub_self]; rfl, fun r hr => absurd hr List.not_mem_nil⟩
    rw [columnsFrom, rangesFrom, if_neg (by rw [hclosed]; decide), goodRanges_cons h.start_lt hk.le,
      h.fits_iff, packs_nil, and_iff_left hnone]
  | cons t rest ih =>
    obtain ⟨hget, hnext⟩ := getElem?_of_drop hcols
    rw [List.length_cons] at hk
    rw [columnsFrom, rangesFrom]
    by_cases hfit : FitsTile height limit (grow rowSize ⟨roundUp stop t.alignmentNeeded, t.colSize⟩)
    · rw [if_pos hfit, packs_cons_of_fits hfit]
      exact ih hnext (by omega) (h.join hget hfit) (.inr rfl)
    · rw [if_neg hfit, goodRanges_cons h.start_lt (by omega), h.fits_iff, packs_cons_of_full hfit]
      refine and_congr_right fun _ => ?_
      cases rest with
      | nil =>
        -- the last column: its tile is not emitted
        refine iff_of_false (fun hgood => ?_) fun hpacks => hpacks.1 rfl
        have hlen := congrArg List.length hgood.partition
        rw [List.length_range', columnsFrom, rangesFrom, if_pos rfl, List.flatMap_nil,
          List.length_nil] at hlen
        rw [List.length_nil] at hk
        omega
      | cons t' rest =>
        have hne : columnsFrom (roundUp stop t.alignmentNeeded + t.colSize) (t' :: rest) ≠ [] :=
          List.cons_ne_nil _ _
        rw [and_iff_right hne]
        exact ih hnext (by omega) (OpenTile.opens hget) (.inl (List.cons_ne_nil _ _))

end Ranges

/-! ### The tiles of a range -/

section Build

variable {counts : List ℕ} {height row : ℕ} {range : TileRange}

/-- The rows of a batch. -/
def rowsOfBatch (counts : List ℕ) (k : ℕ) : ℕ := counts.getD k 0

theorem getD_boundariesOf {k : ℕ} (hk : k ≤ counts.length) :
    (boundariesOf counts).getD k 0 = exclusiveScan (rowsOfBatch counts) k := by
  have hsum : exclusiveScan (rowsOfBatch counts) k = (counts.take k).sum :=
    exclusiveScan_getD counts k
  unfold boundariesOf
  rw [List.getD_eq_getElem?_getD, List.getElem?_map, List.getElem?_range (Nat.lt_succ_of_le hk), hsum]
  rfl

theorem sum_eq_exclusiveScan (counts : List ℕ) :
    counts.sum = exclusiveScan (rowsOfBatch counts) counts.length := by
  have hsum : exclusiveScan (rowsOfBatch counts) counts.length = _ :=
    exclusiveScan_getD counts counts.length
  rw [hsum, List.take_length]

/-- The tiles of a batch in a range. -/
def tilesOfBatch (counts : List ℕ) (height k : ℕ) : ℕ :=
  divRoundingUp (rowsOfBatch counts k) height

/-- The search finds the segment. -/
theorem upperBound_exclusiveScan {size : ℕ → ℕ} {n k j : ℕ} (hk : k < n) (hj : j < size k) :
    upperBound ((List.range n).map (exclusiveScan size)) (exclusiveScan size k + j) = k + 1 := by
  have hbelow : ∀ i ≤ k, ¬exclusiveScan size k + j < exclusiveScan size i := fun i hi hlt => by
    have hmono := exclusiveScan_mono size hi
    omega
  have hsplit : List.range n = List.range (k + 1) ++ (List.range (n - (k + 1))).map (k + 1 + ·) := by
    rw [← List.range_add, Nat.add_sub_cancel' hk]
  unfold upperBound
  rw [hsplit, List.map_append, List.findIdx_append, if_neg]
  · rw [List.length_map, List.length_range]
    cases hm : n - (k + 1) with
    | zero => exact Nat.zero_add _
    | succ m =>
      -- the first start behind the segment is above
      have habove : exclusiveScan size k + j < exclusiveScan size (k + 1 + 0) := by
        rw [Nat.add_zero, exclusiveScan_succ]
        omega
      rw [List.range_succ_eq_map, List.map_cons, List.map_cons, List.findIdx_cons,
        decide_eq_true habove]
      exact Nat.zero_add _
  · rw [List.length_map, List.length_range, Nat.not_lt]
    refine Nat.le_of_eq (Eq.symm ?_)
    refine (List.findIdx_eq_length_of_false ?_).trans (by rw [List.length_map, List.length_range])
    intro v hv
    obtain ⟨i, hi, rfl⟩ := List.mem_map.1 hv
    exact decide_eq_false (hbelow i (Nat.le_of_lt_succ (List.mem_range.1 hi)))

/-- The tile of an index. -/
def tileAt (counts : List ℕ) (height : ℕ) (range : TileRange) (k j : ℕ) : TileInfo :=
  { startCol := range.startCol
    startRow := exclusiveScan (rowsOfBatch counts) k + j * height
    endCol := range.endCol
    endRow := min (exclusiveScan (rowsOfBatch counts) k + (j + 1) * height - 1)
      (exclusiveScan (rowsOfBatch counts) (k + 1) - 1)
    batchNumber := k }

/-- Where the tiles of a batch start, among those of the range. -/
def tileStart (counts : List ℕ) (height k : ℕ) : ℕ :=
  exclusiveScan (tilesOfBatch counts height) k

/-- The tile of an index, whose batch is searched. -/
def nthTile (counts : List ℕ) (height : ℕ) (range : TileRange) (i : ℕ) : TileInfo :=
  let k := upperBound ((List.range counts.length).map (tileStart counts height)) i - 1
  tileAt counts height range k (i - tileStart counts height k)

/-- The tiles are numbered through the batches. -/
theorem buildTiles_eq : buildTiles (boundariesOf counts) height counts.sum range =
    (List.range (tileStart counts height counts.length)).map (nthTile counts height range) := by
  have hlen : (boundariesOf counts).length - 1 = counts.length := by
    unfold boundariesOf
    rw [List.length_map, List.length_range, Nat.add_sub_cancel]
  have hscan : ∀ k ≤ counts.length, exclusiveScan (fun b => divRoundingUp
      ((boundariesOf counts).getD (b + 1) 0 - (boundariesOf counts).getD b 0) height) k =
        tileStart counts height k := by
    intro k hk
    refine exclusiveScan_congr fun b hb => ?_
    unfold tilesOfBatch
    rw [getD_boundariesOf (by omega), getD_boundariesOf (by omega), exclusiveScan_succ,
      Nat.add_sub_cancel_left]
  have hstarts : (List.range counts.length).map (exclusiveScan fun b => divRoundingUp
      ((boundariesOf counts).getD (b + 1) 0 - (boundariesOf counts).getD b 0) height) =
        (List.range counts.length).map (tileStart counts height) :=
    List.map_congr_left fun k hk => hscan k (Nat.le_of_lt (List.mem_range.1 hk))
  unfold buildTiles nthTile
  dsimp only
  rw [hlen, hscan _ (Nat.le_refl _), hstarts]
  refine List.map_congr_left fun i hi => ?_
  obtain ⟨k, hk, j, hj, rfl⟩ := exists_segment (List.mem_range.1 hi)
  have hfound : upperBound ((List.range counts.length).map (tileStart counts height))
      (exclusiveScan (tilesOfBatch counts height) k + j) = k + 1 :=
    upperBound_exclusiveScan hk hj
  have hstart : ((List.range counts.length).map (tileStart counts height)).getD k 0 =
      tileStart counts height k := by
    rw [List.getD_eq_getElem?_getD, List.getElem?_map, List.getElem?_range hk]
    rfl
  have hle : exclusiveScan (rowsOfBatch counts) (k + 1) ≤ counts.sum := by
    rw [sum_eq_exclusiveScan]
    exact exclusiveScan_mono _ hk
  rw [hfound, Nat.add_sub_cancel, hstart, if_neg (by omega), getD_boundariesOf (Nat.le_of_lt hk),
    getD_boundariesOf hk, Nat.min_eq_right (Nat.sub_le_sub_right hle 1)]
  rfl

section Index

variable {k j : ℕ} (hk : k < counts.length) (hj : j < tilesOfBatch counts height k)
include hk hj

theorem nthTile_eq : nthTile counts height range (tileStart counts height k + j) =
    tileAt counts height range k j := by
  have hfound : upperBound ((List.range counts.length).map (tileStart counts height))
      (tileStart counts height k + j) = k + 1 := upperBound_exclusiveScan hk hj
  unfold nthTile
  rw [hfound, Nat.add_sub_cancel]
  dsimp only
  rw [Nat.add_sub_cancel_left]

theorem tileStart_add_lt : tileStart counts height k + j <
    tileStart counts height counts.length := by
  have hmono : tileStart counts height (k + 1) ≤ tileStart counts height counts.length :=
    exclusiveScan_mono _ hk
  have hsucc : tileStart counts height (k + 1) =
      tileStart counts height k + tilesOfBatch counts height k := exclusiveScan_succ _ _
  omega

end Index

theorem mem_buildTiles {tile : TileInfo} :
    tile ∈ buildTiles (boundariesOf counts) height counts.sum range ↔
      ∃ k < counts.length, ∃ j < tilesOfBatch counts height k,
        tile = tileAt counts height range k j := by
  rw [buildTiles_eq, List.mem_map]
  constructor
  · rintro ⟨i, hi, rfl⟩
    obtain ⟨k, hk, j, hj, rfl⟩ := exists_segment (List.mem_range.1 hi)
    exact ⟨k, hk, j, hj, nthTile_eq hk hj⟩
  · rintro ⟨k, hk, j, hj, rfl⟩
    exact ⟨_, List.mem_range.2 (tileStart_add_lt hk hj), nthTile_eq hk hj⟩

section

variable (hheight : 0 < height)
include hheight

/-- A tile of a batch starts in it. -/
theorem mul_lt_rowsOfBatch {k j : ℕ} (hj : j < tilesOfBatch counts height k) :
    j * height < rowsOfBatch counts k := by
  unfold tilesOfBatch divRoundingUp at hj
  have hmul := (Nat.lt_div_iff_mul_lt hheight).1 hj
  have hcomm : height * j = j * height := Nat.mul_comm _ _
  omega

/-- And a row of a batch is in one of its tiles. -/
theorem div_lt_tilesOfBatch {k r : ℕ} (hr : r < rowsOfBatch counts k) :
    r / height < tilesOfBatch counts height k := by
  unfold tilesOfBatch divRoundingUp
  refine (Nat.lt_div_iff_mul_lt hheight).2 ?_
  have hle := Nat.div_mul_le_self r height
  have hcomm : height * (r / height) = r / height * height := Nat.mul_comm _ _
  omega

/-- The rows of a tile are those of its batch whose quotient by the height is the tile's number. -/
theorem row_mem_tileAt_iff {k j k₀ r : ℕ} (hr : r < rowsOfBatch counts k₀)
    (hj : j < tilesOfBatch counts height k) :
    ((tileAt counts height range k j).startRow ≤ exclusiveScan (rowsOfBatch counts) k₀ + r ∧
      exclusiveScan (rowsOfBatch counts) k₀ + r ≤ (tileAt counts height range k j).endRow) ↔
      k = k₀ ∧ j = r / height := by
  have hdiv := Nat.div_add_mod r height
  have hmod := Nat.mod_lt r hheight
  have hcomm : height * (r / height) = r / height * height := Nat.mul_comm _ _
  have hsucc : ∀ i, (i + 1) * height = i * height + height := fun i => Nat.succ_mul i height
  have hscan := exclusiveScan_succ (rowsOfBatch counts) k
  have hinside := mul_lt_rowsOfBatch hheight hj
  constructor
  · rintro ⟨hstart, hend⟩
    unfold tileAt at hstart hend
    dsimp only at hstart hend
    have hrow : exclusiveScan (rowsOfBatch counts) k₀ + r =
        exclusiveScan (rowsOfBatch counts) k +
          (exclusiveScan (rowsOfBatch counts) k₀ + r - exclusiveScan (rowsOfBatch counts) k) := by
      omega
    obtain ⟨rfl, hoffset⟩ := segment_unique hr (by omega) hrow
    refine ⟨rfl, ?_⟩
    have hj' := hsucc j
    refine (Nat.div_eq_of_lt_le ?_ ?_).symm
    · omega
    · omega
  · rintro ⟨rfl, rfl⟩
    have hj' := hsucc (r / height)
    unfold tileAt
    dsimp only
    omega

/-- One tile of a range has the row, if there is such a row. -/
theorem countP_buildTiles {col : ℕ} (hrow : row < counts.sum) :
    (buildTiles (boundariesOf counts) height counts.sum range).countP
      (TileInfo.hasCell row col) = if range.startCol ≤ col ∧ col ≤ range.endCol then 1 else 0 := by
  rw [sum_eq_exclusiveScan] at hrow
  obtain ⟨k, hk, r, hr, rfl⟩ := exists_segment hrow
  rw [buildTiles_eq, List.countP_map]
  by_cases hcol : range.startCol ≤ col ∧ col ≤ range.endCol
  · have htile : r / height < tilesOfBatch counts height k := div_lt_tilesOfBatch hheight hr
    -- the tile with the row is the one with this index
    have hcongr : ∀ i ∈ List.range (tileStart counts height counts.length),
        ((TileInfo.hasCell (exclusiveScan (rowsOfBatch counts) k + r) col ∘
          nthTile counts height range) i = true ↔
        (i == tileStart counts height k + r / height) = true) := by
      intro i hi
      obtain ⟨k', hk', j, hj, rfl⟩ := exists_segment (List.mem_range.1 hi)
      have htileAt := @nthTile_eq counts height range k' j hk' hj
      have hiff := @row_mem_tileAt_iff counts height range hheight k' j k r hr hj
      rw [Function.comp_apply, beq_iff_eq]
      unfold tileStart at htileAt ⊢
      rw [htileAt]
      unfold TileInfo.hasCell
      simp only [Bool.and_eq_true, decide_eq_true_eq]
      rw [and_assoc, hiff]
      constructor
      · rintro ⟨-, rfl, rfl⟩
        rfl
      · intro h
        obtain ⟨rfl, rfl⟩ := segment_unique hj htile h
        exact ⟨hcol, rfl, rfl⟩
    rw [if_pos hcol, List.countP_congr hcongr]
    exact List.count_eq_one_of_mem List.nodup_range (List.mem_range.2 (tileStart_add_lt hk htile))
  · rw [if_neg hcol, List.countP_eq_zero]
    intro i _ hcell
    rw [Function.comp_apply] at hcell
    unfold TileInfo.hasCell at hcell
    simp only [Bool.and_eq_true, decide_eq_true_eq] at hcell
    exact hcol hcell.1.1

/-- A range that is not empty has a tile where there is a row. -/
theorem exists_mem_buildTiles (hrows : 0 < counts.sum) :
    ∃ tile ∈ buildTiles (boundariesOf counts) height counts.sum range,
      tile.startCol = range.startCol ∧ tile.endCol = range.endCol := by
  rw [sum_eq_exclusiveScan] at hrows
  obtain ⟨k, hk, r, hr, -⟩ := exists_segment hrows
  have htile : 0 < tilesOfBatch counts height k :=
    Nat.div_pos (by omega) hheight
  exact ⟨_, mem_buildTiles.2 ⟨k, hk, 0, htile, rfl⟩, rfl, rfl⟩

end

theorem cols_of_mem_buildTiles {tile : TileInfo}
    (h : tile ∈ buildTiles (boundariesOf counts) height counts.sum range) :
    tile.startCol = range.startCol ∧ tile.endCol = range.endCol := by
  obtain ⟨k, -, j, -, rfl⟩ := mem_buildTiles.1 h
  exact ⟨rfl, rfl⟩

end Build

/-! ### When the tiles cover the table -/

section Covers

variable {types : List ColumnType} {counts : List ℕ} {limit : ℕ}

theorem heightOf_pos (hfirst : 0 < counts.headD 0) : 0 < heightOf counts limit := by
  unfold heightOf tileHeight clamp
  dsimp only
  split_ifs <;> omega

theorem sum_pos_of_headD (hfirst : 0 < counts.headD 0) : 0 < counts.sum := by
  cases counts with
  | nil => exact absurd hfirst (Nat.lt_irrefl 0)
  | cons n counts =>
    rw [List.headD_cons] at hfirst
    rw [List.sum_cons]
    omega

/-- The height of tiles, from the root of the limit. -/
theorem heightOf_of_sqrt (root : ℕ) (hle : root * root ≤ limit)
    (hlt : limit < (root + 1) * (root + 1)) : heightOf counts limit =
      clamp (roundUp (min (root / 32) counts.sum) 32) 1 (counts.headD 0) := by
  have hroot : Nat.sqrt limit = root := (Nat.eq_sqrt.2 ⟨hle, hlt⟩).symm
  unfold heightOf tileHeight
  rw [hroot]

/-- The ranges the loop ends with are good where the columns pack. -/
theorem goodRanges_iff
    (hone : ∀ t ∈ types, FitsTile (heightOf counts limit) limit t.colSize) :
    GoodRanges types (heightOf counts limit) limit 0 (tileRanges types counts limit) ↔
      Packs (heightOf counts limit) limit false 0 0 0 (columns types) := by
  rw [tileRanges_eq]
  cases types with
  | nil =>
    exact iff_of_true ⟨rfl, fun r hr => absurd hr List.not_mem_nil⟩ (.done fun h => absurd h (by decide))
  | cons t types =>
    have hfit : FitsTile (heightOf counts limit) limit
        (grow 0 ⟨roundUp 0 t.alignmentNeeded, t.colSize⟩) := by
      rw [grow, roundUp_zero t.colSize, Nat.zero_add]
      exact hone t List.mem_cons_self
    have hget : (columns (t :: types))[0]? = some ⟨roundUp 0 t.alignmentNeeded, t.colSize⟩ := rfl
    have hopen : OpenTile (t :: types) (heightOf counts limit) limit 1 0 false 0
        (roundUp 0 t.alignmentNeeded + t.colSize) (roundUp 0 t.colSize + t.colSize) :=
      { start_lt := Nat.one_pos
        start_eq := (columnStarts_getD hget).trans (roundUp_zero t.alignmentNeeded)
        stop_eq := by rw [Nat.sub_self, colStart, colBytes, columnStarts_getD hget, columnSizes_getD hget]
        notRestarted := fun _ => ⟨rfl, by rw [roundUp_zero, roundUp_zero], hfit⟩ }
    rw [columns, columnsFrom, rangesFrom, if_pos hfit, packs_cons_of_fits hfit]
    exact goodRanges_iff_packs rfl (Nat.add_comm _ _) hopen (.inr rfl)

theorem getSharedRowSize_eq {tile : TileInfo} {range : TileRange}
    (h : tile.startCol = range.startCol ∧ tile.endCol = range.endCol) :
    tile.getSharedRowSize (computeColumnInformation types).columnStarts
      (computeColumnInformation types).columnSizes =
        roundUp (rangeBytes types range) jcudfRowAlignment := by
  unfold TileInfo.getSharedRowSize rangeBytes
  rw [h.1, h.2]

/-- Where the ranges are a partition of the columns, a cell is in one tile. -/
theorem countP_tileInfos (hfirst : 0 < counts.headD 0)
    (h : (tileRanges types counts limit).flatMap TileRange.cols = List.range types.length)
    {row col : ℕ} (hrow : row < counts.sum) (hcol : col < types.length) :
    (tileInfos types counts limit).countP (TileInfo.hasCell row col) = 1 := by
  have hcount := congrArg (List.count col) h
  rw [List.count_eq_one_of_mem List.nodup_range (List.mem_range.2 hcol), List.count_flatMap] at hcount
  unfold tileInfos
  rw [List.countP_flatMap, ← hcount]
  refine congrArg List.sum (List.map_congr_left fun range _ => ?_)
  rw [Function.comp_apply, Function.comp_apply, countP_buildTiles (heightOf_pos hfirst) hrow]
  unfold TileRange.cols
  rw [List.Nodup.count List.nodup_range']
  refine if_congr ?_ rfl rfl
  rw [List.mem_range'_1]
  omega

/-- The tiles cover the table within the shared memory exactly where the columns pack. -/
theorem covers_iff (types : List ColumnType) (counts : List ℕ) (limit : ℕ)
    (hfirst : 0 < counts.headD 0)
    (hone : ∀ t ∈ types,
      roundUp t.colSize jcudfRowAlignment * heightOf counts limit ≤ limit) :
    Covers types counts limit ↔
      Packs (heightOf counts limit) limit false 0 0 0 (columns types) := by
  rw [← goodRanges_iff hone]
  constructor
  · rintro ⟨hpart, hfits, -⟩
    refine ⟨?_, fun range hrange => ?_⟩
    · rw [hpart, Nat.sub_zero, List.range_eq_range']
    · obtain ⟨tile, htile, hcols⟩ := @exists_mem_buildTiles counts (heightOf counts limit) range
        (heightOf_pos hfirst) (sum_pos_of_headD hfirst)
      have hfit := hfits tile (List.mem_flatMap.2 ⟨range, hrange, htile⟩)
      rw [getSharedRowSize_eq hcols, Nat.mul_comm] at hfit
      exact hfit
  · rintro ⟨hpart, hfits⟩
    rw [Nat.sub_zero, ← List.range_eq_range'] at hpart
    refine ⟨hpart, fun tile htile => ?_, fun row hrow col hcol => ?_⟩
    · obtain ⟨range, hrange, htile⟩ := List.mem_flatMap.1 htile
      rw [getSharedRowSize_eq (cols_of_mem_buildTiles htile), Nat.mul_comm]
      exact hfits range hrange
    · exact countP_tileInfos hfirst hpart hrow hcol

/-- Four columns of eight bytes in two batches, in tiles of two columns and one row. -/
theorem covers_iff_fourColumns : Covers (List.replicate 4 (.fixedWidth 8)) [2, 3] 16 := by
  have hheight : heightOf [2, 3] 16 = 1 := heightOf_of_sqrt 4 (by decide) (by decide)
  refine (covers_iff (List.replicate 4 (.fixedWidth 8)) [2, 3] 16 (by decide) ?_).2 ?_
  · rw [hheight]
    decide
  · rw [hheight]
    refine .join (by decide) (.join (by decide) (.opens (by decide) (by decide) (by decide) ?_))
    exact .join (by decide) (.done fun _ => by decide)

/-- With 48 KB of shared memory, 192 columns of eight bytes do not fit into a tile of 32 rows: the last
one opens a tile, and no tile has it. And a tile of 24 bytes is taken for one of 16, since it is
opened by a four-byte column that ends at a multiple of eight. -/
theorem not_covers_lastColumn :
    ¬Covers (List.replicate 192 (.fixedWidth 8)) [32] 49136 ∧
      ¬Covers [.fixedWidth 4, .compound, .fixedWidth 4, .fixedWidth 1, .fixedWidth 8] [1] 16 := by
  have hheight : heightOf [32] 49136 = 32 := by
    rw [heightOf_of_sqrt 221 (by norm_num) (by norm_num)]
    decide
  have hheight' : heightOf [1] 16 = 1 := heightOf_of_sqrt 4 (by decide) (by decide)
  constructor
  · intro h
    have hranges : tileRanges (List.replicate 192 (.fixedWidth 8)) [32] 49136 = [⟨0, 190⟩] := by
      unfold tileRanges
      rw [hheight]
      decide +kernel
    have hpart := congrArg List.length h.partition
    rw [hranges, List.length_replicate, List.length_range, List.flatMap_singleton] at hpart
    unfold TileRange.cols at hpart
    rw [List.length_range'] at hpart
    dsimp only at hpart
    omega
  · intro h
    have hranges : tileRanges [.fixedWidth 4, .compound, .fixedWidth 4, .fixedWidth 1, .fixedWidth 8]
        [1] 16 = [⟨0, 1⟩, ⟨2, 4⟩] := by
      unfold tileRanges
      rw [hheight']
      decide
    obtain ⟨tile, htile, hcols⟩ := @exists_mem_buildTiles [1] 1 ⟨2, 4⟩ (by decide) (by decide)
    have hmem : tile ∈ tileInfos
        [.fixedWidth 4, .compound, .fixedWidth 4, .fixedWidth 1, .fixedWidth 8] [1] 16 := by
      unfold tileInfos
      rw [hranges, hheight']
      exact List.mem_flatMap.2 ⟨⟨2, 4⟩, by decide, htile⟩
    have hfit := h.fits tile hmem
    rw [getSharedRowSize_eq hcols, hheight'] at hfit
    exact absurd hfit (by decide)

end Covers

end SparkRapids.RowConversion
