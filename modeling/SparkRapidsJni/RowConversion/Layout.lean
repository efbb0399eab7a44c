import Mathlib

/-!
# `row_conversion.cu`: the layout of a row

The columns of a row lie one behind the other, each at a multiple of its alignment, and behind the
last one is the validity. `compute_column_information` computes where: `columnsFrom` is the same by
recursion on the columns, and what is known about the layout is proved of it.
-/

namespace SparkRapids.RowConversion

/-- `JCUDF_ROW_ALIGNMENT` -/
def jcudfRowAlignment : ℕ := 8

/-! ### Rounding up -/

/-- `util::round_up_unsafe` -/
def roundUp (number modulus : ℕ) : ℕ :=
  if number % modulus = 0 then number else number - number % modulus + modulus

/-- `util::div_rounding_up_unsafe` -/
def divRoundingUp (dividend divisor : ℕ) : ℕ := (dividend + divisor - 1) / divisor

section RoundUp

variable {n m a b : ℕ}

theorem roundUp_zero (a : ℕ) : roundUp 0 a = 0 := if_pos (Nat.zero_mod a)

theorem le_roundUp (ha : 0 < a) : n ≤ roundUp n a := by
  have hlt := Nat.mod_lt n ha
  have hle := Nat.mod_le n a
  unfold roundUp
  split_ifs <;> omega

theorem dvd_roundUp (n a : ℕ) : a ∣ roundUp n a := by
  unfold roundUp
  split_ifs with h
  · exact Nat.dvd_of_mod_eq_zero h
  · exact Nat.dvd_add (Nat.dvd_sub_mod n) (Nat.dvd_refl a)

/-- It is the least multiple that is not below. -/
theorem roundUp_le (hdvd : a ∣ m) (hle : n ≤ m) : roundUp n a ≤ m := by
  unfold roundUp
  split_ifs with h
  · exact hle
  · obtain ⟨q, rfl⟩ := hdvd
    have hdiv : n / a < q := by
      refine Nat.lt_of_mul_lt_mul_left (a := a) ?_
      have hsplit := Nat.div_add_mod n a
      omega
    have hsplit := Nat.div_add_mod n a
    calc n - n % a + a = a * (n / a) + a := by omega
      _ = a * (n / a + 1) := (Nat.mul_succ _ _).symm
      _ ≤ a * q := Nat.mul_le_mul_left a hdiv

theorem roundUp_mono (ha : 0 < a) (h : n ≤ m) : roundUp n a ≤ roundUp m a :=
  roundUp_le (dvd_roundUp m a) (Nat.le_trans h (le_roundUp ha))

/-- A coarser alignment rounds up further. -/
theorem roundUp_le_roundUp (hb : 0 < b) (hdvd : a ∣ b) : roundUp n a ≤ roundUp n b :=
  roundUp_le (Nat.dvd_trans hdvd (dvd_roundUp n b)) (le_roundUp hb)

theorem roundUp_lt (ha : 0 < a) : roundUp n a < n + a := by
  have hlt := Nat.mod_lt n ha
  have hle := Nat.mod_le n a
  unfold roundUp
  split_ifs <;> omega

end RoundUp

/-! ### Columns -/

/-- What the layout asks of a column's type: is it a string or a list, or how many bytes has it? -/
inductive ColumnType where
  | compound
  | fixedWidth (size : ℕ+)
  deriving DecidableEq

namespace ColumnType

/-- `col_size`: a compound column writes an offset and a length. -/
def colSize : ColumnType → ℕ
  | .compound => 8
  | .fixedWidth size => size

/-- `alignment_needed` -/
def alignmentNeeded : ColumnType → ℕ
  | .compound => 4
  | .fixedWidth size => size

/-- `is_compound` -/
def isCompound : ColumnType → Bool
  | .compound => true
  | .fixedWidth _ => false

theorem colSize_pos (t : ColumnType) : 0 < t.colSize := by
  cases t with
  | compound => decide
  | fixedWidth size => exact size.pos

theorem alignmentNeeded_pos (t : ColumnType) : 0 < t.alignmentNeeded := by
  cases t with
  | compound => decide
  | fixedWidth size => exact size.pos

theorem alignmentNeeded_dvd_colSize (t : ColumnType) : t.alignmentNeeded ∣ t.colSize := by
  cases t with
  | compound => decide
  | fixedWidth size => exact Nat.dvd_refl _

end ColumnType

/-- `column_info_s` -/
structure ColumnInfo where
  sizePerRow : ℕ
  columnStarts : List ℕ
  columnSizes : List ℕ
  variableWidthColumnStarts : List ℕ
  deriving DecidableEq

/-- One turn of the loop in `compute_column_information`. -/
def ColumnInfo.addColumn (info : ColumnInfo) (colType : ColumnType) : ColumnInfo :=
  let sizePerRow := roundUp info.sizePerRow colType.alignmentNeeded
  { sizePerRow := sizePerRow + colType.colSize
    columnStarts := info.columnStarts ++ [sizePerRow]
    columnSizes := info.columnSizes ++ [colType.colSize]
    variableWidthColumnStarts :=
      info.variableWidthColumnStarts ++ if colType.isCompound then [sizePerRow] else [] }

/-- `compute_column_information`: the validity offset is behind the starts of the columns. -/
def computeColumnInformation (types : List ColumnType) : ColumnInfo :=
  let info := types.foldl ColumnInfo.addColumn ⟨0, [], [], []⟩
  { info with
    sizePerRow := info.sizePerRow + divRoundingUp types.length 8
    columnStarts := info.columnStarts ++ [info.sizePerRow] }

/-- A column in a row. -/
structure Column where
  start : ℕ
  size : ℕ
  deriving DecidableEq

/-- Where a column ends. -/
def Column.stop (c : Column) : ℕ := c.start + c.size

/-- The columns of a row from a position on. -/
def columnsFrom (position : ℕ) : List ColumnType → List Column
  | [] => []
  | t :: types =>
    let start := roundUp position t.alignmentNeeded
    ⟨start, t.colSize⟩ :: columnsFrom (start + t.colSize) types

/-- Where the columns of a row end. -/
def columnsEnd (position : ℕ) : List ColumnType → ℕ
  | [] => position
  | t :: types => columnsEnd (roundUp position t.alignmentNeeded + t.colSize) types

/-- The columns of a row. -/
def columns (types : List ColumnType) : List Column := columnsFrom 0 types

/-- The columns of a row that are strings or lists, from a position on. -/
def variableColumnsFrom (position : ℕ) : List ColumnType → List Column
  | [] => []
  | t :: types =>
    let start := roundUp position t.alignmentNeeded
    (if t.isCompound then [⟨start, t.colSize⟩] else []) ++
      variableColumnsFrom (start + t.colSize) types

section Columns

variable (types : List ColumnType) (col : ℕ)

/-- Where a column of a row starts, and with the number of the columns where the validity does. -/
abbrev colStart : ℕ := (computeColumnInformation types).columnStarts.getD col 0

/-- The bytes of a column of a row. -/
abbrev colBytes : ℕ := (computeColumnInformation types).columnSizes.getD col 0

end Columns

section Columns

variable {types : List ColumnType} {position k : ℕ} {c : Column}

theorem length_columnsFrom (position : ℕ) (types : List ColumnType) :
    (columnsFrom position types).length = types.length := by
  induction types generalizing position with
  | nil => rfl
  | cons t types ih => exact congrArg (· + 1) (ih _)

theorem foldl_addColumn (info : ColumnInfo) (types : List ColumnType) :
    (types.foldl ColumnInfo.addColumn info).sizePerRow = columnsEnd info.sizePerRow types ∧
    (types.foldl ColumnInfo.addColumn info).columnStarts =
      info.columnStarts ++ (columnsFrom info.sizePerRow types).map Column.start ∧
    (types.foldl ColumnInfo.addColumn info).columnSizes =
      info.columnSizes ++ (columnsFrom info.sizePerRow types).map Column.size := by
  induction types generalizing info with
  | nil => exact ⟨rfl, (List.append_nil _).symm, (List.append_nil _).symm⟩
  | cons t types ih =>
    obtain ⟨hsize, hstarts, hsizes⟩ := ih (info.addColumn t)
    refine ⟨hsize, ?_, ?_⟩
    · rw [List.foldl_cons, hstarts]
      exact List.append_assoc _ _ _
    · rw [List.foldl_cons, hsizes]
      exact List.append_assoc _ _ _

theorem columnStarts_eq (types : List ColumnType) :
    (computeColumnInformation types).columnStarts =
      (columns types).map Column.start ++ [columnsEnd 0 types] := by
  obtain ⟨hsize, hstarts, -⟩ := foldl_addColumn ⟨0, [], [], []⟩ types
  show (types.foldl ColumnInfo.addColumn ⟨0, [], [], []⟩).columnStarts ++
    [(types.foldl ColumnInfo.addColumn ⟨0, [], [], []⟩).sizePerRow] = _
  rw [hstarts, hsize]
  rfl

theorem columnSizes_eq (types : List ColumnType) :
    (computeColumnInformation types).columnSizes = (columns types).map Column.size := by
  obtain ⟨-, -, hsizes⟩ := foldl_addColumn ⟨0, [], [], []⟩ types
  exact hsizes

theorem sizePerRow_eq (types : List ColumnType) :
    (computeColumnInformation types).sizePerRow =
      columnsEnd 0 types + divRoundingUp types.length 8 := by
  obtain ⟨hsize, -, -⟩ := foldl_addColumn ⟨0, [], [], []⟩ types
  exact congrArg (· + divRoundingUp types.length 8) hsize

theorem columnStarts_getD (h : (columns types)[k]? = some c) :
    (computeColumnInformation types).columnStarts.getD k 0 = c.start := by
  obtain ⟨hk, -⟩ := List.getElem?_eq_some_iff.1 h
  rw [columnStarts_eq, List.getD_append _ _ _ _ (by rwa [List.length_map]),
    List.getD_eq_getElem?_getD, List.getElem?_map, h]
  rfl

theorem columnSizes_getD (h : (columns types)[k]? = some c) :
    (computeColumnInformation types).columnSizes.getD k 0 = c.size := by
  rw [columnSizes_eq, List.getD_eq_getElem?_getD, List.getElem?_map, h]
  rfl

section

variable (h : c ∈ columnsFrom position types)
include h

theorem start_mem_columnsFrom : position ≤ c.start := by
  induction types generalizing position with
  | nil => exact absurd h List.not_mem_nil
  | cons t types ih =>
    have hle := le_roundUp (n := position) t.alignmentNeeded_pos
    rcases List.mem_cons.1 h with rfl | h
    · exact hle
    · have hnext := ih h
      omega

theorem stop_mem_columnsFrom : c.stop ≤ columnsEnd position types := by
  induction types generalizing position with
  | nil => exact absurd h List.not_mem_nil
  | cons t types ih =>
    rcases List.mem_cons.1 h with rfl | h
    · -- the columns behind this one do not end before it
      have hend : ∀ (ts : List ColumnType) (p : ℕ), p ≤ columnsEnd p ts := by
        intro ts
        induction ts with
        | nil => exact fun p => Nat.le_refl p
        | cons t ts ih =>
          intro p
          have hle := le_roundUp (n := p) t.alignmentNeeded_pos
          have hnext := ih (roundUp p t.alignmentNeeded + t.colSize)
          exact Nat.le_trans (by omega) hnext
      exact hend _ _
    · exact ih h

theorem size_pos_columnsFrom : 0 < c.size := by
  induction types generalizing position with
  | nil => exact absurd h List.not_mem_nil
  | cons t types ih =>
    rcases List.mem_cons.1 h with rfl | h
    · exact t.colSize_pos
    · exact ih h

end

/-- A column ends before the ones behind it start. -/
theorem pairwise_columnsFrom (position : ℕ) (types : List ColumnType) :
    (columnsFrom position types).Pairwise fun c d => c.stop ≤ d.start := by
  induction types generalizing position with
  | nil => exact List.Pairwise.nil
  | cons t types ih => exact List.Pairwise.cons (fun d hd => start_mem_columnsFrom hd) (ih _)

theorem getElem?_columns (h : k < types.length) : ∃ c, (columns types)[k]? = some c ∧ c ∈ columns types := by
  have hk : k < (columns types).length := by
    show k < (columnsFrom 0 types).length
    rwa [length_columnsFrom]
  exact ⟨_, List.getElem?_eq_getElem hk, List.getElem_mem hk⟩

theorem columnSizes_pos (h : k < types.length) : 0 < colBytes types k := by
  obtain ⟨c, hc, hmem⟩ := getElem?_columns h
  rw [colBytes, columnSizes_getD hc]
  exact size_pos_columnsFrom hmem

/-- The columns lie one behind the other. -/
theorem stop_le_start {j : ℕ} (hjk : j < k) (hk : k < types.length) :
    colStart types j + colBytes types j ≤ colStart types k := by
  obtain ⟨c, hc, -⟩ := getElem?_columns (Nat.lt_trans hjk hk)
  obtain ⟨d, hd, -⟩ := getElem?_columns hk
  rw [colStart, colBytes, columnStarts_getD hc, columnSizes_getD hc, colStart, columnStarts_getD hd]
  obtain ⟨hj, rfl⟩ := List.getElem?_eq_some_iff.1 hc
  obtain ⟨hk', rfl⟩ := List.getElem?_eq_some_iff.1 hd
  exact List.pairwise_iff_getElem.1 (pairwise_columnsFrom 0 types) j k hj hk' hjk

theorem start_le_start {j : ℕ} (hjk : j ≤ k) (hk : k < types.length) :
    colStart types j ≤ colStart types k := by
  rcases Nat.eq_or_lt_of_le hjk with rfl | hlt
  · exact Nat.le_refl _
  · exact Nat.le_trans (Nat.le_add_right _ _) (stop_le_start hlt hk)

theorem stop_le_sizePerRow (h : k < types.length) :
    colStart types k + colBytes types k ≤ (computeColumnInformation types).sizePerRow := by
  obtain ⟨c, hc, hmem⟩ := getElem?_columns h
  rw [colStart, colBytes, columnStarts_getD hc, columnSizes_getD hc, sizePerRow_eq]
  exact Nat.le_trans (stop_mem_columnsFrom hmem) (Nat.le_add_right _ _)

/-! ### The columns of variable width -/

theorem foldl_addColumn_variable (info : ColumnInfo) (types : List ColumnType) :
    (types.foldl ColumnInfo.addColumn info).variableWidthColumnStarts =
      info.variableWidthColumnStarts ++
        (variableColumnsFrom info.sizePerRow types).map Column.start := by
  induction types generalizing info with
  | nil => exact (List.append_nil _).symm
  | cons t types ih =>
    rw [List.foldl_cons, ih (info.addColumn t)]
    cases t with
    | compound => exact List.append_assoc _ _ _
    | fixedWidth size => exact List.append_assoc _ _ _

theorem variableWidthColumnStarts_eq (types : List ColumnType) :
    (computeColumnInformation types).variableWidthColumnStarts =
      (variableColumnsFrom 0 types).map Column.start :=
  foldl_addColumn_variable ⟨0, [], [], []⟩ types

theorem sublist_variableColumnsFrom (position : ℕ) (types : List ColumnType) :
    (variableColumnsFrom position types).Sublist (columnsFrom position types) := by
  induction types generalizing position with
  | nil => exact List.Sublist.refl _
  | cons t types ih =>
    unfold variableColumnsFrom columnsFrom
    cases t with
    | compound => exact (ih _).cons_cons _
    | fixedWidth size => exact (ih _).cons _

theorem length_variableColumnsFrom (position : ℕ) (types : List ColumnType) :
    (variableColumnsFrom position types).length = types.countP ColumnType.isCompound := by
  induction types generalizing position with
  | nil => rfl
  | cons t types ih =>
    unfold variableColumnsFrom
    rw [List.length_append, ih]
    cases t with
    | compound => exact (Nat.add_comm _ _).trans (List.countP_cons_of_pos rfl).symm
    | fixedWidth size =>
      rw [List.countP_cons_of_neg Bool.false_ne_true]
      exact Nat.zero_add _

theorem size_variableColumnsFrom (h : c ∈ variableColumnsFrom position types) : c.size = 8 := by
  induction types generalizing position with
  | nil => exact absurd h List.not_mem_nil
  | cons t types ih =>
    rcases List.mem_append.1 h with h | h
    · cases t with
      | compound =>
        obtain rfl := List.mem_singleton.1 h
        rfl
      | fixedWidth size => exact absurd h List.not_mem_nil
    · exact ih h

/-- There is a place in the row for each column of variable width. -/
theorem getElem?_variableColumns (h : k < types.countP ColumnType.isCompound) :
    ∃ c, (variableColumnsFrom 0 types)[k]? = some c ∧ c ∈ columns types ∧ c.size = 8 ∧
      (computeColumnInformation types).variableWidthColumnStarts.getD k 0 = c.start := by
  rw [← length_variableColumnsFrom 0] at h
  have hmem := List.getElem_mem h
  refine ⟨_, List.getElem?_eq_getElem h, (sublist_variableColumnsFrom 0 types).subset hmem,
    size_variableColumnsFrom hmem, ?_⟩
  rw [variableWidthColumnStarts_eq, List.getD_eq_getElem?_getD, List.getElem?_map,
    List.getElem?_eq_getElem h]
  rfl

theorem variableStart_le_sizePerRow (h : k < types.countP ColumnType.isCompound) :
    (computeColumnInformation types).variableWidthColumnStarts.getD k 0 + 8 ≤
      (computeColumnInformation types).sizePerRow := by
  obtain ⟨c, -, hmem, hsize, hstart⟩ := getElem?_variableColumns h
  have hstop := stop_mem_columnsFrom hmem
  unfold Column.stop at hstop
  rw [hstart, sizePerRow_eq]
  omega

theorem variableStart_apart {j : ℕ} (hjk : j < k) (hk : k < types.countP ColumnType.isCompound) :
    (computeColumnInformation types).variableWidthColumnStarts.getD j 0 + 8 ≤
      (computeColumnInformation types).variableWidthColumnStarts.getD k 0 := by
  obtain ⟨c, hc, -, hsize, hstart⟩ := getElem?_variableColumns (Nat.lt_trans hjk hk)
  obtain ⟨d, hd, -, -, hstart'⟩ := getElem?_variableColumns hk
  obtain ⟨hj, rfl⟩ := List.getElem?_eq_some_iff.1 hc
  obtain ⟨hk', rfl⟩ := List.getElem?_eq_some_iff.1 hd
  have hpairs := (pairwise_columnsFrom 0 types).sublist (sublist_variableColumnsFrom 0 types)
  rw [hstart, hstart', ← hsize]
  exact List.pairwise_iff_getElem.1 hpairs j k hj hk' hjk

end Columns

/-! ### Tiles -/

/-- `tile_info` -/
structure TileInfo where
  startCol : ℕ
  startRow : ℕ
  endCol : ℕ
  endRow : ℕ
  batchNumber : ℕ
  deriving DecidableEq

namespace TileInfo

variable (tile : TileInfo)

/-- `get_shared_row_size` -/
def getSharedRowSize (colOffsets colSizes : List ℕ) : ℕ :=
  roundUp (colOffsets.getD tile.endCol 0 + colSizes.getD tile.endCol 0 -
    colOffsets.getD tile.startCol 0) jcudfRowAlignment

/-- `num_cols` -/
def numCols : ℕ := tile.endCol - tile.startCol + 1

/-- `num_rows` -/
def numRows : ℕ := tile.endRow - tile.startRow + 1

end TileInfo

end SparkRapids.RowConversion
