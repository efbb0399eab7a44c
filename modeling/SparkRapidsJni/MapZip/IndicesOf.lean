import SparkRapidsJni.Cudf.Lists

/-!
# Positions of keys in lists

`indices_of` compares every key of a row with every value of the row, all comparisons of all rows in one
index space. The key and the row of a comparison are recovered from the prefix sums
(`keyIndex_eq`, `valOffsets_eq`). The position of the value is the remainder by the first comparison of
the key, which is the position of the comparison only where the key has no more values than there are
comparisons before it (`valuesIdx_eq`).

The comparisons are made in any order. A column is not sliced, and an `int` is an unbounded integer.
-/

namespace SparkRapids.MapZip

open Cudf (LabelSegments labelSegments labelSegments_exclusiveScan)
open PrefixSums

/-- A column of lists: whether a row is valid, and the elements of its segment of the child column. -/
structure ListsColumn (α : Type*) where
  rows : List (Bool × List α)

namespace ListsColumn

variable {α : Type*} (column : ListsColumn α)

def size : ℕ := column.rows.length

def isValid (r : ℕ) : Bool := (column.rows.getD r (false, [])).1

def row (r : ℕ) : List α := (column.rows.getD r (false, [])).2

/-- `offsets_begin` -/
def offsets (r : ℕ) : ℕ := exclusiveScan (fun r => (column.row r).length) r

def child : List α := column.rows.flatMap (·.2)

/-- `count_elements` -/
def countElements (r : ℕ) : Option ℕ := if column.isValid r then some (column.row r).length else none

end ListsColumn

section Model

variable {α : Type*} [DecidableEq α] [LabelSegments] (searchKeys searchValues : ListsColumn α)

/-- `keys_labels` -/
def keysLabels (idx : ℕ) : ℕ := labelSegments searchKeys.offsets searchKeys.size idx

/-- `search_key_to_num_search_values` -/
def searchKeyToNumSearchValues (idx : ℕ) : ℕ :=
  if idx < searchKeys.child.length then
    match searchValues.countElements (keysLabels searchKeys idx) with
    | some n => n
    | none => 0
  else 0

/-- `values_sizes_offsets` -/
def valuesSizesOffsets (k : ℕ) : ℕ :=
  exclusiveScan (searchKeyToNumSearchValues searchKeys searchValues) k

/-- `total_compares_per_row` -/
def totalComparesPerRow (r : ℕ) : ℕ :=
  if r ≥ searchValues.size then 0
  else
    match searchKeys.countElements r, searchValues.countElements r with
    | some k, some n => k * n
    | _, _ => 0

/-- `total_compares_offsets` -/
def totalComparesOffsets (r : ℕ) : ℕ := exclusiveScan (totalComparesPerRow searchKeys searchValues) r

/-- `total_compares` -/
def totalCompares : ℕ := totalComparesOffsets searchKeys searchValues searchValues.size

/-- `key_index` -/
def keyIndex (idx : ℕ) : ℕ :=
  labelSegments (valuesSizesOffsets searchKeys searchValues) searchKeys.child.length idx

/-- `val_offsets` -/
def valOffsets (idx : ℕ) : ℕ :=
  labelSegments (totalComparesOffsets searchKeys searchValues) searchValues.size idx

/-- `values_idx` -/
def valuesIdx (idx : ℕ) : ℕ :=
  let start := valuesSizesOffsets searchKeys searchValues (keyIndex searchKeys searchValues idx)
  if start > 0 then
    -- the offset of the size of the rows before is added
    idx % start + searchValues.offsets (valOffsets searchKeys searchValues idx)
  else idx

/-- A comparison: the index of an equal value is written for the key. -/
def compare (results : ℕ → ℤ) (idx : ℕ) : ℕ → ℤ :=
  match searchValues.child[valuesIdx searchKeys searchValues idx]?,
    searchKeys.child[keyIndex searchKeys searchValues idx]? with
  | some value, some key =>
    if value = key then
      Function.update results (keyIndex searchKeys searchValues idx)
        (valuesIdx searchKeys searchValues idx -
          searchValues.offsets (valOffsets searchKeys searchValues idx))
    else results
  | _, _ => results

/-- `indices_of`: what the comparisons leave, in any order. -/
def IndicesOf (results : ℕ → ℤ) : Prop :=
  ∃ order : List ℕ, order.Perm (List.range (totalCompares searchKeys searchValues)) ∧
    results = order.foldl (compare searchKeys searchValues)
      fun _ => -(totalCompares searchKeys searchValues : ℤ) - 1

end Model

/-! ### Columns -/

section Columns

variable {α : Type*} {column : ListsColumn α} {r p : ℕ}

namespace ListsColumn

theorem row_of_le (h : column.size ≤ r) : column.row r = [] := by
  unfold row
  rw [List.getD_eq_default _ _ h]

theorem offsets_size (column : ListsColumn α) : column.offsets column.size = column.child.length := by
  obtain ⟨rows⟩ := column
  simp only [offsets, size, child, row]
  induction rows with
  | nil => rfl
  | cons x rows ih =>
    rw [List.length_cons, exclusiveScan, Finset.sum_range_succ', List.flatMap_cons, List.length_append]
    simp only [List.getD_cons_succ, List.getD_cons_zero]
    rw [← ih, Nat.add_comm]
    rfl

/-- A segment of the child column is a row. -/
theorem getElem?_child (hr : r < column.size) (hp : p < (column.row r).length) :
    column.child[column.offsets r + p]? = (column.row r)[p]? := by
  obtain ⟨rows⟩ := column
  simp only [offsets, size, child, row] at *
  induction rows generalizing r with
  | nil => exact absurd hr (Nat.not_lt_zero r)
  | cons x rows ih =>
    rw [List.flatMap_cons]
    cases r with
    | zero =>
      simp only [exclusiveScan, Finset.sum_range_zero, Nat.zero_add, List.getD_cons_zero] at *
      exact List.getElem?_append_left hp
    | succ r =>
      simp only [exclusiveScan, Finset.sum_range_succ', List.getD_cons_succ, List.getD_cons_zero] at *
      rw [Nat.add_right_comm, List.getElem?_append_right (Nat.le_add_left ..), Nat.add_sub_cancel]
      exact ih (Nat.lt_of_succ_lt_succ hr) hp

theorem offsets_add_lt (hp : p < (column.row r).length) :
    column.offsets r + p < column.child.length := by
  have hr : r < column.size := by
    by_contra hle
    rw [row_of_le (not_lt.1 hle)] at hp
    exact absurd hp (Nat.not_lt_zero p)
  have hmono := exclusiveScan_mono (fun r => (column.row r).length) (show r + 1 ≤ column.size from hr)
  rw [exclusiveScan_succ] at hmono
  have hsize := column.offsets_size
  unfold offsets at *
  omega

end ListsColumn

end Columns

/-! ### Comparisons -/

section Comparisons

variable {α : Type*} {keys values : ListsColumn α} {r j i : ℕ}

/-- The keys to search for: where a row is null it has none, and the values of the other rows are
valid. -/
structure Searchable (keys values : ListsColumn α) : Prop where
  size_eq : keys.size = values.size
  row_of_null : ∀ r, keys.isValid r = false → keys.row r = []
  isValid : ∀ r < keys.size, keys.isValid r → values.isValid r

/-- The number of values that a key of a row is compared with. -/
def numValues (values : ListsColumn α) (r : ℕ) : ℕ := (values.countElements r).getD 0

/-- The number of comparisons of the keys before a key. -/
def comparesBefore (keys values : ListsColumn α) (r j : ℕ) : ℕ :=
  exclusiveScan (fun r => (keys.row r).length * numValues values r) r +
    j * numValues values r

theorem lt_size (hj : j < (keys.row r).length) : r < keys.size := by
  by_contra hle
  rw [ListsColumn.row_of_le (not_lt.1 hle)] at hj
  exact absurd hj (Nat.not_lt_zero j)

section

variable (h : Searchable keys values)
include h

theorem totalComparesPerRow_eq (r : ℕ) :
    totalComparesPerRow keys values r =
      (keys.row r).length * numValues values r := by
  unfold totalComparesPerRow numValues
  split_ifs with hr
  · rw [ListsColumn.row_of_le (h.size_eq.trans_le hr), List.length_nil, Nat.zero_mul]
  · by_cases hvalid : keys.isValid r
    · rw [ListsColumn.countElements, if_pos hvalid]
      cases values.countElements r <;> rfl
    · rw [h.row_of_null r (by simpa using hvalid), ListsColumn.countElements, if_neg hvalid]
      simp

theorem totalComparesOffsets_eq (r : ℕ) :
    totalComparesOffsets keys values r =
      exclusiveScan (fun r => (keys.row r).length * numValues values r) r :=
  exclusiveScan_congr fun r _ => totalComparesPerRow_eq h r

/-- Every comparison is one of a key with a value. -/
theorem exists_comparison {idx : ℕ} (hidx : idx < totalCompares keys values) :
    ∃ r j i, j < (keys.row r).length ∧ i < numValues values r ∧
      idx = comparesBefore keys values r j + i := by
  rw [totalCompares, totalComparesOffsets_eq h] at hidx
  obtain ⟨r, -, k, hk, rfl⟩ := exists_segment hidx
  have hpos : 0 < numValues values r := Nat.pos_of_mul_pos_left (Nat.zero_lt_of_lt hk)
  refine ⟨r, k / numValues values r, k % numValues values r,
    (Nat.div_lt_iff_lt_mul hpos).2 hk, Nat.mod_lt _ hpos, ?_⟩
  rw [comparesBefore, Nat.add_assoc, Nat.div_add_mod']

theorem comparison_lt (hj : j < (keys.row r).length) (hi : i < numValues values r) :
    comparesBefore keys values r j + i < totalCompares keys values := by
  have hmono := exclusiveScan_mono (fun r => (keys.row r).length * numValues values r)
    (show r + 1 ≤ values.size from h.size_eq ▸ lt_size hj)
  have hmul := Nat.mul_le_mul_right (numValues values r) (show j + 1 ≤ _ from hj)
  rw [exclusiveScan_succ] at hmono
  rw [Nat.add_one_mul] at hmul
  rw [totalCompares, totalComparesOffsets_eq h, comparesBefore]
  omega

end

/-- The place of a value in the child column: behind `start` comparisons, the remainder by `start`. -/
def place (keys values : ListsColumn α) (r j i : ℕ) : ℕ :=
  if comparesBefore keys values r j > 0 then
    i % comparesBefore keys values r j + values.offsets r
  else i

variable [LabelSegments]

theorem keysLabels_eq (hj : j < (keys.row r).length) :
    keysLabels keys (keys.offsets r + j) = r :=
  labelSegments_exclusiveScan (lt_size hj) hj

theorem searchKeyToNumSearchValues_eq (hj : j < (keys.row r).length) :
    searchKeyToNumSearchValues keys values (keys.offsets r + j) =
      numValues values r := by
  unfold searchKeyToNumSearchValues numValues
  rw [if_pos (ListsColumn.offsets_add_lt hj), keysLabels_eq hj]
  cases values.countElements r <;> rfl

/-- A key is compared first behind the comparisons of the keys before it. -/
theorem valuesSizesOffsets_eq (hj : j ≤ (keys.row r).length) :
    valuesSizesOffsets keys values (keys.offsets r + j) =
      comparesBefore keys values r j :=
  exclusiveScan_nested (fun _ _ _ hj' => searchKeyToNumSearchValues_eq hj') hj

/-- The key of a comparison. -/
theorem keyIndex_eq (hj : j < (keys.row r).length) (hi : i < numValues values r) :
    keyIndex keys values (comparesBefore keys values r j + i) =
      keys.offsets r + j := by
  rw [← valuesSizesOffsets_eq hj.le]
  refine labelSegments_exclusiveScan (ListsColumn.offsets_add_lt hj) ?_
  rwa [searchKeyToNumSearchValues_eq hj]

/-- The row of a comparison. -/
theorem valOffsets_eq (h : Searchable keys values) (hj : j < (keys.row r).length)
    (hi : i < numValues values r) :
    valOffsets keys values (comparesBefore keys values r j + i) = r := by
  have hoffset : comparesBefore keys values r j + i =
      totalComparesOffsets keys values r + (j * numValues values r + i) := by
    rw [totalComparesOffsets_eq h, comparesBefore, Nat.add_assoc]
  have hlt : j * numValues values r + i <
      (keys.row r).length * numValues values r := by
    have hmul := Nat.mul_le_mul_right (numValues values r) (show j + 1 ≤ _ from hj)
    rw [Nat.add_one_mul] at hmul
    omega
  rw [hoffset]
  refine labelSegments_exclusiveScan (h.size_eq ▸ lt_size hj) ?_
  rwa [totalComparesPerRow_eq h]

theorem valuesIdx_eq (h : Searchable keys values) (hj : j < (keys.row r).length)
    (hi : i < numValues values r) :
    valuesIdx keys values (comparesBefore keys values r j + i) =
      place keys values r j i := by
  unfold valuesIdx place
  dsimp only
  rw [keyIndex_eq hj hi, valOffsets_eq h hj hi, valuesSizesOffsets_eq hj.le]
  split_ifs with hpos
  · rw [Nat.add_mod_left]
  · omega

end Comparisons

end SparkRapids.MapZip
