import SparkRapidsJni.Lib.Ascii
import SparkRapidsJni.Lib.Segments

/-!
# `from_json_to_structs.cu`: strings columns

The rows of a strings column lie one behind the other in its characters, and the offsets say where. A row
that is null may have characters too.

A view has some rows of a column. Its offsets are those of the whole column: the row `k` of the view is the
row `offset + k` there.
-/

namespace SparkRapids.FromJson

open PrefixSums

/-- `strings_column_view`: the characters and the offsets of a whole column, and the rows of the view. -/
structure StringsColumn where
  chars : List Byte
  offsets : ℕ → ℕ
  /-- `offsets().size() - 1` -/
  wholeSize : ℕ
  offset : ℕ
  size : ℕ
  /-- of a row of the view -/
  isValid : ℕ → Bool
  size_le : offset + size ≤ wholeSize
  offsets_le : ∀ k < wholeSize, offsets k ≤ offsets (k + 1)
  offsets_last : offsets wholeSize ≤ chars.length

namespace StringsColumn

variable (input : StringsColumn)

/-- `chars_size`: the last offset of the whole column -/
def charsSize : ℕ := input.offsets input.wholeSize

/-- The characters of a row of the whole column. -/
def wholeStr (k : ℕ) : List Byte := segmentOf input.chars input.offsets k

/-- The characters of a row, null or not. -/
def str (k : ℕ) : List Byte := input.wholeStr (input.offset + k)

/-- A row, or none if it is null. -/
def row (k : ℕ) : Option (List Byte) := if input.isValid k then some (input.str k) else none

def rows : List (Option (List Byte)) := (List.range input.size).map input.row

/-- `make_strings_column`, of texts behind one another. -/
def make (size : ℕ) (text : ℕ → List Byte) (isValid : ℕ → Bool) : StringsColumn where
  chars := (List.range size).flatMap text
  offsets := exclusiveScan fun k => (text k).length
  wholeSize := size
  offset := 0
  size := size
  isValid := isValid
  size_le := (Nat.zero_add size).le
  offsets_le k _ := exclusiveScan_mono _ (Nat.le_succ k)
  offsets_last := (length_flatMap_range text size).ge

theorem row_make {size k : ℕ} {text : ℕ → List Byte} {isValid : ℕ → Bool} (hk : k < size) :
    (make size text isValid).row k = if isValid k then some (text k) else none := by
  have hstr : (make size text isValid).wholeStr k = text k := segmentOf_flatMap text hk
  rw [row, str, ← hstr, show (make size text isValid).offset = 0 from rfl, Nat.zero_add]
  rfl

variable {input} {k : ℕ}

theorem offsets_mono {j : ℕ} (hjk : j ≤ k) (hk : k ≤ input.wholeSize) :
    input.offsets j ≤ input.offsets k := by
  induction k, hjk using Nat.le_induction with
  | base => exact le_rfl
  | succ k _ ih => exact (ih (by omega)).trans (input.offsets_le k (by omega))

theorem lt_wholeSize (hk : k < input.size) : k < input.wholeSize := by
  have hle := input.size_le
  omega

theorem length_wholeStr (hk : k < input.wholeSize) :
    (input.wholeStr k).length = input.offsets (k + 1) - input.offsets k :=
  length_segmentOf ((offsets_mono hk le_rfl).trans input.offsets_last)

/-- The rows before an offset are as long as it says. -/
theorem offsets_eq (hk : k ≤ input.wholeSize) :
    input.offsets k = input.offsets 0 + exclusiveScan (fun i => (input.wholeStr i).length) k := by
  induction k with
  | zero => rfl
  | succ k ih =>
    have hle := input.offsets_le k hk
    rw [exclusiveScan_succ, ← Nat.add_assoc, ← ih (by omega), length_wholeStr hk]
    omega

variable (input) in
/-- The first rows of the whole column are no longer than all of it. -/
theorem exclusiveScan_le_charsSize :
    exclusiveScan (fun i => (input.wholeStr i).length) input.size ≤ input.charsSize := by
  have hle := input.size_le
  have hmono : input.offsets input.size ≤ input.charsSize :=
    offsets_mono (show input.size ≤ input.wholeSize by omega) le_rfl
  rw [offsets_eq (by omega)] at hmono
  omega

end StringsColumn

end SparkRapids.FromJson
