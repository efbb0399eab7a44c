import SparkRapidsJni.Cudf.Strings
import SparkRapidsJni.FromJson.StringsColumns

/-!
# `from_json_to_structs.cu`: quotes are removed

`try_remove_quotes` finds for each row where its text without the quotes is, and with
`nullify_if_not_quoted` a row without quotes has none. If the texts are as long as the characters of the
input, it takes the input as it is: then no row has quotes. It throws if they have too many characters.

With `nullify_if_not_quoted` this also happens when all rows are empty. They should be null then, and
stay as they are. And the offsets are read without the offset of the view, so a row of a view gets the
text of another row of the column (`removeQuotes_exact_iff`).
-/

namespace SparkRapids.FromJson

open PrefixSums Ascii Cudf StringsColumn

/-! ### The code -/

/-- `string_index_pair`: where a string is in the characters, or null, and its size. -/
abbrev StringIndexPair : Type := Option ℕ × ℕ

/-- The row starts and ends with `"`, and these are two characters. -/
def isQuoted (str : List Byte) : Bool :=
  1 < str.length && str.getD 0 0 == chr '"' && str.getD (str.length - 1) 0 == chr '"'

/-- The pair of a row. The offsets are those of the whole column. -/
def stringPair (input : StringsColumn) (nullifyIfNotQuoted : Bool) (idx : ℕ) : StringIndexPair :=
  if !input.isValid idx then (none, 0)
  else
    let startOffset := input.offsets idx
    let size := input.offsets (idx + 1) - startOffset
    if nullifyIfNotQuoted && !isQuoted (input.wholeStr idx) then (none, 0)
    else if isQuoted (input.wholeStr idx) then (some (startOffset + 1), size - 2)
    else (some startOffset, size)

/-- `make_chars_buffer`, for one row. -/
def charsOf (chars : List Byte) : StringIndexPair → List Byte
  | (none, _) => []
  | (some start, size) => (chars.drop start).take size

/-- The column of the pairs, with their texts one behind the other. -/
def ofPairs (input : StringsColumn) (nullifyIfNotQuoted : Bool) : StringsColumn :=
  let stringPairs := stringPair input nullifyIfNotQuoted
  .make input.size (fun idx => charsOf input.chars (stringPairs idx))
    (if nullifyIfNotQuoted then fun idx => (stringPairs idx).1.isSome else input.isValid)

/-- `try_remove_quotes`: no column if the input can be taken, and nothing where it throws. -/
def tryRemoveQuotes [MakeOffsets] (input : StringsColumn) (nullifyIfNotQuoted : Bool) :
    Option (Option StringsColumn) :=
  if input.size = 0 then some none
  else
    let sizes idx : ℤ := (stringPair input nullifyIfNotQuoted idx).2
    match MakeOffsets.makeOffsets sizes input.size with
    | none => none
    | some offsets => some <|
      if offsets input.size = input.charsSize then none else some (ofPairs input nullifyIfNotQuoted)

/-- `remove_quotes` -/
def removeQuotes [MakeOffsets] (input : StringsColumn) (nullifyIfNotQuoted : Bool) :
    Option StringsColumn :=
  (tryRemoveQuotes input nullifyIfNotQuoted).map (·.getD input)

/-! ### What a row should become -/

/-- A row without its quotes. A row that has none is null, or stays as it is. -/
def unquoted (nullify : Bool) (row : Option (List Byte)) : Option (List Byte) :=
  row.bind fun str =>
    if 2 ≤ str.length ∧ str.head? = some (chr '"') ∧ str.getLast? = some (chr '"') then
      some (str.tail.dropLast)
    else if nullify then none
    else some str

/-- Each row becomes what it should, whatever the others are. -/
def RemovesQuotes [MakeOffsets] (input : StringsColumn) (nullify : Bool) : Prop :=
  (removeQuotes input nullify).map rows = some (input.rows.map (unquoted nullify))

/-! ### The columns for which it does -/

/-- The text that the whole column has at the number of a row of the view, or none if the row is null. -/
def StringsColumn.wholeRow (input : StringsColumn) (k : ℕ) : Option (List Byte) :=
  if input.isValid k then some (input.wholeStr k) else none

/-- The rows of the view and those of the whole column with their numbers become the same. In a view that
begins with the first row, they are the same. -/
def RowsAgree (input : StringsColumn) (nullify : Bool) : Prop :=
  ∀ idx < input.size, unquoted nullify (input.wholeRow idx) =
    unquoted nullify (input.row idx)

/-- What these rows of the whole column become has not too many characters. -/
def TextsFit (input : StringsColumn) (nullify : Bool) : Prop :=
  exclusiveScan (fun k => ((unquoted nullify (input.wholeRow k)).getD []).length) input.size <
    2 ^ 31 - 1

/-- In the whole column, the rows with the numbers of the view have no quotes, or no characters where the
view is null, and the rows behind them have no characters either. -/
structure Untouched (input : StringsColumn) : Prop where
  rows : ∀ idx < input.size, if input.isValid idx then isQuoted (input.wholeStr idx) = false
    else input.wholeStr idx = []
  first : input.offsets 0 = 0
  last : input.offsets input.size = input.charsSize

/-! ### One row -/

section Row

variable {input : StringsColumn} {nullify : Bool} {idx : ℕ}

theorem isQuoted_iff (str : List Byte) : isQuoted str = true ↔
    2 ≤ str.length ∧ str.head? = some (chr '"') ∧ str.getLast? = some (chr '"') := by
  rw [isQuoted, Bool.and_eq_true, Bool.and_eq_true, decide_eq_true_iff, and_assoc]
  refine and_congr_right fun hlen => ?_
  rw [List.head?_eq_getElem?, List.getLast?_eq_getElem?, List.getD_eq_getElem?_getD,
    List.getD_eq_getElem?_getD, List.getElem?_eq_getElem (by omega : 0 < str.length),
    List.getElem?_eq_getElem (by omega : str.length - 1 < str.length)]
  simp

/-- What should become of a row that is not null, in the words of the code. -/
theorem unquoted_some (nullify : Bool) (str : List Byte) : unquoted nullify (some str) =
    if isQuoted str then some (str.tail.dropLast) else if nullify then none else some str := by
  simp only [unquoted, Option.bind_some, isQuoted_iff]

theorem charsOf_row (input : StringsColumn) (idx : ℕ) : charsOf input.chars
    (some (input.offsets idx), input.offsets (idx + 1) - input.offsets idx) = input.wholeStr idx := by
  rw [charsOf, wholeStr, segmentOf, List.drop_take]

section

variable (hidx : idx < input.wholeSize)
include hidx

/-- The characters between the quotes. -/
theorem charsOf_inside : charsOf input.chars
    (some (input.offsets idx + 1), input.offsets (idx + 1) - input.offsets idx - 2) =
      (input.wholeStr idx).tail.dropLast := by
  rw [List.dropLast_eq_take, List.length_tail, length_wholeStr hidx, charsOf,
    wholeStr, segmentOf, ← List.drop_one, List.drop_drop, List.drop_take,
    List.take_take]
  congr 1
  omega

/-- The texts of the pairs are what the rows of the whole column should become. -/
theorem row_stringPair :
    (if (if nullify then (stringPair input nullify idx).1.isSome else input.isValid idx) then
      some (charsOf input.chars (stringPair input nullify idx)) else none) =
        unquoted nullify (input.wholeRow idx) := by
  rw [wholeRow]
  cases hvalid : input.isValid idx with
  | false => simp [stringPair, hvalid, unquoted]
  | true =>
    rw [if_pos rfl, unquoted_some]
    cases hquoted : isQuoted (input.wholeStr idx) with
    | true => simp [stringPair, hvalid, hquoted, charsOf_inside hidx]
    | false => cases nullify <;> simp [stringPair, hvalid, hquoted, charsOf_row]

theorem snd_stringPair : (stringPair input nullify idx).2 =
    ((unquoted nullify (input.wholeRow idx)).getD []).length := by
  rw [wholeRow]
  cases hvalid : input.isValid idx with
  | false => simp [stringPair, hvalid, unquoted]
  | true =>
    rw [if_pos rfl, unquoted_some]
    cases hquoted : isQuoted (input.wholeStr idx) with
    | true => simp [stringPair, hvalid, hquoted, length_wholeStr hidx, Nat.sub_sub]
    | false => cases nullify <;>
      simp [stringPair, hvalid, hquoted, length_wholeStr hidx]

/-- No row gets longer. -/
theorem snd_stringPair_le : (stringPair input nullify idx).2 ≤ (input.wholeStr idx).length := by
  rw [length_wholeStr hidx]
  unfold stringPair
  split_ifs <;> simp

/-- A row that gets no shorter has no quotes. -/
theorem isQuoted_of_snd_eq (hvalid : input.isValid idx = true)
    (hsize : (stringPair input nullify idx).2 = (input.wholeStr idx).length) :
    isQuoted (input.wholeStr idx) = false := by
  by_contra hquoted
  have hquoted := eq_true_of_ne_false hquoted
  have htwo := ((isQuoted_iff _).mp hquoted).1
  have hlen := length_wholeStr hidx
  simp only [stringPair, hvalid, hquoted, Bool.not_true, Bool.and_false, if_true, if_false,
    Bool.false_eq_true] at hsize
  omega

/-- It is empty, if rows without quotes become null. -/
theorem length_eq_zero_of_snd_eq (hsize : (stringPair input true idx).2 = (input.wholeStr idx).length) :
    (input.wholeStr idx).length = 0 := by
  rw [← hsize]
  cases hvalid : input.isValid idx with
  | false => simp [stringPair, hvalid]
  | true => simp [stringPair, hvalid, isQuoted_of_snd_eq hidx hvalid hsize]

/-- Without `nullify_if_not_quoted`, a row keeps its size if it has no quotes, or is null and empty. -/
theorem snd_eq_iff :
    (stringPair input false idx).2 = (input.wholeStr idx).length ↔
      if input.isValid idx then isQuoted (input.wholeStr idx) = false
      else input.wholeStr idx = [] := by
  cases hvalid : input.isValid idx with
  | false =>
    have hnone : stringPair input false idx = (none, 0) := by simp [stringPair, hvalid]
    rw [hnone, if_neg Bool.false_ne_true, eq_comm, List.length_eq_zero_iff]
  | true =>
    rw [if_pos rfl]
    refine ⟨isQuoted_of_snd_eq hidx hvalid, fun hquoted => ?_⟩
    simp [stringPair, hvalid, hquoted, length_wholeStr hidx]

end

theorem unquoted_true_ne (str : List Byte) : unquoted true (some str) ≠ some str := by
  rw [unquoted_some]
  cases hquoted : isQuoted str with
  | false => simp
  | true =>
    intro heq
    have htwo := ((isQuoted_iff _).mp hquoted).1
    have hlen := congrArg List.length (Option.some_inj.mp heq)
    rw [List.length_dropLast, List.length_tail] at hlen
    omega

end Row

/-! ### The column -/

section Column

variable {input : StringsColumn} {nullify : Bool}

/-- The sizes of all rows. -/
def bytes (input : StringsColumn) (nullify : Bool) : ℕ :=
  exclusiveScan (fun idx => (stringPair input nullify idx).2) input.size

/-- What comes back, if something does. -/
def output (input : StringsColumn) (nullify : Bool) : StringsColumn :=
  if input.size = 0 ∨ bytes input nullify = input.charsSize then input else ofPairs input nullify

/-- Its rows are right. -/
def Right (input : StringsColumn) (nullify : Bool) : Prop := (output input nullify).rows =
  (List.range input.size).map fun idx => unquoted nullify (input.row idx)

/-- The sizes agree for each row, if they do for the column, and no other row has characters. -/
theorem bytes_eq_charsSize_iff : bytes input nullify = input.charsSize ↔
    (∀ idx < input.size, (stringPair input nullify idx).2 = (input.wholeStr idx).length) ∧
      input.offsets 0 = 0 ∧ input.offsets input.size = input.charsSize := by
  have hle : ∀ idx ∈ Finset.range input.size,
      (stringPair input nullify idx).2 ≤ (input.wholeStr idx).length :=
    fun idx hidx => snd_stringPair_le (lt_wholeSize (Finset.mem_range.mp hidx))
  have hsum : bytes input nullify ≤ exclusiveScan (fun idx => (input.wholeStr idx).length) input.size :=
    Finset.sum_le_sum hle
  have hscan := input.exclusiveScan_le_charsSize
  have hsize := input.size_le
  have hoffset := offsets_eq (show input.size ≤ input.wholeSize by omega)
  have hmono : input.offsets input.size ≤ input.charsSize :=
    offsets_mono (show input.size ≤ input.wholeSize by omega) le_rfl
  constructor
  · intro h
    have heq := (Finset.sum_eq_sum_iff_of_le hle).mp (hsum.antisymm (by omega))
    exact ⟨fun idx hidx => heq idx (Finset.mem_range.mpr hidx), by omega, by omega⟩
  · rintro ⟨hrows, hfirst, hlast⟩
    have heq : bytes input nullify = exclusiveScan (fun idx => (input.wholeStr idx).length) input.size :=
      exclusiveScan_congr hrows
    omega

/-- Without `nullify_if_not_quoted`, the input is taken if there is nothing to remove. -/
theorem bytes_eq_iff_untouched : bytes input false = input.charsSize ↔ Untouched input := by
  rw [bytes_eq_charsSize_iff]
  have hrows : (∀ idx < input.size, (stringPair input false idx).2 = (input.wholeStr idx).length) ↔ _ :=
    forall₂_congr fun idx hidx => snd_eq_iff (lt_wholeSize hidx)
  rw [hrows]
  exact ⟨fun ⟨h, hfirst, hlast⟩ => ⟨h, hfirst, hlast⟩, fun h => ⟨h.rows, h.first, h.last⟩⟩

/-- If the input is not taken, each row is the text of its pair. -/
theorem right_of_bytes_ne (h : bytes input nullify ≠ input.charsSize) :
    Right input nullify ↔ RowsAgree input nullify := by
  rw [Right, output]
  by_cases hsize : input.size = 0
  · rw [if_pos (.inl hsize), rows, hsize]
    refine iff_of_true rfl fun idx hidx => ?_
    omega
  · have hrows : (ofPairs input nullify).rows =
        (List.range input.size).map fun idx => unquoted nullify (input.wholeRow idx) := by
      refine List.map_congr_left fun idx hidx => ?_
      have hidx : idx < input.size := List.mem_range.mp hidx
      rw [ofPairs, row_make hidx, ← row_stringPair (lt_wholeSize hidx)]
      cases nullify <;> rfl
    rw [if_neg (not_or.mpr ⟨hsize, h⟩), hrows, List.map_inj_left]
    exact forall_congr' fun idx => imp_congr_left List.mem_range

theorem output_of_bytes_eq (h : bytes input nullify = input.charsSize) :
    output input nullify = input := if_pos (.inr h)

/-- Where there is nothing to remove, no row of the view has quotes either. -/
theorem Untouched.right (h : Untouched input) : Right input false := by
  rw [Right, output_of_bytes_eq (bytes_eq_iff_untouched.mpr h), StringsColumn.rows]
  refine List.map_congr_left fun idx hidx => ?_
  have hidx : idx < input.size := List.mem_range.mp hidx
  have hle := input.size_le
  have hquoted : isQuoted (input.str idx) = false := by
    rcases Nat.lt_or_ge (input.offset + idx) input.size with hlt | hge
    · have hrow := h.rows _ hlt
      split_ifs at hrow
      · exact hrow
      · exact congrArg isQuoted hrow
    · -- a row behind the rows that have all characters
      have hlen := length_wholeStr (show input.offset + idx < input.wholeSize by omega)
      have hmono := offsets_mono hge (show _ ≤ input.wholeSize by omega)
      have hlast : input.offsets (input.offset + idx + 1) ≤ input.charsSize :=
        offsets_mono (show _ ≤ input.wholeSize by omega) le_rfl
      have hall := h.last
      exact congrArg isQuoted (List.eq_nil_of_length_eq_zero
        (show (input.wholeStr (input.offset + idx)).length = 0 by omega))
  rw [row]
  cases input.isValid idx with
  | false => rfl
  | true =>
    rw [if_pos rfl, unquoted_some, hquoted]
    rfl

/-- Without any characters, all rows are empty. -/
theorem wholeStr_eq_nil (h : input.charsSize = 0) {k : ℕ} (hk : k < input.wholeSize) :
    input.wholeStr k = [] := by
  have hlen := length_wholeStr hk
  have hlast : input.offsets (k + 1) ≤ input.charsSize := offsets_mono hk le_rfl
  exact List.eq_nil_of_length_eq_zero (by omega)

/-- Where the input is taken and rows without quotes should be null, no row has a character. -/
theorem charsSize_eq_zero_of_bytes_eq (h : bytes input true = input.charsSize) :
    input.charsSize = 0 := by
  obtain ⟨hrows, -, -⟩ := bytes_eq_charsSize_iff.mp h
  rw [← h, bytes]
  refine Finset.sum_eq_zero fun idx hidx => ?_
  have hidx : idx < input.size := Finset.mem_range.mp hidx
  have hrow := hrows idx hidx
  rw [hrow]
  exact length_eq_zero_of_snd_eq (lt_wholeSize hidx) hrow

/-- Where the input is taken, a row that should be null must be null. -/
theorem right_true_of_bytes_eq (h : bytes input true = input.charsSize) :
    Right input true ↔
      RowsAgree input true ∧ (input.charsSize = 0 → ∀ idx < input.size, input.isValid idx = false) := by
  have hzero := charsSize_eq_zero_of_bytes_eq h
  have hagree : RowsAgree input true := by
    intro idx hidx
    have hle := input.size_le
    rw [wholeRow, row, str,
      wholeStr_eq_nil hzero (by omega : idx < input.wholeSize),
      wholeStr_eq_nil hzero (by omega : input.offset + idx < input.wholeSize)]
  rw [and_iff_right hagree, Right, output_of_bytes_eq h, rows, List.map_inj_left]
  constructor
  · intro hrows _ idx hidx
    by_contra hvalid
    have hrow := hrows idx (List.mem_range.mpr hidx)
    rw [row, if_pos (eq_true_of_ne_false hvalid)] at hrow
    exact unquoted_true_ne _ hrow.symm
  · intro hnull idx hidx
    rw [row, hnull hzero idx (List.mem_range.mp hidx)]
    rfl

theorem right_iff : Right input nullify ↔
    (RowsAgree input nullify ∧ (nullify = true → input.charsSize = 0 →
      ∀ idx < input.size, input.isValid idx = false)) ∨ nullify = false ∧ Untouched input := by
  cases nullify with
  | false =>
    by_cases huntouched : Untouched input
    · exact iff_of_true huntouched.right (.inr ⟨rfl, huntouched⟩)
    · rw [right_of_bytes_ne (mt bytes_eq_iff_untouched.mp huntouched)]
      simp [huntouched]
  | true =>
    by_cases hbytes : bytes input true = input.charsSize
    · rw [right_true_of_bytes_eq hbytes]
      simp
    · rw [right_of_bytes_ne hbytes]
      -- there are characters
      have hne : input.charsSize ≠ 0 := by
        intro hzero
        refine hbytes ?_
        rw [hzero, bytes]
        refine Finset.sum_eq_zero fun idx hidx => Nat.eq_zero_of_le_zero ?_
        have hlt := lt_wholeSize (Finset.mem_range.mp hidx)
        have hle : (stringPair input true idx).2 ≤ _ := snd_stringPair_le hlt
        rwa [wholeStr_eq_nil hzero hlt] at hle
      simp [hne]

variable [MakeOffsets]

/-- It throws if the texts have too many characters. -/
theorem removeQuotes_eq (input : StringsColumn) (nullify : Bool) : removeQuotes input nullify =
    if bytes input nullify < 2 ^ 31 - 1 then some (output input nullify) else none := by
  unfold removeQuotes tryRemoveQuotes output
  by_cases hsize : input.size = 0
  · have hzero : bytes input nullify = 0 := by
      rw [bytes, hsize]
      rfl
    rw [if_pos hsize, if_pos (by omega), if_pos (.inl hsize)]
    rfl
  have hsome := @MakeOffsets.isSome_iff _ (fun idx => (stringPair input nullify idx).2) input.size
    fun k _ => Int.natCast_nonneg _
  have htotal := total_natCast (fun idx => (stringPair input nullify idx).2) input.size
  rw [htotal, ← bytes] at hsome
  rw [if_neg hsize]
  dsimp only
  cases hmake : MakeOffsets.makeOffsets (fun idx => ((stringPair input nullify idx).2 : ℤ)) input.size with
  | none =>
    rw [hmake] at hsome
    rw [if_neg fun hlt => absurd (hsome.mpr (by omega)) (by simp)]
    rfl
  | some offsets =>
    rw [hmake] at hsome
    have hlt : bytes input nullify < 2 ^ 31 - 1 := by
      have h := hsome.mp rfl
      omega
    have htaken : offsets input.size = input.charsSize ↔ bytes input nullify = input.charsSize := by
      rw [MakeOffsets.offsets_eq hmake _ le_rfl, htotal]
      exact Nat.cast_inj
    dsimp only
    rw [if_pos hlt]
    by_cases h : bytes input nullify = input.charsSize
    · rw [if_pos (htaken.mpr h), if_pos (.inr h)]
      rfl
    · rw [if_neg (mt htaken.mp h), if_neg (not_or.mpr ⟨hsize, h⟩)]
      rfl

/-- The quotes are removed as they should be, if the rows of the view become the same as the rows of the
whole column with their numbers, and if the rows that should be null without any characters are null. They
are also, if there is nothing to remove, since the input is taken then. -/
theorem removeQuotes_exact_iff (input : StringsColumn) (nullify : Bool) :
    RemovesQuotes input nullify ↔ TextsFit input nullify ∧
      ((RowsAgree input nullify ∧ (nullify = true → input.charsSize = 0 →
        ∀ idx < input.size, input.isValid idx = false)) ∨
      nullify = false ∧ Untouched input) := by
  have hbytes : bytes input nullify < 2 ^ 31 - 1 ↔ TextsFit input nullify := by
    rw [bytes, exclusiveScan_congr fun idx hidx => snd_stringPair (lt_wholeSize hidx)]
    rfl
  rw [← right_iff, ← hbytes, RemovesQuotes, removeQuotes_eq, rows, List.map_map]
  split_ifs with hlt
  · rw [Option.map_some, Option.some_inj, and_iff_right hlt]
    rfl
  · exact iff_of_false (by simp) fun h => hlt h.1

end Column

/-- A row that is empty, and not null, stays so. -/
theorem not_removesQuotes_empty :
    ¬ RemovesQuotes (.make 1 (fun _ => []) fun _ => true) true := by
  unfold RemovesQuotes
  decide

/-- It is null next to a row that has a character. -/
example : (removeQuotes (.make 2 (fun k => if k = 0 then [] else [chr 'a']) fun _ => true) true).map
    rows = some [none, none] := by decide

end SparkRapids.FromJson
