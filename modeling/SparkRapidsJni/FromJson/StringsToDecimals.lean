import SparkRapidsJni.Cudf.Strings
import SparkRapidsJni.FromJson.StringsColumns
import SparkRapidsJni.Lib.Threads

/-!
# `from_json_to_structs.cu`: decimals that are quoted

`cast_strings_to_decimals` hands texts to `string_to_decimal`. A row with a `"` is handed without all its `"`
and `,`, and another row as it is. The characters to remove are counted first, and the sizes computed from the
counts; then a thread for each row copies it.

The counts are 8 bits wide, so a row with a `"` is handed as it should be if it has at most 127 characters to
remove, and not otherwise. And the offsets are read without the offset of the view, so a row of a view gets
the text of another row of the column (`DecimalStrings.exact_iff_countsFit`).
-/

namespace SparkRapids.FromJson

open PrefixSums Ascii Cudf StringsColumn

/-! ### The code -/

def isQuote (c : Byte) : Bool := c == chr '"'

def shouldRemove (c : Byte) : Bool := isQuote c || c == chr ','

/-- `count_type`: the number of `"`, and of `"` and `,` -/
abbrev CountType : Type := Int8 × Int8

/-- `check_it` -/
def check (c : Byte) : CountType :=
  (if isQuote c then 1 else 0, if shouldRemove c then 1 else 0)

/-- `plus_op` -/
def plusOp (lhs rhs : CountType) : CountType := (lhs.1 + rhs.1, lhs.2 + rhs.2)

/-- `DeviceSegmentedReduce`, for one row. -/
def counts (str : List Byte) : CountType := (str.map check).foldl plusOp (0, 0)

/-- `out_size_it`. The offsets are those of the whole column. -/
def outSize (input : StringsColumn) (idx : ℕ) : ℤ :=
  let inputSize : ℤ := input.offsets (idx + 1) - input.offsets idx
  let (quoteCount, removeCount) := counts (input.wholeStr idx)
  if quoteCount = 0 then toSizeType inputSize
  else toSizeType (inputSize - removeCount.toInt)

/-- `memcpy`, byte by byte. -/
def memcpy : ℤ → List Byte → List (ℤ × Byte)
  | _, [] => []
  | outPtr, c :: cs => (outPtr, c) :: memcpy (outPtr + 1) cs

/-- The loop of a thread, with what it writes. -/
def copyKept : ℤ → List Byte → List (ℤ × Byte)
  | _, [] => []
  | outPtr, c :: cs =>
    if c ≠ chr '"' ∧ c ≠ chr ',' then (outPtr, c) :: copyKept (outPtr + 1) cs else copyKept outPtr cs

/-- What the thread of a row writes, in its order. -/
def writesOf (input : StringsColumn) (outOffsets : ℕ → ℤ) (idx : ℕ) : List (ℤ × Byte) :=
  let inSize : ℤ := input.offsets (idx + 1) - input.offsets idx
  let outSize := outOffsets (idx + 1) - outOffsets idx
  if inSize = 0 then []
  else if inSize = outSize then memcpy (outOffsets idx) (input.wholeStr idx)
  else copyKept (outOffsets idx) (input.wholeStr idx)

/-- What becomes of a column. -/
inductive Outcome
  | emptyColumn
  | error (what : String)
  | overflowError
  | handed (strings : Strings)

/-- `cast_strings_to_decimals`, up to `string_to_decimal`. The characters of the output may be anything
before they are written, and the threads write in any order. -/
def CastStringsToDecimals [MakeOffsets] (input : StringsColumn) (isUsLocale : Bool) (outcome : Outcome) :
    Prop :=
  if input.size = 0 then outcome = .emptyColumn
  else if !isUsLocale then
    outcome = .error "String to decimal conversion is only supported in US locale."
  else
    match MakeOffsets.makeOffsets (outSize input) input.size with
    | none => outcome = .overflowError
    | some outOffsets =>
      if outOffsets input.size = input.charsSize then
        -- the input is handed, as the view that it is
        outcome = .handed ⟨fun a => input.chars.getD a.toNat 0, fun k => input.offsets (input.offset + k)⟩
      else ∃ (charsData : ℤ → Byte) (s : Threads (ℤ → Byte) (ℤ × Byte)),
        (Threads.lts Threads.write
          ⟨charsData, (List.range input.size).map (writesOf input outOffsets)⟩).Reachable s ∧
          s.Done ∧ outcome = .handed ⟨s.memory, outOffsets⟩

/-! ### What should be handed over -/

/-- The text of a row: without `"` and `,` if it has a `"`. -/
def unquotedText (str : List Byte) : List Byte :=
  if chr '"' ∈ str then str.filter fun c => c ≠ chr '"' ∧ c ≠ chr ',' else str

/-- A strings column of which the characters are as many as a `size_type` can count. -/
structure DecimalStrings extends StringsColumn where
  charsSize_lt : offsets wholeSize < 2 ^ 31

namespace DecimalStrings

variable [MakeOffsets] (input : DecimalStrings)

/-- The texts of the rows that are not null are handed over, each in a range of its length. The ranges lie
one behind the other, and where they are copied, the threads write the range of each row, byte by byte. -/
structure Exact : Prop where
  handed : input.size ≠ 0 →
    ∃ strings, CastStringsToDecimals input.toStringsColumn true (.handed strings)
  text : ∀ strings, CastStringsToDecimals input.toStringsColumn true (.handed strings) →
    ∀ k < input.size, input.isValid k = true → strings.str k = unquotedText (input.str k)
  size : ∀ strings, CastStringsToDecimals input.toStringsColumn true (.handed strings) →
    ∀ k < input.size, input.isValid k = true →
      strings.offsets (k + 1) - strings.offsets k = (unquotedText (input.str k)).length
  disjoint : ∀ strings, CastStringsToDecimals input.toStringsColumn true (.handed strings) →
    ∀ k < input.size, strings.offsets k ≤ strings.offsets (k + 1)
  written : ∀ outOffsets, MakeOffsets.makeOffsets (outSize input.toStringsColumn) input.size =
      some outOffsets → outOffsets input.size ≠ input.charsSize →
    ∀ k < input.size, input.isValid k = true →
      (writesOf input.toStringsColumn outOffsets k).map Prod.fst =
        (List.range (unquotedText (input.str k)).length).map fun (i : ℕ) => outOffsets k + i

end DecimalStrings

/-! ### The columns for which they are -/

/-- The characters to remove, where the `"`, and the `"` and `,`, are counted with 8 bits. -/
def counted (str : List Byte) : ℤ :=
  if str.countP isQuote % 2 ^ 8 = 0 then 0 else (str.countP shouldRemove : ℤ).bmod (2 ^ 8)

/-- A row of the whole column without the characters that are counted. -/
def countedSize (input : StringsColumn) (k : ℕ) : ℤ :=
  (input.wholeStr k).length - counted (input.wholeStr k)

/-- The counted sizes can be added up. If no character is missing in them, the rows of the view have no `"`.
Otherwise, in the whole column, the rows with the numbers of the view have at most 127 characters to remove,
and become the same as the rows of the view. -/
structure DecimalStrings.CountsFit (input : DecimalStrings) : Prop where
  size_lt : ∀ k < input.size, countedSize input.toStringsColumn k < 2 ^ 31
  total_lt : total (countedSize input.toStringsColumn) input.size < 2 ^ 31 - 1
  taken : total (countedSize input.toStringsColumn) input.size = input.charsSize →
    ∀ k < input.size, input.isValid k = true → chr '"' ∉ input.str k
  copied : total (countedSize input.toStringsColumn) input.size ≠ input.charsSize →
    ∀ k < input.size, input.isValid k = true →
      (chr '"' ∈ input.wholeStr k → (input.wholeStr k).countP shouldRemove ≤ 127) ∧
        unquotedText (input.wholeStr k) = unquotedText (input.str k)

/-! ### The sizes -/

section Sizes

variable {str : List Byte}

/-- The counts are right up to multiples of 256. -/
theorem counts_eq (str : List Byte) :
    counts str = (Int8.ofNat (str.countP isQuote), Int8.ofNat (str.countP shouldRemove)) := by
  have hfold : ∀ acc : CountType, (str.map check).foldl plusOp acc =
      (acc.1 + Int8.ofNat (str.countP isQuote), acc.2 + Int8.ofNat (str.countP shouldRemove)) := by
    induction str with
    | nil => exact fun acc => by simp
    | cons c str ih =>
      intro acc
      rw [List.map_cons, List.foldl_cons, ih, List.countP_cons, List.countP_cons]
      simp only [plusOp, check, Int8.ofNat_add, Int8.add_assoc]
      split_ifs <;> simp [Int8.add_comm]
  rw [counts, hfold]
  simp

theorem unquotedText_of_not_mem (h : chr '"' ∉ str) : unquotedText str = str := if_neg h

theorem not_mem_unquotedText (str : List Byte) : chr '"' ∉ unquotedText str := by
  unfold unquotedText
  split_ifs with h
  · simp
  · exact h

/-- The characters that are removed, and the ones that stay. -/
theorem length_filter_add (str : List Byte) :
    (str.filter fun c => c ≠ chr '"' ∧ c ≠ chr ',').length + str.countP shouldRemove = str.length := by
  rw [List.length_eq_countP_add_countP shouldRemove (l := str), Nat.add_comm,
    ← List.countP_eq_length_filter]
  congr 1
  refine List.countP_congr fun c _ => ?_
  simp [shouldRemove, isQuote]

theorem countP_isQuote_le (str : List Byte) : str.countP isQuote ≤ str.countP shouldRemove :=
  List.countP_mono_left fun c _ hc => by simp [shouldRemove, hc]

theorem countP_isQuote_pos : 0 < str.countP isQuote ↔ chr '"' ∈ str := by
  simp [List.countP_pos_iff, isQuote]

/-- A count that wraps around is smaller. -/
theorem counted_bounds (str : List Byte) :
    -(str.length : ℤ) ≤ counted str ∧ -128 ≤ counted str ∧ counted str ≤ str.countP shouldRemove := by
  have hle : str.countP shouldRemove ≤ str.length := List.countP_le_length
  unfold counted
  rw [Int.bmod]
  split_ifs <;> omega

/-- It is right if at most 127 characters have to be removed. -/
theorem counted_eq_iff (h : chr '"' ∈ str) :
    counted str = str.countP shouldRemove ↔ str.countP shouldRemove ≤ 127 := by
  have hle := countP_isQuote_le str
  have hpos := countP_isQuote_pos.mpr h
  unfold counted
  rw [Int.bmod]
  split_ifs <;> omega

theorem counted_of_not_mem (h : chr '"' ∉ str) : counted str = 0 := by
  have hzero : str.countP isQuote = 0 := by
    by_contra hne
    exact h (countP_isQuote_pos.mp (by omega))
  rw [counted, hzero, if_pos (Nat.zero_mod _)]

variable {input : StringsColumn} {k : ℕ}

theorem inSize_eq (hk : k < input.size) :
    (input.offsets (k + 1) : ℤ) - input.offsets k = (input.wholeStr k).length := by
  have hlt := lt_wholeSize hk
  have hlen := length_wholeStr hlt
  have hle := input.offsets_le k hlt
  omega

/-- `out_size_it`, as a function of the characters. -/
theorem outSize_eq (hk : k < input.size) : outSize input k = toSizeType (countedSize input k) := by
  have hzero : ∀ n, Int8.ofNat n = 0 ↔ n % 2 ^ 8 = 0 := fun n => by
    have hsize : Int8.size = 2 ^ 8 := rfl
    rw [← Int8.toInt_inj, Int8.toInt_ofNat', Int8.toInt_zero, hsize, Int.bmod]
    split_ifs <;> omega
  rw [outSize, counts_eq, inSize_eq hk]
  simp only [Int8.toInt_ofNat', hzero, countedSize, counted]
  split_ifs
  · rw [sub_zero]
  · rfl

theorem countedSize_bounds (input : StringsColumn) (k : ℕ) :
    0 ≤ countedSize input k ∧ countedSize input k ≤ 2 * (input.wholeStr k).length := by
  have hcounted := counted_bounds (input.wholeStr k)
  have hle : (input.wholeStr k).countP shouldRemove ≤ (input.wholeStr k).length := List.countP_le_length
  unfold countedSize
  omega

theorem outSize_of_lt (hk : k < input.size) (hlt : countedSize input k < 2 ^ 31) :
    outSize input k = countedSize input k := by
  have hbounds := countedSize_bounds input k
  rw [outSize_eq hk]
  exact Int.bmod_eq_of_le (by omega) (by omega)

theorem total_outSize (h : ∀ k < input.size, countedSize input k < 2 ^ 31) :
    total (outSize input) input.size = total (countedSize input) input.size :=
  Finset.sum_congr rfl fun i hi =>
    outSize_of_lt (Finset.mem_range.mp hi) (h i (Finset.mem_range.mp hi))

/-- A size that wraps around is below all the others together. -/
theorem total_outSize_neg {input : DecimalStrings} (hk : k < input.size)
    (hge : 2 ^ 31 ≤ countedSize input.toStringsColumn k) :
    outSize input.toStringsColumn k < 0 ∧ total (outSize input.toStringsColumn) input.size < 0 := by
  have hscan := input.exclusiveScan_le_charsSize
  have hlt := input.charsSize_lt
  have hlen : (input.wholeStr k).length ≤ exclusiveScan (fun i => (input.wholeStr i).length) input.size :=
    Finset.single_le_sum (f := fun i => (input.wholeStr i).length) (fun _ _ => Nat.zero_le _)
      (Finset.mem_range.mpr hk)
  have hcounted := counted_bounds (input.wholeStr k)
  have hout : outSize input.toStringsColumn k = countedSize input.toStringsColumn k - 2 ^ 32 := by
    unfold charsSize at hscan
    rw [outSize_eq hk, toSizeType, Int.bmod]
    unfold countedSize at hge ⊢
    split_ifs <;> omega
  -- twice the characters are more than the sizes, and by far for this row
  have hmore : ∀ i ∈ Finset.range input.size,
      0 ≤ 2 * ((input.wholeStr i).length : ℤ) - outSize input.toStringsColumn i := by
    intro i hi
    have hbounds := countedSize_bounds input.toStringsColumn i
    rw [outSize_eq (Finset.mem_range.mp hi), toSizeType, Int.bmod]
    split_ifs <;> omega
  have hsum := Finset.single_le_sum hmore (Finset.mem_range.mpr hk)
  rw [Finset.sum_sub_distrib, ← Finset.mul_sum, ← Nat.cast_sum] at hsum
  unfold charsSize at hscan
  unfold total
  unfold exclusiveScan at hscan hlen
  unfold countedSize at hge hout
  dsimp only at hscan hlen
  omega

end Sizes

/-! ### What the threads write -/

section Writes

theorem memcpy_eq (outPtr : ℤ) (cs : List Byte) :
    memcpy outPtr cs = cs.zipIdx.map fun c => (outPtr + c.2, c.1) := by
  have hfrom : ∀ n : ℕ, memcpy (outPtr + n) cs = (cs.zipIdx n).map fun c => (outPtr + c.2, c.1) := by
    induction cs with
    | nil => exact fun n => rfl
    | cons c cs ih =>
      intro n
      rw [memcpy, List.zipIdx_cons, List.map_cons, ← ih, Nat.cast_add_one, add_assoc]
  simpa using hfrom 0

theorem map_fst_memcpy (outPtr : ℤ) (cs : List Byte) :
    (memcpy outPtr cs).map Prod.fst = (List.range cs.length).map fun (i : ℕ) => outPtr + i := by
  rw [memcpy_eq, List.map_map, List.range_eq_range', ← List.zipIdx_map_snd 0 cs, List.map_map]
  rfl

theorem mem_memcpy {outPtr a : ℤ} {cs : List Byte} {c : Byte} :
    (a, c) ∈ memcpy outPtr cs ↔ ∃ i : ℕ, cs[i]? = some c ∧ a = outPtr + i := by
  rw [memcpy_eq, List.mem_map]
  constructor
  · rintro ⟨⟨c', i⟩, hmem, heq⟩
    obtain ⟨ha, rfl⟩ := Prod.mk.inj heq
    exact ⟨i, List.mk_mem_zipIdx_iff_getElem?.mp hmem, ha.symm⟩
  · rintro ⟨i, hi, rfl⟩
    exact ⟨(c, i), List.mk_mem_zipIdx_iff_getElem?.mpr hi, rfl⟩

/-- The loop copies the characters that stay. -/
theorem copyKept_eq (outPtr : ℤ) (cs : List Byte) :
    copyKept outPtr cs = memcpy outPtr (cs.filter fun c => c ≠ chr '"' ∧ c ≠ chr ',') := by
  induction cs generalizing outPtr with
  | nil => rfl
  | cons c cs ih =>
    rw [copyKept]
    by_cases hc : c ≠ chr '"' ∧ c ≠ chr ','
    · rw [if_pos hc, ih, List.filter_cons_of_pos (by simpa using hc), memcpy]
    · rw [if_neg hc, ih, List.filter_cons_of_neg (by simpa using hc)]

variable {input : StringsColumn} {k : ℕ}

/-- What the thread of a row copies. -/
def kept (input : StringsColumn) (k : ℕ) : List Byte :=
  if ((input.wholeStr k).length : ℤ) = outSize input k then input.wholeStr k
  else (input.wholeStr k).filter fun c => c ≠ chr '"' ∧ c ≠ chr ','

theorem writesOf_eq {outOffsets : ℕ → ℤ} (hk : k < input.size)
    (hsize : outOffsets (k + 1) - outOffsets k = outSize input k) :
    writesOf input outOffsets k = memcpy (outOffsets k) (kept input k) := by
  rw [writesOf, inSize_eq hk, hsize, kept]
  by_cases hnil : ((input.wholeStr k).length : ℤ) = 0
  · rw [if_pos hnil, List.eq_nil_of_length_eq_zero (Int.ofNat_eq_zero.mp hnil), List.filter_nil, ite_self]
    rfl
  · rw [if_neg hnil, copyKept_eq]
    split_ifs <;> rfl

/-- A thread does not leave its range. -/
theorem length_kept_le (hk : k < input.size) (hlt : countedSize input k < 2 ^ 31) :
    ((kept input k).length : ℤ) ≤ outSize input k := by
  have hadd := length_filter_add (input.wholeStr k)
  have hcounted := counted_bounds (input.wholeStr k)
  rw [kept]
  split_ifs with heq
  · exact heq.le
  · rw [outSize_of_lt hk hlt, countedSize]
    omega

/-- A thread writes the whole range, and in it what a text becomes, if the counts are right and the row
becomes the same. -/
theorem kept_eq_iff (hk : k < input.size) (hlt : countedSize input k < 2 ^ 31) (str : List Byte) :
    kept input k = unquotedText str ∧ ((kept input k).length : ℤ) = outSize input k ↔
      (chr '"' ∈ input.wholeStr k → (input.wholeStr k).countP shouldRemove ≤ 127) ∧
        unquotedText (input.wholeStr k) = unquotedText str := by
  have hadd := length_filter_add (input.wholeStr k)
  rw [outSize_of_lt hk hlt, countedSize, kept, outSize_of_lt hk hlt, countedSize]
  by_cases hmem : chr '"' ∈ input.wholeStr k
  · have hpos := countP_isQuote_pos.mpr hmem
    have hle := countP_isQuote_le (input.wholeStr k)
    have hwhole : unquotedText (input.wholeStr k) = (input.wholeStr k).filter fun c =>
        c ≠ chr '"' ∧ c ≠ chr ',' := if_pos hmem
    rw [imp_iff_right hmem, ← counted_eq_iff hmem, hwhole]
    split_ifs with heq
    · -- the row is copied with its quotes
      refine iff_of_false (fun h => not_mem_unquotedText str (h.1 ▸ hmem)) fun h => ?_
      omega
    · rw [and_comm]
      refine and_congr_left fun _ => ?_
      omega
  · rw [counted_of_not_mem hmem, sub_zero, if_pos rfl, unquotedText_of_not_mem hmem]
    simp [hmem]

/-- The text that is in memory at the end, where the thread of a row writes the whole range. -/
theorem str_copied (hlt : ∀ k < input.size, countedSize input k < 2 ^ 31) {outOffsets : ℕ → ℤ}
    (hoffsets : ∀ k ≤ input.size, outOffsets k = total (outSize input) k) {charsData : ℤ → Byte}
    {s : Threads (ℤ → Byte) (ℤ × Byte)} (hreach : (Threads.lts Threads.write
      ⟨charsData, (List.range input.size).map (writesOf input outOffsets)⟩).Reachable s)
    (hdone : s.Done) (hk : k < input.size) (hall : ((kept input k).length : ℤ) = outSize input k) :
    Strings.str ⟨s.memory, outOffsets⟩ k = kept input k := by
  have hsize : ∀ j < input.size, outOffsets (j + 1) - outOffsets j = outSize input j := by
    intro j hj
    rw [hoffsets _ hj, hoffsets j hj.le, total_succ, add_sub_cancel_left]
  have hnat : ∀ j < input.size, outOffsets j = exclusiveScan (fun i => (outSize input i).toNat) j := by
    intro j hj
    rw [hoffsets j hj.le]
    refine total_eq_exclusiveScan fun i hi => ?_
    rw [outSize_of_lt (by omega) (hlt i (by omega))]
    exact (countedSize_bounds input i).1
  have hmem : ∀ a c, (a, c) ∈ ((List.range input.size).map (writesOf input outOffsets)).flatten ↔
      ∃ j < input.size, ∃ i : ℕ, (kept input j)[i]? = some c ∧ a = outOffsets j + i := by
    intro a c
    rw [← List.flatMap_def, List.mem_flatMap]
    refine exists_congr fun j => ?_
    rw [List.mem_range]
    refine and_congr_right fun hj => ?_
    rw [writesOf_eq hj (hsize j hj), mem_memcpy]
  rw [Strings.str_eq ((hsize k hk).trans hall.symm)]
  refine List.ext_getElem (by simp) fun i hi hi' => ?_
  rw [List.getElem_map, List.getElem_range]
  refine hdone.memory_eq hreach ((hmem _ _).mpr ⟨k, hk, i, List.getElem?_eq_getElem hi', rfl⟩) ?_
  intro c hwritten
  obtain ⟨j, hj, i', hget, heq⟩ := (hmem _ _).mp hwritten
  obtain ⟨hlt', hget⟩ := List.getElem?_eq_some_iff.mp hget
  have hle := length_kept_le hj (hlt j hj)
  -- the place is in one range only
  change outOffsets k + i = outOffsets j + i' at heq
  rw [hnat j hj, hnat k hk] at heq
  have hsame : k = j ∧ i = i' :=
    @segment_unique (fun i => (outSize input i).toNat) _ _ _ _ (by omega) (by omega)
      (by exact_mod_cast heq)
  obtain ⟨rfl, rfl⟩ := hsame
  exact hget.symm

end Writes

/-! ### The column -/

section Column

/-- The characters of a row of the view. -/
theorem str_taken (input : StringsColumn) {k : ℕ} (hk : k < input.size) :
    ((input.offsets (input.offset + (k + 1)) : ℤ) - input.offsets (input.offset + k) =
        (input.str k).length) ∧
      Strings.str ⟨fun a => input.chars.getD a.toNat 0, fun k => input.offsets (input.offset + k)⟩ k =
        input.str k := by
  have hle := input.size_le
  have hlt : input.offset + k < input.wholeSize := by omega
  have hlen := length_wholeStr hlt
  have hoffsets := input.offsets_le _ hlt
  have hsize : (input.offsets (input.offset + (k + 1)) : ℤ) - input.offsets (input.offset + k) =
      (input.str k).length := by
    rw [str, hlen, ← Nat.add_assoc]
    omega
  refine ⟨hsize, ?_⟩
  rw [Strings.str_eq hsize]
  refine List.ext_getElem (by simp) fun i hi hi' => ?_
  have hchars : input.offsets (input.offset + k + 1) ≤ input.chars.length :=
    (offsets_mono hlt le_rfl).trans input.offsets_last
  rw [str, hlen] at hi'
  have hnat : ((input.offsets (input.offset + k) : ℤ) + i).toNat =
      input.offsets (input.offset + k) + i := by omega
  rw [List.getElem_map, List.getElem_range]
  dsimp only
  rw [hnat, List.getD_eq_getElem _ _ (by omega)]
  simp [str, wholeStr, segmentOf]

variable [MakeOffsets] {input : DecimalStrings}

namespace DecimalStrings

/-- What is handed over, where there are offsets. -/
theorem handed_iff (hne : input.size ≠ 0) {outOffsets : ℕ → ℤ} {strings : Strings}
    (hmake : MakeOffsets.makeOffsets (outSize input.toStringsColumn) input.size = some outOffsets) :
    CastStringsToDecimals input.toStringsColumn true (.handed strings) ↔
      if outOffsets input.size = input.charsSize then
        strings = ⟨fun a => input.chars.getD a.toNat 0, fun k => input.offsets (input.offset + k)⟩
      else ∃ (charsData : ℤ → Byte) (s : Threads (ℤ → Byte) (ℤ × Byte)),
        (Threads.lts Threads.write
          ⟨charsData, (List.range input.size).map (writesOf input.toStringsColumn outOffsets)⟩).Reachable
            s ∧ s.Done ∧ strings = ⟨s.memory, outOffsets⟩ := by
  rw [CastStringsToDecimals, if_neg hne, if_neg (by simp), hmake]
  simp only [Outcome.handed.injEq]

theorem exists_handed (hne : input.size ≠ 0) {outOffsets : ℕ → ℤ}
    (hmake : MakeOffsets.makeOffsets (outSize input.toStringsColumn) input.size = some outOffsets) :
    ∃ strings, CastStringsToDecimals input.toStringsColumn true (.handed strings) ∧
      (outOffsets input.size ≠ input.charsSize → strings.offsets = outOffsets) := by
  simp only [handed_iff hne hmake]
  by_cases htaken : outOffsets input.size = input.charsSize
  · exact ⟨_, (if_pos htaken).mpr rfl, fun h => absurd htaken h⟩
  · obtain ⟨s, hreach, hdone⟩ := @Threads.exists_done_of_total _ _ Threads.write
      ⟨fun _ => (0 : Byte), (List.range input.size).map (writesOf input.toStringsColumn outOffsets)⟩
      fun _ _ => ⟨_, rfl⟩
    exact ⟨_, (if_neg htaken).mpr ⟨_, s, hreach, hdone, rfl⟩, fun _ => rfl⟩

/-- Sizes that can be added up are not negative. -/
theorem isSome_iff (h : ∀ k < input.size, countedSize input.toStringsColumn k < 2 ^ 31) :
    (MakeOffsets.makeOffsets (outSize input.toStringsColumn) input.size).isSome ↔
      total (countedSize input.toStringsColumn) input.size < 2 ^ 31 - 1 := by
  rw [MakeOffsets.isSome_iff, total_outSize h]
  intro k hk
  rw [outSize_of_lt hk (h k hk)]
  exact (countedSize_bounds _ k).1

theorem exact_of_countsFit (h : input.CountsFit) : input.Exact := by
  by_cases hempty : input.size = 0
  · have hno : ∀ strings, ¬CastStringsToDecimals input.toStringsColumn true (.handed strings) := by
      intro strings
      rw [CastStringsToDecimals, if_pos hempty]
      simp
    exact ⟨fun h => absurd hempty h, fun s hs => absurd hs (hno s), fun s hs => absurd hs (hno s),
      fun s hs => absurd hs (hno s), fun _ _ _ k hk => by omega⟩
  obtain ⟨outOffsets, hmake⟩ := Option.isSome_iff_exists.mp ((isSome_iff h.size_lt).mpr h.total_lt)
  have hoffsets := MakeOffsets.offsets_eq hmake
  have htotal := (hoffsets _ le_rfl).trans (total_outSize h.size_lt)
  have hsize (k) (hk : k < input.size) := MakeOffsets.sub_eq hmake hk
  by_cases htaken : outOffsets input.size = input.charsSize
  · -- the input is handed over
    have hstrings : ∀ strings, CastStringsToDecimals input.toStringsColumn true (.handed strings) →
        strings = ⟨fun a => input.chars.getD a.toNat 0, fun k => input.offsets (input.offset + k)⟩ := by
      intro strings hcast
      rwa [handed_iff hempty hmake, if_pos htaken] at hcast
    have htext : ∀ k < input.size, input.isValid k = true → unquotedText (input.str k) = input.str k :=
      fun k hk hvalid => unquotedText_of_not_mem (h.taken (htotal ▸ htaken) k hk hvalid)
    refine ⟨fun _ => (exists_handed hempty hmake).imp fun _ h => h.1, ?_, ?_, ?_, fun outOffsets' h' => ?_⟩
    · intro strings hcast k hk hvalid
      rw [hstrings strings hcast, (str_taken _ hk).2, htext k hk hvalid]
    · intro strings hcast k hk hvalid
      rw [hstrings strings hcast, htext k hk hvalid]
      exact (str_taken _ hk).1
    · intro strings hcast k hk
      have hrow := (str_taken input.toStringsColumn hk).1
      rw [hstrings strings hcast]
      dsimp only
      omega
    · obtain rfl := Option.some_inj.mp (hmake.symm.trans h')
      exact fun hne => absurd htaken hne
  · have hkept := fun k hk hvalid => (kept_eq_iff hk (h.size_lt k hk) (input.str k)).mpr
      (h.copied (htotal ▸ htaken) k hk hvalid)
    have hstrings : ∀ strings, CastStringsToDecimals input.toStringsColumn true (.handed strings) →
        strings.offsets = outOffsets ∧ ∀ k < input.size, input.isValid k = true →
          strings.str k = unquotedText (input.str k) := by
      intro strings hcast
      rw [handed_iff hempty hmake, if_neg htaken] at hcast
      obtain ⟨charsData, s, hreach, hdone, rfl⟩ := hcast
      refine ⟨rfl, fun k hk hvalid => ?_⟩
      rw [str_copied h.size_lt hoffsets hreach hdone hk (hkept k hk hvalid).2]
      exact (hkept k hk hvalid).1
    refine ⟨fun _ => (exists_handed hempty hmake).imp fun _ h => h.1,
      fun strings hcast => (hstrings strings hcast).2, ?_, ?_, fun outOffsets' h' => ?_⟩
    · intro strings hcast k hk hvalid
      rw [(hstrings strings hcast).1, hsize k hk, ← (hkept k hk hvalid).1, (hkept k hk hvalid).2]
    · intro strings hcast k hk
      have hnonneg := (countedSize_bounds input.toStringsColumn k).1
      have hrow := hsize k hk
      rw [outSize_of_lt hk (h.size_lt k hk)] at hrow
      rw [(hstrings strings hcast).1]
      omega
    · obtain rfl := Option.some_inj.mp (hmake.symm.trans h')
      intro _ k hk hvalid
      rw [writesOf_eq hk (hsize k hk), map_fst_memcpy, (hkept k hk hvalid).1]

theorem countsFit_of_exact (h : input.Exact) : input.CountsFit := by
  by_cases hempty : input.size = 0
  · refine ⟨fun k hk => by omega, ?_, fun _ k hk => by omega, fun _ k hk => by omega⟩
    rw [hempty, total, Finset.sum_range_zero]
    norm_num
  obtain ⟨strings, hcast⟩ := h.handed hempty
  obtain ⟨outOffsets, hmake⟩ : ∃ outOffsets,
      MakeOffsets.makeOffsets (outSize input.toStringsColumn) input.size = some outOffsets := by
    refine Option.ne_none_iff_exists'.mp fun hnone => ?_
    rw [CastStringsToDecimals, if_neg hempty, if_neg (by simp), hnone] at hcast
    exact Outcome.noConfusion hcast
  have hoffsets := MakeOffsets.offsets_eq hmake
  have hsize (k) (hk : k < input.size) := MakeOffsets.sub_eq hmake hk
  obtain ⟨strings, hcast, hcopied⟩ := exists_handed hempty hmake
  have hlt : ∀ k < input.size, countedSize input.toStringsColumn k < 2 ^ 31 := by
    intro k hk
    by_contra hge
    -- then the offsets go down at this row
    obtain ⟨hneg, htotal⟩ := total_outSize_neg hk (not_lt.mp hge)
    have hmono := h.disjoint strings hcast k hk
    rw [hcopied (by rw [hoffsets _ le_rfl]; omega)] at hmono
    have hrow := hsize k hk
    omega
  have htotal := (hoffsets _ le_rfl).trans (total_outSize hlt)
  refine ⟨hlt, (isSome_iff hlt).mp (hmake ▸ rfl), fun htaken k hk hvalid => ?_,
    fun hne k hk hvalid => ?_⟩
  · have htext := h.text strings hcast k hk hvalid
    rw [handed_iff hempty hmake, if_pos (htotal.trans htaken)] at hcast
    rw [hcast, (str_taken _ hk).2] at htext
    rw [htext]
    exact not_mem_unquotedText _
  · rw [← htotal] at hne
    have hwritten := congrArg List.length (h.written outOffsets hmake hne k hk hvalid)
    have hlen := h.size strings hcast k hk hvalid
    have htext := h.text strings hcast k hk hvalid
    rw [writesOf_eq hk (hsize k hk), map_fst_memcpy, List.length_map, List.length_map, List.length_range,
      List.length_range] at hwritten
    rw [hcopied hne, hsize k hk, ← hwritten] at hlen
    rw [handed_iff hempty hmake, if_neg hne] at hcast
    obtain ⟨charsData, s, hreach, hdone, rfl⟩ := hcast
    rw [str_copied hlt hoffsets hreach hdone hk hlen.symm] at htext
    exact (kept_eq_iff hk (hlt k hk) _).mp ⟨htext, hlen.symm⟩

/-- The texts are handed over exactly where the counts fit and the rows agree. -/
theorem exact_iff_countsFit (input : DecimalStrings) : input.Exact ↔ input.CountsFit :=
  ⟨countsFit_of_exact, exact_of_countsFit⟩

end DecimalStrings

end Column

/-- 126 commas between quotes. -/
def quotedCommas : List Byte := chr '"' :: List.replicate 126 (chr ',') ++ [chr '"']

theorem length_quotedCommas : quotedCommas.length = 128 := by simp [quotedCommas]

theorem countP_quotedCommas : quotedCommas.countP shouldRemove = 128 := by
  rw [← length_quotedCommas, List.countP_eq_length]
  simp [quotedCommas, shouldRemove, isQuote]

/-- A column with one row. -/
def oneRow (str : List Byte) (hlt : str.length < 2 ^ 31) : DecimalStrings where
  toStringsColumn := .make 1 (fun _ => str) fun _ => true
  charsSize_lt := by
    show exclusiveScan (fun _ => str.length) 1 < 2 ^ 31
    rwa [exclusiveScan_succ, exclusiveScan, Finset.sum_range_zero, Nat.zero_add]

theorem str_oneRow {str : List Byte} (hlt : str.length < 2 ^ 31) : (oneRow str hlt).str 0 = str :=
  segmentOf_flatMap (n := 1) (fun _ => str) Nat.one_pos

/-- The 128 characters to remove are counted as -128, so that the size is 256. -/
theorem not_exact_quotedCommas :
    ¬ (oneRow quotedCommas (by rw [length_quotedCommas]; norm_num)).Exact := by
  intro h
  have hfit := DecimalStrings.countsFit_of_exact h
  have hmem : chr '"' ∈ quotedCommas := List.mem_cons_self
  obtain ⟨hcount, -⟩ := hfit.copied (fun htaken => hfit.taken htaken 0 Nat.one_pos rfl
    (by rw [str_oneRow]; exact hmem)) 0 Nat.one_pos rfl
  have hstr : (oneRow quotedCommas (by rw [length_quotedCommas]; norm_num)).wholeStr 0 = quotedCommas :=
    str_oneRow _
  rw [hstr, countP_quotedCommas] at hcount
  exact absurd (hcount hmem) (by norm_num)

end SparkRapids.FromJson
