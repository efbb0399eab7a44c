import SparkRapidsJni.ListSlice.Columns

/-!
# `list_slice.cu`: which elements a row gets

A row should get the elements from a start on, counted from one, or from the end if it is negative
(`slice`). Where they are in the child column is a list of indices (`wanted`), and the kernels compute
just these (`kernel_cases`, `gatherMap_eq`).

The gather reads at these indices in the sliced child, so it is off by where the sliced child begins. If
this is at the beginning of the child column, the rows are the right ones, and otherwise only if the same
elements are found that many places behind (`ReadsAlike`, `slicesExactly_iff`).
-/

namespace SparkRapids.ListSlice

open Cudf PrefixSums

/-! ### The rows asked for -/

/-- The index of the first element of a slice, in a list of this size. -/
def first (size : ℕ) (start : ℤ) : ℤ := if start < 0 then size + start else start - 1

/-- The elements of a list from a start on: `length` of them, or the remaining ones. -/
def slice {α : Type} (l : List α) (start length : ℤ) : List α :=
  if first l.length start < 0 then []
  else (l.drop (first l.length start).toNat).take length.toNat

section Spec

variable {α : Type} [GetSlicedChild α] [MakeOffsetsChildColumn] [Gather α] [NullMasks]
  (input : ListsColumnView α) (start length : IntIterator)

/-- A row of the result. -/
def expectedRow (i : ℕ) : Option (List α) :=
  if input.isNull i || start.isNull i || length.isNull i then none
  else some (slice (input.list i) (start.value i).toInt (length.value i).toInt)

/-- Whatever was in memory before the kernels, and in whatever order the threads of the second one
write: every index of the gather map is inside the child that is read, and the rows of the result are the
ones asked for. -/
def SlicesExactly (checkStartLength : Bool) : Prop :=
  ∀ dStarts : ℕ → Int32, ∃ outputOffset numTotalElements,
    makeOffsetsChildColumn input.size (generateSizes input.offsetsBegin start length dStarts) =
      some (outputOffset, numTotalElements) ∧
    ∀ memory gatherMap : ℕ → Int32,
      GatherMap input.size input.offsetsBegin (generateStarts input.offsetsBegin start length dStarts)
        outputOffset memory gatherMap →
      (∀ p < numTotalElements,
        0 ≤ (gatherMap p).toInt ∧ (gatherMap p).toInt < (getSlicedChild input).length) ∧
      ∃ result, listSlice input start length checkStartLength dStarts gatherMap = .ok result ∧
        result.size = input.size ∧
        ∀ i < input.size, result.row i = (expectedRow input start length i).map (List.map some)

/-- The rows of a column are as many as the ones of the input, and its integers are 32-bit. -/
def IntIterator.Matches (inputSize : ℕ) : IntIterator → Prop
  | .fromScalar _ => True
  | .fromColumn cdv => cdv.typeId = .int32 ∧ inputSize = cdv.size

/-- All integers that are not null are so. -/
def IntIterator.All (p : Int32 → Prop) : IntIterator → Prop
  | .fromScalar value => p value
  | .fromColumn cdv => ∀ index < cdv.size, cdv.isNull index = false → p (cdv.element index)

/-- The inputs that `list_slice` does not throw for. -/
structure Accepted (inputSize : ℕ) (checkStartLength : Bool) : Prop where
  start_matches : start.Matches inputSize
  length_matches : length.Matches inputSize
  start_ne_zero : checkStartLength = true → start.All (· ≠ 0)
  length_nonneg : checkStartLength = true → length.All (0 ≤ ·)

/-- Where the elements of a row of the result are in the child column. A row that is null in the input
has such elements, too. -/
def wanted (i : ℕ) : List ℕ :=
  if start.isNull i || length.isNull i then []
  else
    slice (List.range' (input.position i) (input.position (i + 1) - input.position i))
      (start.value i).toInt (length.value i).toInt

/-- As many places behind an element of a result as the sliced child begins behind the child, there still
is an element of the view, and, if the row is not null, it is the same. -/
def ReadsAlike : Prop :=
  ∀ i < input.size, ∀ k ∈ wanted input start length i,
    input.childStart + k < input.position input.size ∧
      (input.isNull i = false → input.child[input.childStart + k]? = input.child[k]?)

end Spec

/-! ### Slices -/

theorem map_slice {α β : Type} (f : α → β) (l : List α) (start length : ℤ) :
    (slice l start length).map f = slice (l.map f) start length := by
  unfold slice
  rw [List.length_map]
  split
  · rfl
  · rw [List.map_take, List.map_drop]

theorem take_range'_one (a n k : ℕ) : (List.range' a n).take k = List.range' a (min k n) := by
  rcases Nat.le_total n k with hle | hge
  · rw [List.take_range'_of_length_le hle, Nat.min_eq_right hle]
  · rw [List.take_range'_of_length_ge hge, Nat.min_eq_left hge]

/-- Of consecutive indices, a slice has consecutive ones. -/
theorem slice_range' {a n : ℕ} {start length : ℤ} (h : 0 ≤ first n start) :
    slice (List.range' a n) start length =
      List.range' (a + (first n start).toNat) (min length.toNat (n - (first n start).toNat)) := by
  unfold slice
  rw [List.length_range', if_neg h.not_gt, List.drop_range', take_range'_one, Nat.mul_one]

theorem slice_eq_nil {α : Type} {l : List α} {start length : ℤ}
    (h : first l.length start < 0 ∨ l.length ≤ first l.length start ∨ length ≤ 0) :
    slice l start length = [] := by
  unfold slice
  split
  · rfl
  · rename_i hneg
    rcases h with h | h | h
    · exact absurd h hneg
    · rw [List.drop_eq_nil_of_le (by omega), List.take_nil]
    · rw [Int.toNat_of_nonpos h, List.take_zero]

/-- An index of an element of the view is one of the sliced child, if so many elements are left behind
where that begins. -/
theorem lt_length_getSlicedChild {α : Type} [GetSlicedChild α] (input : ListsColumnView α) {k : ℕ}
    (hk : k < input.position input.size) :
    k < (getSlicedChild input).length ↔ input.childStart + k < input.position input.size := by
  constructor
  · intro hlt
    rcases Nat.eq_zero_or_pos input.offset with hzero | hpos
    · rwa [ListsColumnView.childStart, if_neg hzero.not_gt, Nat.zero_add]
    · rw [GetSlicedChild.length_eq input (.inl hpos)] at hlt
      omega
  · intro hlt
    have hchild := hlt.trans_le input.position_size_le
    have hread := (GetSlicedChild.getElem?_eq input hlt).trans (List.getElem?_eq_getElem hchild)
    exact (List.getElem?_eq_some_iff.1 hread).1

/-! ### Machine integers -/

theorem toInt_add_of_mem {a b : Int32} (h : -2 ^ 31 ≤ a.toInt + b.toInt)
    (h' : a.toInt + b.toInt < 2 ^ 31) : (a + b).toInt = a.toInt + b.toInt := by
  rw [Int32.toInt_add]
  exact Int.bmod_eq_of_le h h'

theorem toInt_sub_of_mem {a b : Int32} (h : -2 ^ 31 ≤ a.toInt - b.toInt)
    (h' : a.toInt - b.toInt < 2 ^ 31) : (a - b).toInt = a.toInt - b.toInt := by
  rw [Int32.toInt_sub]
  exact Int.bmod_eq_of_le h h'

theorem toInt_min (a b : Int32) : (min a b).toInt = min a.toInt b.toInt := by
  change (if a ≤ b then a else b).toInt = _
  rw [min_def]
  simp only [Int32.le_iff_toInt_le]
  split <;> rfl

/-! ### The first kernel -/

section Kernels

variable {α : Type} {input : ListsColumnView α} {start length : IntIterator} {dStarts : ℕ → Int32}
  {i : ℕ}

/-- The size of a list, as the kernel computes it. -/
theorem toInt_lengthOfList (hi : i < input.size) :
    (input.offsetsBegin (i + 1) - input.offsetsBegin i).toInt =
      (input.position (i + 1) - input.position i : ℕ) := by
  have hle := input.position_le_succ hi
  have hlt := input.position_lt (show i + 1 ≤ input.size from hi)
  have hsucc := input.toInt_offsetsBegin (show i + 1 ≤ input.size from hi)
  have hself := input.toInt_offsetsBegin hi.le
  rw [toInt_sub_of_mem (by omega) (by omega)]
  omega

/-- The start that the kernel computes: the index of the first element. -/
theorem toInt_start {lengthOfList : Int32} {size : ℕ} (hsize : lengthOfList.toInt = size)
    (start : Int32) :
    (if start < 0 then lengthOfList + start else start - 1).toInt = first size start.toInt := by
  have hge := start.le_toInt
  have hlt := start.toInt_lt
  have hlist := lengthOfList.toInt_lt
  unfold first
  simp only [Int32.lt_iff_toInt_lt, Int32.toInt_zero]
  split
  · rw [toInt_add_of_mem (by omega) (by omega), hsize]
  · have hone : (1 : Int32).toInt = 1 := rfl
    rw [toInt_sub_of_mem (by omega) (by omega), hone]

/-- A thread makes no list, or one of some consecutive elements of its list. -/
theorem kernel_cases (start length : IntIterator) (dStarts : ℕ → Int32) (hi : i < input.size) :
    (wanted input start length i = [] ∧
      (generateSizes input.offsetsBegin start length dStarts i).toInt = 0) ∨
    ∃ s n : ℕ, (generateStarts input.offsetsBegin start length dStarts i).toInt = s ∧
      (generateSizes input.offsetsBegin start length dStarts i).toInt = n ∧
      s + n ≤ input.position (i + 1) - input.position i ∧
      wanted input start length i = List.range' (input.position i + s) n := by
  have hsize := toInt_lengthOfList hi
  have hstart := toInt_start hsize (start.value i)
  unfold generateStarts generateSizes computeStartsAndSizesKernel wanted
  split
  · exact .inl ⟨rfl, rfl⟩
  dsimp only
  generalize input.position (i + 1) - input.position i = size at *
  generalize input.offsetsBegin (i + 1) - input.offsetsBegin i = lengthOfList at *
  generalize (if start.value i < 0 then lengthOfList + start.value i else start.value i - 1) = s at *
  generalize (start.value i).toInt = start at *
  split
  · rename_i hempty
    refine .inl ⟨slice_eq_nil ?_, rfl⟩
    rw [List.length_range', ← hstart, ← hsize]
    simpa [Int32.lt_iff_toInt_lt, Int32.le_iff_toInt_le, or_assoc] using hempty
  · rename_i hsome
    simp only [Bool.or_eq_true, decide_eq_true_eq, not_or, ge_iff_le,
      Int32.lt_iff_toInt_lt, Int32.le_iff_toInt_le, Int32.toInt_zero, not_lt, not_le] at hsome
    obtain ⟨⟨hnonneg, hlt⟩, hpos⟩ := hsome
    refine .inr ⟨s.toInt.toNat, min (length.value i).toInt.toNat (size - s.toInt.toNat), ?_, ?_, ?_, ?_⟩
    · exact (Int.toNat_of_nonneg hnonneg).symm
    · have hrest : (lengthOfList - s).toInt = lengthOfList.toInt - s.toInt := by
        have hlist := lengthOfList.toInt_lt
        exact toInt_sub_of_mem (by omega) (by omega)
      rw [toInt_min, hrest]
      omega
    · omega
    · rw [slice_range' (hstart ▸ hnonneg), ← hstart]

/-- The sizes that the kernel computes. -/
theorem toInt_generateSizes (hi : i < input.size) :
    (generateSizes input.offsetsBegin start length dStarts i).toInt =
      (wanted input start length i).length := by
  rcases kernel_cases start length dStarts hi with
    ⟨hnil, hsize⟩ | ⟨s, n, -, hsize, -, hwanted⟩
  · rw [hsize, hnil]
    rfl
  · rw [hsize, hwanted, List.length_range']

/-- A list asked for is inside the list of its row. -/
theorem length_wanted_le (start length : IntIterator) (hi : i < input.size) :
    (wanted input start length i).length ≤ input.position (i + 1) - input.position i := by
  rcases kernel_cases start length (fun _ => 0) hi with
    ⟨hnil, -⟩ | ⟨s, n, -, -, hle, hwanted⟩
  · rw [hnil]
    exact Nat.zero_le _
  · rw [hwanted, List.length_range']
    omega

theorem lt_position_of_mem_wanted {k : ℕ} (hi : i < input.size)
    (hk : k ∈ wanted input start length i) : k < input.position (i + 1) := by
  rcases kernel_cases start length (fun _ => 0) hi with
    ⟨hnil, -⟩ | ⟨s, n, -, -, hle, hwanted⟩
  · rw [hnil] at hk
    exact absurd hk List.not_mem_nil
  · have hmono := input.position_le_succ hi
    rw [hwanted, List.mem_range'_1] at hk
    omega

/-! ### The offsets of the result -/

/-- How many elements the rows before have. -/
def elementsBefore (input : ListsColumnView α) (start length : IntIterator) (k : ℕ) : ℕ :=
  exclusiveScan (fun i => (wanted input start length i).length) k

theorem elementsBefore_le (start length : IntIterator) {k : ℕ} (hk : k ≤ input.size) :
    elementsBefore input start length k ≤ input.position k - input.position 0 := by
  induction k with
  | zero => exact Nat.zero_le _
  | succ k ih =>
    have hle := length_wanted_le start length (show k < input.size from hk)
    have hmono := input.position_mono (Nat.zero_le k) (by omega)
    have hsucc := input.position_le_succ (show k < input.size from hk)
    calc elementsBefore input start length (k + 1)
        = elementsBefore input start length k + (wanted input start length k).length :=
          exclusiveScan_succ ..
      _ ≤ input.position (k + 1) - input.position 0 := by
          have := ih (by omega)
          omega

theorem elementsBefore_lt (start length : IntIterator) {k : ℕ} (hk : k ≤ input.size) :
    elementsBefore input start length k < 2 ^ 31 :=
  ((elementsBefore_le start length hk).trans (Nat.sub_le ..)).trans_lt (input.position_lt hk)

/-- The total is in the range of the offsets, so that there is no error. -/
theorem exists_outputOffset [MakeOffsetsChildColumn] (input : ListsColumnView α)
    (start length : IntIterator) (dStarts : ℕ → Int32) :
    ∃ outputOffset, makeOffsetsChildColumn input.size
        (generateSizes input.offsetsBegin start length dStarts) =
      some (outputOffset, elementsBefore input start length input.size) ∧
      ∀ k ≤ input.size, (outputOffset k).toInt = elementsBefore input start length k :=
  MakeOffsetsChildColumn.exists_eq (fun _ hi => toInt_generateSizes hi)
    (elementsBefore_lt start length le_rfl)

/-! ### The second kernel -/

/-- Some run of the kernel comes to its end. -/
theorem exists_gatherMap (numRows : ℕ) (dOffsets dStarts outputOffset memory : ℕ → Int32) :
    ∃ gatherMap, GatherMap numRows dOffsets dStarts outputOffset memory gatherMap := by
  have hdone : ∃ s, (Threads.lts Threads.write ⟨memory, (List.range numRows).map
      (computeGatherMap dOffsets dStarts outputOffset)⟩).Reachable s ∧ s.Done :=
    Threads.exists_done_of_total _ fun _ _ => ⟨_, rfl⟩
  obtain ⟨s, hreach, hdone⟩ := hdone
  exact ⟨s.memory, s, hreach, hdone, rfl⟩

/-- The index that a thread computes for an element. -/
theorem toInt_index (dStarts : ℕ → Int32) {j k : ℕ} (hi : i < input.size)
    (hk : (wanted input start length i)[j]? = some k) :
    (generateStarts input.offsetsBegin start length dStarts i + input.offsetsBegin i +
      Int32.ofNat j).toInt = k := by
  rcases kernel_cases start length dStarts hi with
    ⟨hnil, -⟩ | ⟨s, n, hstart, -, hle, hwanted⟩
  · rw [hnil] at hk
    exact absurd hk (by simp)
  · rw [hwanted] at hk
    have hj := (List.getElem?_eq_some_iff.1 hk).1
    rw [List.length_range'] at hj
    rw [List.getElem?_range' hj, Nat.one_mul] at hk
    obtain rfl := Option.some.inj hk
    -- the index is one of an element of the list, so nothing wraps
    have hmono := input.position_le_succ hi
    have hlt := input.position_lt (show i + 1 ≤ input.size from hi)
    have hoffset := input.toInt_offsetsBegin hi.le
    have hj' : (Int32.ofNat j).toInt = j := Int32.toInt_ofNat_of_lt (by omega)
    have hbegin : (generateStarts input.offsetsBegin start length dStarts i +
        input.offsetsBegin i).toInt = s + input.position i := by
      rw [toInt_add_of_mem (by omega) (by omega), hstart, hoffset]
    rw [toInt_add_of_mem (by omega) (by omega), hbegin, hj']
    push_cast
    ring

variable {outputOffset memory gatherMap : ℕ → Int32}
  (houtput : ∀ k ≤ input.size, (outputOffset k).toInt = elementsBefore input start length k)

include houtput

/-- A thread writes its indices where its row begins in the result. -/
theorem computeGatherMap_eq (hi : i < input.size) :
    computeGatherMap input.offsetsBegin (generateStarts input.offsetsBegin start length dStarts)
        outputOffset i =
      (List.range (wanted input start length i).length).map fun j =>
        (elementsBefore input start length i + j,
          generateStarts input.offsetsBegin start length dStarts i + input.offsetsBegin i +
            Int32.ofNat j) := by
  have hself := houtput i hi.le
  have hsucc := houtput (i + 1) hi
  have hlt := elementsBefore_lt start length (show i + 1 ≤ input.size from hi)
  have hscan : elementsBefore input start length (i + 1) =
      elementsBefore input start length i + (wanted input start length i).length :=
    exclusiveScan_succ ..
  have hrows : (outputOffset (i + 1) - outputOffset i).toInt =
      (wanted input start length i).length := by
    rw [toInt_sub_of_mem (by omega) (by omega)]
    omega
  unfold computeGatherMap
  dsimp only
  rw [hrows, Int.toNat_natCast]
  refine List.map_congr_left fun j hj => ?_
  have hj := List.mem_range.1 hj
  have hj' : (Int32.ofNat j).toInt = j := Int32.toInt_ofNat_of_lt (by omega)
  rw [toInt_add_of_mem (by omega) (by omega), hself, hj']
  rfl

/-- In whatever order the threads write, the gather map is made of the indices of the elements. -/
theorem toInt_gatherMap {j k : ℕ} (hrun : GatherMap input.size input.offsetsBegin
      (generateStarts input.offsetsBegin start length dStarts) outputOffset memory gatherMap)
    (hi : i < input.size) (hk : (wanted input start length i)[j]? = some k) :
    (gatherMap (elementsBefore input start length i + j)).toInt = k := by
  obtain ⟨s, hreach, hdone, rfl⟩ := hrun
  have hwrites : ∀ {p v}, (p, v) ∈ ((List.range input.size).map (computeGatherMap input.offsetsBegin
      (generateStarts input.offsetsBegin start length dStarts) outputOffset)).flatten ↔
      ∃ i < input.size, ∃ j < (wanted input start length i).length,
        elementsBefore input start length i + j = p ∧
        generateStarts input.offsetsBegin start length dStarts i + input.offsetsBegin i +
            Int32.ofNat j = v := by
    intro p v
    rw [← List.flatMap_def, List.mem_flatMap]
    simp only [List.mem_range]
    refine exists_congr fun i => and_congr_right fun hi => ?_
    rw [computeGatherMap_eq houtput hi, List.mem_map]
    simp only [List.mem_range, Prod.mk.injEq]
  have hj := (List.getElem?_eq_some_iff.1 hk).1
  -- the place is written by the thread of the row only
  rw [← toInt_index dStarts hi hk]
  refine congrArg _ (hdone.memory_eq hreach (hwrites.2 ⟨i, hi, j, hj, rfl, rfl⟩) ?_)
  intro v hv
  obtain ⟨i', -, j', hj', hplace, rfl⟩ := hwrites.1 hv
  obtain ⟨rfl, rfl⟩ := segment_unique hj' hj hplace
  rfl

end Kernels

end SparkRapids.ListSlice
