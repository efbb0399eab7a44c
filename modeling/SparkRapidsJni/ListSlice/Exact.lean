import SparkRapidsJni.ListSlice.Slices

/-!
# `list_slice.cu`: when the rows are the ones asked for

The rows of the result are what the sliced child has at the indices asked for (`row_listSlice`), and the
rows asked for are what the child has there (`map_wanted`). The two agree where the sliced child begins
with the child, or by chance (`slicesExactly_iff`).
-/

namespace SparkRapids.ListSlice

open Checks Cudf PrefixSums

/-! ### The checks -/

theorem all_valid_iff {cdv : ColumnView} {p : Int32 → Prop} [DecidablePred p] :
    ((List.range cdv.size).all fun index => if cdv.isNull index then true else p (cdv.element index)) =
      true ↔ ∀ index < cdv.size, cdv.isNull index = false → p (cdv.element index) := by
  rw [List.all_eq_true]
  simp only [List.mem_range]
  refine forall₂_congr fun index _ => ?_
  cases cdv.isNull index <;> simp

theorem checkStart_eq_ok_iff {start : IntIterator} :
    checkStart start = .ok () ↔ start.All (· ≠ 0) := by
  cases start with
  | fromScalar value => exact expects_eq_ok_iff.trans decide_eq_true_iff
  | fromColumn cdv => exact expects_eq_ok_iff.trans (all_valid_iff (p := (· ≠ 0)))

theorem checkLength_eq_ok_iff {length : IntIterator} :
    checkLength length = .ok () ↔ length.All (0 ≤ ·) := by
  cases length with
  | fromScalar value => exact expects_eq_ok_iff.trans decide_eq_true_iff
  | fromColumn cdv => exact expects_eq_ok_iff.trans all_valid_iff

/-- The checks of a type and of a size, together. -/
theorem expectsColumn_eq_ok_iff {it : IntIterator} {inputSize : ℕ} {error error' : Exception} :
    expectsColumn (·.typeId = .int32) error it = .ok () ∧
      expectsColumn (inputSize = ·.size) error' it = .ok () ↔ it.Matches inputSize := by
  cases it with
  | fromScalar value => exact ⟨fun _ => trivial, fun _ => ⟨rfl, rfl⟩⟩
  | fromColumn cdv =>
    exact and_congr (expects_eq_ok_iff.trans decide_eq_true_iff)
      (expects_eq_ok_iff.trans decide_eq_true_iff)

/-- The inputs that no check throws for. -/
theorem checkInputs_eq_ok_iff {inputSize : ℕ} {start length : IntIterator} {checkStartLength : Bool} :
    checkInputs inputSize start length checkStartLength = .ok () ↔
      Accepted start length inputSize checkStartLength := by
  unfold checkInputs
  rw [bind_eq_ok_iff, bind_eq_ok_iff, bind_eq_ok_iff, bind_eq_ok_iff]
  constructor
  · rintro ⟨hstartType, hlengthType, hstartSize, hlengthSize, hlegal⟩
    refine ⟨expectsColumn_eq_ok_iff.1 ⟨hstartType, hstartSize⟩,
      expectsColumn_eq_ok_iff.1 ⟨hlengthType, hlengthSize⟩, fun hcheck => ?_, fun hcheck => ?_⟩
    all_goals
      rw [if_pos hcheck, bind_eq_ok_iff] at hlegal
    · exact checkStart_eq_ok_iff.1 hlegal.1
    · exact checkLength_eq_ok_iff.1 hlegal.2
  · intro h
    obtain ⟨hstartType, hstartSize⟩ := expectsColumn_eq_ok_iff.2 h.start_matches
    obtain ⟨hlengthType, hlengthSize⟩ := expectsColumn_eq_ok_iff.2 h.length_matches
    refine ⟨hstartType, hlengthType, hstartSize, hlengthSize, ?_⟩
    split
    · rename_i hcheck
      exact bind_eq_ok_iff.2 ⟨checkStart_eq_ok_iff.2 (h.start_ne_zero hcheck),
        checkLength_eq_ok_iff.2 (h.length_nonneg hcheck)⟩
    · rfl

/-! ### Null rows -/

section Rows

variable {α : Type} {input : ListsColumnView α} {start length : IntIterator} {i : ℕ}

/-- A row of the result is null where the row is null in the input or in a column of integers. -/
theorem all_masks (input : ListsColumnView α) (start length : IntIterator) (i : ℕ) :
    ((masks input start length).all fun mask => IsValid mask.1 (mask.2 + i)) =
      !(input.isNull i || start.isNull i || length.isNull i) := by
  unfold masks ListsColumnView.isNull
  cases start <;> cases length <;>
    simp [IntIterator.isNull, ColumnView.isNull, Bool.and_assoc]

/-! ### Rows -/

/-- The elements asked for are what the child has at the indices asked for. -/
theorem map_wanted (hi : i < input.size) (hstart : start.isNull i = false)
    (hlen : length.isNull i = false) :
    (wanted input start length i).map (fun k => input.child[k]?) =
      (slice (input.list i) (start.value i).toInt (length.value i).toInt).map some := by
  have hlist : (List.range' (input.position i) (input.position (i + 1) - input.position i)).map
      (fun k => input.child[k]?) = (input.list i).map some := by
    have hend := (input.position_mono (show i + 1 ≤ input.size from hi)
      le_rfl).trans input.position_size_le
    refine List.ext_getElem? fun j => ?_
    unfold ListsColumnView.list
    rw [List.getElem?_map, List.getElem?_map, List.getElem?_drop]
    rcases Nat.lt_or_ge j (input.position (i + 1) - input.position i) with hlt | hge
    · rw [List.getElem?_range' hlt, List.getElem?_take_of_lt (by omega), Nat.one_mul,
        Option.map_some, List.getElem?_eq_getElem (by omega)]
      rfl
    · rw [List.getElem?_eq_none (by rwa [List.length_range']), List.getElem?_take,
        if_neg (by omega)]
      rfl
  unfold wanted
  rw [hstart, hlen, Bool.or_false, if_neg Bool.false_ne_true, map_slice, map_slice, hlist]

/-- An element asked for is one of a row with a start and a length. -/
theorem not_null_of_mem_wanted {k : ℕ} (hk : k ∈ wanted input start length i) :
    start.isNull i = false ∧ length.isNull i = false := by
  unfold wanted at hk
  split at hk
  · exact absurd hk List.not_mem_nil
  · rename_i hnull
    rwa [Bool.not_eq_true, Bool.or_eq_false_iff] at hnull

theorem lt_elementsBefore {j : ℕ} (hi : i < input.size)
    (hj : j < (wanted input start length i).length) :
    elementsBefore input start length i + j < elementsBefore input start length input.size := by
  calc elementsBefore input start length i + j
      < elementsBefore input start length i + (wanted input start length i).length :=
        Nat.add_lt_add_left hj _
    _ = elementsBefore input start length (i + 1) := (exclusiveScan_succ ..).symm
    _ ≤ elementsBefore input start length input.size := exclusiveScan_mono _ hi

section Result

variable [GetSlicedChild α] [Gather α] {checkStartLength : Bool}
  {dStarts outputOffset memory gatherMap : ℕ → Int32}
  (houtput : ∀ k ≤ input.size, (outputOffset k).toInt = elementsBefore input start length k)
  (hrun : GatherMap input.size input.offsetsBegin
    (generateStarts input.offsetsBegin start length dStarts) outputOffset memory gatherMap)
  (hi : i < input.size) (hin : ∀ k ∈ wanted input start length i, k < (getSlicedChild input).length)

include houtput hrun hi hin in
/-- The elements of a row of the result are what the sliced child has at the indices asked for. -/
theorem segment_gather :
    ((gather (getSlicedChild input) ((List.range (elementsBefore input start length input.size)).map
        gatherMap)).take (elementsBefore input start length (i + 1))).drop
          (elementsBefore input start length i) =
      (wanted input start length i).map fun k => (getSlicedChild input)[k]? := by
  have hscan : elementsBefore input start length (i + 1) =
      elementsBefore input start length i + (wanted input start length i).length :=
    exclusiveScan_succ ..
  have htotal : elementsBefore input start length (i + 1) ≤
      elementsBefore input start length input.size := exclusiveScan_mono _ hi
  refine List.ext_getElem? fun j => ?_
  rw [List.getElem?_drop, List.getElem?_map]
  rcases Nat.lt_or_ge j (wanted input start length i).length with hlt | hge
  · have hk := List.getElem?_eq_getElem hlt
    generalize (wanted input start length i)[j] = k at hk
    -- the index that was written for the element
    have hindex := toInt_gatherMap houtput hrun hi hk
    rw [hk, List.getElem?_take_of_lt (by omega), Option.map_some]
    refine getElem?_gather ?_ hindex (hin k (List.mem_of_getElem? hk))
    rw [List.getElem?_map, List.getElem?_range (by omega), Option.map_some]
  · rw [List.getElem?_eq_none hge, List.getElem?_take, if_neg (by omega)]
    rfl

variable [NullMasks]

/-- What `list_slice` returns. -/
def resultColumn (input : ListsColumnView α) (start length : IntIterator)
    (outputOffset gatherMap : ℕ → Int32) : ListsColumn (Option α) where
  size := input.size
  offsets := outputOffset
  child := gather (getSlicedChild input)
    ((List.range (elementsBefore input start length input.size)).map gatherMap)
  nullMask := match start, length with
    | .fromScalar _, .fromScalar _ => copyBitmask input.nullMask input.offset
    | _, _ => bitmaskAnd (masks input start length)

variable [MakeOffsetsChildColumn] in
theorem listSlice_eq (hsize : 0 < input.size)
    (h : Accepted start length input.size checkStartLength)
    (hmake : makeOffsetsChildColumn input.size
      (generateSizes input.offsetsBegin start length dStarts) =
        some (outputOffset, elementsBefore input start length input.size)) :
    listSlice input start length checkStartLength dStarts gatherMap =
      .ok (resultColumn input start length outputOffset gatherMap) := by
  unfold listSlice legalListSlice
  dsimp only
  rw [checkInputs_eq_ok_iff.2 h, hmake, if_neg hsize.ne']
  cases start <;> cases length <;> rfl

include houtput hrun hi hin

theorem row_resultColumn :
    (resultColumn input start length outputOffset gatherMap).row i =
      if input.isNull i || start.isNull i || length.isNull i then none
      else some ((wanted input start length i).map fun k => (getSlicedChild input)[k]?) := by
  have hmask : IsValid (resultColumn input start length outputOffset gatherMap).nullMask i =
      !(input.isNull i || start.isNull i || length.isNull i) := by
    cases start <;> cases length
    · -- two scalars: the mask of the input is copied
      refine (isValid_copyBitmask ..).trans ?_
      unfold ListsColumnView.isNull IntIterator.isNull
      rw [Bool.or_false, Bool.or_false, Bool.not_not]
    all_goals
      exact (isValid_bitmaskAnd ..).trans (all_masks ..)
  have hoffset := houtput i hi.le
  have hsucc := houtput (i + 1) hi
  unfold ListsColumn.row
  rw [hmask, ← segment_gather houtput hrun hi hin]
  unfold resultColumn
  dsimp only
  rw [hoffset, hsucc, Int.toNat_natCast, Int.toNat_natCast]
  cases input.isNull i || start.isNull i || length.isNull i <;> rfl

/-! ### When the rows are the ones asked for -/

/-- A row that is not null is the one asked for if the two children have the same elements there. -/
theorem row_eq_iff :
    (resultColumn input start length outputOffset gatherMap).row i =
        (expectedRow input start length i).map (List.map some) ↔
      (input.isNull i = false →
        ∀ k ∈ wanted input start length i, (getSlicedChild input)[k]? = input.child[k]?) := by
  rw [row_resultColumn houtput hrun hi hin]
  unfold expectedRow
  split
  · rename_i hnull
    refine ⟨fun _ hvalid k hk => ?_, fun _ => rfl⟩
    obtain ⟨hstart, hlen⟩ := not_null_of_mem_wanted hk
    rw [hvalid, hstart, hlen] at hnull
    exact absurd hnull Bool.false_ne_true
  · rename_i hvalid
    simp only [Bool.not_eq_true, Bool.or_eq_false_iff] at hvalid
    obtain ⟨⟨hinput, hstart⟩, hlen⟩ := hvalid
    rw [Option.map_some, ← map_wanted hi hstart hlen, Option.some.injEq, List.map_inj_left]
    exact ⟨fun h _ => h, fun h => h hinput⟩

omit houtput hrun hi hin

variable [MakeOffsetsChildColumn]

theorem slicesExactly_of_readsAlike (h : Accepted start length input.size checkStartLength)
    (hread : ReadsAlike input start length) : SlicesExactly input start length checkStartLength := by
  intro dStarts
  obtain ⟨outputOffset, hmake, houtput⟩ := exists_outputOffset input start length dStarts
  refine ⟨_, _, hmake, fun memory gatherMap hrun => ?_⟩
  have hin : ∀ i < input.size, ∀ k ∈ wanted input start length i,
      k < (getSlicedChild input).length := fun i hi k hk =>
    (lt_length_getSlicedChild input ((lt_position_of_mem_wanted hi hk).trans_le
      (input.position_mono hi le_rfl))).2 (hread i hi k hk).1
  refine ⟨fun p hp => ?_, ?_⟩
  · obtain ⟨i, hi, j, hj, rfl⟩ := exists_segment hp
    have hindex := toInt_gatherMap houtput hrun hi (List.getElem?_eq_getElem hj)
    have hlt := hin i hi _ (List.getElem_mem hj)
    unfold elementsBefore at hindex
    omega
  · rcases Nat.eq_zero_or_pos input.size with hzero | hpos
    · -- no rows: an empty column is returned early
      refine ⟨⟨0, fun _ => 0, [], none⟩, ?_, hzero.symm, fun i hi => by omega⟩
      unfold listSlice
      rw [checkInputs_eq_ok_iff.2 h, if_pos hzero]
      rfl
    · refine ⟨_, listSlice_eq hpos h hmake, rfl, fun i hi =>
        (row_eq_iff houtput hrun hi (hin i hi)).2 fun hvalid k hk => ?_⟩
      obtain ⟨hlt, halike⟩ := hread i hi k hk
      rw [GetSlicedChild.getElem?_eq input hlt]
      exact halike hvalid

theorem readsAlike_of_slicesExactly (h : Accepted start length input.size checkStartLength)
    (hexact : SlicesExactly input start length checkStartLength) :
    ReadsAlike input start length := by
  intro i hi k hk
  obtain ⟨outputOffset, _, hoffsets, hexact⟩ := hexact fun _ => 0
  obtain ⟨outputOffset', hmake, houtput⟩ := exists_outputOffset input start length fun _ => 0
  rw [hmake, Option.some.injEq, Prod.mk.injEq] at hoffsets
  obtain ⟨rfl, rfl⟩ := hoffsets
  obtain ⟨gatherMap, hrun⟩ := exists_gatherMap input.size input.offsetsBegin
    (generateStarts input.offsetsBegin start length fun _ => 0) outputOffset' fun _ => 0
  obtain ⟨hinside, result, hresult, -, hrows⟩ := hexact _ _ hrun
  obtain rfl : resultColumn input start length outputOffset' gatherMap = result :=
    Except.ok.inj ((listSlice_eq (by omega) h hmake).symm.trans hresult)
  -- all elements asked for are inside of the child that is read
  have hin : ∀ k ∈ wanted input start length i, k < (getSlicedChild input).length := by
    intro k hk
    obtain ⟨j, hj⟩ := List.getElem?_of_mem hk
    have hindex := hinside _ (lt_elementsBefore hi (List.getElem?_eq_some_iff.1 hj).1)
    rw [toInt_gatherMap houtput hrun hi hj] at hindex
    omega
  have hlt := (lt_length_getSlicedChild input ((lt_position_of_mem_wanted hi hk).trans_le
    (input.position_mono hi le_rfl))).1 (hin k hk)
  refine ⟨hlt, fun hvalid => ?_⟩
  rw [← GetSlicedChild.getElem?_eq input hlt]
  exact (row_eq_iff houtput hrun hi hin).1 (hrows i hi) hvalid k hk

/-- For inputs that are accepted: the rows of the result are the ones asked for, and all indices are
inside the child that is read, exactly if behind each element asked for, as many places as the sliced
child begins behind the child, there is an element of the view, the same if its row is not null. -/
theorem slicesExactly_iff (h : Accepted start length input.size checkStartLength) :
    SlicesExactly input start length checkStartLength ↔ ReadsAlike input start length :=
  ⟨readsAlike_of_slicesExactly h, slicesExactly_of_readsAlike h⟩

end Result

end Rows

/-- The last two of the rows `[10]`, `[20]` and `[30]`. -/
def lastRows : ListsColumnView ℕ where
  offsets k := Int32.ofNat (min k 3)
  offsetsSize := 4
  child := [10, 20, 30]
  nullMask := none
  offset := 1
  size := 2
  offsetsSize_gt := by decide
  offsets_nonneg := by decide
  offsets_mono := by decide
  offsets_le := by decide
  child_lt := by decide

theorem accepted_one : Accepted (.fromScalar 1) (.fromScalar 1) lastRows.size true :=
  ⟨trivial, trivial, fun _ => show (1 : Int32) ≠ 0 by decide, fun _ => show (0 : Int32) ≤ 1 by decide⟩

theorem slicesExactly_iff_lastRows :
    SlicesExactly lastRows (.fromScalar 1) (.fromScalar 1) true ↔
      ReadsAlike lastRows (.fromScalar 1) (.fromScalar 1) :=
  slicesExactly_iff accepted_one

/-- The first element of the first of the rows is read at index 1, where the sliced child has 30. -/
theorem not_slicesExactly : ¬∀ (α : Type) (input : ListsColumnView α) (start length : IntIterator)
    (checkStartLength : Bool), Accepted start length input.size checkStartLength →
      SlicesExactly input start length checkStartLength := by
  intro hall
  have hread := readsAlike_of_slicesExactly accepted_one (hall ℕ lastRows _ _ _ accepted_one)
  have h := (hread 0 (by decide) 1 (by decide)).2 (by decide)
  exact absurd h (by decide)

end SparkRapids.ListSlice
