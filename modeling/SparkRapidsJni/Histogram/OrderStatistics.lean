import SparkRapidsJni.Histogram.SortedRows

/-!
# `histogram.cu`: order statistics

The values of a histogram, each written as often as it occurs and in order, are its sorted multiset
(`sortedValues`). A percentile is interpolated between the elements at two ranks of it, and these are found
where the running sums of the histogram reach the rank (`AtRank`).

The arrays begin with the first entry of the view, and the kernel looks for the histograms at the offsets of
the lists in the whole child column. So it finds them if the first offset is zero
(`exists_fill`, `fill_eq_none`), and if it is not, the first entry of a histogram is never found
(`picksOrderStatistics_iff`).
-/

namespace SparkRapids.Histogram

open BinarySearch Checks Cudf RunLength

variable {ν : Type} [LinearOrder ν]

/-! ### The statement -/

/-- The values that are not null, each as often as it occurs, in order. -/
def sortedValues (l : List (Entry ν)) : List ν :=
  (decode ((l.filter fun e => e.isValid).map Entry.run)).insertionSort (· ≤ ·)

section Statement

variable [GetSlicedChild (Entry ν)] (input : HistogramsColumn ν)

/-- The index is the one of an entry of the histogram, and the element at the rank comes from it. -/
def AtRank (order : List ℕ) (i : ℕ) (index rank : ℤ) : Prop :=
  ∃ (k : ℕ) (e : Entry ν), index = rowStart input i + k ∧ (rowEntries input order i)[k]? = some e ∧
    (before ((rowEntries input order i).map Entry.run) k ≤ rank ∧
      rank < before ((rowEntries input order i).map Entry.run) (k + 1)) ∧
    (sortedValues (input.lists.list i))[rank.toNat]? = some e.data

/-- The row of a histogram is null if it has no value, and otherwise, for each of the percentages, it is
interpolated between the elements at the two ranks next to the position. -/
def RowExact (percentages : List ℚ) (order : List ℕ) (output : Output) (i : ℕ) : Prop :=
  ∃ row, output.RowIs percentages.length i row ∧
    (row = none ↔ ∀ e ∈ input.lists.list i, e.isValid = false) ∧
    ∀ l ∈ row, l.length = percentages.length ∧ ∀ (j : ℕ) (p : ℚ), percentages[j]? = some p →
      let position := ((sortedValues (input.lists.list i)).length - 1 : ℚ) * p
      ∃ filled : Filled, l[j]? = some (some filled) ∧
        AtRank input order i filled.lowerIndex ⌊position⌋ ∧
        AtRank input order i filled.higherIndex ⌈position⌉

/-- For all lists of so many percentages, in whatever order the sort leaves equal entries, and whatever
there is in memory around the arrays. -/
def PicksOrderStatistics [LabelSegments] [NullMasks] (toDouble : ν → ℚ) (numPercentages : ℕ)
    (outputAsList : Bool) : Prop :=
  ∀ (percentages : List ℚ) (order : List ℕ) (memory : Memory ν),
    percentages.length = numPercentages → (∀ p ∈ percentages, 0 ≤ p ∧ p ≤ 1) →
    Sorted input order →
    ∃ output,
      percentileFromHistogram toDouble input percentages outputAsList order memory =
        .ok output ∧
      ∀ i < input.lists.size, RowExact input percentages order output i

end Statement

/-- The columns that `check_input` accepts, up to the size of the output. -/
structure Accepted (input : HistogramsColumn ν) : Prop where
  typeId : input.typeId = .list
  not_null : ∀ e ∈ input.lists.child, e.isNull = false
  childTypeId : input.childTypeId = .struct
  numChildren : input.numChildren = 2
  count_not_null : ∀ e ∈ input.lists.child, e.countIsNull = false
  countsTypeId : input.countsTypeId = .int64

/-! ### The checks -/

omit [LinearOrder ν] in
theorem checkInput_eq_ok_iff {input : HistogramsColumn ν} {percentages : List ℚ} :
    checkInput input percentages = .ok () ↔
      Accepted input ∧ input.lists.size * percentages.length ≤ 2 ^ 31 - 1 := by
  unfold checkInput
  rw [bind_eq_ok_iff, bind_eq_ok_iff, bind_eq_ok_iff, bind_eq_ok_iff, bind_eq_ok_iff]
  simp only [expects_eq_ok_iff, decide_eq_true_eq, Bool.not_eq_true', List.any_eq_false,
    Bool.and_eq_true, Bool.not_eq_true]
  constructor
  · rintro ⟨htype, hnull, ⟨hchild, hchildren⟩, hcount, hcounts, hsize⟩
    exact ⟨⟨htype, hnull, hchild, hchildren, hcount, hcounts⟩, hsize⟩
  · rintro ⟨h, hsize⟩
    exact ⟨h.typeId, h.not_null, ⟨h.childTypeId, h.numChildren⟩, h.count_not_null, h.countsTypeId,
      hsize⟩

/-! ### The values of a histogram -/

section Values

variable {e e' : Entry ν}

/-- A null is behind all values. -/
theorem isValid_of_key_le (h : e.key ≤ e'.key) (hvalid : e'.isValid = true) : e.isValid = true := by
  by_contra hnull
  unfold Entry.key at h
  rw [if_neg hnull, if_pos hvalid, Prod.Lex.toLex_le_toLex] at h
  rcases h with hlt | ⟨heq, -⟩
  · exact absurd hlt not_top_lt
  · exact WithTop.coe_ne_top heq.symm

theorem data_le_of_key_le (h : e.key ≤ e'.key) (hvalid : e.isValid = true)
    (hvalid' : e'.isValid = true) : e.data ≤ e'.data := by
  unfold Entry.key at h
  rw [if_pos hvalid, if_pos hvalid', Prod.Lex.toLex_le_toLex] at h
  rcases h with hlt | ⟨heq, -⟩
  · exact (WithTop.coe_lt_coe.1 hlt).le
  · exact (WithTop.coe_injective heq).le

/-- Where a property holds of the first entries, these are the ones with the property. -/
theorem eq_filter_append_filter_not {α : Type*} {p : α → Bool} {l : List α}
    (h : l.Pairwise fun a b => p b = true → p a = true) :
    l = l.filter p ++ l.filter fun a => !p a := by
  induction l with
  | nil => rfl
  | cons a l ih =>
    obtain ⟨ha, hl⟩ := List.pairwise_cons.1 h
    cases hp : p a with
    | true =>
      rw [List.filter_cons_of_pos hp, List.filter_cons_of_neg (by simp [hp]), List.cons_append,
        ← ih hl]
    | false =>
      -- no entry behind has the property
      have hnil : l.filter p = [] := List.filter_eq_nil_iff.2 fun b hb hpb => by
        rw [ha b hb hpb] at hp
        cases hp
      have ih := ih hl
      rw [hnil, List.nil_append] at ih
      rw [List.filter_cons_of_neg (by simp [hp]), hnil, List.nil_append,
        List.filter_cons_of_pos (by simp [hp]), ← ih]

end Values

/-! ### The range of a thread -/

/-- Where the range of a histogram ends: a null is sorted to the end. -/
def rangeEnd (validity : ℤ → Bool) (tryEnd : ℤ) : ℤ :=
  if validity (tryEnd - 1) then tryEnd else tryEnd - 1

section Thread

variable {toDouble : ν → ℚ} {offsets : ℕ → Int32} {input' : ℤ → ν} {validity : ℤ → Bool}
  {counts : ℤ → Int64} {percentages : List ℚ} {i j : ℕ} {start end_ : ℤ}
  (hj : j < percentages.length) (hstart : (offsets i).toInt = start)
  (hend : rangeEnd validity (offsets (i + 1)).toInt = end_)

include hj

omit [LinearOrder ν] in
theorem div_length : (i * percentages.length + j) / percentages.length = i := by
  rw [Nat.mul_comm, Nat.mul_add_div (by omega), Nat.div_eq_of_lt hj, Nat.add_zero]

include hstart hend

theorem fillPercentile_eq_none (hle : end_ ≤ start) :
    fillPercentile toDouble offsets input' validity counts percentages
      (i * percentages.length + j) = none := by
  unfold rangeEnd at hend
  unfold fillPercentile
  dsimp only
  rw [div_length hj, hstart, hend, if_pos hle]

/-- Where there is a value, two entries are searched for, or one if the two ranks are the same. -/
theorem exists_fillPercentile (hlt : start < end_) :
    let position : ℚ := (counts (end_ - 1) - 1).toInt * percentages.getD j 0
    ∃ filled, fillPercentile toDouble offsets input' validity counts percentages
        (i * percentages.length + j) = some filled ∧
      filled.lowerIndex = searchCounts counts (Int64.ofInt ⌊position⌋ + 1) start end_ ∧
      filled.higherIndex = searchCounts counts (Int64.ofInt ⌈position⌉ + 1) start end_ := by
  unfold rangeEnd at hend
  unfold fillPercentile
  dsimp only
  rw [div_length hj, hstart, hend, if_neg hlt.not_ge, Nat.mul_comm, Nat.mul_add_mod,
    Nat.mod_eq_of_lt hj]
  split
  · rename_i hsame
    exact ⟨_, rfl, rfl, by rw [hsame]⟩
  · split
    · exact ⟨_, rfl, rfl, rfl⟩
    · exact ⟨_, rfl, rfl, rfl⟩

end Thread

/-! ### The arrays -/

theorem Buffer.read_of_getElem? {α : Type} {b : Buffer α} {k : ℕ} {x : α}
    (hk : b.values[k]? = some x) : b.read k = x := by
  unfold Buffer.read
  rw [if_pos (Int.natCast_nonneg k), Int.toNat_natCast, hk]
  rfl

theorem Buffer.read_of_length_le {α : Type} {b : Buffer α} {k : ℕ} (hk : b.values.length ≤ k) :
    b.read k = b.outside k := by
  unfold Buffer.read
  rw [if_pos (Int.natCast_nonneg k), Int.toNat_natCast, List.getElem?_eq_none hk]
  rfl

section Arrays

variable [GetSlicedChild (Entry ν)] {input : HistogramsColumn ν} {order : List ℕ} {i k : ℕ}
  {e : Entry ν}

/-- The entries of a histogram that are not null, in order. -/
def validEntries (input : HistogramsColumn ν) (order : List ℕ) (i : ℕ) : List (Entry ν) :=
  (rowEntries input order i).filter fun e => e.isValid

variable [LabelSegments] (input order) (memory : Memory ν)

/-- `ordered_indices` -/
def orderedBuffer : Buffer ℤ := ⟨order.map fun o : ℕ => (o : ℤ), memory.orderedIndices⟩

/-- `sorted_input_it` -/
def sortedInput (k : ℤ) : ν :=
  (⟨(getSlicedChild input.lists).map fun e => e.data, memory.data⟩ : Buffer ν).read
    ((orderedBuffer order memory).read k)

/-- `sorted_validity_it` -/
def sortedValidity (k : ℤ) : Bool :=
  if !((getSlicedChild input.lists).any fun e => !e.isValid) then true
  else
    (⟨(getSlicedChild input.lists).map fun e => e.isValid, memory.validity⟩ : Buffer Bool).read
      ((orderedBuffer order memory).read k)

/-- `accumulated_counts` -/
def accumulatedBuffer : Buffer Int64 :=
  ⟨accumulatedCounts input order, memory.accumulatedCounts⟩

/-- The thread of a percentage of a histogram. -/
def fill (toDouble : ν → ℚ) (percentages : List ℚ) (idx : ℕ) : Option Filled :=
  fillPercentile toDouble input.lists.offsetsBegin (sortedInput input order memory)
    (sortedValidity input order memory) (accumulatedBuffer input order memory).read
    percentages idx

variable {input order} (h : Sorted input order) (hi : i < input.lists.size)

omit [LinearOrder ν] [GetSlicedChild (Entry ν)] [LabelSegments] in
theorem orderedBuffer_read {o : ℕ} (ho : order[k]? = some o) :
    (orderedBuffer order memory).read k = o := by
  refine Buffer.read_of_getElem? ?_
  unfold orderedBuffer
  rw [List.getElem?_map, ho]
  rfl

include h

theorem sortedValidity_eq (hk : (rowEntries input order i)[k]? = some e) :
    sortedValidity input order memory (rowStart input i + k : ℕ) = e.isValid := by
  obtain ⟨o, ho, he⟩ := getElem?_rowEntries h hk
  unfold sortedValidity
  split
  · rename_i hnull
    -- there is no null at all
    rw [Bool.not_eq_true', List.any_eq_false] at hnull
    have hvalid := hnull e (List.mem_of_getElem? he)
    rw [Bool.not_eq_true, Bool.not_eq_false'] at hvalid
    exact hvalid.symm
  · rw [orderedBuffer_read memory ho]
    refine Buffer.read_of_getElem? ?_
    rw [List.getElem?_map, he]
    rfl

include hi

/-! ### The entries of a histogram -/

theorem rowEntries_eq_append :
    rowEntries input order i = validEntries input order i ++
      (rowEntries input order i).filter fun e => !e.isValid :=
  eq_filter_append_filter_not ((pairwise_rowEntries h hi).imp isValid_of_key_le)

/-- The sorted entries stand for the sorted values. -/
theorem decode_validEntries :
    decode ((validEntries input order i).map Entry.run) =
      sortedValues (input.lists.list i) := by
  have hperm : (decode ((validEntries input order i).map Entry.run)).Perm
      (sortedValues (input.lists.list i)) :=
    (decode_perm (((rowEntries_perm h hi).filter _).map _)).trans
      (List.perm_insertionSort _ _).symm
  have hsorted : (decode ((validEntries input order i).map Entry.run)).Pairwise (· ≤ ·) := by
    refine pairwise_decode (List.pairwise_map.2 ?_)
    refine ((pairwise_rowEntries h hi).sublist List.filter_sublist).imp_of_mem ?_
    intro e e' he he' hle
    exact data_le_of_key_le hle (List.mem_filter.1 he).2 (List.mem_filter.1 he').2
  exact hperm.eq_of_pairwise (fun _ _ _ _ => le_antisymm) hsorted
    (List.pairwise_insertionSort _ _)

theorem length_validEntries_le :
    (validEntries input order i).length ≤ rowLength input i := by
  rw [← length_rowEntries h hi]
  exact List.length_filter_le ..

theorem before_validEntries (hk : k ≤ (validEntries input order i).length) :
    before ((rowEntries input order i).map Entry.run) k =
      before ((validEntries input order i).map Entry.run) k := by
  rw [rowEntries_eq_append h hi, List.map_append]
  exact before_append (by rwa [List.length_map])

/-- The number of values of a histogram. -/
theorem before_length_validEntries :
    before ((rowEntries input order i).map Entry.run)
        (validEntries input order i).length =
      (sortedValues (input.lists.list i)).length := by
  have hlen := before_length ((validEntries input order i).map Entry.run)
  rw [List.length_map, decode_validEntries h hi] at hlen
  rw [before_validEntries h hi le_rfl, hlen]

variable (hl : IsHistogram (input.lists.list i))

include hl

theorem toInt_accumulatedBuffer (hk : k < rowLength input i) :
    ((accumulatedBuffer input order memory).read (rowStart input i + k : ℕ)).toInt =
      before ((rowEntries input order i).map Entry.run) (k + 1) := by
  obtain ⟨c, hc, hcount⟩ := toInt_accumulated h hi hl hk
  rw [Buffer.read_of_getElem? (b := accumulatedBuffer input order memory) hc, hcount]

/-- The end of the range of a histogram, moved if the last entry is a null. -/
theorem end_eq (hpos : 0 < rowLength input i) :
    rangeEnd (sortedValidity input order memory) (rowStart input i + rowLength input i : ℕ) =
      (rowStart input i + (validEntries input order i).length : ℕ) := by
  have hlen := length_rowEntries h hi
  have happend := rowEntries_eq_append h hi
  have hnull := (hl.of_perm (rowEntries_perm h hi)).null_le
  have hlast := List.getElem?_eq_getElem (l := rowEntries input order i)
    (show rowLength input i - 1 < _ by omega)
  generalize (rowEntries input order i)[rowLength input i - 1] = e at hlast
  have hread := sortedValidity_eq memory h hlast
  rw [show ((rowStart input i + (rowLength input i - 1) : ℕ) : ℤ) =
    (rowStart input i + rowLength input i : ℕ) - 1 by omega] at hread
  unfold rangeEnd
  rw [hread]
  rw [happend, List.length_append] at hlen
  rw [happend] at hlast
  cases hnulls : (rowEntries input order i).filter (fun e => !e.isValid) with
  | nil =>
    -- all entries are values
    rw [hnulls, List.append_nil] at hlast
    rw [hnulls, List.length_nil] at hlen
    rw [if_pos (List.mem_filter.1 (List.mem_of_getElem? hlast)).2]
    omega
  | cons null rest =>
    rw [hnulls, List.length_cons] at hnull hlen
    rw [hnulls, List.getElem?_append_right (by omega)] at hlast
    have hmem := hnulls ▸ List.mem_of_getElem? hlast
    have hinvalid : ¬e.isValid = true := by simpa using (List.mem_filter.1 hmem).2
    rw [if_neg hinvalid]
    omega

/-! ### The search -/

theorem length_sortedValues_lt : (sortedValues (input.lists.list i)).length < 2 ^ 63 := by
  have hrows := (hl.of_perm (rowEntries_perm h hi)).length_decode_lt
  rw [← before_length_validEntries h hi]
  refine lt_of_le_of_lt (before_mono _ ?_) (before_length _ ▸ hrows)
  rw [List.length_map]
  exact List.length_filter_le ..

/-- The search finds the entry that the element at a rank comes from. -/
theorem searchCounts_atRank {rank : ℕ} (hrank : rank < (sortedValues (input.lists.list i)).length) :
    AtRank input order i
      (searchCounts (accumulatedBuffer input order memory).read (Int64.ofInt rank + 1)
        (rowStart input i)
        (rowStart input i + (validEntries input order i).length : ℕ)) rank := by
  have hvalid := length_validEntries_le h hi
  have htotal := length_sortedValues_lt h hi hl
  rw [← decode_validEntries h hi] at hrank
  obtain ⟨k, run, hrun, hle, hlt⟩ := exists_run hrank
  have hdecode := getElem?_decode hrun hle hlt
  rw [decode_validEntries h hi] at hrank hdecode
  rw [List.getElem?_map] at hrun
  obtain ⟨e, he, rfl⟩ := Option.map_eq_some_iff.1 hrun
  have hk := (List.getElem?_eq_some_iff.1 he).1
  rw [← before_validEntries h hi hk.le] at hle
  rw [← before_validEntries h hi (show k + 1 ≤ _ from hk)] at hlt
  -- the value that is searched for
  have htarget : (Int64.ofInt rank + 1).toInt = rank + 1 := by
    have hofInt : (Int64.ofInt rank).toInt = rank := Int64.toInt_ofInt_of_le (by omega) (by omega)
    have hone : (1 : Int64).toInt = 1 := rfl
    rw [Int64.toInt_add, hofInt, hone]
    exact Int.bmod_eq_of_le (by omega) (by omega)
  -- the sum at an entry against it
  have hread : ∀ index : ℤ, rowStart input i ≤ index →
      index < (rowStart input i + (validEntries input order i).length : ℕ) →
      ∃ j : ℕ, index = (rowStart input i + j : ℕ) ∧
        ((accumulatedBuffer input order memory).read index < Int64.ofInt rank + 1 ↔
          before ((rowEntries input order i).map Entry.run) (j + 1) ≤ rank) := by
    intro index hfirst hend
    obtain ⟨j, rfl⟩ : ∃ j : ℕ, index = (rowStart input i + j : ℕ) :=
      ⟨(index - rowStart input i).toNat, by omega⟩
    refine ⟨j, rfl, ?_⟩
    rw [Int64.lt_iff_toInt_lt, htarget, toInt_accumulatedBuffer memory h hi hl (by omega)]
    omega
  have hmono := before_mono ((rowEntries input order i).map Entry.run)
  have hsearch : searchCounts (accumulatedBuffer input order memory).read
      (Int64.ofInt rank + 1) (rowStart input i)
      (rowStart input i + (validEntries input order i).length : ℕ) =
        (rowStart input i + k : ℕ) := by
    unfold searchCounts
    apply lowerBound_eq
    · omega
    · omega
    · intro index hfirst hbefore
      obtain ⟨j, rfl, hiff⟩ := hread index hfirst (by omega)
      exact hiff.2 ((hmono (show j + 1 ≤ k by omega)).trans hle)
    · intro index hfirst hend
      obtain ⟨j, rfl, hiff⟩ := hread index (by omega) (by omega)
      exact fun hread => absurd (hiff.1 hread) (hlt.trans_le (hmono (by omega))).not_ge
  refine ⟨k, e, ?_, ?_, ⟨by omega, by omega⟩, ?_⟩
  · rw [hsearch]
    push_cast
    rfl
  · rw [rowEntries_eq_append h hi, List.getElem?_append_left hk]
    exact he
  · rw [Int.toNat_natCast]
    exact hdecode

/-! ### A thread -/

section Values

variable (hvalues : validEntries input order i ≠ [])

include hvalues

theorem sortedValues_pos : 0 < (sortedValues (input.lists.list i)).length := by
  obtain ⟨e, he⟩ := List.exists_mem_of_ne_nil _ hvalues
  have hcount := (hl.of_perm (rowEntries_perm h hi)).count_pos e (List.mem_filter.1 he).1
  rw [← decode_validEntries h hi]
  refine List.length_pos_of_mem (mem_decode.2 ⟨e.run, List.mem_map_of_mem he, ?_, rfl⟩)
  unfold Entry.run
  omega

/-- The last running sum is the number of values. -/
theorem toInt_maxPositions :
    ((accumulatedBuffer input order memory).read
      ((rowStart input i + (validEntries input order i).length : ℕ) - 1) - 1).toInt =
      (sortedValues (input.lists.list i)).length - 1 := by
  have hv := List.length_pos_iff.2 hvalues
  have hle := length_validEntries_le h hi
  have hpos := sortedValues_pos h hi hl hvalues
  have hlt := length_sortedValues_lt h hi hl
  have hread := toInt_accumulatedBuffer memory h hi hl
    (show (validEntries input order i).length - 1 < rowLength input i by omega)
  rw [Nat.sub_add_cancel hv, before_length_validEntries h hi, show
    ((rowStart input i + ((validEntries input order i).length - 1) : ℕ) : ℤ) =
      (rowStart input i + (validEntries input order i).length : ℕ) - 1 by omega] at hread
  have hone : (1 : Int64).toInt = 1 := rfl
  rw [Int64.toInt_sub, hread, hone]
  exact Int.bmod_eq_of_le (by omega) (by omega)

end Values

variable {percentages : List ℚ} {j : ℕ} {p : ℚ} (toDouble : ν → ℚ)
  (hzero : input.lists.position 0 = 0)

include hzero

omit [LinearOrder ν] [GetSlicedChild (Entry ν)] [LabelSegments] h hi hl in
/-- Where the first offset is zero, the offsets are the ranges in the arrays. -/
theorem toInt_offsets (hk : k ≤ input.lists.size) :
    (input.lists.offsetsBegin k).toInt = rowStart input k := by
  rw [input.lists.toInt_offsetsBegin hk]
  unfold rowStart
  rw [hzero, Nat.sub_zero]

/-- The end of the range that a thread looks at. -/
theorem end_of_thread (hpos : 0 < rowLength input i) :
    rangeEnd (sortedValidity input order memory) (input.lists.offsetsBegin (i + 1)).toInt =
      (rowStart input i + (validEntries input order i).length : ℕ) := by
  rw [toInt_offsets hzero (show i + 1 ≤ input.lists.size from hi), ← rowStart_add_rowLength hi]
  exact end_eq memory h hi hl hpos

theorem fill_eq_none (hj : j < percentages.length) (hnil : validEntries input order i = []) :
    fill input order memory toDouble percentages (i * percentages.length + j) = none := by
  have hstart := toInt_offsets hzero hi.le
  have hend := toInt_offsets hzero (show i + 1 ≤ input.lists.size from hi)
  rw [← rowStart_add_rowLength hi] at hend
  refine fillPercentile_eq_none hj hstart rfl ?_
  rcases Nat.eq_zero_or_pos (rowLength input i) with hempty | hpos
  · -- an empty range, whatever was read before it
    unfold rangeEnd
    split <;> omega
  · rw [end_of_thread memory h hi hl hzero hpos, hnil]
    exact le_rfl

/-- A thread interpolates between the elements at the two ranks next to its position. -/
theorem exists_fill (hvalues : validEntries input order i ≠ [])
    (hj : percentages[j]? = some p) (hp : 0 ≤ p ∧ p ≤ 1) :
    let position := ((sortedValues (input.lists.list i)).length - 1 : ℚ) * p
    ∃ filled, fill input order memory toDouble percentages (i * percentages.length + j) =
        some filled ∧
      AtRank input order i filled.lowerIndex ⌊position⌋ ∧
      AtRank input order i filled.higherIndex ⌈position⌉ := by
  intro position
  have hlen := (List.getElem?_eq_some_iff.1 hj).1
  have hv := List.length_pos_iff.2 hvalues
  have hle := length_validEntries_le h hi
  have hpos := sortedValues_pos h hi hl hvalues
  have hthread := @exists_fillPercentile ν _ toDouble _ (sortedInput input order memory) _
    (accumulatedBuffer input order memory).read _ _ _ _ _ hlen
    (toInt_offsets hzero hi.le) (end_of_thread memory h hi hl hzero (by omega)) (by omega)
  have hposition : (((sortedValues (input.lists.list i)).length - 1 : ℤ) : ℚ) *
      percentages.getD j 0 = position := by
    rw [List.getD_eq_getElem?_getD, hj]
    push_cast
    rfl
  dsimp only at hthread
  rw [toInt_maxPositions memory h hi hl hvalues, hposition] at hthread
  obtain ⟨filled, hfill, hlower, hhigher⟩ := hthread
  -- both ranks are ranks of elements
  have hcount : (0 : ℚ) ≤ (sortedValues (input.lists.list i)).length - 1 := by
    rw [sub_nonneg]
    exact_mod_cast hpos
  have hfloor : 0 ≤ ⌊position⌋ := Int.floor_nonneg.2 (mul_nonneg hcount hp.1)
  have hceil : ⌈position⌉ ≤ (sortedValues (input.lists.list i)).length - 1 := by
    rw [Int.ceil_le]
    push_cast
    exact mul_le_of_le_one_right hcount hp.2
  have hfloorCeil := Int.floor_le_ceil position
  obtain ⟨lower, hlowerRank⟩ := Int.eq_ofNat_of_zero_le hfloor
  obtain ⟨higher, hhigherRank⟩ := Int.eq_ofNat_of_zero_le (hfloor.trans hfloorCeil)
  refine ⟨filled, hfill, ?_, ?_⟩
  · rw [hlower, hlowerRank]
    exact searchCounts_atRank memory h hi hl (by omega)
  · rw [hhigher, hhigherRank]
    exact searchCounts_atRank memory h hi hl (by omega)

end Arrays

end SparkRapids.Histogram
