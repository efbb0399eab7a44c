import SparkRapidsJni.Histogram.Percentiles
import SparkRapidsJni.Lib.RunLength
import SparkRapidsJni.Lib.SegmentedSort

/-!
# `histogram.cu`: the sorted entries of a histogram

In the sorted arrays, a histogram has the same range as in the child column, counted from the first entry
of the view (`rowStart`, `rowLength`). The entries there (`rowEntries`) are the ones of the histogram, in
order, with a null at the end (`rowEntries_perm`, `pairwise_rowEntries`). The running sums in the range are
the ones of their counts (`toInt_accumulated`).
-/

namespace SparkRapids.Histogram

open Cudf PrefixSums

variable {ν : Type} {input : HistogramsColumn ν} {i k : ℕ}

/-! ### Running sums -/

theorem map_some_filterMap {α β : Type*} {f : α → Option β} {l : List α}
    (h : ∀ a ∈ l, ∃ b, f a = some b) : (l.filterMap f).map some = l.map f := by
  induction l with
  | nil => rfl
  | cons a l ih =>
    obtain ⟨b, hb⟩ := h a (List.mem_cons_self ..)
    rw [List.filterMap_cons_some hb, List.map_cons, List.map_cons, hb,
      ih fun a ha => h a (List.mem_cons_of_mem _ ha)]

/-- A value with how often it occurs. -/
def Entry.run (e : Entry ν) : ν × ℕ := (e.data, e.count.toInt.toNat)

/-- Within a range of one key, the scan adds up the counts of the range. -/
theorem toInt_inclusiveScanByKey {keys : ℕ → ℕ} {values : ℕ → Int64} {a : ℕ} {l : List (Entry ν)}
    (hkeys : ∀ k < l.length, keys (a + k) = i) (hfirst : ∀ k, a = k + 1 → keys k ≠ i)
    (hvalues : ∀ k e, l[k]? = some e → values (a + k) = e.count)
    (hpos : ∀ e ∈ l, 0 < e.count.toInt)
    (hsum : (RunLength.decode (l.map Entry.run)).length < 2 ^ 63) (hk : k < l.length) :
    (inclusiveScanByKey keys values (a + k)).toInt = RunLength.before (l.map Entry.run) (k + 1) := by
  induction k with
  | zero =>
    have he := List.getElem?_eq_getElem hk
    have hcount := hpos _ (List.getElem_mem hk)
    rw [RunLength.before_succ (by rw [List.getElem?_map, he]; rfl), RunLength.before_zero]
    have hscan : inclusiveScanByKey keys values a = values a := by
      cases a with
      | zero => rfl
      | succ a =>
        -- a new key begins here
        unfold inclusiveScanByKey
        rw [if_neg]
        intro heq
        exact hfirst a rfl (heq.symm.trans (hkeys 0 hk))
    rw [Nat.add_zero, hscan, ← Nat.add_zero a, hvalues 0 _ he]
    unfold Entry.run
    omega
  | succ k ih =>
    have he := List.getElem?_eq_getElem hk
    have hcount := hpos _ (List.getElem_mem hk)
    have hrun : (l.map Entry.run)[k + 1]? = some (l[k + 1]).run := by
      rw [List.getElem?_map, he]
      rfl
    have hlt : RunLength.before (l.map Entry.run) (k + 1 + 1) < 2 ^ 63 := by
      refine lt_of_le_of_lt ?_ hsum
      rw [← RunLength.before_length, List.length_map]
      exact RunLength.before_mono _ hk
    have ih := ih (by omega)
    have hsame : keys (a + k + 1) = keys (a + k) :=
      (hkeys (k + 1) hk).trans (hkeys k (by omega)).symm
    rw [RunLength.before_succ hrun] at hlt ⊢
    rw [← Nat.add_assoc]
    unfold inclusiveScanByKey
    rw [if_pos hsame, Nat.add_assoc a k 1, hvalues (k + 1) _ he, Int64.toInt_add, ih]
    unfold Entry.run at hlt ⊢
    rw [Int.bmod_eq_of_le (by omega) (by omega)]
    omega

/-- Positive counts with a sum in the range of a `long`, and no more than one null value. -/
structure IsHistogram (l : List (Entry ν)) : Prop where
  count_pos : ∀ e ∈ l, 0 < e.count.toInt
  sum_lt : (l.map fun e => e.count.toInt.toNat).sum < 2 ^ 63
  null_le : (l.filter fun e => !e.isValid).length ≤ 1

theorem IsHistogram.of_perm {l l' : List (Entry ν)} (hl : IsHistogram l) (h : l'.Perm l) :
    IsHistogram l' where
  count_pos e he := hl.count_pos e (h.mem_iff.1 he)
  sum_lt := by
    rw [(h.map fun e => e.count.toInt.toNat).sum_eq]
    exact hl.sum_lt
  null_le := by
    rw [(h.filter _).length_eq]
    exact hl.null_le

theorem IsHistogram.length_decode_lt {l : List (Entry ν)} (hl : IsHistogram l) :
    (RunLength.decode (l.map Entry.run)).length < 2 ^ 63 := by
  have h := hl.sum_lt
  rw [RunLength.length_decode, List.map_map]
  exact h

/-! ### Ranges -/

/-- Where the range of a histogram begins in the arrays over the entries of the view. -/
def rowStart (input : HistogramsColumn ν) (i : ℕ) : ℕ :=
  input.lists.position i - input.lists.position 0

/-- How many entries a histogram has. -/
def rowLength (input : HistogramsColumn ν) (i : ℕ) : ℕ :=
  input.lists.position (i + 1) - input.lists.position i

/-- How many entries the view has. -/
def numEntries (input : HistogramsColumn ν) : ℕ := rowStart input input.lists.size

theorem rowStart_add_rowLength (hi : i < input.lists.size) :
    rowStart input i + rowLength input i = rowStart input (i + 1) := by
  have hmono := input.lists.position_mono (Nat.zero_le i) hi.le
  have hsucc := input.lists.position_le_succ hi
  unfold rowStart rowLength
  omega

theorem rowEnd_le (hi : i < input.lists.size) :
    rowStart input i + rowLength input i ≤ numEntries input := by
  rw [rowStart_add_rowLength hi]
  exact Nat.sub_le_sub_right (input.lists.position_mono hi le_rfl) _

theorem exclusiveScan_rowLength (hk : k ≤ input.lists.size) :
    exclusiveScan (rowLength input) k = rowStart input k := by
  induction k with
  | zero => exact (Nat.sub_self _).symm
  | succ k ih => rw [exclusiveScan_succ, ih (by omega), rowStart_add_rowLength hk]

/-- An entry of the view is in the range of some row. -/
theorem exists_row (hk : k < numEntries input) :
    ∃ r < input.lists.size, rowStart input r ≤ k ∧ k < rowStart input r + rowLength input r := by
  unfold numEntries at hk
  rw [← exclusiveScan_rowLength le_rfl] at hk
  obtain ⟨r, hr, j, hj, rfl⟩ := exists_segment hk
  rw [exclusiveScan_rowLength hr.le]
  exact ⟨r, hr, by omega, by omega⟩

theorem childStart_eq (input : HistogramsColumn ν) :
    input.lists.childStart = input.lists.position 0 := by
  unfold ListsColumnView.childStart
  split
  · rfl
  · rename_i hoffset
    unfold ListsColumnView.position ListsColumnView.offsetsBegin
    rw [Nat.eq_zero_of_not_pos hoffset, input.offsets_zero]
    rfl

/-! ### Labels -/

section Labels

variable [LabelSegments]

theorem histogramLabels_eq (hi : i < input.lists.size) (hle : rowStart input i ≤ k)
    (hlt : k < rowStart input i + rowLength input i) : histogramLabels input k = i := by
  have hmono := input.lists.position_mono (Nat.zero_le i) hi.le
  unfold rowStart at hle hlt
  unfold rowLength at hlt
  exact labelSegments_eq (fun _ hk => input.lists.position_le_succ hk) hi (by omega) (by omega)

/-- The label of an entry is the row in the range of which it is. -/
theorem histogramLabels_eq_iff (hi : i < input.lists.size) (hk : k < numEntries input) :
    histogramLabels input k = i ↔
      rowStart input i ≤ k ∧ k < rowStart input i + rowLength input i := by
  refine ⟨?_, fun h => histogramLabels_eq hi h.1 h.2⟩
  rintro rfl
  obtain ⟨r, hr, hle, hlt⟩ := exists_row hk
  rw [histogramLabels_eq hr hle hlt]
  exact ⟨hle, hlt⟩

theorem histogramLabels_mono {k' : ℕ} (hk : k ≤ k') (hk' : k' < numEntries input) :
    histogramLabels input k ≤ histogramLabels input k' := by
  obtain ⟨r, hr, hle, hlt⟩ := exists_row (hk.trans_lt hk')
  obtain ⟨r', hr', hle', hlt'⟩ := exists_row hk'
  rw [histogramLabels_eq hr hle hlt, histogramLabels_eq hr' hle' hlt']
  by_contra hnot
  -- the range of the row of `k'` would end in front of the one of `k`
  have hmono := input.lists.position_mono (show r' + 1 ≤ r by omega) hr.le
  have hend := rowStart_add_rowLength hr'
  unfold rowStart at *
  omega

end Labels

/-! ### The sliced child -/

variable [GetSlicedChild (Entry ν)]

/-- The whole column begins and ends with its child, so the sliced child is the entries of the view. -/
theorem length_getSlicedChild (input : HistogramsColumn ν) :
    (getSlicedChild input.lists).length = numEntries input := by
  rw [GetSlicedChild.length_eq, childStart_eq]
  · rfl
  rw [or_iff_not_imp_left, or_iff_not_imp_left]
  intro hoffset hsize
  -- all of the rows: the last offset is the end of the child
  have hgt := input.lists.offsetsSize_gt
  have hend : input.lists.offset + input.lists.size = input.lists.offsetsSize - 1 := by omega
  unfold ListsColumnView.position ListsColumnView.offsetsBegin
  rw [hend, input.offsets_last]
  rfl

theorem getSlicedChild_eq (input : HistogramsColumn ν) :
    getSlicedChild input.lists =
      (input.lists.child.take (input.lists.position input.lists.size)).drop
        (input.lists.position 0) := by
  have hlen := length_getSlicedChild input
  unfold numEntries rowStart at hlen
  refine List.ext_getElem? fun k => ?_
  rw [List.getElem?_drop, List.getElem?_take]
  split
  · rename_i hlt
    rw [GetSlicedChild.getElem?_eq _ (by rwa [childStart_eq]), childStart_eq]
  · exact List.getElem?_eq_none (by omega)

theorem list_eq_segment (hi : i < input.lists.size) :
    input.lists.list i =
      ((getSlicedChild input.lists).drop (rowStart input i)).take (rowLength input i) := by
  have hmono := input.lists.position_mono (Nat.zero_le i) hi.le
  have hsucc := input.lists.position_le_succ hi
  have hend := input.lists.position_mono (show i + 1 ≤ input.lists.size from hi) le_rfl
  rw [getSlicedChild_eq]
  unfold ListsColumnView.list rowStart rowLength
  rw [List.drop_drop, List.drop_take, List.drop_take, List.take_take]
  congr 1
  · omega
  · congr 1
    omega

variable [LabelSegments]

/-- The rows of the table that is sorted: the label and the entry of an index. -/
def labeled (input : HistogramsColumn ν) (o : ℕ) : ℕ × Option (Entry ν) :=
  (histogramLabels input o, (getSlicedChild input.lists)[o]?)

theorem pairwise_labeled_range (input : HistogramsColumn ν) :
    ((List.range (numEntries input)).map (labeled input)).Pairwise (·.1 ≤ ·.1) :=
  List.pairwise_map.2 (List.pairwise_lt_range.imp_of_mem fun _ hmem hlt =>
    histogramLabels_mono hlt.le (List.mem_range.1 hmem))

theorem map_snd_labeled_range (input : HistogramsColumn ν) :
    ((List.range (numEntries input)).map (labeled input)).map Prod.snd =
      (getSlicedChild input.lists).map some := by
  rw [← length_getSlicedChild]
  refine List.ext_getElem? fun k => ?_
  rw [List.map_map, List.getElem?_map, List.getElem?_map]
  rcases Nat.lt_or_ge k (getSlicedChild input.lists).length with hlt | hge
  · rw [List.getElem?_range hlt, List.getElem?_eq_getElem hlt]
    exact congrArg some (List.getElem?_eq_getElem hlt)
  · rw [List.getElem?_eq_none (by rwa [List.length_range]), List.getElem?_eq_none hge]
    rfl

/-! ### The sorted entries -/

section Entries

variable [LinearOrder ν] {order : List ℕ} {e : Entry ν}

/-- The entries in the range of a histogram in the sorted arrays. -/
def rowEntries (input : HistogramsColumn ν) (order : List ℕ) (i : ℕ) : List (Entry ν) :=
  ((order.drop (rowStart input i)).take (rowLength input i)).filterMap fun o =>
    (getSlicedChild input.lists)[o]?

/-- The order that the sort returns, for the entries of the view. -/
def Sorted (input : HistogramsColumn ν) (order : List ℕ) : Prop :=
  SortedOrder (histogramLabels input) (getSlicedChild input.lists) order

variable (h : Sorted input order)
include h

theorem Sorted.length_eq : order.length = numEntries input := by
  rw [h.perm.length_eq, List.length_range, length_getSlicedChild]

theorem Sorted.lt_of_mem {o : ℕ} (ho : o ∈ order) : o < numEntries input := by
  rw [← length_getSlicedChild]
  exact List.mem_range.1 (h.perm.mem_iff.1 ho)

/-- Behind each index there is an entry. -/
theorem Sorted.exists_entry {o : ℕ} (ho : o ∈ order) :
    ∃ e, (getSlicedChild input.lists)[o]? = some e := by
  have hlt := h.lt_of_mem ho
  rw [← length_getSlicedChild] at hlt
  exact ⟨_, List.getElem?_eq_getElem hlt⟩

theorem map_some_rowEntries (i : ℕ) :
    (rowEntries input order i).map some =
      ((order.drop (rowStart input i)).take (rowLength input i)).map fun o =>
        (getSlicedChild input.lists)[o]? :=
  map_some_filterMap fun _ ho => h.exists_entry (List.mem_of_mem_drop (List.mem_of_mem_take ho))

theorem length_rowEntries (hi : i < input.lists.size) :
    (rowEntries input order i).length = rowLength input i := by
  have hend := rowEnd_le hi
  have hlen := congrArg List.length (map_some_rowEntries h i)
  rw [List.length_map, List.length_map, List.length_take, List.length_drop, h.length_eq] at hlen
  omega

/-- An entry of the range, from the index there. -/
theorem getElem?_rowEntries (hk : (rowEntries input order i)[k]? = some e) :
    ∃ o, order[rowStart input i + k]? = some o ∧
      (getSlicedChild input.lists)[o]? = some e := by
  have hmap := congrArg (fun l => l[k]?) (map_some_rowEntries h i)
  rw [List.getElem?_map, hk, List.getElem?_map, List.getElem?_take] at hmap
  split at hmap
  · rw [List.getElem?_drop] at hmap
    cases ho : order[rowStart input i + k]? with
    | none =>
      rw [ho] at hmap
      cases hmap
    | some o =>
      rw [ho, Option.map_some, Option.map_some, Option.some.injEq] at hmap
      exact ⟨o, rfl, hmap.symm⟩
  · cases hmap

theorem Sorted.labeled_perm :
    (order.map (labeled input)).Perm ((List.range (numEntries input)).map (labeled input)) := by
  have hperm := h.perm
  rw [length_getSlicedChild] at hperm
  exact hperm.map _

theorem Sorted.pairwise_labeled : (order.map (labeled input)).Pairwise (·.1 ≤ ·.1) := by
  refine List.pairwise_map.2 (h.sorted.imp_of_mem fun ho ho' hle => ?_)
  obtain ⟨e, he⟩ := h.exists_entry ho
  obtain ⟨e', he'⟩ := h.exists_entry ho'
  rcases Prod.Lex.toLex_le_toLex.1 (hle e e' he he') with hlt | ⟨heq, -⟩
  · exact hlt.le
  · exact heq.le

variable (hi : i < input.lists.size)
include hi

/-- The indices in the range of a histogram have its label. -/
theorem Sorted.label_eq {o : ℕ} (ho : o ∈ (order.drop (rowStart input i)).take (rowLength input i)) :
    histogramLabels input o = i := by
  obtain ⟨k, hk⟩ := List.getElem?_of_mem ho
  have hlt := (List.getElem?_eq_some_iff.1 hk).1
  rw [List.length_take] at hlt
  rw [List.getElem?_take_of_lt (by omega), List.getElem?_drop] at hk
  -- the sort leaves the labels where they are
  have hlabels := SegmentedSort.map_fst_eq h.labeled_perm (pairwise_labeled_range input)
    h.pairwise_labeled
  rw [List.map_map, List.map_map] at hlabels
  have hend := rowEnd_le hi
  have hplace := congrArg (fun l => l[rowStart input i + k]?) hlabels
  rw [List.getElem?_map, hk, List.getElem?_map, List.getElem?_range (by omega)] at hplace
  have heq : histogramLabels input o = histogramLabels input (rowStart input i + k) :=
    Option.some.inj hplace
  rw [heq]
  exact (histogramLabels_eq_iff hi (by omega)).2 ⟨by omega, by omega⟩

/-- The range of a histogram in the sorted arrays has the entries of the histogram. -/
theorem rowEntries_perm : (rowEntries input order i).Perm (input.lists.list i) := by
  have hsegment := SegmentedSort.segment_perm (i := i) (a := rowStart input i)
    (n := rowLength input i) h.labeled_perm (pairwise_labeled_range input) h.pairwise_labeled
    fun k label hk => by
      rw [List.map_map, List.getElem?_map] at hk
      have hlt : k < numEntries input := by
        by_contra hge
        rw [List.getElem?_eq_none (by rw [List.length_range]; omega)] at hk
        cases hk
      rw [List.getElem?_range hlt] at hk
      rw [← Option.some.inj hk]
      exact histogramLabels_eq_iff hi hlt
  have htable : (((List.range (numEntries input)).map (labeled input)).drop (rowStart input i)
      |>.take (rowLength input i)).map Prod.snd = (input.lists.list i).map some := by
    rw [List.map_take, List.map_drop, map_snd_labeled_range, ← List.map_drop, ← List.map_take,
      ← list_eq_segment hi]
  have hsorted : ((order.map (labeled input)).drop (rowStart input i)
      |>.take (rowLength input i)).map Prod.snd =
      (rowEntries input order i).map some := by
    rw [map_some_rowEntries h, List.map_take, List.map_drop, List.map_map, ← List.map_drop,
      ← List.map_take]
    rfl
  have hentries := hsegment.map Prod.snd
  rw [hsorted, htable] at hentries
  simpa [List.filterMap_map] using hentries.filterMap id

/-- They are in order. -/
theorem pairwise_rowEntries : (rowEntries input order i).Pairwise fun e e' => e.key ≤ e'.key := by
  have hsegment := h.sorted.sublist ((List.take_sublist (rowLength input i) _).trans
    (List.drop_sublist (rowStart input i) _))
  refine List.pairwise_filterMap.2 (hsegment.imp_of_mem fun ho ho' hle e he e' he' => ?_)
  rcases Prod.Lex.toLex_le_toLex.1 (hle e e' he he') with hlt | ⟨-, hkey⟩
  · -- both have the same label
    dsimp only at hlt
    rw [h.label_eq hi ho, h.label_eq hi ho'] at hlt
    exact absurd hlt (lt_irrefl i)
  · exact hkey

/-- The running sums in the range of a histogram. -/
theorem toInt_accumulated (hl : IsHistogram (input.lists.list i)) (hk : k < rowLength input i) :
    ∃ c : Int64, (accumulatedCounts input order)[rowStart input i + k]? = some c ∧
      c.toInt = RunLength.before ((rowEntries input order i).map Entry.run) (k + 1) := by
  have hend := rowEnd_le hi
  have hrows := hl.of_perm (rowEntries_perm h hi)
  unfold accumulatedCounts
  dsimp only
  rw [length_getSlicedChild, List.getElem?_map, List.getElem?_range (by omega)]
  refine ⟨_, rfl, toInt_inclusiveScanByKey (i := i) ?_ ?_ ?_ hrows.count_pos hrows.length_decode_lt
    (by rwa [length_rowEntries h hi])⟩
  · intro k hk
    rw [length_rowEntries h hi] at hk
    exact (histogramLabels_eq_iff hi (by omega)).2 ⟨by omega, by omega⟩
  · intro k hfirst hlabel
    have := ((histogramLabels_eq_iff hi (by omega)).1 hlabel).1
    omega
  · intro k e he
    obtain ⟨o, ho, hentry⟩ := getElem?_rowEntries h he
    rw [ho, Option.bind_some, hentry]
    rfl

end Entries

end SparkRapids.Histogram
