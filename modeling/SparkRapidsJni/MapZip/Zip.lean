import SparkRapidsJni.MapZip.IndicesOf

/-!
# Zipping maps

`map_zip` looks up the keys of both maps of a row in either map. The index of a key is right exactly
where its own value is compared with it, and no value of another row is taken for it (`Compared`,
`right_iff_compared`); then the key is paired with its values (`mapZip_pairs_iff`).
-/

namespace SparkRapids.MapZip

open Cudf (LabelSegments)
open PrefixSums

/-! ### What the comparisons leave -/

section Outcome

variable {α : Type*} [DecidableEq α] [LabelSegments] {ks vs : ListsColumn α}
  {idx k : ℕ} {order : List ℕ} {results : ℕ → ℤ}

/-- A comparison finds an equal value for a key. -/
def Matches (ks vs : ListsColumn α) (idx k : ℕ) : Prop :=
  keyIndex ks vs idx = k ∧
    ∃ key, vs.child[valuesIdx ks vs idx]? = some key ∧
      ks.child[k]? = some key

/-- The index that a comparison writes. -/
def written (ks vs : ListsColumn α) (idx : ℕ) : ℤ :=
  valuesIdx ks vs idx -
    vs.offsets (valOffsets ks vs idx)

theorem compare_of_matches (h : Matches ks vs idx k) :
    compare ks vs results idx k = written ks vs idx := by
  obtain ⟨rfl, key, hvalue, hkey⟩ := h
  unfold compare
  simp only [hvalue, hkey, if_true, Function.update_self]
  rfl

theorem compare_of_not_matches (h : ¬Matches ks vs idx k) :
    compare ks vs results idx k = results k := by
  unfold compare
  cases hvalue : vs.child[valuesIdx ks vs idx]? with
  | none => rfl
  | some value =>
    cases hkey : ks.child[keyIndex ks vs idx]? with
    | none => rfl
    | some key =>
      simp only
      split_ifs with heq
      · refine Function.update_of_ne (fun hk => h ?_) _ _
        obtain rfl := hk
        exact ⟨rfl, key, heq ▸ hvalue, hkey⟩
      · rfl

/-- A key has what one of its matches wrote, or what was there before where it has none. -/
theorem foldl_compare (order : List ℕ) (results : ℕ → ℤ) (k : ℕ) :
    (∃ idx ∈ order, Matches ks vs idx k ∧
      order.foldl (compare ks vs) results k = written ks vs idx) ∨
    (∀ idx ∈ order, ¬Matches ks vs idx k) ∧
      order.foldl (compare ks vs) results k = results k := by
  induction order using List.reverseRecOn with
  | nil => exact .inr ⟨fun idx hidx => absurd hidx List.not_mem_nil, rfl⟩
  | append_singleton order idx ih =>
    rw [List.foldl_append]
    simp only [List.foldl_cons, List.foldl_nil]
    by_cases h : Matches ks vs idx k
    · exact .inl ⟨idx, by simp, h, compare_of_matches h⟩
    · rw [compare_of_not_matches h]
      rcases ih with ⟨idx', hidx', hmatch, heq⟩ | ⟨hnone, heq⟩
      · exact .inl ⟨idx', List.mem_append_left _ hidx', hmatch, heq⟩
      · refine .inr ⟨fun idx' hidx' => ?_, heq⟩
        rcases List.mem_append.1 hidx' with hidx' | hidx'
        · exact hnone idx' hidx'
        · rwa [List.mem_singleton.1 hidx']

/-- Every match can be the last one to write. -/
theorem exists_indicesOf (h : Matches ks vs idx k)
    (hidx : idx < totalCompares ks vs) :
    ∃ results, IndicesOf ks vs results ∧
      results k = written ks vs idx := by
  refine ⟨_, ⟨(List.range (totalCompares ks vs)).erase idx ++ [idx], ?_, rfl⟩, ?_⟩
  · exact List.perm_append_singleton .. |>.trans (List.perm_cons_erase (List.mem_range.2 hidx)).symm
  · rw [List.foldl_append]
    exact compare_of_matches h

end Outcome

/-! ### Right positions -/

section Positions

variable {α : Type*} {ks vs : ListsColumn α} {key : α}
  {row : List α} {r j i : ℕ}

/-- An index is the position of a key, or out of bounds, from either end, where there is none. -/
def Right (row : List α) (key : α) (index : ℤ) : Prop :=
  (∀ p : ℕ, row[p]? = some key → index = p) ∧ (key ∉ row → ¬(-row.length ≤ index ∧ index < row.length))

/-- The values of a row that have to be compared with a key are: behind `start` comparisons, the first
`start` ones are, and with none before, as many values of the column as the row has. -/
def Compared (ks vs : ListsColumn α) (r j : ℕ) (key : α) : Prop :=
  let start := comparesBefore ks vs r j
  let row := vs.row r
  if start > 0 then ∀ p < row.length, row[p]? = some key → p < start
  else
    (∀ p < row.length, row[p]? = some key → vs.offsets r + p < row.length) ∧
      -- a value of a row before is not taken for one of the row
      ∀ i < row.length, vs.child[i]? = some key →
        vs.offsets r ≤ i ∨ key ∉ row ∧ i + row.length < vs.offsets r

instance [DecidableEq α] : Decidable (Compared ks vs r j key) :=
  inferInstanceAs (Decidable (ite _ _ _))

theorem right_of_getElem? (hnodup : row.Nodup) (h : row[i]? = some key) : Right row key i := by
  refine ⟨fun p hp => ?_, fun hnot => absurd (List.mem_of_getElem? h) hnot⟩
  obtain ⟨hi, hkey⟩ := List.getElem?_eq_some_iff.1 h
  obtain ⟨hp', hkey'⟩ := List.getElem?_eq_some_iff.1 hp
  rw [hnodup.getElem_inj_iff.1 (hkey.trans hkey'.symm)]

theorem right_of_notMem {total : ℕ} (hle : row.length ≤ total) :
    Right row key (-(total : ℤ) - 1) ↔ key ∉ row := by
  constructor
  · intro hright hmem
    obtain ⟨p, hp⟩ := List.mem_iff_getElem?.1 hmem
    have := hright.1 p hp
    omega
  · exact fun hnot => ⟨fun p hp => absurd (List.mem_of_getElem? hp) hnot, fun _ => by omega⟩

theorem numValues_eq (hvalid : vs.isValid r) :
    numValues vs r = (vs.row r).length := by
  rw [numValues, ListsColumn.countElements, if_pos hvalid, Option.getD_some]

theorem isValid_of_key (h : Searchable ks vs) (hj : j < (ks.row r).length) :
    vs.isValid r := by
  refine h.isValid r (lt_size hj) ?_
  by_contra hnull
  rw [h.row_of_null r (by simpa using hnull)] at hj
  exact absurd hj (Nat.not_lt_zero j)

theorem length_le_totalCompares (h : Searchable ks vs)
    (hj : j < (ks.row r).length) :
    (vs.row r).length ≤ totalCompares ks vs := by
  rw [← numValues_eq (isValid_of_key h hj)]
  rcases Nat.eq_zero_or_pos (numValues vs r) with hzero | hpos
  · omega
  · have := comparison_lt h hj (Nat.sub_lt hpos one_pos)
    omega

variable [LabelSegments]

/-- The matches of a key are among its own comparisons. -/
theorem matches_iff (h : Searchable ks vs) (hkey : (ks.row r)[j]? = some key)
    {idx : ℕ} (hidx : idx < totalCompares ks vs) :
    Matches ks vs idx (ks.offsets r + j) ↔
      ∃ i < (vs.row r).length, idx = comparesBefore ks vs r j + i ∧
        vs.child[place ks vs r j i]? = some key := by
  obtain ⟨hj, -⟩ := List.getElem?_eq_some_iff.1 hkey
  have hchild := (ListsColumn.getElem?_child (lt_size hj) hj).trans hkey
  have hnum := numValues_eq (isValid_of_key h hj)
  constructor
  · rintro ⟨hindex, key', hvalue, hkey'⟩
    obtain rfl : key = key' := by simpa using hchild.symm.trans hkey'
    obtain ⟨r', j', i, hj', hi, rfl⟩ := exists_comparison h hidx
    rw [keyIndex_eq hj' hi] at hindex
    obtain ⟨rfl, rfl⟩ := @segment_unique (fun r => (ks.row r).length) _ _ _ _ hj' hj hindex
    rw [valuesIdx_eq h hj' hi] at hvalue
    exact ⟨i, hnum ▸ hi, rfl, hvalue⟩
  · rintro ⟨i, hi, rfl, hvalue⟩
    rw [← hnum] at hi
    exact ⟨keyIndex_eq hj hi, key, by rw [valuesIdx_eq h hj hi, hvalue], hchild⟩

theorem written_eq (h : Searchable ks vs) (hj : j < (ks.row r).length)
    (hi : i < (vs.row r).length) :
    written ks vs (comparesBefore ks vs r j + i) =
      place ks vs r j i - vs.offsets r := by
  rw [← numValues_eq (isValid_of_key h hj)] at hi
  rw [written, valuesIdx_eq h hj hi, valOffsets_eq h hj hi]

variable [DecidableEq α]

/-- The index of a key is right after the comparisons in any order where the value at the place of
every comparison is right, and where no comparison finds the key there is none. -/
theorem forall_right_iff (h : Searchable ks vs)
    (hkey : (ks.row r)[j]? = some key) :
    (∀ results, IndicesOf ks vs results →
        Right (vs.row r) key (results (ks.offsets r + j))) ↔
      (∀ i < (vs.row r).length,
        vs.child[place ks vs r j i]? = some key →
          Right (vs.row r) key
            (place ks vs r j i - vs.offsets r)) ∧
      (key ∈ vs.row r → ∃ i < (vs.row r).length,
        vs.child[place ks vs r j i]? = some key) := by
  obtain ⟨hj, -⟩ := List.getElem?_eq_some_iff.1 hkey
  have hle := length_le_totalCompares h hj
  constructor
  · intro hright
    have hfound : ∀ i < (vs.row r).length,
        vs.child[place ks vs r j i]? = some key →
          Right (vs.row r) key
            (place ks vs r j i - vs.offsets r) := by
      intro i hi hvalue
      have hidx := comparison_lt h hj ((numValues_eq (isValid_of_key h hj)).symm ▸ hi)
      -- this comparison can be the last one
      obtain ⟨results, hresults, heq⟩ :=
        exists_indicesOf ((matches_iff h hkey hidx).2 ⟨i, hi, rfl, hvalue⟩) hidx
      rw [← written_eq h hj hi, ← heq]
      exact hright results hresults
    refine ⟨hfound, fun hmem => ?_⟩
    by_contra hnone
    push Not at hnone
    have hresults := hright _ ⟨List.range (totalCompares ks vs), .refl _, rfl⟩
    rcases @foldl_compare α _ _ ks vs
      (List.range (totalCompares ks vs))
      (fun _ => -(totalCompares ks vs : ℤ) - 1) (ks.offsets r + j) with
      ⟨idx, hidx, hmatch, -⟩ | ⟨-, heq⟩
    · obtain ⟨i, hi, -, hvalue⟩ := (matches_iff h hkey (List.mem_range.1 hidx)).1 hmatch
      exact hnone i hi hvalue
    · rw [heq] at hresults
      exact (right_of_notMem hle).1 hresults hmem
  · rintro ⟨hfound, hmem⟩ results ⟨order, horder, rfl⟩
    have hrange : ∀ idx ∈ order, idx < totalCompares ks vs :=
      fun idx hidx => List.mem_range.1 (horder.mem_iff.1 hidx)
    rcases @foldl_compare α _ _ ks vs order (fun _ => -(totalCompares ks vs : ℤ) - 1)
      (ks.offsets r + j) with ⟨idx, hidx, hmatch, heq⟩ | ⟨hnone, heq⟩
    · obtain ⟨i, hi, rfl, hvalue⟩ := (matches_iff h hkey (hrange idx hidx)).1 hmatch
      rw [heq, written_eq h hj hi]
      exact hfound i hi hvalue
    · rw [heq]
      refine (right_of_notMem hle).2 fun hkey' => ?_
      obtain ⟨i, hi, hvalue⟩ := hmem hkey'
      have hidx := comparison_lt h hj ((numValues_eq (isValid_of_key h hj)).symm ▸ hi)
      exact hnone _ (horder.mem_iff.2 (List.mem_range.2 hidx))
        ((matches_iff h hkey hidx).2 ⟨i, hi, rfl, hvalue⟩)

/-- The index of a key is right after the comparisons in any order exactly where its own value is
compared with it. -/
theorem right_iff_compared (h : Searchable ks vs)
    (hnodup : (vs.row r).Nodup) (hkey : (ks.row r)[j]? = some key) :
    (∀ results, IndicesOf ks vs results →
        Right (vs.row r) key (results (ks.offsets r + j))) ↔
      Compared ks vs r j key := by
  obtain ⟨hj, -⟩ := List.getElem?_eq_some_iff.1 hkey
  have hr : r < vs.size := h.size_eq ▸ lt_size hj
  have hrow : ∀ p < (vs.row r).length,
      vs.child[vs.offsets r + p]? = (vs.row r)[p]? :=
    fun p hp => ListsColumn.getElem?_child hr hp
  rw [forall_right_iff h hkey]
  unfold Compared place
  dsimp only
  split_ifs with hstart
  · -- a remainder is a position of the row
    have hmod : ∀ i < (vs.row r).length,
        i % comparesBefore ks vs r j < (vs.row r).length :=
      fun i hi => (Nat.mod_le i _).trans_lt hi
    constructor
    · rintro ⟨-, hmem⟩ p - hp
      obtain ⟨i, hi, hvalue⟩ := hmem (List.mem_of_getElem? hp)
      rw [Nat.add_comm, hrow _ (hmod i hi)] at hvalue
      have := (right_of_getElem? hnodup hp).1 _ hvalue
      have := Nat.mod_lt i hstart
      omega
    · intro hall
      refine ⟨fun i hi hvalue => ?_, fun hmem => ?_⟩
      · rw [Nat.add_comm, hrow _ (hmod i hi)] at hvalue
        have := right_of_getElem? hnodup hvalue
        rwa [Nat.cast_add, add_sub_cancel_right]
      · obtain ⟨p, hp⟩ := List.mem_iff_getElem?.1 hmem
        have hlt := (List.getElem?_eq_some_iff.1 hp).1
        refine ⟨p, hlt, ?_⟩
        rw [Nat.mod_eq_of_lt (hall p hlt hp), Nat.add_comm, hrow p hlt, hp]
  · constructor
    · rintro ⟨hfound, hmem⟩
      refine ⟨fun p _ hp => ?_, fun i hi hvalue => ?_⟩
      · obtain ⟨i, hi, hvalue⟩ := hmem (List.mem_of_getElem? hp)
        have := (hfound i hi hvalue).1 p hp
        omega
      · by_cases hkey' : key ∈ vs.row r
        · obtain ⟨p, hp⟩ := List.mem_iff_getElem?.1 hkey'
          have := (hfound i hi hvalue).1 p hp
          omega
        · have hout := (hfound i hi hvalue).2 hkey'
          by_contra hnot
          push Not at hnot
          have hlt := hnot.2 hkey'
          omega
    · rintro ⟨hown, hother⟩
      refine ⟨fun i hi hvalue => ?_, fun hmem => ?_⟩
      · rcases hother i hi hvalue with hge | ⟨hnot, hlt⟩
        · -- the value is one of the row
          obtain ⟨p, rfl⟩ := Nat.exists_eq_add_of_le hge
          rw [hrow p (by omega)] at hvalue
          rw [Nat.cast_add, add_sub_cancel_left]
          exact right_of_getElem? hnodup hvalue
        · exact ⟨fun p hp => absurd (List.mem_of_getElem? hp) hnot, fun _ => by omega⟩
      · obtain ⟨p, hp⟩ := List.mem_iff_getElem?.1 hmem
        have hlt := (List.getElem?_eq_some_iff.1 hp).1
        exact ⟨vs.offsets r + p, hown p hlt hp, (hrow p hlt).trans hp⟩

end Positions

/-! ### `map_zip` -/

section Zip

variable {K V W : Type*}

/-- The lists of a part of the elements: `map1_keys` and `map1_values` of a column of maps. -/
def ListsColumn.map {α β : Type*} (f : α → β) (column : ListsColumn α) : ListsColumn β :=
  ⟨column.rows.map fun row => (row.1, row.2.map f)⟩

/-- An element of a list, counted from its end where the index is negative: `out_of_bounds_policy::NULLIFY` -/
def gather (row : List V) (index : ℤ) : Option V :=
  let wrapped := if index < 0 then index + row.length else index
  if 0 ≤ wrapped ∧ wrapped < row.length then row[wrapped.toNat]? else none

/-- `segmented_gather`, with `NULLIFY`, of indices in rows of these sizes -/
class SegmentedGather (V : Type*) where
  segmentedGather (values : ListsColumn V) (numRows : ℕ) (size : ℕ → ℕ) (indices : ℕ → ℤ) :
    ListsColumn (Option V)
  /-- The gathered values lie where their indices lie. -/
  getElem?_child : ∀ {values : ListsColumn V} {numRows : ℕ} {size : ℕ → ℕ} {indices : ℕ → ℤ} {r j : ℕ},
    r < numRows → j < size r →
      (segmentedGather values numRows size indices).child[exclusiveScan size r + j]? =
        some (gather (values.row r) (indices (exclusiveScan size r + j)))

export SegmentedGather (segmentedGather)

/-- `make_lists_column`, with the offsets of `search_keys` -/
def makeListsColumn (searchKeys : ListsColumn K) (child : List V) (mask : ℕ → Bool) : ListsColumn V :=
  ⟨(List.range searchKeys.size).map fun r =>
    (mask r, (child.drop (searchKeys.offsets r)).take (searchKeys.row r).length)⟩

/-- `map_zip`, of the distinct keys of both maps and their indices in either. -/
def mapZip [SegmentedGather V] [SegmentedGather W] (col1 : ListsColumn (K × V))
    (col2 : ListsColumn (K × W)) (searchKeys : ListsColumn K) (map1Indices map2Indices : ℕ → ℤ) : ListsColumn (K × Option V × Option W) :=
  let sizes := fun r => (searchKeys.row r).length
  let map1ValuesListGather := segmentedGather (col1.map Prod.snd) searchKeys.size sizes map1Indices
  let map2ValuesListGather := segmentedGather (col2.map Prod.snd) searchKeys.size sizes map2Indices
  let valuePair := map1ValuesListGather.child.zip map2ValuesListGather.child
  makeListsColumn searchKeys (searchKeys.child.zip valuePair) fun r => col1.isValid r && col2.isValid r

/-- `union_distinct`: the lists of the keys of either list, each key once, in some order. -/
structure UnionDistinct (keys1 keys2 ks : ListsColumn K) : Prop where
  size_eq : ks.size = keys1.size
  isValid_eq : ∀ r < ks.size, ks.isValid r = (keys1.isValid r && keys2.isValid r)
  row_of_null : ∀ r < ks.size, ks.isValid r = false → ks.row r = []
  nodup : ∀ r < ks.size, (ks.row r).Nodup
  mem_iff : ∀ r < ks.size, ks.isValid r → ∀ key,
    key ∈ ks.row r ↔ key ∈ keys1.row r ∨ key ∈ keys2.row r

/-- A row of two maps zipped: null where one is, else every key of both once, with the value it has in
either. -/
structure Zipped [DecidableEq K] (map1 : Bool × List (K × V)) (map2 : Bool × List (K × W))
    (zipped : Bool × List (K × Option V × Option W)) : Prop where
  valid : zipped.1 = (map1.1 && map2.1)
  nodup : zipped.1 → (zipped.2.map Prod.fst).Nodup
  mem_iff : zipped.1 → ∀ key, key ∈ zipped.2.map Prod.fst ↔
    key ∈ map1.2.map Prod.fst ∨ key ∈ map2.2.map Prod.fst
  values : zipped.1 → ∀ entry ∈ zipped.2,
    entry.2 = (map1.2.lookup entry.1, map2.2.lookup entry.1)

namespace ListsColumn

variable {α β : Type*} {f : α → β} {column : ListsColumn α} {r : ℕ}

theorem row_map (f : α → β) (column : ListsColumn α) (r : ℕ) :
    (column.map f).row r = (column.row r).map f := by
  unfold row map
  dsimp only
  rw [List.getD_eq_getElem?_getD, List.getD_eq_getElem?_getD, List.getElem?_map]
  cases column.rows[r]? <;> rfl

theorem isValid_map (f : α → β) (column : ListsColumn α) (r : ℕ) :
    (column.map f).isValid r = column.isValid r := by
  unfold isValid map
  dsimp only
  rw [List.getD_eq_getElem?_getD, List.getD_eq_getElem?_getD, List.getElem?_map]
  cases column.rows[r]? <;> rfl

theorem size_map (f : α → β) (column : ListsColumn α) : (column.map f).size = column.size :=
  List.length_map ..

theorem row_range {n : ℕ} (mask : ℕ → Bool) (rows : ℕ → List β) (hr : r < n) :
    (⟨(List.range n).map fun r => (mask r, rows r)⟩ : ListsColumn β).row r = rows r := by
  unfold row
  rw [List.getD_eq_getElem?_getD, List.getElem?_map, List.getElem?_range hr]
  rfl

theorem isValid_range {n : ℕ} (mask : ℕ → Bool) (rows : ℕ → List β) (hr : r < n) :
    (⟨(List.range n).map fun r => (mask r, rows r)⟩ : ListsColumn β).isValid r = mask r := by
  unfold isValid
  rw [List.getD_eq_getElem?_getD, List.getElem?_map, List.getElem?_range hr]
  rfl

end ListsColumn

open ListsColumn (row_map isValid_map size_map row_range isValid_range)

instance (V : Type*) : SegmentedGather V where
  segmentedGather values numRows size indices :=
    ⟨(List.range numRows).map fun r => (values.isValid r,
      (List.range (size r)).map fun j => gather (values.row r) (indices (exclusiveScan size r + j)))⟩
  getElem?_child {values numRows size indices r j} hr hj := by
    generalize hcolumn : (⟨(List.range numRows).map fun r => (values.isValid r, (List.range (size r)).map
      fun j => gather (values.row r) (indices (exclusiveScan size r + j)))⟩ :
        ListsColumn (Option V)) = column
    have hrow : ∀ r' < numRows, column.row r' = (List.range (size r')).map fun j =>
        gather (values.row r') (indices (exclusiveScan size r' + j)) :=
      fun r' hr' => hcolumn ▸ row_range _ _ hr'
    have hsize : column.size = numRows := by simp [← hcolumn, ListsColumn.size]
    have hoffsets : column.offsets r = exclusiveScan size r := by
      refine exclusiveScan_congr fun r' hr' => ?_
      rw [hrow r' (hr'.trans hr), List.length_map, List.length_range]
    have hlen : j < (column.row r).length := by rwa [hrow r hr, List.length_map, List.length_range]
    rw [← hoffsets, ListsColumn.getElem?_child (hsize ▸ hr) hlen, hrow r hr, List.getElem?_map,
      List.getElem?_range hj, hoffsets]
    rfl

variable {col1 : ListsColumn (K × V)} {col2 : ListsColumn (K × W)} {ks : ListsColumn K}
  {map1Indices map2Indices indices : ℕ → ℤ} {r j : ℕ}

section Lookup

variable [DecidableEq K]

theorem lookup_of_getElem? {row : List (K × V)} {key : K} {value : V} {p : ℕ}
    (hnodup : (row.map Prod.fst).Nodup) (h : row[p]? = some (key, value)) :
    row.lookup key = some value := by
  obtain ⟨hp, heq⟩ := List.getElem?_eq_some_iff.1 h
  rw [List.lookup_eq_some_iff]
  refine ⟨row.take p, row.drop (p + 1), ?_, fun entry hentry => ?_⟩
  · rw [← heq, List.cons_getElem_drop_succ, List.take_append_drop]
  · obtain ⟨q, hq, rfl⟩ := List.getElem_of_mem hentry
    rw [List.length_take] at hq
    rw [List.getElem_take, bne_iff_ne]
    intro hkey
    have hq' : q < (row.map Prod.fst).length := by rw [List.length_map]; omega
    have hp' : p < (row.map Prod.fst).length := by rwa [List.length_map]
    have hget : (row.map Prod.fst)[q] = (row.map Prod.fst)[p] := by simp [heq, ← hkey]
    have hqp : q = p := hnodup.getElem_inj_iff.1 hget
    omega

/-- A right index gathers the value of its key. -/
theorem gather_of_right {row : List (K × V)} {key : K} {index : ℤ}
    (hnodup : (row.map Prod.fst).Nodup) (h : Right (row.map Prod.fst) key index) :
    gather (row.map Prod.snd) index = row.lookup key := by
  by_cases hmem : key ∈ row.map Prod.fst
  · obtain ⟨p, hp⟩ := List.mem_iff_getElem?.1 hmem
    obtain rfl := h.1 p hp
    rw [List.getElem?_map, Option.map_eq_some_iff] at hp
    obtain ⟨⟨_, value⟩, hp, rfl⟩ := hp
    have hlt := (List.getElem?_eq_some_iff.1 hp).1
    rw [lookup_of_getElem? hnodup hp]
    have hwrapped : (if (p : ℤ) < 0 then p + ((row.map Prod.snd).length : ℤ) else p) = p :=
      if_neg (by omega)
    unfold gather
    rw [hwrapped, if_pos (by rw [List.length_map]; omega), Int.toNat_natCast, List.getElem?_map, hp]
    rfl
  · have hout := h.2 hmem
    rw [List.lookup_eq_none_iff.2 fun entry hentry => ?_, gather]
    · rw [List.length_map] at *
      split_ifs <;> first | rfl | omega
    · rw [bne_iff_ne]
      rintro rfl
      exact hmem (List.mem_map_of_mem hentry)

end Lookup

variable [SegmentedGather V] [SegmentedGather W]

/-- A row has its keys, each with what is gathered for it. -/
theorem mapZip_row (hr : r < ks.size) :
    (mapZip col1 col2 ks map1Indices map2Indices).row r =
      (ks.row r).mapIdx fun j key =>
        (key, gather ((col1.row r).map Prod.snd) (map1Indices (ks.offsets r + j)),
          gather ((col2.row r).map Prod.snd) (map2Indices (ks.offsets r + j))) := by
  unfold mapZip makeListsColumn
  dsimp only
  rw [row_range _ _ hr]
  ext1 j
  rw [List.getElem?_take, List.getElem?_drop, List.getElem?_mapIdx]
  split_ifs with hj
  · have hchild := ListsColumn.getElem?_child hr hj
    rw [List.getElem?_eq_getElem hj] at hchild
    rw [List.getElem?_eq_getElem hj, List.zip, List.getElem?_zipWith, List.zip, List.getElem?_zipWith,
      hchild, ListsColumn.offsets, SegmentedGather.getElem?_child hr hj,
      SegmentedGather.getElem?_child hr hj, row_map, row_map]
    rfl
  · rw [List.getElem?_eq_none (not_lt.1 hj)]
    rfl

theorem UnionDistinct.searchable {keys1 keys2 : ListsColumn K}
    (h : UnionDistinct keys1 keys2 ks) (hsize : keys1.size = keys2.size) :
    Searchable ks keys1 ∧ Searchable ks keys2 := by
  have hnull : ∀ r, ks.isValid r = false → ks.row r = [] := by
    intro r hvalid
    rcases Nat.lt_or_ge r ks.size with hr | hr
    · exact h.row_of_null r hr hvalid
    · exact ListsColumn.row_of_le hr
  have hvalid : ∀ r < ks.size, ks.isValid r →
      keys1.isValid r ∧ keys2.isValid r := by
    intro r hr hvalid
    rwa [h.isValid_eq r hr, Bool.and_eq_true] at hvalid
  exact ⟨⟨h.size_eq, hnull, fun r hr hkey => (hvalid r hr hkey).1⟩,
    ⟨h.size_eq.trans hsize, hnull, fun r hr hkey => (hvalid r hr hkey).2⟩⟩

variable [DecidableEq K]

theorem zipped_of_right (hkeys : UnionDistinct (col1.map Prod.fst) (col2.map Prod.fst) ks)
    (h1 : ∀ r < col1.size, col1.isValid r → ((col1.row r).map Prod.fst).Nodup)
    (h2 : ∀ r < col2.size, col2.isValid r → ((col2.row r).map Prod.fst).Nodup)
    (hr1 : r < col1.size) (hr2 : r < col2.size)
    (hright : ∀ j key, (ks.row r)[j]? = some key →
      Right ((col1.map Prod.fst).row r) key (map1Indices (ks.offsets r + j)) ∧
        Right ((col2.map Prod.fst).row r) key (map2Indices (ks.offsets r + j))) :
    Zipped (col1.isValid r, col1.row r) (col2.isValid r, col2.row r)
      ((mapZip col1 col2 ks map1Indices map2Indices).isValid r,
        (mapZip col1 col2 ks map1Indices map2Indices).row r) := by
  have hr : r < ks.size := (hkeys.size_eq.trans (size_map ..)).symm ▸ hr1
  have hvalid : (mapZip col1 col2 ks map1Indices map2Indices).isValid r =
      (col1.isValid r && col2.isValid r) := isValid_range _ _ hr
  have hsearch := hkeys.isValid_eq r hr
  rw [isValid_map, isValid_map, ← hvalid] at hsearch
  -- the keys of the result are the keys searched for
  have hfst : ((mapZip col1 col2 ks map1Indices map2Indices).row r).map Prod.fst =
      ks.row r := by
    rw [mapZip_row hr]
    ext1 j
    rw [List.getElem?_map, List.getElem?_mapIdx]
    cases (ks.row r)[j]? <;> rfl
  constructor
  · exact hvalid
  · exact fun _ => hfst ▸ hkeys.nodup r hr
  · intro hz key
    have hmem := hkeys.mem_iff r hr (hsearch.trans hz) key
    rwa [row_map, row_map, ← hfst] at hmem
  · intro hz entry hentry
    have hboth : (col1.isValid r && col2.isValid r) = true := hvalid ▸ hz
    rw [Bool.and_eq_true] at hboth
    rw [mapZip_row hr, List.mem_mapIdx] at hentry
    obtain ⟨j, hj, rfl⟩ := hentry
    obtain ⟨hright1, hright2⟩ := hright j _ (List.getElem?_eq_getElem hj)
    rw [row_map] at hright1 hright2
    dsimp only
    rw [gather_of_right (h1 r hr1 hboth.1) hright1,
      gather_of_right (h2 r hr2 hboth.2) hright2]

variable [LabelSegments]

/-- `map_zip` pairs: whatever the order of the comparisons, the keys have right indices in either map,
and the rows are zipped. -/
def Pairs (col1 : ListsColumn (K × V)) (col2 : ListsColumn (K × W)) (ks : ListsColumn K) :
    Prop :=
  ∀ map1Indices map2Indices, IndicesOf ks (col1.map Prod.fst) map1Indices →
    IndicesOf ks (col2.map Prod.fst) map2Indices →
    (∀ r j key, (ks.row r)[j]? = some key →
      Right ((col1.map Prod.fst).row r) key (map1Indices (ks.offsets r + j)) ∧
        Right ((col2.map Prod.fst).row r) key (map2Indices (ks.offsets r + j))) ∧
    let zipped := mapZip col1 col2 ks map1Indices map2Indices
    zipped.size = col1.size ∧ ∀ r < col1.size,
      Zipped (col1.isValid r, col1.row r) (col2.isValid r, col2.row r)
        (zipped.isValid r, zipped.row r)

/-- `map_zip` pairs every key with both values exactly where each key is compared with its own value
in either map. -/
theorem mapZip_pairs_iff (hsize : col1.size = col2.size)
    (h1 : ∀ r < col1.size, col1.isValid r → ((col1.row r).map Prod.fst).Nodup)
    (h2 : ∀ r < col2.size, col2.isValid r → ((col2.row r).map Prod.fst).Nodup)
    (hkeys : UnionDistinct (col1.map Prod.fst) (col2.map Prod.fst) ks) :
    Pairs col1 col2 ks ↔ ∀ r j key, (ks.row r)[j]? = some key →
      Compared ks (col1.map Prod.fst) r j key ∧
        Compared ks (col2.map Prod.fst) r j key := by
  obtain ⟨hleft, hright⟩ :=
    hkeys.searchable (by rw [size_map, size_map, hsize])
  have hrows : ks.size = col1.size := hkeys.size_eq.trans (size_map _ _)
  have hiff : ∀ r j key, (ks.row r)[j]? = some key →
      ((∀ results, IndicesOf ks (col1.map Prod.fst) results →
          Right ((col1.map Prod.fst).row r) key (results (ks.offsets r + j))) ↔
        Compared ks (col1.map Prod.fst) r j key) ∧
      ((∀ results, IndicesOf ks (col2.map Prod.fst) results →
          Right ((col2.map Prod.fst).row r) key (results (ks.offsets r + j))) ↔
        Compared ks (col2.map Prod.fst) r j key) := by
    intro r j key hkey
    obtain ⟨hj, -⟩ := List.getElem?_eq_some_iff.1 hkey
    refine ⟨right_iff_compared hleft ?_ hkey, right_iff_compared hright ?_ hkey⟩
    · rw [row_map]
      exact h1 r (hrows ▸ lt_size hj) (isValid_map Prod.fst col1 r ▸ isValid_of_key hleft hj)
    · rw [row_map]
      exact h2 r (hsize ▸ hrows ▸ lt_size hj) (isValid_map Prod.fst col2 r ▸ isValid_of_key hright hj)
  -- indices of the other map always are there
  have hsome : ∀ keys : ListsColumn K, ∃ results, IndicesOf ks keys results :=
    fun keys => ⟨(List.range (totalCompares ks keys)).foldl (compare ks keys)
      fun _ => -(totalCompares ks keys : ℤ) - 1, _, .refl _, rfl⟩
  constructor
  · intro hpairs r j key hkey
    refine ⟨(hiff r j key hkey).1.1 fun results hresults => ?_,
      (hiff r j key hkey).2.1 fun results hresults => ?_⟩
    · obtain ⟨results', hresults'⟩ := hsome (col2.map Prod.fst)
      exact ((hpairs results results' hresults hresults').1 r j key hkey).1
    · obtain ⟨results', hresults'⟩ := hsome (col1.map Prod.fst)
      exact ((hpairs results' results hresults' hresults).1 r j key hkey).2
  · intro hcompared map1Indices map2Indices hmap1 hmap2
    have hboth : ∀ r j key, (ks.row r)[j]? = some key →
        Right ((col1.map Prod.fst).row r) key (map1Indices (ks.offsets r + j)) ∧
          Right ((col2.map Prod.fst).row r) key (map2Indices (ks.offsets r + j)) :=
      fun r j key hkey => ⟨(hiff r j key hkey).1.2 (hcompared r j key hkey).1 _ hmap1,
        (hiff r j key hkey).2.2 (hcompared r j key hkey).2 _ hmap2⟩
    refine ⟨hboth, ?_, fun r hr => zipped_of_right hkeys h1 h2 hr (hsize ▸ hr) (hboth r)⟩
    rw [← hrows]
    simp [mapZip, makeListsColumn, ListsColumn.size]

end Zip

/-- Rows of maps with one entry are paired. -/
theorem mapZip_pairs_small :
    Pairs (⟨[(true, [(1, 10)]), (true, [(2, 20)])]⟩ : ListsColumn (ℕ × ℕ))
      (⟨[(true, [(1, 11)]), (true, [(3, 31)])]⟩ : ListsColumn (ℕ × ℕ))
      ⟨[(true, [1]), (true, [2, 3])]⟩ := by
  refine (mapZip_pairs_iff ?_ ?_ ?_ ⟨?_, ?_, ?_, ?_, ?_⟩).2 ?_
  iterate 7 decide
  · rintro (_ | _ | r) hr - key
    · simp [ListsColumn.row, ListsColumn.map]
    · simp [ListsColumn.row, ListsColumn.map]
    · exact absurd hr (by simp [ListsColumn.size])
  · rintro (_ | _ | r) (_ | _ | j) key hkey
    all_goals
      first
      | (obtain rfl := Option.some.inj hkey; decide)
      | exact absurd hkey (by simp [ListsColumn.row])

/-- The second map of the second row has more entries than there are comparisons for the key of the
row before: the last one is not compared with the first key. -/
theorem mapZip_unpaired :
    ¬∀ (col1 col2 : ListsColumn (ℕ × ℕ)) (ks : ListsColumn ℕ), col1.size = col2.size →
      (∀ r < col1.size, col1.isValid r → ((col1.row r).map Prod.fst).Nodup) →
      (∀ r < col2.size, col2.isValid r → ((col2.row r).map Prod.fst).Nodup) →
      UnionDistinct (col1.map Prod.fst) (col2.map Prod.fst) ks →
      Pairs col1 col2 ks := by
  intro hall
  have hpairs := hall ⟨[(true, [(1, 10)]), (true, [(3, 30), (1, 12)])]⟩
    ⟨[(true, [(1, 11)]), (true, [(1, 13), (3, 31)])]⟩ ⟨[(true, [1]), (true, [3, 1])]⟩
    rfl (by decide) (by decide) ⟨rfl, by decide, by decide, by decide, ?_⟩
  · have hright := ((hpairs _ _ ⟨List.range 5, by decide, rfl⟩ ⟨List.range 5, by decide, rfl⟩).1 1 0 3
      (by decide)).2.1 1 (by decide)
    exact absurd hright (by decide)
  · rintro (_ | _ | r) hr - key
    · simp [ListsColumn.row, ListsColumn.map]
    · simp [ListsColumn.row, ListsColumn.map]
      tauto
    · exact absurd hr (by simp [ListsColumn.size])

end SparkRapids.MapZip
