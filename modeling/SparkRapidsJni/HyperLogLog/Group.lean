import SparkRapidsJni.HyperLogLog.Registers
import SparkRapidsJni.Lib.SegmentedSup
import SparkRapidsJni.Lib.Threads

/-!
# Sketches of groups

`partial_group_sketches_from_hashs_kernel` cuts the rows into segments, one for each thread. A thread
writes the sketch of a group to the output cache when the group ends, and keeps the one of the last
group. `merge_sketches_vertically` then puts what was kept into the output cache, and `compact_kernel`
packs it.

The loop of a thread is a scan of its segment (`partialSketches_eq`), and so is the loop over what was
kept (`mergeSketchesVertically_eq`); so a group has the supremum of its rows (`mergedRegister_eq`),
whatever the order was in which the threads wrote. An `int` is an unbounded integer here; the
ones of these kernels do not overflow.
-/

namespace SparkRapids.HyperLogLog

open Segments

/-! ### Partial sketches -/

/-- `num_hashs_per_thread`, and `num_longs_per_threads` -/
def numRowsPerThread : ℕ := 256

/-- `div_rounding_up_safe`, by the rows of a thread -/
def numThreads (numRows : ℕ) : ℕ := (numRows + numRowsPerThread - 1) / numRowsPerThread

/-- A thread of `partial_group_sketches_from_hashs_kernel`: the writes to `registers_output_cache` are
collected. -/
structure PartialState where
  prevGroup : ℕ
  sketch : ℕ → ℕ
  outputs : List (ℕ × (ℕ → ℕ))

/-- The loop over the rows of a segment. -/
def partialRow (hashs : List (Option (BitVec 64))) (groupLabels : List ℕ) (precision hashEnd : ℕ)
    (s : PartialState) (hashIdx : ℕ) : PartialState :=
  let currGroup := groupLabels.getD hashIdx 0
  let (regIdx, regV) := registerOf precision (hashs.getD hashIdx none)
  let s :=
    if currGroup = s.prevGroup then
      if regV > s.sketch regIdx then { s with sketch := Function.update s.sketch regIdx regV } else s
    else
      -- a new group: the one before is saved
      { s with
        sketch := Function.update (fun _ => 0) regIdx regV
        outputs := s.outputs ++ [(s.prevGroup, s.sketch)] }
  let outputs :=
    if hashIdx = hashEnd - 1 then
      if hashIdx = hashs.length - 1 then s.outputs ++ [(currGroup, s.sketch)]
      else if currGroup ≠ groupLabels.getD (hashIdx + 1) 0 then s.outputs ++ [(currGroup, s.sketch)]
      else s.outputs
    else s.outputs
  { s with prevGroup := currGroup, outputs }

/-- `partial_group_sketches_from_hashs_kernel`, for one thread -/
def partialSketches (hashs : List (Option (BitVec 64))) (groupLabels : List ℕ) (precision tid : ℕ) :
    PartialState :=
  let hashFirst := tid * numRowsPerThread
  let hashEnd := min ((tid + 1) * numRowsPerThread) hashs.length
  (List.range' hashFirst (hashEnd - hashFirst)).foldl (partialRow hashs groupLabels precision hashEnd)
    ⟨groupLabels.getD hashFirst 0, fun _ => 0, []⟩

/-- The label that a thread saves. -/
def threadLabel (groupLabels : List ℕ) (numRows tid : ℕ) : ℕ :=
  groupLabels.getD (min ((tid + 1) * numRowsPerThread) numRows - 1) 0

/-! ### Merging of sketches -/

/-- A number of an `int8_t`. -/
def int8 (x : ℕ) : ℤ := (x : ℤ).bmod (2 ^ 8)

/-- A thread of `merge_sketches_vertically`, for one register: the output cache has a value for each
group. -/
structure MergeState where
  prevGroup : ℕ
  sharedData : ℤ
  output : ℕ → ℕ

/-- A greater value is stored for the group before. -/
def MergeState.store (s : MergeState) : MergeState :=
  if s.sharedData > s.output s.prevGroup then
    { s with output := Function.update s.output s.prevGroup s.sharedData.toNat }
  else s

/-- The loop over what the threads kept. -/
def mergeRow (labels cache : ℕ → ℕ) (s : MergeState) (i : ℕ) : MergeState :=
  let currGroup := labels i
  let currRegV := int8 (cache i)
  let s :=
    if currGroup = s.prevGroup then
      if currRegV > s.sharedData then { s with sharedData := currRegV } else s
    else
      { s.store with sharedData := currRegV }
  { s with prevGroup := currGroup }

/-- `merge_sketches_vertically`, with the caches by register -/
def mergeSketchesVertically (numSketches : ℕ) (labels : ℕ → ℕ) (threadCache : ℕ → ℕ → ℕ)
    (outputCache : ℕ → ℕ → ℕ) (group register : ℕ) : ℕ :=
  let s := (List.range numSketches).foldl (mergeRow labels fun i => threadCache i register)
    ⟨labels 0, 0, fun g => outputCache g register⟩
  s.store.output group

/-- `compact_kernel`, for the `long` of a group -/
def compact (precision : ℕ) (outputCache : ℕ → ℕ → ℕ) (group longIdx : ℕ) : BitVec 64 :=
  compactLong (outputCache group) (longIdx * registersPerLong) (numRegs precision longIdx)

/-- The threads of `partial_group_sketches_from_hashs_kernel`, over an output cache of any contents. -/
def partialThreads (hashs : List (Option (BitVec 64))) (groupLabels : List ℕ) (precision : ℕ)
    (uninitialized : ℕ → ℕ → ℕ) : Threads (ℕ → ℕ → ℕ) (ℕ × (ℕ → ℕ)) :=
  ⟨uninitialized, (List.range (numThreads hashs.length)).map fun tid =>
    (partialSketches hashs groupLabels precision tid).outputs⟩

/-- `group_hllpp`: the `long`s of the groups, after any run of the threads -/
def GroupHllpp (hashs : List (Option (BitVec 64))) (groupLabels : List ℕ) (precision : ℕ)
    (sketches : ℕ → ℕ → BitVec 64) : Prop :=
  ∃ uninitialized s,
    (Threads.lts Threads.write
      (partialThreads hashs groupLabels precision uninitialized)).Reachable s ∧ s.Done ∧
    sketches = compact precision (mergeSketchesVertically (numThreads hashs.length)
      (threadLabel groupLabels hashs.length)
      (fun tid => (partialSketches hashs groupLabels precision tid).sketch) s.memory)

/-! ### The loops are scans -/

section Merge

variable {labels cache : ℕ → ℕ} {n g : ℕ} {output : ℕ → ℕ}

theorem int8_eq {x : ℕ} (h : x < 128) : int8 x = x := by
  unfold int8
  rw [Int.bmod_eq_of_le] <;> omega

/-- What is stored for the groups of a scan. -/
def stored (output : ℕ → ℕ) (out : List (ℕ × ℕ)) : ℕ → ℕ :=
  out.foldl (fun output x => Function.update output x.1 (output x.1 ⊔ x.2)) output

theorem stored_append (output : ℕ → ℕ) (out : List (ℕ × ℕ)) (x : ℕ × ℕ) :
    stored output (out ++ [x]) =
      Function.update (stored output out) x.1 (stored output out x.1 ⊔ x.2) := by
  simp [stored]

theorem stored_le_iff {out : List (ℕ × ℕ)} {a : ℕ} :
    stored output out g ≤ a ↔ output g ≤ a ∧ ∀ x ∈ out, x.1 = g → x.2 ≤ a := by
  induction out using List.reverseRecOn with
  | nil => simp [stored]
  | append_singleton out x ih =>
    rw [stored_append, List.forall_mem_append, ← and_assoc, ← ih, List.forall_mem_singleton]
    by_cases hx : x.1 = g
    · obtain rfl := hx
      rw [Function.update_self, sup_le_iff]
      simp
    · rw [Function.update_of_ne (Ne.symm hx)]
      simp [hx]

theorem store_eq (prevGroup acc : ℕ) (output : ℕ → ℕ) :
    (MergeState.mk prevGroup acc output).store =
      ⟨prevGroup, acc, Function.update output prevGroup (output prevGroup ⊔ acc)⟩ := by
  unfold MergeState.store
  dsimp only
  split_ifs with hlt
  · rw [sup_eq_right.2 (show output prevGroup ≤ acc by omega), Int.toNat_natCast]
  · rw [sup_eq_left.2 (show acc ≤ output prevGroup by omega), Function.update_eq_self]

/-- The loop of `merge_sketches_vertically` is a scan of the threads. -/
theorem foldl_mergeRow (hcache : ∀ i, cache i < 128) (m : ℕ) :
    (List.range m).foldl (mergeRow labels cache) ⟨labels 0, 0, output⟩ =
      ⟨(Scan.scan labels cache 0 m).prev, (Scan.scan labels cache 0 m).acc,
        stored output (Scan.scan labels cache 0 m).out⟩ := by
  induction m with
  | zero => rfl
  | succ m ih =>
    rw [List.range_succ, List.foldl_append, ih, Scan.scan_succ, Nat.zero_add]
    simp only [List.foldl_cons, List.foldl_nil, mergeRow, Scan.step, int8_eq (hcache m), store_eq]
    split_ifs with hgroup hlt
    · rw [sup_eq_right.2 (show (Scan.scan labels cache 0 m).acc ≤ cache m by omega)]
    · rw [sup_eq_left.2 (show cache m ≤ (Scan.scan labels cache 0 m).acc by omega)]
    · rw [stored_append]

/-- What the threads kept of a group is put into the output cache. -/
theorem mergeSketchesVertically_eq {cache outputCache : ℕ → ℕ → ℕ} {register : ℕ}
    (hcache : ∀ i, cache i register < 128) (hsorted : Sorted labels n) (hn : 0 < n) :
    mergeSketchesVertically n labels cache outputCache g register =
      outputCache g register ⊔
        groupSup labels (fun i => cache i register) (Finset.range n) g := by
  obtain ⟨m, rfl⟩ : ∃ m, n = m + 1 := ⟨n - 1, by omega⟩
  have hm : 0 + m < m + 1 := by omega
  have hlast : IsLast labels (m + 1) (0 + m) := ⟨hm, .inl (by omega)⟩
  have hout := fun x => Scan.mem_out_close (fun i => cache i register) (x := x)
    hsorted hm
  have hrun : mergeSketchesVertically (m + 1) labels cache outputCache g register =
      stored (fun g => outputCache g register)
        ((Scan.scan labels (fun i => cache i register) 0 (m + 1)).out ++
          (if IsLast labels (m + 1) (0 + m) then [(labels (0 + m),
            (Scan.scan labels (fun i => cache i register) 0 (m + 1)).acc)] else [])) g := by
    unfold mergeSketchesVertically
    rw [foldl_mergeRow hcache]
    dsimp only
    rw [store_eq, Scan.prev_scan, if_pos hlast, stored_append]
  rw [hrun]
  refine eq_of_forall_ge_iff fun a => ?_
  rw [stored_le_iff, sup_le_iff]
  refine and_congr_right fun _ => ⟨fun h => groupSup_le fun j hj hlabel => ?_, fun h x hx hg => ?_⟩
  · obtain ⟨e, he, heq⟩ := exists_isLast labels (Finset.mem_range.1 hj)
    have hle := he.1
    have hx := h _ ((hout _).2 ⟨e, Nat.zero_le e, by omega, he, rfl⟩) (heq.trans hlabel)
    dsimp only at hx
    rw [he.groupSup_eq hsorted] at hx
    exact (le_groupSup hj heq.symm).trans hx
  · obtain ⟨i, -, -, hi, rfl⟩ := (hout x).1 hx
    obtain rfl := hg
    dsimp only
    rw [hi.groupSup_eq hsorted]
    exact h

end Merge

section Partial

variable {hashs : List (Option (BitVec 64))} {labels : List ℕ} {p tid hashEnd first m : ℕ}

/-- What a row counts for a sketch. -/
def counted (p : ℕ) (row : Option (BitVec 64)) (register : ℕ) : ℕ :=
  if register = (registerOf p row).1 then (registerOf p row).2 else 0

theorem sup_counted (sketch : ℕ → ℕ) (row : Option (BitVec 64)) :
    sketch ⊔ counted p row =
      if (registerOf p row).2 > sketch (registerOf p row).1 then
        Function.update sketch (registerOf p row).1 (registerOf p row).2
      else sketch := by
  ext register
  unfold counted
  rw [Pi.sup_apply]
  by_cases hregister : register = (registerOf p row).1
  · obtain rfl := hregister
    rw [if_pos rfl]
    split_ifs with hgt
    · rw [Function.update_self, sup_eq_right.2 hgt.le]
    · exact sup_eq_left.2 (not_lt.1 hgt)
  · rw [if_neg hregister, Nat.max_zero]
    split_ifs
    · rw [Function.update_of_ne hregister]
    · rfl

theorem update_counted (row : Option (BitVec 64)) :
    Function.update (fun _ => 0) (registerOf p row).1 (registerOf p row).2 =
      counted p row := by
  ext register
  unfold counted
  rw [Function.update_apply]

/-- The loop up to a row before the last one is a scan. -/
theorem foldl_partialRow (hm : first + m < hashEnd) :
    (List.range' first m).foldl (partialRow hashs labels p hashEnd)
        ⟨labels.getD first 0, fun _ => 0, []⟩ =
      ⟨(Scan.scan (fun i => labels.getD i 0) (fun i => counted p (hashs.getD i none))
          first m).prev,
        (Scan.scan (fun i => labels.getD i 0) (fun i => counted p (hashs.getD i none))
          first m).acc,
        (Scan.scan (fun i => labels.getD i 0) (fun i => counted p (hashs.getD i none))
          first m).out⟩ := by
  induction m with
  | zero => rfl
  | succ m ih =>
    have ih := ih (by omega)
    have hnot : first + m ≠ hashEnd - 1 := by omega
    rw [List.range'_1_concat, List.foldl_append, ih, Scan.scan_succ]
    simp only [List.foldl_cons, List.foldl_nil, partialRow, Scan.step, if_neg hnot, sup_counted,
      update_counted]
    split_ifs <;> rfl

/-- A thread scans its segment. -/
theorem partialSketches_eq (hfirst : tid * numRowsPerThread = first)
    (hend : min ((tid + 1) * numRowsPerThread) hashs.length = first + m + 1) :
    partialSketches hashs labels p tid =
      ⟨labels.getD (first + m) 0,
        (Scan.scan (fun i => labels.getD i 0) (fun i => counted p (hashs.getD i none))
          first (m + 1)).acc,
        (Scan.scan (fun i => labels.getD i 0) (fun i => counted p (hashs.getD i none))
          first (m + 1)).out ++
          (if IsLast (fun i => labels.getD i 0) hashs.length (first + m) then
            [(labels.getD (first + m) 0, (Scan.scan (fun i => labels.getD i 0)
              (fun i => counted p (hashs.getD i none)) first (m + 1)).acc)] else [])⟩ := by
  have hlen : first + m + 1 - first = m + 1 := by omega
  have hle : first + m + 1 ≤ hashs.length := hend ▸ min_le_right _ _
  unfold partialSketches
  dsimp only
  rw [hfirst, hend, hlen, List.range'_1_concat, List.foldl_append,
    foldl_partialRow (show first + m < first + m + 1 by omega)]
  -- the last row ends its group if it is the last one of all, or another label is behind it
  have hclose : ∀ A B : List (ℕ × (ℕ → ℕ)), (if first + m = hashs.length - 1 then A
      else if labels.getD (first + m) 0 ≠ labels.getD (first + m + 1) 0 then A else B) =
        if IsLast (fun i => labels.getD i 0) hashs.length (first + m) then A else B := by
    intro A B
    have hiff : IsLast (fun i => labels.getD i 0) hashs.length (first + m) ↔
        first + m = hashs.length - 1 ∨
          labels.getD (first + m) 0 ≠ labels.getD (first + m + 1) 0 := by
      unfold IsLast
      dsimp only
      omega
    split_ifs with hend hne hlast hlast
    all_goals tauto
  simp only [List.foldl_cons, List.foldl_nil, partialRow, Scan.scan_succ, Scan.step, sup_counted,
    update_counted, Nat.add_sub_cancel, if_true, hclose]
  split_ifs <;> simp

/-- What a thread keeps is what it has of the last group of its segment. -/
theorem sketch_partialSketches (hsorted : Sorted (fun i => labels.getD i 0) hashs.length)
    (htid : tid < numThreads hashs.length) :
    (partialSketches hashs labels p tid).sketch =
      groupSup (fun i => labels.getD i 0) (fun i => counted p (hashs.getD i none))
        (rows hashs.length numRowsPerThread tid)
        (labels.getD (lastRow hashs.length numRowsPerThread tid) 0) := by
  obtain ⟨m, hend, hrow, hlt⟩ := segment_bounds (by decide) htid
  rw [partialSketches_eq rfl hend, hrow, rows, hend]
  exact Scan.acc_scan _ hsorted hlt

/-- What a thread writes is what it has of the groups that end in its segment. -/
theorem mem_outputs (hsorted : Sorted (fun i => labels.getD i 0) hashs.length)
    (htid : tid < numThreads hashs.length) {x : ℕ × (ℕ → ℕ)} :
    x ∈ (partialSketches hashs labels p tid).outputs ↔
      ∃ i, i / numRowsPerThread = tid ∧ IsLast (fun i => labels.getD i 0) hashs.length i ∧
        x = (labels.getD i 0, groupSup (fun i => labels.getD i 0)
          (fun i => counted p (hashs.getD i none))
          (Finset.Ico (i / numRowsPerThread * numRowsPerThread) (i + 1)) (labels.getD i 0)) := by
  have hk : 0 < numRowsPerThread := by decide
  obtain ⟨m, hend, -, -⟩ := segment_bounds hk htid
  rw [partialSketches_eq rfl hend]
  exact Scan.mem_out_segment _ hk hsorted hend

end Partial

/-! ### Groups -/

section Group

variable {hashs : List (Option (BitVec 64))} {labels : List ℕ} {p register n e g : ℕ}

/-- The value of a group is the supremum of its rows. -/
theorem mergedRegister_eq {value : ℕ → ℕ} {cache outputCache : ℕ → ℕ → ℕ}
    (hsorted : Sorted (fun i => labels.getD i 0) n)
    (hlast : IsLast (fun i => labels.getD i 0) n e)
    (hbound : ∀ t, cache t register < 128)
    (hout : outputCache (labels.getD e 0) register =
      groupSup (fun i => labels.getD i 0) value
        (Finset.Ico (e / numRowsPerThread * numRowsPerThread) (e + 1)) (labels.getD e 0))
    (hle : ∀ t < numThreads n, cache t register ≤
      groupSup (fun i => labels.getD i 0) value (rows n numRowsPerThread t)
        (labels.getD (lastRow n numRowsPerThread t) 0))
    (heq : ∀ t < numThreads n,
      ¬IsLast (fun i => labels.getD i 0) n (lastRow n numRowsPerThread t) →
      cache t register =
        groupSup (fun i => labels.getD i 0) value (rows n numRowsPerThread t)
          (labels.getD (lastRow n numRowsPerThread t) 0)) :
    mergeSketchesVertically (numThreads n) (threadLabel labels n) cache outputCache
        (labels.getD e 0) register =
      groupSup (fun i => labels.getD i 0) value (Finset.range n) (labels.getD e 0) := by
  have hk : 0 < numRowsPerThread := by decide
  have hpos : 0 < n := Nat.zero_lt_of_lt hlast.1
  have hthreads : 0 < numThreads n := Nat.div_pos (by omega) hk
  have hlabels : threadLabel labels n =
    fun t => labels.getD (lastRow n numRowsPerThread t) 0 := rfl
  have hsorted' : Sorted (fun t => labels.getD (lastRow n numRowsPerThread t) 0) (numThreads n) :=
    hsorted.lastRow hpos
  rw [hlabels, mergeSketchesVertically_eq hbound hsorted' hthreads, hout]
  exact groupSup_segments hsorted hlast hle heq hk

/-- The rows of a group. -/
def groupRows {ρ : Type*} (rows : List ρ) (labels : List ℕ) (g : ℕ) : List ρ :=
  ((rows.zip labels).filter (·.2 = g)).map (·.1)

theorem mem_groupRows {ρ : Type*} {rows : List ρ} {row : ρ} (hlen : labels.length = rows.length) :
    row ∈ groupRows rows labels g ↔
      ∃ j < rows.length, rows[j]? = some row ∧ labels.getD j 0 = g := by
  rw [groupRows, List.mem_map]
  constructor
  · rintro ⟨⟨row, x⟩, hmem, rfl⟩
    obtain ⟨hmem, hx⟩ := List.mem_filter.1 hmem
    obtain ⟨j, hj⟩ := List.getElem?_of_mem hmem
    obtain ⟨hrow, hlabel⟩ := List.getElem?_zip_eq_some.1 hj
    refine ⟨j, (List.getElem?_eq_some_iff.1 hrow).1, hrow, ?_⟩
    rw [List.getD_eq_getElem?_getD, hlabel]
    exact of_decide_eq_true hx
  · rintro ⟨j, hj, hrow, hx⟩
    have hj' : j < labels.length := by omega
    rw [List.getD_eq_getElem _ _ hj'] at hx
    refine ⟨(row, g), List.mem_filter.2 ⟨?_, decide_eq_true rfl⟩, rfl⟩
    exact List.mem_of_getElem? (List.getElem?_zip_eq_some.2
      ⟨hrow, hx ▸ List.getElem?_eq_getElem hj'⟩)

theorem sorted_of_pairwise (hlen : labels.length = n) (h : labels.Pairwise (· ≤ ·)) :
    Sorted (fun i => labels.getD i 0) n := by
  intro i j hle hj
  dsimp only
  rw [List.getD_eq_getElem _ _ (by omega), List.getD_eq_getElem _ _ (by omega)]
  rcases hle.eq_or_lt with rfl | hlt
  · exact le_rfl
  · exact List.pairwise_iff_getElem.1 h i j _ _ hlt

theorem exists_last_of_mem (hlen : labels.length = n) (hg : g ∈ labels) :
    ∃ e, IsLast (fun i => labels.getD i 0) n e ∧ labels.getD e 0 = g := by
  obtain ⟨j, hj, rfl⟩ := List.mem_iff_getElem.1 hg
  obtain ⟨e, he, heq⟩ := exists_isLast (fun i => labels.getD i 0) (hlen ▸ hj)
  exact ⟨e, he, heq.trans (List.getD_eq_getElem _ _ hj)⟩

theorem counted_le (h : 4 ≤ p) (h' : p ≤ 18) (row : Option (BitVec 64)) (r : ℕ) :
    counted p row r ≤ 61 := by
  unfold counted
  split_ifs
  · cases row with
    | none => exact Nat.zero_le _
    | some hash =>
      rw [registerOf_eq h h']
      exact rank_le h
  · exact Nat.zero_le _

/-- The supremum of a group is the sketch of its rows. -/
theorem groupSup_counted (h : 4 ≤ p) (h' : p ≤ 18)
    (hlen : labels.length = hashs.length) :
    groupSup (fun i => labels.getD i 0) (fun i => counted p (hashs.getD i none) register)
      (Finset.range hashs.length) g = maxRank p (groupRows hashs labels g) register := by
  refine eq_of_forall_ge_iff fun a => ?_
  rw [maxRank_le_iff, groupSup, Finset.sup_le_iff]
  constructor
  · intro hle hash hmem hregister
    obtain ⟨j, hj, hrow, hlabel⟩ := (mem_groupRows hlen).1 hmem
    have hj' := hle j (Finset.mem_filter.2 ⟨Finset.mem_range.2 hj, hlabel⟩)
    rwa [List.getD_eq_getElem?_getD, hrow, Option.getD_some, counted, registerOf_eq h h',
      if_pos hregister.symm] at hj'
  · intro hle j hj
    obtain ⟨hj, hlabel⟩ := Finset.mem_filter.1 hj
    rw [Finset.mem_range] at hj
    rw [List.getD_eq_getElem _ _ hj]
    cases hrow : hashs[j] with
    | none =>
      -- a null row counts nothing
      unfold counted registerOf
      split_ifs <;> exact Nat.zero_le _
    | some hash =>
      rw [counted, registerOf_eq h h']
      split_ifs with hregister
      · refine hle hash ((mem_groupRows hlen).2 ⟨j, hj, ?_, hlabel⟩) hregister.symm
        rw [List.getElem?_eq_getElem hj, hrow]
      · exact Nat.zero_le _

/-- What a thread keeps has values of six bits. -/
theorem sketch_lt (h : 4 ≤ p) (h' : p ≤ 18)
    (hsorted : Sorted (fun i => labels.getD i 0) hashs.length) (tid r : ℕ) :
    (partialSketches hashs labels p tid).sketch r < 128 := by
  rcases Nat.lt_or_ge tid (numThreads hashs.length) with htid | htid
  · rw [sketch_partialSketches hsorted htid, groupSup_apply]
    exact Nat.lt_of_le_of_lt (groupSup_le fun j _ _ => counted_le h h' _ r) (by decide)
  · -- there is no such thread
    unfold partialSketches
    dsimp only
    rw [segment_empty (by decide) htid]
    exact Nat.zero_lt_succ _

/-- `group_hllpp` has the sketch of the rows for every group. -/
theorem GroupHllpp.eq {sketches : ℕ → ℕ → BitVec 64} (hp : 4 ≤ p) (hp' : p ≤ 18)
    (h : GroupHllpp hashs labels p sketches)
    (hlen : labels.length = hashs.length) (hsorted : labels.Pairwise (· ≤ ·))
    (hg : g ∈ labels) :
    sketches g = packed p (maxRank p (groupRows hashs labels g)) := by
  obtain ⟨uninitialized, s, hs, hdone, rfl⟩ := h
  have hsorted := sorted_of_pairwise hlen hsorted
  obtain ⟨e, hlast, rfl⟩ := exists_last_of_mem hlen hg
  have hk : 0 < numRowsPerThread := by decide
  have hlt := hlast.1
  have hthread : e / numRowsPerThread < numThreads hashs.length := by
    have hle := Nat.div_mul_le_self e numRowsPerThread
    rw [numThreads, Nat.lt_div_iff_mul_lt hk]
    omega
  -- the output cache has what the thread of the last row wrote
  have hmemory : s.memory (labels.getD e 0) =
      groupSup (fun i => labels.getD i 0) (fun i => counted p (hashs.getD i none))
        (Finset.Ico (e / numRowsPerThread * numRowsPerThread) (e + 1)) (labels.getD e 0) := by
    refine hdone.memory_eq hs (List.mem_flatten.2 ⟨_, List.mem_map.2
      ⟨e / numRowsPerThread, List.mem_range.2 hthread, rfl⟩, ?_⟩) fun v hv => ?_
    · exact (mem_outputs hsorted hthread).2 ⟨e, rfl, hlast, rfl⟩
    · obtain ⟨_, hout, hv⟩ := List.mem_flatten.1 hv
      obtain ⟨tid, htid, rfl⟩ := List.mem_map.1 hout
      obtain ⟨i, rfl, hi, heq⟩ := (mem_outputs hsorted (List.mem_range.1 htid)).1 hv
      obtain ⟨hlabel, rfl⟩ := Prod.ext_iff.1 heq
      obtain rfl := hlast.unique hi hsorted hlabel
      rfl
  have hregisters : mergeSketchesVertically (numThreads hashs.length)
      (threadLabel labels hashs.length)
      (fun tid => (partialSketches hashs labels p tid).sketch) s.memory
      (labels.getD e 0) =
        maxRank p (groupRows hashs labels (labels.getD e 0)) := by
    ext register
    rw [← groupSup_counted hp hp' hlen]
    refine mergedRegister_eq hsorted hlast (fun t => sketch_lt hp hp' hsorted t register) ?_
      (fun t ht => ?_) (fun t ht _ => ?_)
    · rw [hmemory, groupSup_apply]
    · rw [sketch_partialSketches hsorted ht, groupSup_apply]
    · rw [sketch_partialSketches hsorted ht, groupSup_apply]
  ext1 longIdx
  rw [compact, hregisters]
  exact compactLong_eq (fun _ => maxRank_lt hp) longIdx

/-- The threads run to their end. -/
theorem exists_groupHllpp (hashs : List (Option (BitVec 64))) (labels : List ℕ) (p : ℕ) :
    ∃ sketches, GroupHllpp hashs labels p sketches := by
  obtain ⟨s, hs, hdone⟩ := Threads.exists_done_of_total
    (partialThreads hashs labels p fun _ _ => 0)
    fun memory op => ⟨_, (rfl : Threads.write memory op = some _)⟩
  exact ⟨_, _, s, hs, hdone, rfl⟩

end Group

end SparkRapids.HyperLogLog
