import SparkRapidsJni.HyperLogLog.Group

/-!
# Merging of sketches

Sketches are merged by group as rows are: `partial_group_long_sketches_kernel` scans a segment of them
for each register. A column is reduced by threads that take the maximum of a register at once, and a
column of sketches by one thread for each register. A reduction is the one of the source for fewer than
`2 ^ 31 - 255` rows (`strided`).

Whatever of these a sketch comes from, it is the one of the rows that went into it
(`Sketched.represents`): so it does not depend on how the rows were parted, in what order the parts
were merged and how often (`hllpp_sketches`).
-/

namespace SparkRapids.HyperLogLog

open Segments

/-! ### Merging by group -/

/-- A register of a thread of `partial_group_long_sketches_kernel`: the writes to
`registers_output_cache` are collected. -/
structure LongState where
  prevGroup : ℕ
  maxRegV : ℕ
  outputs : List ((ℕ × ℕ) × ℕ)

/-- The loop over the sketches of a segment, for one register. -/
def longRow (regV : ℕ → ℕ) (groupLabels : List ℕ) (numSketches sketchEnd regIdxInSketch : ℕ)
    (s : LongState) (sketchIdx : ℕ) : LongState :=
  let currGroup := groupLabels.getD sketchIdx 0
  let currRegV := regV sketchIdx
  let s :=
    if currGroup = s.prevGroup then if currRegV > s.maxRegV then { s with maxRegV := currRegV } else s
    else
      -- a new group: the one before is saved
      { s with
        maxRegV := currRegV
        outputs := s.outputs ++ [((s.prevGroup, regIdxInSketch), s.maxRegV)] }
  let saved : LongState :=
    { s with
      maxRegV := currRegV
      outputs := s.outputs ++ [((currGroup, regIdxInSketch), s.maxRegV)] }
  let s :=
    if sketchIdx = sketchEnd - 1 then
      if sketchIdx = numSketches - 1 then saved
      else if currGroup ≠ groupLabels.getD (sketchIdx + 1) 0 then saved
      else s
    else s
  { s with prevGroup := currGroup }

/-- `partial_group_long_sketches_kernel`, for the `i`th register of a `long` -/
def partialLongSketches (sketches : List (ℕ → BitVec 64)) (groupLabels : List ℕ)
    (longIdx i threadIdxInCols : ℕ) : LongState :=
  let sketchFirst := threadIdxInCols * numRowsPerThread
  let sketchEnd := min ((threadIdxInCols + 1) * numRowsPerThread) sketches.length
  (List.range' sketchFirst (sketchEnd - sketchFirst)).foldl
    (longRow (fun sketchIdx => getRegisterValue (sketches.getD sketchIdx (fun _ => 0#64) longIdx) i)
      groupLabels sketches.length sketchEnd (longIdx * registersPerLong + i))
    ⟨groupLabels.getD sketchFirst 0, 0, []⟩

/-- The threads of `partial_group_long_sketches_kernel`, a row of them for each `long` column. -/
def partialLongThreads (sketches : List (ℕ → BitVec 64)) (groupLabels : List ℕ) (precision : ℕ)
    (uninitialized : ℕ × ℕ → ℕ) : Threads (ℕ × ℕ → ℕ) ((ℕ × ℕ) × ℕ) :=
  ⟨uninitialized,
    (List.range (numThreads sketches.length * numLongCols precision)).map fun tid =>
      let longIdx := tid / numThreads sketches.length
      let threadIdxInCols := tid % numThreads sketches.length
      (List.range (numRegs precision longIdx)).flatMap fun i =>
        (partialLongSketches sketches groupLabels longIdx i threadIdxInCols).outputs⟩

/-- `group_merge_hllpp`: the `long`s of the groups, after any run of the threads -/
def GroupMergeHllpp (sketches : List (ℕ → BitVec 64)) (groupLabels : List ℕ) (precision : ℕ)
    (merged : ℕ → ℕ → BitVec 64) : Prop :=
  ∃ uninitialized s,
    (Threads.lts Threads.write
      (partialLongThreads sketches groupLabels precision uninitialized)).Reachable s ∧ s.Done ∧
    merged = compact precision (mergeSketchesVertically (numThreads sketches.length)
      (threadLabel groupLabels sketches.length)
      (fun tid register => (partialLongSketches sketches groupLabels (register / registersPerLong)
        (register % registersPerLong) tid).maxRegV)
      fun group register => s.memory (group, register))

/-! ### Reductions -/

/-- `block_size` -/
def blockSize : ℕ := 256

/-- The loop of a thread of a block. The source's index is an `int` that grows by `block_size`: from
`2 ^ 31 - 255` rows on its last step overflows, which is not modelled. -/
def strided (numRows tid : ℕ) : List ℕ :=
  (List.range ((numRows + blockSize - 1 - tid) / blockSize)).map (tid + · * blockSize)

/-- `fetch_max` -/
def fetchMax (cache : ℕ → ℕ) (op : ℕ × ℕ) : Option (ℕ → ℕ) :=
  some (Function.update cache op.1 (max (cache op.1) op.2))

/-- The threads of `reduce_hllpp_kernel`, behind the loop that clears the registers. -/
def reduceThreads (hashs : List (Option (BitVec 64))) (precision : ℕ) (uninitialized : ℕ → ℕ) :
    Threads (ℕ → ℕ) (ℕ × ℕ) :=
  ⟨fun i => if i < numRegistersPerSketch precision then 0 else uninitialized i,
    (List.range blockSize).map fun tid =>
      (strided hashs.length tid).map fun i => registerOf precision (hashs.getD i none)⟩

/-- `reduce_hllpp`: the `long`s, after any run of the threads -/
def ReduceHllpp (hashs : List (Option (BitVec 64))) (precision : ℕ) (sketch : ℕ → BitVec 64) : Prop :=
  ∃ (uninitialized : ℕ → ℕ) (output : ℕ → BitVec 64) (s : Threads (ℕ → ℕ) (ℕ × ℕ)),
    (Threads.lts fetchMax (reduceThreads hashs precision uninitialized)).Reachable s ∧ s.Done ∧
    sketch = fun i =>
      if i * registersPerLong < numRegistersPerSketch precision then
        let start := i * registersPerLong
        let finish := min ((i + 1) * registersPerLong) (numRegistersPerSketch precision)
        compactLong s.memory start (finish - start)
      else output i

/-- `reduce_merge_hll_kernel_vertically`, for one register -/
def reduceMergeRegister (sketches : List (ℕ → BitVec 64)) (register : ℕ) : ℕ :=
  sketches.foldl
    (fun max sketch =>
      let regV := getRegisterValue (sketch (register / registersPerLong)) (register % registersPerLong)
      if regV > max then regV else max) 0

/-- `reduce_merge_hllpp` -/
def reduceMergeHllpp (sketches : List (ℕ → BitVec 64)) (precision longIdx : ℕ) : BitVec 64 :=
  compact precision (fun _ => reduceMergeRegister sketches) 0 longIdx

/-! ### The loops are scans -/

section Long

variable {regV : ℕ → ℕ} {labels : List ℕ} {n first m sketchEnd reg : ℕ}

theorem sup_eq_ite (a b : ℕ) : a ⊔ b = if b > a then b else a := by
  split_ifs with hgt
  · exact sup_eq_right.2 hgt.le
  · exact sup_eq_left.2 (not_lt.1 hgt)

/-- The loop up to a sketch before the last one is a scan. -/
theorem foldl_longRow (hm : first + m < sketchEnd) :
    (List.range' first m).foldl (longRow regV labels n sketchEnd reg)
        ⟨labels.getD first 0, 0, []⟩ =
      ⟨(Scan.scan (fun i => labels.getD i 0) regV first m).prev,
        (Scan.scan (fun i => labels.getD i 0) regV first m).acc,
        (Scan.scan (fun i => labels.getD i 0) regV first m).out.map fun x => ((x.1, reg), x.2)⟩ := by
  induction m with
  | zero => rfl
  | succ m ih =>
    have ih := ih (by omega)
    have hnot : first + m ≠ sketchEnd - 1 := by omega
    rw [List.range'_1_concat, List.foldl_append, ih, Scan.scan_succ]
    simp only [List.foldl_cons, List.foldl_nil, longRow, Scan.step, if_neg hnot, sup_eq_ite]
    split_ifs
    · rfl
    · rfl
    · rw [List.map_append]
      rfl

/-- The loop is a scan. Where the last sketch ends its group, only it is kept. -/
theorem foldl_longRow_last (hend : first + m + 1 ≤ n) :
    (List.range' first (m + 1)).foldl (longRow regV labels n (first + m + 1) reg)
        ⟨labels.getD first 0, 0, []⟩ =
      ⟨labels.getD (first + m) 0,
        if IsLast (fun i => labels.getD i 0) n (first + m) then regV (first + m)
        else (Scan.scan (fun i => labels.getD i 0) regV first (m + 1)).acc,
        ((Scan.scan (fun i => labels.getD i 0) regV first (m + 1)).out ++
          (if IsLast (fun i => labels.getD i 0) n (first + m) then [(labels.getD (first + m) 0,
            (Scan.scan (fun i => labels.getD i 0) regV first (m + 1)).acc)] else [])).map
          fun x => ((x.1, reg), x.2)⟩ := by
  have hclose : ∀ A B : LongState, (if first + m = n - 1 then A
      else if labels.getD (first + m) 0 ≠ labels.getD (first + m + 1) 0 then A else B) =
        if IsLast (fun i => labels.getD i 0) n (first + m) then A else B := by
    intro A B
    have hiff : IsLast (fun i => labels.getD i 0) n (first + m) ↔ first + m = n - 1 ∨
        labels.getD (first + m) 0 ≠ labels.getD (first + m + 1) 0 := by
      unfold IsLast
      dsimp only
      omega
    split_ifs with hend hne hlast hlast
    all_goals tauto
  rw [List.range'_1_concat, List.foldl_append, foldl_longRow (by omega)]
  simp only [List.foldl_cons, List.foldl_nil, longRow, Scan.scan_succ, Scan.step, Nat.add_sub_cancel,
    if_true, hclose, sup_eq_ite]
  split_ifs <;> simp

variable {sketches : List (ℕ → BitVec 64)} {longIdx i tid : ℕ}

/-- The values of a register. -/
def regValues (sketches : List (ℕ → BitVec 64)) (longIdx i sketchIdx : ℕ) : ℕ :=
  getRegisterValue (sketches.getD sketchIdx (fun _ => 0#64) longIdx) i

theorem maxRegV_cases (hsorted : Sorted (fun i => labels.getD i 0) sketches.length)
    (htid : tid < numThreads sketches.length) :
    (partialLongSketches sketches labels longIdx i tid).maxRegV =
      if IsLast (fun i => labels.getD i 0) sketches.length (lastRow sketches.length numRowsPerThread tid) then
        regValues sketches longIdx i (lastRow sketches.length numRowsPerThread tid)
      else groupSup (fun i => labels.getD i 0) (regValues sketches longIdx i)
        (rows sketches.length numRowsPerThread tid)
        (labels.getD (lastRow sketches.length numRowsPerThread tid) 0) := by
  obtain ⟨m, hend, hrow, hlt⟩ := segment_bounds (by decide) htid
  have hacc := Scan.acc_scan (regValues sketches longIdx i) hsorted hlt
  have hlen : tid * numRowsPerThread + m + 1 - tid * numRowsPerThread = m + 1 := by omega
  unfold partialLongSketches
  dsimp only
  rw [hend, hlen, foldl_longRow_last (by omega), hrow, rows, hend]
  exact if_congr Iff.rfl rfl hacc

/-- What a thread keeps is at most what it has of the last group of its segment. -/
theorem maxRegV_le (hsorted : Sorted (fun i => labels.getD i 0) sketches.length)
    (htid : tid < numThreads sketches.length) :
    (partialLongSketches sketches labels longIdx i tid).maxRegV ≤
      groupSup (fun i => labels.getD i 0) (regValues sketches longIdx i)
        (rows sketches.length numRowsPerThread tid)
        (labels.getD (lastRow sketches.length numRowsPerThread tid) 0) := by
  rw [maxRegV_cases hsorted htid]
  split_ifs
  · obtain ⟨m, hend, hrow, hlt⟩ := segment_bounds (by decide) htid
    refine @le_groupSup _ _ _ (fun i => labels.getD i 0) _ _ _ _ ?_ rfl
    rw [hrow, rows, hend]
    exact Finset.mem_Ico.2 ⟨by omega, by omega⟩
  · exact le_rfl

theorem maxRegV_lt (hi : i < 10) (hsorted : Sorted (fun i => labels.getD i 0) sketches.length)
    (tid : ℕ) : (partialLongSketches sketches labels longIdx i tid).maxRegV < 128 := by
  rcases Nat.lt_or_ge tid (numThreads sketches.length) with htid | htid
  · refine Nat.lt_of_le_of_lt ((maxRegV_le hsorted htid).trans (groupSup_le (a := 63) fun j _ _ => ?_))
      (by decide)
    exact Nat.le_of_lt_succ (getRegisterValue_lt hi)
  · unfold partialLongSketches
    dsimp only
    rw [segment_empty (by decide) htid]
    exact Nat.zero_lt_succ _

/-- What a thread writes is what it has of the groups that end in its segment. -/
theorem mem_longOutputs (hsorted : Sorted (fun i => labels.getD i 0) sketches.length)
    (htid : tid < numThreads sketches.length) {x : (ℕ × ℕ) × ℕ} :
    x ∈ (partialLongSketches sketches labels longIdx i tid).outputs ↔
      ∃ e, e / numRowsPerThread = tid ∧ IsLast (fun i => labels.getD i 0) sketches.length e ∧
        x = ((labels.getD e 0, longIdx * registersPerLong + i),
          groupSup (fun i => labels.getD i 0) (regValues sketches longIdx i)
          (Finset.Ico (e / numRowsPerThread * numRowsPerThread) (e + 1)) (labels.getD e 0)) := by
  have hk : 0 < numRowsPerThread := by decide
  obtain ⟨m, hend, -, hlt⟩ := segment_bounds hk htid
  have hlen : tid * numRowsPerThread + m + 1 - tid * numRowsPerThread = m + 1 := by omega
  have hout := fun y =>
    Scan.mem_out_segment (regValues sketches longIdx i) (x := y) hk hsorted hend
  unfold partialLongSketches
  dsimp only
  rw [hend, hlen, foldl_longRow_last (by omega)]
  dsimp only
  rw [List.mem_map]
  constructor
  · rintro ⟨y, hy, rfl⟩
    obtain ⟨e, hdiv, he, rfl⟩ := (hout y).1 hy
    exact ⟨e, hdiv, he, rfl⟩
  · rintro ⟨e, hdiv, he, rfl⟩
    exact ⟨_, (hout _).2 ⟨e, hdiv, he, rfl⟩, rfl⟩

end Long

/-! ### Sketches of rows -/

/-- The sketches that are made of rows, and of other sketches. -/
inductive Sketched (p : ℕ) : List (Option (BitVec 64)) → (ℕ → BitVec 64) → Prop
  | group {hashs : List (Option (BitVec 64))} {labels : List ℕ} {sketches : ℕ → ℕ → BitVec 64}
      {g : ℕ} (h : GroupHllpp hashs labels p sketches)
      (hlen : labels.length = hashs.length) (hsorted : labels.Pairwise (· ≤ ·))
      (hg : g ∈ labels) : Sketched p (groupRows hashs labels g) (sketches g)
  | reduce {hashs : List (Option (BitVec 64))} {sketch : ℕ → BitVec 64}
      (h : ReduceHllpp hashs p sketch) : Sketched p hashs sketch
  | groupMerge {parts : List (List (Option (BitVec 64)))} {sketches : List (ℕ → BitVec 64)}
      {labels : List ℕ} {merged : ℕ → ℕ → BitVec 64} {g : ℕ} (hlen' : parts.length = sketches.length)
      (hparts : ∀ (i : ℕ) part sketch, parts[i]? = some part → sketches[i]? = some sketch →
        Sketched p part sketch)
      (h : GroupMergeHllpp sketches labels p merged)
      (hlen : labels.length = sketches.length) (hsorted : labels.Pairwise (· ≤ ·))
      (hg : g ∈ labels) :
      Sketched p (groupRows parts labels g).flatten (merged g)
  | reduceMerge {parts : List (List (Option (BitVec 64)))} {sketches : List (ℕ → BitVec 64)}
      (hlen' : parts.length = sketches.length)
      (hparts : ∀ (i : ℕ) part sketch, parts[i]? = some part → sketches[i]? = some sketch →
        Sketched p part sketch) :
      Sketched p parts.flatten (reduceMergeHllpp sketches p)

section Sketched

variable {hashs whole : List (Option (BitVec 64))} {sketches : List (ℕ → BitVec 64)}
  {parts : List (List (Option (BitVec 64)))} {labels : List ℕ} {p register longIdx g : ℕ}
  {sketch : ℕ → BitVec 64}

/-- A sketch has the greatest ranks of its rows. -/
def Represents (p : ℕ) (hashs : List (Option (BitVec 64))) (sketch : ℕ → BitVec 64) : Prop :=
  ∀ longIdx < numLongCols p, sketch longIdx = packed p (maxRank p hashs) longIdx

/-- Every sketch of a column has the rows of its part. -/
def AllRepresent (p : ℕ) (parts : List (List (Option (BitVec 64))))
    (sketches : List (ℕ → BitVec 64)) : Prop :=
  List.Forall₂ (Represents p) parts sketches

theorem longIdx_lt (hr : register < numRegistersPerSketch p) :
    register / registersPerLong < numLongCols p :=
  Nat.lt_succ_of_le (Nat.div_le_div_right hr.le)

theorem Represents.getRegisterValue (h : Represents p hashs sketch) (hp : 4 ≤ p)
    (hr : register < numRegistersPerSketch p) :
    getRegisterValue (sketch (register / registersPerLong)) (register % registersPerLong) =
      maxRank p hashs register := by
  rw [h _ (longIdx_lt hr)]
  exact getRegisterValue_packed_div (fun _ => maxRank_lt hp) hr

/-- A sketch is known by its registers. -/
theorem represents_of_registers {registers : ℕ → ℕ} (hp : 4 ≤ p)
    (h : ∀ r < numRegistersPerSketch p, registers r = maxRank p hashs r) :
    Represents p hashs fun longIdx =>
      compactLong registers (longIdx * registersPerLong) (numRegs p longIdx) := by
  intro longIdx hlong
  rw [← compactLong_eq fun _ => maxRank_lt hp]
  exact compactLong_congr fun i hi => h _ (lt_numRegistersPerSketch hlong hi)

/-- The sketch of parts that are put together has the greatest of the registers. -/
theorem maxRank_flatten_le_iff {a : ℕ} : maxRank p parts.flatten register ≤ a ↔
    ∀ part ∈ parts, maxRank p part register ≤ a := by
  simp only [maxRank_le_iff, List.mem_flatten]
  exact ⟨fun h part hpart hash hmem => h hash ⟨part, hpart, hmem⟩,
    fun h hash ⟨part, hpart, hmem⟩ => h part hpart hash hmem⟩

/-- The values of a group have the greatest ranks of its parts. -/
theorem groupSup_regValues (hp : 4 ≤ p) (hr : register < numRegistersPerSketch p)
    (hparts : AllRepresent p parts sketches) (hlen : labels.length = sketches.length) :
    groupSup (fun i => labels.getD i 0)
      (regValues sketches (register / registersPerLong) (register % registersPerLong))
      (Finset.range sketches.length) g =
        maxRank p (groupRows parts labels g).flatten register := by
  have hlen' := hparts.length_eq
  -- the value of a sketch is the greatest rank of its part
  have hvalue : ∀ j part, parts[j]? = some part →
      regValues sketches (register / registersPerLong) (register % registersPerLong) j =
        maxRank p part register := by
    intro j part hpart
    obtain ⟨hj, rfl⟩ := List.getElem?_eq_some_iff.1 hpart
    have hrep := (List.forall₂_iff_get.1 hparts).2 j hj (by omega)
    rw [regValues, List.getD_eq_getElem _ _ (by omega)]
    exact hrep.getRegisterValue hp hr
  refine eq_of_forall_ge_iff fun a => ?_
  rw [maxRank_flatten_le_iff, groupSup, Finset.sup_le_iff]
  constructor
  · intro h part hpart
    obtain ⟨j, hj, hget, hlabel⟩ := (mem_groupRows (hlen.trans hlen'.symm)).1 hpart
    rw [← hvalue j part hget]
    exact h j (Finset.mem_filter.2 ⟨Finset.mem_range.2 (by omega), hlabel⟩)
  · intro h j hj
    obtain ⟨hj, hlabel⟩ := Finset.mem_filter.1 hj
    rw [Finset.mem_range] at hj
    have hj' : j < parts.length := hlen'.symm ▸ hj
    have hget : parts[j]? = some parts[j] := List.getElem?_eq_getElem hj'
    rw [hvalue j _ hget]
    exact h _ ((mem_groupRows (hlen.trans hlen'.symm)).2 ⟨j, hj', hget, hlabel⟩)

theorem div_mod_of_lt {a b k : ℕ} (h : b < k) : (a * k + b) / k = a ∧ (a * k + b) % k = b := by
  rw [Nat.mul_comm, Nat.mul_add_div (Nat.zero_lt_of_lt h), Nat.mul_add_mod, Nat.div_eq_of_lt h,
    Nat.mod_eq_of_lt h]
  exact ⟨Nat.add_zero a, rfl⟩

/-- `group_merge_hllpp` has the sketch of the parts for every group. -/
theorem GroupMergeHllpp.represents {merged : ℕ → ℕ → BitVec 64} (hp : 4 ≤ p)
    (h : GroupMergeHllpp sketches labels p merged)
    (hparts : AllRepresent p parts sketches) (hlen : labels.length = sketches.length)
    (hsorted : labels.Pairwise (· ≤ ·)) (hg : g ∈ labels) :
    Represents p (groupRows parts labels g).flatten (merged g) := by
  obtain ⟨uninitialized, s, hs, hdone, rfl⟩ := h
  have hsorted := sorted_of_pairwise hlen hsorted
  obtain ⟨e, hlast, rfl⟩ := exists_last_of_mem hlen hg
  have hk : 0 < numRowsPerThread := by decide
  have hlt := hlast.1
  have hthread : e / numRowsPerThread < numThreads sketches.length := by
    have hle := Nat.div_mul_le_self e numRowsPerThread
    rw [numThreads, Nat.lt_div_iff_mul_lt hk]
    omega
  refine represents_of_registers hp fun register hr => ?_
  have hten : register % registersPerLong < 10 := Nat.mod_lt _ (by decide)
  -- the output cache has what the thread of the last sketch wrote
  have hmemory : s.memory (labels.getD e 0, register) =
      groupSup (fun i => labels.getD i 0)
        (regValues sketches (register / registersPerLong) (register % registersPerLong))
        (Finset.Ico (e / numRowsPerThread * numRowsPerThread) (e + 1)) (labels.getD e 0) := by
    have hindex : register / registersPerLong * numThreads sketches.length + e / numRowsPerThread <
        numThreads sketches.length * numLongCols p := by
      have hmul := Nat.mul_le_mul_right (numThreads sketches.length) (longIdx_lt hr)
      rw [Nat.succ_mul, Nat.mul_comm (numLongCols p)] at hmul
      omega
    obtain ⟨hdiv, hmod⟩ := div_mod_of_lt (a := register / registersPerLong) hthread
    refine hdone.memory_eq hs (List.mem_flatten.2 ⟨_, List.mem_map.2
      ⟨_, List.mem_range.2 hindex, rfl⟩, ?_⟩) fun v hv => ?_
    · rw [hdiv, hmod]
      refine List.mem_flatMap.2 ⟨_, List.mem_range.2 (mod_lt_numRegs hr), ?_⟩
      refine (mem_longOutputs hsorted hthread).2 ⟨e, rfl, hlast, ?_⟩
      rw [Nat.div_add_mod']
    · obtain ⟨_, hout, hv⟩ := List.mem_flatten.1 hv
      obtain ⟨tid, htid, rfl⟩ := List.mem_map.1 hout
      obtain ⟨i, hi, hv⟩ := List.mem_flatMap.1 hv
      have hi' : i < registersPerLong := (List.mem_range.1 hi).trans_le (numRegs_le ..)
      obtain ⟨e', -, he', heq⟩ :=
        (mem_longOutputs hsorted (Nat.mod_lt tid (Nat.zero_lt_of_lt hthread))).1 hv
      obtain ⟨hplace, rfl⟩ := Prod.ext_iff.1 heq
      obtain ⟨hlabel, hregister⟩ := Prod.ext_iff.1 hplace
      dsimp only at hlabel hregister
      obtain rfl := hlast.unique he' hsorted hlabel
      obtain ⟨hdiv', hmod'⟩ := div_mod_of_lt (a := tid / numThreads sketches.length) hi'
      rw [hregister, hdiv', hmod']
  rw [← groupSup_regValues hp hr hparts hlen]
  exact mergedRegister_eq hsorted hlast (fun t => maxRegV_lt hten hsorted t) hmemory
    (fun t ht => maxRegV_le hsorted ht) fun t ht hnot => (maxRegV_cases hsorted ht).trans (if_neg hnot)

theorem mem_strided {numRows tid i : ℕ} (htid : tid < blockSize) :
    i ∈ strided numRows tid ↔ i < numRows ∧ i % blockSize = tid := by
  have hdiv := Nat.div_add_mod' i blockSize
  unfold strided blockSize at *
  rw [List.mem_map]
  constructor
  · rintro ⟨j, hj, rfl⟩
    rw [List.mem_range] at hj
    omega
  · rintro ⟨hi, rfl⟩
    exact ⟨i / 256, List.mem_range.2 (by omega), by omega⟩

theorem foldlM_fetchMax {ops : List (ℕ × ℕ)} {cache cache' : ℕ → ℕ} {a : ℕ}
    (h : ops.foldlM fetchMax cache = some cache') :
    cache' register ≤ a ↔ cache register ≤ a ∧ ∀ op ∈ ops, op.1 = register → op.2 ≤ a := by
  induction ops generalizing cache with
  | nil =>
    obtain rfl := Option.some.inj h
    simp
  | cons op ops ih =>
    have ih := @ih (Function.update cache op.1 (max (cache op.1) op.2)) h
    rw [ih, List.forall_mem_cons, ← and_assoc]
    refine and_congr_left fun _ => ?_
    by_cases hop : op.1 = register
    · obtain rfl := hop
      rw [Function.update_self, max_le_iff]
      simp
    · rw [Function.update_of_ne (Ne.symm hop)]
      simp [hop]

/-- The rows of the threads are all the rows. -/
theorem mem_reduceThreads {uninitialized : ℕ → ℕ} {op : ℕ × ℕ} :
    op ∈ (reduceThreads hashs p uninitialized).pending.flatten ↔
      ∃ row ∈ hashs, op = registerOf p row := by
  rw [List.mem_flatten]
  constructor
  · rintro ⟨_, hout, hop⟩
    obtain ⟨tid, htid, rfl⟩ := List.mem_map.1 hout
    obtain ⟨i, hi, rfl⟩ := List.mem_map.1 hop
    have hlt := ((mem_strided (List.mem_range.1 htid)).1 hi).1
    exact ⟨hashs.getD i none, by rw [List.getD_eq_getElem _ _ hlt]; exact List.getElem_mem hlt, rfl⟩
  · rintro ⟨row, hrow, rfl⟩
    obtain ⟨i, hi, rfl⟩ := List.mem_iff_getElem.1 hrow
    have hmod : i % blockSize < blockSize := Nat.mod_lt i (by decide)
    refine ⟨_, List.mem_map.2 ⟨i % blockSize, List.mem_range.2 hmod, rfl⟩, List.mem_map.2 ⟨i, ?_, ?_⟩⟩
    · exact (mem_strided hmod).2 ⟨hi, rfl⟩
    · rw [List.getD_eq_getElem _ _ hi]

/-- The number of registers is not a multiple of ten. -/
theorem longIdx_mul_lt (hp : 4 ≤ p) (hp' : p ≤ 18)
    (hlong : longIdx < numLongCols p) :
    longIdx * registersPerLong < numRegistersPerSketch p ∧
      min ((longIdx + 1) * registersPerLong) (numRegistersPerSketch p) -
        longIdx * registersPerLong = numRegs p longIdx := by
  have hten : registersPerLong = 10 := rfl
  have hmod : 0 < numRegistersPerSketch p % 10 := by
    unfold numRegistersPerSketch
    interval_cases p <;> decide
  simp only [numRegs, numLongCols, hten, Nat.add_sub_cancel] at hlong ⊢
  split_ifs <;> omega

/-- `reduce_hllpp` has the sketch of the rows. -/
theorem ReduceHllpp.represents (hp : 4 ≤ p) (hp' : p ≤ 18)
    (h : ReduceHllpp hashs p sketch) : Represents p hashs sketch := by
  obtain ⟨uninitialized, output, s, hs, hdone, rfl⟩ := h
  obtain ⟨applied, hperm, hmemory⟩ := hdone.exists_perm hs
  have hregisters : ∀ r < numRegistersPerSketch p,
      s.memory r = maxRank p hashs r := by
    intro r hr
    refine eq_of_forall_ge_iff fun a => ?_
    have hclear : (reduceThreads hashs p uninitialized).memory r = 0 := if_pos hr
    rw [foldlM_fetchMax hmemory, maxRank_le_iff, hclear]
    constructor
    · rintro ⟨-, h⟩ hash hmem hregister
      have hop := h (registerOf p (some hash))
        (hperm.mem_iff.2 (mem_reduceThreads.2 ⟨_, hmem, rfl⟩))
      rw [registerOf_eq hp hp'] at hop
      exact hop hregister
    · refine fun h => ⟨Nat.zero_le a, fun op hop hregister => ?_⟩
      obtain ⟨row, hrow, rfl⟩ := mem_reduceThreads.1 (hperm.mem_iff.1 hop)
      cases row with
      | none => exact Nat.zero_le a
      | some hash =>
        rw [registerOf_eq hp hp'] at hregister ⊢
        exact h hash hrow hregister
  have hrep := represents_of_registers hp hregisters
  intro longIdx hlong
  obtain ⟨hlt, hcount⟩ := longIdx_mul_lt hp hp' hlong
  dsimp only
  rw [if_pos hlt, hcount]
  exact hrep longIdx hlong

/-- `reduce_merge_hllpp` has the sketch of the parts. -/
theorem represents_reduceMergeHllpp (hp : 4 ≤ p)
    (hparts : AllRepresent p parts sketches) :
    Represents p parts.flatten (reduceMergeHllpp sketches p) := by
  refine represents_of_registers hp fun register hr => ?_
  refine eq_of_forall_ge_iff fun a => ?_
  have hloop : ∀ m, sketches.foldl (fun max sketch =>
      let regV := getRegisterValue (sketch (register / registersPerLong)) (register % registersPerLong)
      if regV > max then regV else max) m ≤ a ↔
        m ≤ a ∧ ∀ part ∈ parts, maxRank p part register ≤ a := by
    induction hparts with
    | nil => simp
    | cons hpart _ ih =>
      intro m
      rw [List.foldl_cons, ih, List.forall_mem_cons, ← and_assoc]
      refine and_congr_left fun _ => ?_
      dsimp only
      rw [hpart.getRegisterValue hp hr]
      split_ifs <;> omega
  rw [maxRank_flatten_le_iff]
  exact (hloop 0).trans (and_iff_right (Nat.zero_le a))

theorem allRepresent_of_getElem? (hlen : parts.length = sketches.length)
    (h : ∀ (i : ℕ) part sketch, parts[i]? = some part → sketches[i]? = some sketch →
      Represents p part sketch) : AllRepresent p parts sketches := by
  refine List.forall₂_iff_get.2 ⟨hlen, fun i hi hi' => ?_⟩
  exact h i _ _ (List.getElem?_eq_getElem hi) (List.getElem?_eq_getElem hi')

/-- A sketch has the greatest ranks of the rows that went into it. -/
theorem Sketched.represents (hp : 4 ≤ p) (hp' : p ≤ 18)
    (h : Sketched p hashs sketch) : Represents p hashs sketch := by
  induction h with
  | group h hlen hsorted hg => exact fun longIdx _ => congrFun (h.eq hp hp' hlen hsorted hg) longIdx
  | reduce h => exact h.represents hp hp'
  | groupMerge hlen' _ h hlen hsorted hg ih =>
    exact h.represents hp (allRepresent_of_getElem? hlen' ih) hlen hsorted hg
  | reduceMerge hlen' _ ih => exact represents_reduceMergeHllpp hp (allRepresent_of_getElem? hlen' ih)

theorem exists_reduceHllpp (hashs : List (Option (BitVec 64))) (p : ℕ) :
    ∃ sketch, ReduceHllpp hashs p sketch := by
  obtain ⟨s, hs, hdone⟩ := Threads.exists_done_of_total
    (reduceThreads hashs p fun _ => 0)
    fun cache op => ⟨_, (rfl : fetchMax cache op = some _)⟩
  exact ⟨_, _, fun _ => 0#64, s, hs, hdone, rfl⟩

theorem exists_groupMergeHllpp (sketches : List (ℕ → BitVec 64)) (labels : List ℕ)
    (p : ℕ) : ∃ merged, GroupMergeHllpp sketches labels p merged := by
  obtain ⟨s, hs, hdone⟩ := Threads.exists_done_of_total
    (partialLongThreads sketches labels p fun _ => 0)
    fun memory op => ⟨_, (rfl : Threads.write memory op = some _)⟩
  exact ⟨_, _, s, hs, hdone, rfl⟩

/-- **Sketches are maxima.** Every kernel runs to its end. Whatever operations a sketch comes from, it
has in each register the greatest rank of the rows that went into it, in whatever parts, order and
number, and the `long`s have the registers without loss. -/
theorem hllpp_sketches (hp : 4 ≤ p) (hp' : p ≤ 18) :
    (∀ hashs labels, ∃ sketches, GroupHllpp hashs labels p sketches) ∧
      (∀ hashs, ∃ sketch, ReduceHllpp hashs p sketch) ∧
      (∀ sketches labels, ∃ merged, GroupMergeHllpp sketches labels p merged) ∧
      ∀ hashs sketch whole, Sketched p hashs sketch →
        (∀ hash, some hash ∈ hashs ↔ some hash ∈ whole) → ∀ longIdx < numLongCols p,
          sketch longIdx = packed p (maxRank p whole) longIdx ∧
            ∀ i < numRegs p longIdx, getRegisterValue (sketch longIdx) i =
              maxRank p whole (longIdx * registersPerLong + i) := by
  refine ⟨fun hashs labels => exists_groupHllpp hashs labels p,
    fun hashs => exists_reduceHllpp hashs p,
    fun sketches labels => exists_groupMergeHllpp sketches labels p, ?_⟩
  intro hashs sketch whole h hwhole longIdx hlong
  have hlongs := h.represents hp hp' longIdx hlong
  rw [maxRank_congr hwhole] at hlongs
  refine ⟨hlongs, fun i hi => ?_⟩
  rw [hlongs]
  exact getRegisterValue_packed (fun _ => maxRank_lt hp) hi

/-- Two parts of a column, merged in the other order. -/
theorem hllpp_sketches_merged : ∃ sketch sketch', ReduceHllpp [some 5#64] 9 sketch ∧
    ReduceHllpp [none, some 7#64] 9 sketch' ∧
    reduceMergeHllpp [sketch', sketch] 9 0 =
      packed 9 (maxRank 9 [some 5#64, none, some 7#64]) 0 := by
  obtain ⟨-, hreduce, -, heq⟩ := @hllpp_sketches 9 (by decide) (by decide)
  obtain ⟨sketch, h⟩ := hreduce [some 5#64]
  obtain ⟨sketch', h'⟩ := hreduce [none, some 7#64]
  have hmerged : Sketched 9 [[none, some 7#64], [some 5#64]].flatten
      (reduceMergeHllpp [sketch', sketch] 9) := by
    refine .reduceMerge rfl fun i part s hpart hs => ?_
    match i with
    | 0 =>
      obtain rfl := Option.some.inj hpart
      obtain rfl := Option.some.inj hs
      exact .reduce h'
    | 1 =>
      obtain rfl := Option.some.inj hpart
      obtain rfl := Option.some.inj hs
      exact .reduce h
    | i + 2 => exact absurd hpart (by simp)
  refine ⟨sketch, sketch', h, h', (heq _ _ [some 5#64, none, some 7#64] hmerged ?_ 0 (by decide)).1⟩
  intro hash
  simp [or_comm]

end Sketched

end SparkRapids.HyperLogLog
