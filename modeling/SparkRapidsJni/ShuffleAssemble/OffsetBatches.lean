import SparkRapidsJni.ShuffleAssemble.ColumnInstances
import SparkRapidsJni.ShuffleAssemble.ValidityBatches

/-!
# `shuffle_assemble.cu`: the offsets of the result

The offsets of a string or list column are copied in batches of 1 MB of a partition's offsets, each by a
block of `copy_offsets`, which shifts them to the rows or characters that are in front. A partition's
last offset is the first one of the next partition with rows, and only copied where there is no such
partition. The result is not initialised.

Where the column has no row at all, there is no partition with offsets, and no one writes the single
offset that the column still has (`offsetsWritten_iff`).
-/

namespace SparkRapids.ShuffleAssemble

open Kudo PrefixSums Threads

/-! ### The code -/

/-- What `shuffle_assemble` gets: partitions as the writer makes them, one of them with rows. -/
structure AssembleInput where
  schema : Schema
  partitions : List Partition
  wellFormed : ∀ partition ∈ partitions, partition.WellFormed schema
  nonempty : ∃ partition ∈ partitions, 0 < partition.numRows

/-- `assemble_batch`, of an offset buffer. The source is relative to the offset section of the
partition, and the destination to the offsets of the column. -/
structure OffsetsBatch where
  src : ℕ
  dst : ℕ
  size : ℕ
  valueShift : ℤ

/-- `offsets_size` -/
def offsetsSize (numRows : ℕ) : ℕ :=
  -- if we have no rows, don't even generate the blank offset
  if 0 < numRows then sizeT (4 * sizeType (numRows + 1)) else 0

/-- An entry of the offsets of the columns: a column, and the number of the offset. -/
abbrev OffsetEntry := ℕ × ℕ

/-- `copy_offsets`: what a thread of a block writes. -/
def copyOffsets (offsets : ℕ → ℕ) (column : ℕ) (batch : OffsetsBatch) (thread : ℕ) :
    List (OffsetEntry × BitVec 32) :=
  let numOffsets := batch.size / 4
  (List.range' thread ((numOffsets + 127 - thread) / 128) 128).map fun offsetIndex =>
    ((column, batch.dst / 4 + offsetIndex),
      BitVec.ofInt 32 (offsets (batch.src / 4 + offsetIndex) + batch.valueShift))

namespace AssembleInput

variable (input : AssembleInput)

def partition (p : ℕ) : Partition := input.partitions.getD p ⟨0, 0, fun _ => 0⟩

/-- `num_partitions`: trailing empty partitions are trimmed off. -/
def numPartitions : ℕ :=
  (Finset.range input.partitions.length).sup fun pindex =>
    if 0 < (input.partition pindex).numRows then pindex + 1 else 0

/-- The rows of the instances of a column. -/
def rows (column p : ℕ) : ℕ := ((input.partition p).columnInstances input.schema column).numRows

/-- Their characters. -/
def chars (column p : ℕ) : ℕ := ((input.partition p).columnInstances input.schema column).numChars

/-- `row_index` -/
def rowIndex (column p : ℕ) : ℤ := sizeType (exclusiveScan (input.rows column) p)

/-- `char_index` -/
def charIndex (column p : ℕ) : ℤ := sizeType (exclusiveScan (input.chars column) p)

/-- The row behind the last one of an instance. -/
def endRow (column p : ℕ) : ℤ := sizeType (input.rowIndex column p + input.rows column p)

/-- `num_rows`, of a column: with indices and counts of the instances, this is no reduction. -/
def numRows (column : ℕ) : ℤ := input.endRow column (input.numPartitions - 1)

def type (column : ℕ) : DType := (colInfo input.schema).getD column .struct

/-- `src_sizes_unpadded`, of the offsets -/
def srcSize (column p : ℕ) : ℕ :=
  if hasOffsets (input.type column) then offsetsSize (input.rows column p) else 0

/-- `src_offsets` -/
def srcOffset (column p : ℕ) : ℕ := exclusiveScan (fun column => input.srcSize column p) column

/-- `dst_offsets`: we only consume the rows' offsets from each partition. -/
def dstOffset (column p : ℕ) : ℕ :=
  exclusiveScan (fun p => input.srcSize column p - if 0 < input.srcSize column p then 4 else 0) p

/-- How many batches there are. -/
def numBatches (column p : ℕ) : ℕ := sizeToBatchCount (input.srcSize column p)

/-- `is_terminating_partition`: the last one that has rows. -/
def isTerminatingPartition (column p : ℕ) : Bool :=
  input.endRow column p = input.endRow column (input.numPartitions - 1)

/-- `bytes` -/
def batchBytes (column p batchIndex : ℕ) : ℕ :=
  let batchOffset := batchIndex * desiredAssembleBatchSize
  let batchSrcSize := input.srcSize column p
  let endOfBuffer := batchSrcSize ≤ batchOffset + desiredAssembleBatchSize
  if batchSrcSize = 0 then 0
  else if ¬endOfBuffer then desiredAssembleBatchSize
  else
    -- if we are the last partition to be copied, include the terminating offset
    let size := min (batchSrcSize - batchOffset) desiredAssembleBatchSize
    if input.isTerminatingPartition column p then size else size - 4

/-- `offset_shift` -/
def offsetShift (column p : ℕ) : ℤ :=
  if input.srcSize column p = 0 then 0
  else
    let rootPartitionOffset := (input.partition p).offsets (input.srcOffset column p / 4)
    -- subtract the first offset value in the buffer, then add the row/char index
    match input.type column with
    | .leaf .string => sizeType (input.charIndex column p - rootPartitionOffset)
    | .list => sizeType (input.rowIndex (column + 1) p - rootPartitionOffset)
    | _ => 0

/-- `copy_batches`, of the offsets. -/
def copyBatch (column p batchIndex : ℕ) : OffsetsBatch :=
  let batchOffset := batchIndex * desiredAssembleBatchSize
  { src := input.srcOffset column p + batchOffset
    dst := input.dstOffset column p + batchOffset
    size := input.batchBytes column p batchIndex
    valueShift := input.offsetShift column p }

/-- What the threads of a batch's block write. -/
def batchThreads (column p batchIndex : ℕ) : List (List (OffsetEntry × BitVec 32)) :=
  (List.range 128).map (copyOffsets (input.partition p).offsets column
    (input.copyBatch column p batchIndex))

/-- What the threads of the kernel write, of all batches. -/
def offsetThreads : List (List (OffsetEntry × BitVec 32)) :=
  (List.range input.numPartitions).flatMap fun p =>
    (List.range (colInfo input.schema).length).flatMap fun column =>
      (List.range (input.numBatches column p)).flatMap fun batchIndex =>
        input.batchThreads column p batchIndex

/-! ### What the offsets should be -/

/-- A string or list column. -/
abbrev OffsetColumn : Type :=
  { column : ℕ // (colInfo input.schema)[column]? = some (.leaf .string) ∨
    (colInfo input.schema)[column]? = some .list }

/-- What the offsets of an instance count: characters, or rows of the child. -/
def counts (column p : ℕ) : ℕ :=
  match input.type column with
  | .leaf .string => input.chars column p
  | .list => input.rows (column + 1) p
  | _ => 0

/-- The rows of a column. -/
def totalRows (column : ℕ) : ℕ := exclusiveScan (input.rows column) input.partitions.length

/-- The characters of a string column, or the rows of a list column's child. -/
def totalCounts (column : ℕ) : ℕ := exclusiveScan (input.counts column) input.partitions.length

/-- A batch writes an entry. -/
def BatchWrites (column : ℕ) (batch : ℕ × ℕ) (k : ℕ) : Prop :=
  batch.1 < input.numPartitions ∧ batch.2 < input.numBatches column batch.1 ∧
    ∃ value, ((column, k), value) ∈ (input.batchThreads column batch.1 batch.2).flatten

/-- The kernel, at its start. -/
def kernel (memory : OffsetEntry → BitVec 32) :
    Threads (OffsetEntry → BitVec 32) (OffsetEntry × BitVec 32) :=
  ⟨memory, input.offsetThreads⟩

/-- The offsets of a column are all written, each by one batch. Whatever was there, and in whichever
order the threads write, they go from 0 to what the column has, and do not decrease. -/
structure OffsetsWritten (column : ℕ) : Prop where
  numRows : input.numRows column = input.totalRows column
  once : ∀ k ≤ input.totalRows column, ∃! batch, input.BatchWrites column batch k
  first : ∀ memory s, (lts write (input.kernel memory)).Reachable s → s.Done →
    (s.memory (column, 0)).toInt = 0
  nondecreasing : ∀ memory s, (lts write (input.kernel memory)).Reachable s → s.Done →
    ∀ k < input.totalRows column,
      (s.memory (column, k)).toInt ≤ (s.memory (column, k + 1)).toInt
  last : ∀ memory s, (lts write (input.kernel memory)).Reachable s → s.Done →
    (s.memory (column, input.totalRows column)).toInt = input.totalCounts column

/-- The column has rows, and its rows and what its offsets count are numbers of a `size_type`. -/
structure OffsetsFit (column : ℕ) : Prop where
  rows_pos : 0 < input.totalRows column
  rows_lt : input.totalRows column < 2 ^ 31
  counts_lt : input.totalCounts column < 2 ^ 31

/-! ### The instances of a column -/

section Instances

variable {input : AssembleInput} {column p : ℕ}

theorem partition_of_length_le (h : input.partitions.length ≤ p) :
    (input.partition p).numRows = 0 := by
  unfold partition
  rw [List.getD_eq_default _ _ h]

/-- The partitions that were trimmed off are empty. -/
theorem rows_of_le (h : input.numPartitions ≤ p) : input.rows column p = 0 := by
  apply Partition.numRows_eq_zero
  rcases Nat.lt_or_ge p input.partitions.length with hp | hp
  · by_contra hne
    have hsup := Finset.le_sup (f := fun pindex =>
      if 0 < (input.partition pindex).numRows then pindex + 1 else 0) (Finset.mem_range.2 hp)
    rw [if_pos (Nat.pos_of_ne_zero hne)] at hsup
    exact Nat.not_succ_le_self p (Nat.le_trans hsup h)
  · exact partition_of_length_le hp

theorem numPartitions_le (input : AssembleInput) :
    input.numPartitions ≤ input.partitions.length := by
  refine Finset.sup_le fun p hp => ?_
  have hlt := Finset.mem_range.1 hp
  split_ifs
  · exact hlt
  · exact Nat.zero_le _

theorem numPartitions_pos (input : AssembleInput) : 0 < input.numPartitions := by
  by_contra hzero
  obtain ⟨partition, hmem, hrows⟩ := input.nonempty
  obtain ⟨p, hp, rfl⟩ := List.getElem_of_mem hmem
  have hsup := Finset.le_sup (f := fun pindex =>
    if 0 < (input.partition pindex).numRows then pindex + 1 else 0) (Finset.mem_range.2 hp)
  have hpartition : input.partition p = input.partitions[p] := List.getD_eq_getElem _ _ hp
  rw [hpartition, if_pos hrows] at hsup
  exact hzero (Nat.lt_of_lt_of_le (Nat.succ_pos p) hsup)

theorem offsetsOf_of_rows (h : input.rows column p = 0) :
    (input.partition p).offsetsOf input.schema column = 0 := by
  unfold Partition.offsetsOf numOffsets
  rw [if_neg fun hif => Nat.ne_of_gt hif.2 h]

theorem wellFormed_partition (input : AssembleInput) (p : ℕ) :
    (input.partition p).WellFormed input.schema := by
  rcases Nat.lt_or_ge p input.partitions.length with hp | hp
  · have hpartition : input.partition p = input.partitions[p] := List.getD_eq_getElem _ _ hp
    rw [hpartition]
    exact input.wellFormed _ (List.getElem_mem hp)
  · have hzero : ∀ column, (input.partition p).offsetsOf input.schema column = 0 := fun column =>
      offsetsOf_of_rows (Partition.numRows_eq_zero (partition_of_length_le hp) column)
    refine ⟨fun column i hi => ?_, fun column i hi => ?_, ?_⟩
    · exact absurd hi (by rw [hzero]; exact Nat.not_lt_zero _)
    · exact absurd hi (by rw [hzero]; exact Nat.not_lt_zero _)
    · rw [exclusiveScan_congr fun column _ => hzero column]
      simp [exclusiveScan]

/-- The number of offsets fits, so it is what the sizes say. -/
theorem srcSize_eq (input : AssembleInput) (column p : ℕ) :
    input.srcSize column p = 4 * (input.partition p).offsetsOf input.schema column := by
  have hsize := (wellFormed_partition input p).offsetSize_lt
  unfold srcSize Partition.offsetsOf numOffsets offsetsSize
  show (if hasOffsets (input.type column) then _ else _) =
    4 * if hasOffsets (input.type column) ∧ 0 < input.rows column p then input.rows column p + 1 else 0
  by_cases hoffsets : hasOffsets (input.type column)
  · by_cases hrows : 0 < input.rows column p
    · have hcolumn : column < (colInfo input.schema).length := by
        by_contra hge
        have htype : input.type column = .struct := List.getD_eq_default _ _ (Nat.not_lt.1 hge)
        rw [htype] at hoffsets
        exact absurd hoffsets (by simp [hasOffsets])
      have hself : (input.partition p).offsetsOf input.schema column = input.rows column p + 1 :=
        if_pos ⟨hoffsets, hrows⟩
      have hle := exclusiveScan_mono ((input.partition p).offsetsOf input.schema)
        (Nat.succ_le_of_lt hcolumn)
      rw [Nat.succ_eq_add_one, exclusiveScan_succ, hself] at hle
      have hlt : input.rows column p + 1 < 2 ^ 31 := by omega
      have hint := sizeType_of_le hlt
      rw [Nat.cast_add, Nat.cast_one] at hint
      rw [if_pos hoffsets, if_pos hrows, if_pos ⟨hoffsets, hrows⟩, hint]
      unfold sizeT
      omega
    · rw [if_pos hoffsets, if_neg hrows, if_neg fun h => hrows h.2]
  · rw [if_neg hoffsets, if_neg fun h => hoffsets h.1]

theorem srcOffset_eq (input : AssembleInput) (column p : ℕ) : input.srcOffset column p =
    4 * exclusiveScan ((input.partition p).offsetsOf input.schema) column := by
  unfold srcOffset exclusiveScan
  rw [Finset.mul_sum]
  exact Finset.sum_congr rfl fun column _ => srcSize_eq input column p

end Instances

/-! ### The segments of a column -/

section Column

variable {input : AssembleInput} {column : input.OffsetColumn} {p q b j k : ℕ}

theorem hasOffsets_type (column : input.OffsetColumn) : hasOffsets (input.type column.1) := by
  unfold type
  rw [List.getD_eq_getElem?_getD]
  rcases column.2 with h | h
  · rw [h]
    rfl
  · rw [h]
    rfl

theorem offsetsOf_eq (column : input.OffsetColumn) (h : 0 < input.rows column.1 p) :
    (input.partition p).offsetsOf input.schema column.1 = input.rows column.1 p + 1 :=
  if_pos ⟨hasOffsets_type column, h⟩

/-- An instance's rows go over what its offsets count. -/
theorem counts_eq (column : input.OffsetColumn) (p : ℕ) : input.counts column.1 p =
    if 0 < input.rows column.1 p then
      (input.partition p).offset input.schema column.1 (input.rows column.1 p) -
        (input.partition p).offset input.schema column.1 0
    else 0 := by
  unfold counts type
  rw [List.getD_eq_getElem?_getD]
  rcases column.2 with h | h
  · rw [h]
    exact Partition.numChars_string h
  · rw [h]
    exact Partition.numRows_child h

theorem dstOffset_eq (column : input.OffsetColumn) (p : ℕ) :
    input.dstOffset column.1 p = 4 * exclusiveScan (input.rows column.1) p := by
  unfold dstOffset exclusiveScan
  rw [Finset.mul_sum]
  refine Finset.sum_congr rfl fun p _ => ?_
  dsimp only
  rw [srcSize_eq]
  rcases Nat.eq_zero_or_pos (input.rows column.1 p) with hzero | hpos
  · rw [offsetsOf_of_rows hzero, hzero]
    rfl
  · rw [offsetsOf_eq column hpos, if_pos (by omega)]
    omega

theorem totalRows_eq (column : ℕ) :
    input.totalRows column = exclusiveScan (input.rows column) input.numPartitions := by
  unfold totalRows exclusiveScan
  refine (Finset.sum_subset (fun p hp => ?_) fun p _ hp => ?_).symm
  · exact Finset.mem_range.2 (Nat.lt_of_lt_of_le (Finset.mem_range.1 hp) input.numPartitions_le)
  · exact rows_of_le (Nat.not_lt.1 fun hlt => hp (Finset.mem_range.2 hlt))

theorem counts_of_rows (h : input.rows column.1 p = 0) : input.counts column.1 p = 0 := by
  rw [counts_eq, if_neg (by omega)]

theorem totalCounts_eq (column : input.OffsetColumn) :
    input.totalCounts column.1 = exclusiveScan (input.counts column.1) input.numPartitions := by
  unfold totalCounts exclusiveScan
  refine (Finset.sum_subset (fun p hp => ?_) fun p _ hp => ?_).symm
  · exact Finset.mem_range.2 (Nat.lt_of_lt_of_le (Finset.mem_range.1 hp) input.numPartitions_le)
  · exact counts_of_rows (rows_of_le (Nat.not_lt.1 fun hlt => hp (Finset.mem_range.2 hlt)))

/-- Where there are no rows between, nothing is counted between. -/
theorem counts_between (hle : p ≤ q)
    (h : exclusiveScan (input.rows column.1) p = exclusiveScan (input.rows column.1) q) :
    exclusiveScan (input.counts column.1) p = exclusiveScan (input.counts column.1) q := by
  induction q, hle using Nat.le_induction with
  | base => rfl
  | succ q hpq ih =>
    have hmono := exclusiveScan_mono (input.rows column.1) hpq
    rw [exclusiveScan_succ] at h ⊢
    rw [ih (by omega), @counts_of_rows input column q (by omega), Nat.add_zero]

theorem counts_of_rows_eq
    (h : exclusiveScan (input.rows column.1) p = exclusiveScan (input.rows column.1) q) :
    exclusiveScan (input.counts column.1) p = exclusiveScan (input.counts column.1) q := by
  rcases Nat.le_total p q with hle | hle
  · exact counts_between hle h
  · exact (counts_between hle h.symm).symm

/-! ### What the batches write -/

/-- The offset `j` of a partition is copied: that of a row, or the terminating one. -/
def Copied (input : AssembleInput) (column p j : ℕ) : Prop :=
  p < input.numPartitions ∧ 0 < input.rows column p ∧
    (j < input.rows column p ∨ j = input.rows column p ∧ input.isTerminatingPartition column p)

/-- What is written for it. -/
def copiedValue (input : AssembleInput) (column p j : ℕ) : BitVec 32 :=
  BitVec.ofInt 32 ((input.partition p).offset input.schema column j + input.offsetShift column p)

/-- The threads of a block share the offsets of its batch. -/
theorem mem_batchThreads {column p b : ℕ} {entry : OffsetEntry} {value : BitVec 32} :
    (entry, value) ∈ (input.batchThreads column p b).flatten ↔
      ∃ i < (input.copyBatch column p b).size / 4,
        entry = (column, (input.copyBatch column p b).dst / 4 + i) ∧
          value = BitVec.ofInt 32 ((input.partition p).offsets
            ((input.copyBatch column p b).src / 4 + i) + (input.copyBatch column p b).valueShift) := by
  unfold batchThreads
  rw [List.mem_flatten]
  constructor
  · rintro ⟨ops, hops, hmem⟩
    obtain ⟨thread, hthread, rfl⟩ := List.mem_map.1 hops
    have hlt := List.mem_range.1 hthread
    unfold copyOffsets at hmem
    obtain ⟨i, hi, heq⟩ := List.mem_map.1 hmem
    obtain ⟨turn, hturn, rfl⟩ := List.mem_range'.1 hi
    obtain ⟨hentry, hvalue⟩ := Prod.mk.inj heq
    exact ⟨thread + 128 * turn, by omega, hentry.symm, hvalue.symm⟩
  · rintro ⟨i, hi, rfl, rfl⟩
    refine ⟨_, List.mem_map_of_mem (List.mem_range.2 (Nat.mod_lt i (by decide))), ?_⟩
    unfold copyOffsets
    refine List.mem_map.2 ⟨i, List.mem_range'.2 ⟨i / 128, by omega, by omega⟩, rfl⟩

/-- A batch has 262144 offsets, and the last one of a partition has the terminating offset where no rows
come behind. -/
theorem lt_batchSize_iff {i : ℕ} (hrows : 0 < input.rows column.1 p) :
    i < (input.copyBatch column.1 p b).size / 4 ↔ i < 262144 ∧
      (262144 * b + i < input.rows column.1 p ∨ 262144 * b + i = input.rows column.1 p ∧
        input.isTerminatingPartition column.1 p) := by
  have hsize : input.srcSize column.1 p = 4 * (input.rows column.1 p + 1) := by
    rw [srcSize_eq, offsetsOf_eq column hrows]
  show i < input.batchBytes column.1 p b / 4 ↔ _
  unfold batchBytes desiredAssembleBatchSize
  dsimp only
  rw [hsize, if_neg (by omega)]
  split_ifs with hend hterminating
  · rw [eq_true hterminating, and_true]
    omega
  · rw [eq_false hterminating, and_false, or_false]
    omega
  · omega

theorem lt_numBatches_iff (hrows : 0 < input.rows column.1 p) :
    b < input.numBatches column.1 p ↔ 262144 * b ≤ input.rows column.1 p := by
  unfold numBatches
  rw [sizeToBatchCount_eq, srcSize_eq, offsetsOf_eq column hrows]
  unfold desiredAssembleBatchSize
  omega

theorem rows_pos_of_batch (h : b < input.numBatches column.1 p) : 0 < input.rows column.1 p := by
  by_contra hzero
  unfold numBatches at h
  rw [sizeToBatchCount_eq, srcSize_eq, offsetsOf_of_rows (Nat.eq_zero_of_not_pos hzero)] at h
  unfold desiredAssembleBatchSize at h
  omega

/-- Where a batch's entry is in the column, and what is written there. -/
theorem copyBatch_entry {i : ℕ} :
    (input.copyBatch column.1 p b).dst / 4 + i =
        exclusiveScan (input.rows column.1) p + (262144 * b + i) ∧
      BitVec.ofInt 32 ((input.partition p).offsets
          ((input.copyBatch column.1 p b).src / 4 + i) + (input.copyBatch column.1 p b).valueShift) =
        input.copiedValue column.1 p (262144 * b + i) := by
  have hdst : (input.copyBatch column.1 p b).dst =
      4 * exclusiveScan (input.rows column.1) p + b * 1048576 := by
    rw [← dstOffset_eq column p]
    rfl
  have hsrc : (input.copyBatch column.1 p b).src =
      4 * exclusiveScan ((input.partition p).offsetsOf input.schema) column.1 + b * 1048576 := by
    rw [← srcOffset_eq]
    rfl
  constructor
  · rw [hdst]
    omega
  · unfold copiedValue Partition.offset
    rw [hsrc]
    refine congrArg (fun k => BitVec.ofInt 32 ((input.partition p).offsets k + _)) ?_
    omega

theorem batchWrites_iff : input.BatchWrites column.1 (p, b) k ↔
    ∃ j, Copied input column.1 p j ∧ j / 262144 = b ∧
      k = exclusiveScan (input.rows column.1) p + j := by
  unfold BatchWrites Copied
  dsimp only
  constructor
  · rintro ⟨hp, hb, value, hmem⟩
    have hrows := rows_pos_of_batch hb
    obtain ⟨i, hi, hentry, -⟩ := mem_batchThreads.1 hmem
    obtain ⟨hlt, hcopied⟩ := (lt_batchSize_iff hrows).1 hi
    rw [copyBatch_entry.1] at hentry
    exact ⟨262144 * b + i, ⟨hp, hrows, hcopied⟩, by omega, (Prod.mk.inj hentry).2⟩
  · rintro ⟨j, ⟨hp, hrows, hcopied⟩, rfl, rfl⟩
    have hj : 262144 * (j / 262144) + j % 262144 = j := Nat.div_add_mod j 262144
    refine ⟨hp, (lt_numBatches_iff hrows).2 (by omega), _,
      mem_batchThreads.2 ⟨j % 262144, (lt_batchSize_iff hrows).2 ⟨?_, ?_⟩, ?_, rfl⟩⟩
    · exact Nat.mod_lt j (by decide)
    · rwa [hj]
    · rw [copyBatch_entry.1, hj]

theorem mem_offsetThreads {value : BitVec 32} :
    ((column.1, k), value) ∈ input.offsetThreads.flatten ↔
      ∃ p j, Copied input column.1 p j ∧ k = exclusiveScan (input.rows column.1) p + j ∧
        value = copiedValue input column.1 p j := by
  unfold offsetThreads
  rw [List.mem_flatten]
  constructor
  · rintro ⟨ops, hops, hmem⟩
    obtain ⟨p, hp, hops⟩ := List.mem_flatMap.1 hops
    obtain ⟨column', -, hops⟩ := List.mem_flatMap.1 hops
    obtain ⟨b, hb, hops⟩ := List.mem_flatMap.1 hops
    obtain ⟨i, hi, hentry, hvalue⟩ :=
      mem_batchThreads.1 (List.mem_flatten.2 ⟨ops, hops, hmem⟩)
    obtain rfl := (Prod.mk.inj hentry).1
    have hrows := rows_pos_of_batch (List.mem_range.1 hb)
    rw [copyBatch_entry.1] at hentry
    rw [copyBatch_entry.2] at hvalue
    exact ⟨p, 262144 * b + i, ⟨List.mem_range.1 hp, hrows, ((lt_batchSize_iff hrows).1 hi).2⟩,
      (Prod.mk.inj hentry).2, hvalue⟩
  · rintro ⟨p, j, ⟨hp, hrows, hcopied⟩, rfl, rfl⟩
    have hcolumn : column.1 < (colInfo input.schema).length := by
      rcases column.2 with h | h
      · exact (List.getElem?_eq_some_iff.1 h).1
      · exact (List.getElem?_eq_some_iff.1 h).1
    have hj : 262144 * (j / 262144) + j % 262144 = j := Nat.div_add_mod j 262144
    have hmem : ((column.1, exclusiveScan (input.rows column.1) p + j),
        copiedValue input column.1 p j) ∈ (input.batchThreads column.1 p (j / 262144)).flatten := by
      refine mem_batchThreads.2
        ⟨j % 262144, (lt_batchSize_iff hrows).2 ⟨Nat.mod_lt j (by decide), by rwa [hj]⟩, ?_, ?_⟩
      · rw [copyBatch_entry.1, hj]
      · rw [copyBatch_entry.2, hj]
    obtain ⟨ops, hops, hmem⟩ := List.mem_flatten.1 hmem
    refine ⟨ops, List.mem_flatMap.2 ⟨p, List.mem_range.2 hp, ?_⟩, hmem⟩
    refine List.mem_flatMap.2 ⟨column.1, List.mem_range.2 hcolumn, ?_⟩
    exact List.mem_flatMap.2 ⟨_, List.mem_range.2 ((lt_numBatches_iff hrows).2 (by omega)), hops⟩

/-! ### Where the rows fit -/

theorem rows_le_totalRows (column : ℕ) (hp : p < input.numPartitions) :
    exclusiveScan (input.rows column) p + input.rows column p ≤ input.totalRows column := by
  rw [totalRows_eq, ← exclusiveScan_succ]
  exact exclusiveScan_mono _ hp

theorem endRow_eq {column : ℕ} (hfits : input.totalRows column < 2 ^ 31)
    (hp : p < input.numPartitions) :
    input.endRow column p = (exclusiveScan (input.rows column) (p + 1) : ℕ) := by
  have hle := rows_le_totalRows column hp
  have hindex : input.rowIndex column p = (exclusiveScan (input.rows column) p : ℕ) :=
    sizeType_of_le (by omega)
  unfold endRow
  rw [hindex, ← Nat.cast_add, sizeType_of_le (by omega), exclusiveScan_succ]

theorem numRows_eq {column : ℕ} (hfits : input.totalRows column < 2 ^ 31) :
    input.numRows column = (input.totalRows column : ℕ) := by
  have hpos := numPartitions_pos input
  unfold numRows
  rw [endRow_eq hfits (by omega), totalRows_eq, Nat.sub_add_cancel hpos]

/-- No rows come behind a terminating partition. -/
theorem isTerminatingPartition_iff {column : ℕ} (hfits : input.totalRows column < 2 ^ 31)
    (hp : p < input.numPartitions) : input.isTerminatingPartition column p ↔
      exclusiveScan (input.rows column) (p + 1) = input.totalRows column := by
  have hlast : input.endRow column (input.numPartitions - 1) = (input.totalRows column : ℕ) :=
    numRows_eq hfits
  unfold isTerminatingPartition
  rw [decide_eq_true_iff, hlast, endRow_eq hfits hp, Nat.cast_inj]

/-- Every entry is that of an offset which is copied. -/
theorem exists_copied {column : ℕ} (hfits : input.totalRows column < 2 ^ 31)
    (hpos : 0 < input.totalRows column) (hk : k ≤ input.totalRows column) :
    ∃ p j, Copied input column p j ∧ k = exclusiveScan (input.rows column) p + j := by
  have htotal := @totalRows_eq input column
  rcases Nat.lt_or_ge k (input.totalRows column) with hlt | hge
  · rw [htotal] at hlt
    obtain ⟨p, hp, j, hj, hk⟩ := exists_segment hlt
    exact ⟨p, j, ⟨hp, by omega, .inl hj⟩, hk⟩
  · -- the partition of the last row is terminating
    obtain ⟨p, hp, j, hj, hlast⟩ := exists_segment (show input.totalRows column - 1 <
      exclusiveScan (input.rows column) input.numPartitions by omega)
    have hle := rows_le_totalRows column hp
    refine ⟨p, input.rows column p, ⟨hp, by omega, .inr ⟨rfl, ?_⟩⟩, by omega⟩
    rw [isTerminatingPartition_iff hfits hp, exclusiveScan_succ]
    omega

/-- An entry is that of one offset only. -/
theorem Copied.unique {column p' j' : ℕ} (hfits : input.totalRows column < 2 ^ 31)
    (h : Copied input column p j) (h' : Copied input column p' j')
    (heq : exclusiveScan (input.rows column) p + j = exclusiveScan (input.rows column) p' + j') :
    p = p' ∧ j = j' := by
  obtain ⟨hp, hrows, hcopied⟩ := h
  obtain ⟨hp', hrows', hcopied'⟩ := h'
  have hle := rows_le_totalRows column hp
  have hle' := rows_le_totalRows column hp'
  rw [isTerminatingPartition_iff hfits hp, exclusiveScan_succ] at hcopied
  rw [isTerminatingPartition_iff hfits hp', exclusiveScan_succ] at hcopied'
  rcases hcopied with hj | ⟨rfl, hterminating⟩
  · rcases hcopied' with hj' | ⟨rfl, hterminating'⟩
    · exact segment_unique hj hj' heq
    · -- the terminating offset is behind all rows
      omega
  · rcases hcopied' with hj' | ⟨rfl, hterminating'⟩
    · omega
    · -- there is one terminating partition with rows
      have hlast : p = p' ∧ input.rows column p - 1 = input.rows column p' - 1 :=
        @segment_unique (input.rows column) _ _ _ _ (by omega) (by omega) (by omega)
      obtain ⟨rfl, -⟩ := hlast
      exact ⟨rfl, rfl⟩

/-! ### The offsets at the end -/

/-- What the entries of a partition should be. -/
def assembledOffset (input : AssembleInput) (column p j : ℕ) : ℕ :=
  exclusiveScan (input.counts column) p +
    ((input.partition p).offset input.schema column j -
      (input.partition p).offset input.schema column 0)

theorem offset_le (hrows : 0 < input.rows column.1 p) {i : ℕ} (hij : i ≤ j)
    (hj : j ≤ input.rows column.1 p) : (input.partition p).offset input.schema column.1 i ≤
      (input.partition p).offset input.schema column.1 j := by
  induction j, hij using Nat.le_induction with
  | base => exact Nat.le_refl _
  | succ j hij ih =>
    refine Nat.le_trans (ih (by omega)) ?_
    refine (wellFormed_partition input p).offset_mono column.1 j ?_
    rw [offsetsOf_eq column hrows]
    omega

theorem assembledOffset_rows (hrows : 0 < input.rows column.1 p) :
    input.assembledOffset column.1 p (input.rows column.1 p) =
      exclusiveScan (input.counts column.1) (p + 1) := by
  unfold assembledOffset
  rw [exclusiveScan_succ, counts_eq, if_pos hrows]

theorem assembledOffset_le (hp : p < input.numPartitions) (hrows : 0 < input.rows column.1 p)
    (hj : j ≤ input.rows column.1 p) :
    input.assembledOffset column.1 p j ≤ input.totalCounts column.1 := by
  calc input.assembledOffset column.1 p j
      ≤ input.assembledOffset column.1 p (input.rows column.1 p) :=
        Nat.add_le_add_left (Nat.sub_le_sub_right (offset_le hrows hj (Nat.le_refl _)) _) _
    _ = exclusiveScan (input.counts column.1) (p + 1) := assembledOffset_rows hrows
    _ ≤ exclusiveScan (input.counts column.1) input.numPartitions := exclusiveScan_mono _ hp
    _ = input.totalCounts column.1 := (totalCounts_eq column).symm

/-- The shift is to the rows or characters in front. -/
theorem offsetShift_eq (hfits : input.totalCounts column.1 < 2 ^ 31)
    (hp : p < input.numPartitions) (hrows : 0 < input.rows column.1 p) :
    input.offsetShift column.1 p = (exclusiveScan (input.counts column.1) p : ℤ) -
      (input.partition p).offset input.schema column.1 0 := by
  have hscan := exclusiveScan_mono (input.counts column.1) (Nat.le_of_lt hp)
  rw [← totalCounts_eq] at hscan
  have hoffset := (wellFormed_partition input p).offset_lt column.1 0
    (by rw [offsetsOf_eq column hrows]; omega)
  have hindex : sizeType (exclusiveScan (input.counts column.1) p) =
      (exclusiveScan (input.counts column.1) p : ℕ) := sizeType_of_le (by omega)
  have hshift : sizeType ((exclusiveScan (input.counts column.1) p : ℤ) -
      (input.partition p).offset input.schema column.1 0) =
        (exclusiveScan (input.counts column.1) p : ℤ) -
          (input.partition p).offset input.schema column.1 0 :=
    Int.bmod_eq_of_le (by omega) (by omega)
  -- the source of the column begins with its first offset
  have hroot : (input.partition p).offsets (input.srcOffset column.1 p / 4) =
      (input.partition p).offset input.schema column.1 0 := by
    unfold Partition.offset
    rw [srcOffset_eq]
    exact congrArg _ (by omega)
  have hsize : input.srcSize column.1 p ≠ 0 := by
    rw [srcSize_eq, offsetsOf_eq column hrows]
    omega
  unfold offsetShift
  rw [if_neg hsize, hroot]
  rw [← hshift, ← hindex]
  rcases column.2 with h | h
  · have htype : input.type column.1 = .leaf .string := by
      unfold type
      rw [List.getD_eq_getElem?_getD, h]
      rfl
    have hcounts : input.counts column.1 = input.chars column.1 := by
      funext p
      unfold counts
      rw [htype]
    rw [htype, hcounts]
    rfl
  · have htype : input.type column.1 = .list := by
      unfold type
      rw [List.getD_eq_getElem?_getD, h]
      rfl
    have hcounts : input.counts column.1 = input.rows (column.1 + 1) := by
      funext p
      unfold counts
      rw [htype]
    rw [htype, hcounts]
    rfl

theorem copiedValue_eq (hfits : input.totalCounts column.1 < 2 ^ 31)
    (hp : p < input.numPartitions) (hrows : 0 < input.rows column.1 p)
    (hj : j ≤ input.rows column.1 p) :
    (input.copiedValue column.1 p j).toInt = input.assembledOffset column.1 p j := by
  have hle := offset_le hrows (Nat.zero_le j) hj
  have hlt := assembledOffset_le hp hrows hj
  have hvalue : (input.partition p).offset input.schema column.1 j + input.offsetShift column.1 p =
      (input.assembledOffset column.1 p j : ℤ) := by
    rw [offsetShift_eq hfits hp hrows]
    unfold assembledOffset
    omega
  unfold copiedValue
  rw [hvalue, BitVec.toInt_ofInt]
  exact Int.bmod_eq_of_le (by omega) (by omega)

section Run

variable {memory : OffsetEntry → BitVec 32}
  {s : Threads (OffsetEntry → BitVec 32) (OffsetEntry × BitVec 32)}

variable (hfit : input.OffsetsFit column.1) (hrun : (lts write (input.kernel memory)).Reachable s)
include hfit hrun

/-- An offset that is copied is there at the end, as no other one is copied to its place. -/
theorem memory_copied (hdone : s.Done) (h : Copied input column.1 p j) :
    s.memory (column.1, exclusiveScan (input.rows column.1) p + j) =
      input.copiedValue column.1 p j := by
  refine hdone.memory_eq hrun (mem_offsetThreads.2 ⟨p, j, h, rfl, rfl⟩) fun value hvalue => ?_
  obtain ⟨p', j', h', heq, rfl⟩ := mem_offsetThreads.1 hvalue
  obtain ⟨rfl, rfl⟩ := h.unique hfit.rows_lt h' heq
  rfl

/-- At the first row of a partition, or behind the last one, there is what was counted before. -/
theorem memory_boundary (hdone : s.Done) (hq : q ≤ input.numPartitions) :
    (s.memory (column.1, exclusiveScan (input.rows column.1) q)).toInt =
      exclusiveScan (input.counts column.1) q := by
  have hle : exclusiveScan (input.rows column.1) q ≤ input.totalRows column.1 := by
    rw [totalRows_eq]
    exact exclusiveScan_mono _ hq
  obtain ⟨p, j, hcopied, hk⟩ := exists_copied hfit.rows_lt hfit.rows_pos hle
  have ⟨hp, hrows, hj⟩ := hcopied
  -- no boundary is inside of the rows of a partition
  have hboundary : j = 0 ∨ j = input.rows column.1 p := by
    rcases Nat.lt_or_ge p q with hpq | hpq
    · have hmono := exclusiveScan_mono (input.rows column.1) (Nat.succ_le_of_lt hpq)
      rw [Nat.succ_eq_add_one, exclusiveScan_succ] at hmono
      omega
    · have hmono := exclusiveScan_mono (input.rows column.1) hpq
      omega
  rw [hk, memory_copied hfit hrun hdone hcopied,
    copiedValue_eq hfit.counts_lt hp hrows (by omega)]
  rcases hboundary with rfl | rfl
  · rw [counts_of_rows_eq (show exclusiveScan (input.rows column.1) q =
      exclusiveScan (input.rows column.1) p from hk)]
    unfold assembledOffset
    rw [Nat.sub_self, Nat.add_zero]
  · rw [← exclusiveScan_succ] at hk
    rw [assembledOffset_rows hrows, counts_of_rows_eq hk]

/-- The entries of a partition, with the one behind its rows. -/
theorem memory_assembled (hdone : s.Done) (hp : p < input.numPartitions)
    (hrows : 0 < input.rows column.1 p) (hj : j ≤ input.rows column.1 p) :
    (s.memory (column.1, exclusiveScan (input.rows column.1) p + j)).toInt =
      input.assembledOffset column.1 p j := by
  rcases Nat.lt_or_eq_of_le hj with hlt | rfl
  · rw [memory_copied hfit hrun hdone ⟨hp, hrows, .inl hlt⟩]
    exact copiedValue_eq hfit.counts_lt hp hrows hj
  · rw [← exclusiveScan_succ, memory_boundary hfit hrun hdone hp, assembledOffset_rows hrows]

theorem memory_nondecreasing (hdone : s.Done) (hk : k < input.totalRows column.1) :
    (s.memory (column.1, k)).toInt ≤ (s.memory (column.1, k + 1)).toInt := by
  rw [totalRows_eq] at hk
  obtain ⟨p, hp, j, hj, rfl⟩ := exists_segment hk
  have hrows : 0 < input.rows column.1 p := by omega
  have hle := offset_le hrows (Nat.le_succ j) hj
  rw [Nat.add_assoc, memory_assembled hfit hrun hdone hp hrows (Nat.le_of_lt hj),
    memory_assembled hfit hrun hdone hp hrows hj]
  exact Int.ofNat_le.2 (Nat.add_le_add_left (Nat.sub_le_sub_right hle _) _)

end Run

theorem OffsetsFit.offsetsWritten (hfit : input.OffsetsFit column.1) :
    input.OffsetsWritten column.1 where
  numRows := numRows_eq hfit.rows_lt
  once := by
    intro k hk
    obtain ⟨p, j, hcopied, rfl⟩ := exists_copied hfit.rows_lt hfit.rows_pos hk
    refine ⟨(p, j / 262144), batchWrites_iff.2 ⟨j, hcopied, rfl, rfl⟩, ?_⟩
    rintro ⟨p', b'⟩ hwrites
    obtain ⟨j', hcopied', rfl, heq⟩ := batchWrites_iff.1 hwrites
    obtain ⟨rfl, rfl⟩ := hcopied.unique hfit.rows_lt hcopied' heq
    rfl
  first := by
    intro memory s hrun hdone
    exact memory_boundary hfit hrun hdone (Nat.zero_le _)
  nondecreasing := fun memory s hrun hdone k hk => memory_nondecreasing hfit hrun hdone hk
  last := by
    intro memory s hrun hdone
    rw [totalRows_eq, totalCounts_eq]
    exact memory_boundary hfit hrun hdone (Nat.le_refl _)

theorem OffsetsWritten.offsetsFit (h : input.OffsetsWritten column.1) :
    input.OffsetsFit column.1 where
  rows_pos := by
    -- an entry is written only for a partition with rows
    obtain ⟨⟨p, b⟩, ⟨hp, hb, -⟩, -⟩ := h.once 0 (Nat.zero_le _)
    have hle := rows_le_totalRows column.1 hp
    have hrows := rows_pos_of_batch hb
    omega
  rows_lt := by
    have hlt := @Int.bmod_lt (input.rowIndex column.1 (input.numPartitions - 1) +
      input.rows column.1 (input.numPartitions - 1)) (2 ^ 32) (by decide)
    have hrows := h.numRows
    unfold AssembleInput.numRows endRow sizeType at hrows
    rw [hrows] at hlt
    omega
  counts_lt := by
    -- a run goes to its end, and an entry is a number of a `size_type`
    obtain ⟨s, hrun, hdone⟩ := @exists_done_of_total _ _ write (input.kernel fun _ => 0)
      (fun memory op => ⟨_, rfl⟩)
    have hlast := h.last _ s hrun hdone
    have hlt := (s.memory (column.1, input.totalRows column.1)).toInt_lt
    rw [hlast] at hlt
    omega

/-- The offsets of a column are all written exactly where the column has rows, and not more rows,
characters or rows of its child than a `size_type` has. -/
theorem offsetsWritten_iff (input : AssembleInput) (column : input.OffsetColumn) :
    input.OffsetsWritten column.1 ↔ input.OffsetsFit column.1 :=
  ⟨fun h => h.offsetsFit, fun h => h.offsetsWritten⟩

/-- A row with an empty list of strings. -/
def emptyList : Partition where
  numRows := 1
  rowIndex := 0
  offsets _ := 0

def emptyListInput : AssembleInput where
  schema := [.list () (.leaf .string ())]
  partitions := [emptyList]
  wellFormed := by
    intro partition hmem
    obtain rfl := List.mem_singleton.1 hmem
    refine ⟨fun _ _ _ => Nat.le_refl _, fun _ _ _ => ?_, ?_⟩
    · show 0 < 2 ^ 31
      decide
    · decide
  nonempty := ⟨emptyList, List.mem_singleton.2 rfl, by decide⟩

/-- There are no strings, and no one writes their offset. -/
theorem not_offsetsWritten_emptyList :
    ¬∀ column : emptyListInput.OffsetColumn, emptyListInput.OffsetsWritten column.1 := by
  intro h
  have hrows := (h ⟨1, .inl rfl⟩).offsetsFit.rows_pos
  exact absurd hrows (by decide)

end Column

end AssembleInput

end SparkRapids.ShuffleAssemble
