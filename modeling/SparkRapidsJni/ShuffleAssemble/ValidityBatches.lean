import SparkRapidsJni.RowConversion.Layout
import SparkRapidsJni.ShuffleAssemble.CopyValidity

/-!
# `shuffle_assemble.cu`: the validity batches of a column instance

`assemble_build_buffers` cuts the validity of a column instance into batches of 1 MB, one for each
block of `copy_validity`. How many there are comes from the size of the source buffer, which has the
bits before the first row as well. How many rows a batch has is an unsigned difference of row numbers.

So there can be a batch behind the last row. Where the last row is not the last one of its batch, the
difference wraps around, and the batch has all the rows a batch can have (`partitionsRows_iff`).
-/

namespace SparkRapids.ShuffleAssemble

open Barriers
open RowConversion (roundUp)

/-! ### The code -/

/-- The value of a `size_type`: it wraps around. -/
def sizeType (n : Int) : Int := n.bmod (2 ^ 32)

/-- The value of a `size_t`. -/
def sizeT (n : Int) : ℕ := (n % 2 ^ 64).toNat

/-- `bitmask_allocation_size_bytes`, without a pad. -/
def bitmaskAllocationSizeBytes (numberOfBits : Int) : ℕ :=
  sizeT ((sizeType (numberOfBits + 7)).tdiv 8)

/-- `desired_assemble_batch_size` -/
def desiredAssembleBatchSize : ℕ := 1 * 1024 * 1024

/-- `size_to_batch_count` -/
def sizeToBatchCount (bytes : ℕ) : ℕ :=
  roundUp bytes desiredAssembleBatchSize / desiredAssembleBatchSize

/-- `validity_rows_per_batch` -/
def validityRowsPerBatch : ℕ := desiredAssembleBatchSize * 8

/-- The rows of a column instance, in a column that has validity. The instance may have none: then its
rows are all valid. The rows of the column are numbers of a `size_type`. -/
structure ColumnInstance where
  hasValidity : Bool
  numRows : ℕ
  srcRowIndex : ℕ
  rowIndex : ℕ
  numRows_pos : 0 < numRows
  fits : rowIndex + numRows < 2 ^ 31

/-- `assemble_batch`, of a validity buffer. The source is relative to the buffer of the instance, and the
destination to the one of the column. -/
structure AssembleBatch where
  src : Option ℕ
  dst : ℕ
  size : ℕ
  srcBitShift : ℕ
  dstBitShift : ℕ
  validityRowCount : Int
  srcBitShift_lt : srcBitShift < 8
  dstBitShift_lt : dstBitShift < 32
  rowCount_le : validityRowCount ≤ validityRowsPerBatch

/-- What `copy_validity` gets of it, for a source at an address. -/
def AssembleBatch.validityBatch (b : AssembleBatch) (address : ℕ) (bytes : ℕ → Byte) :
    ValidityBatch where
  src := b.src.map fun src => (address + src, fun i => bytes (src + i))
  srcBitShift := b.srcBitShift
  dstBitShift := b.dstBitShift
  validityRowCount := b.validityRowCount.toNat
  srcBitShift_lt := b.srcBitShift_lt
  dstBitShift_lt := b.dstBitShift_lt
  rowCount_lt := by
    have hle := b.rowCount_le
    unfold validityRowsPerBatch desiredAssembleBatchSize at hle
    omega

theorem sizeType_of_le {n : ℕ} (h : n < 2 ^ 31) : sizeType n = n :=
  Int.bmod_eq_of_le (by omega) (by omega)

namespace ColumnInstance

variable (inst : ColumnInstance)

/-- `validity_size` -/
def validitySize : ℕ :=
  if 0 < inst.numRows then
    bitmaskAllocationSizeBytes (sizeType (inst.numRows + (inst.srcRowIndex % 8 : ℕ)))
  else 0

/-- `batch_src_buf_size` -/
def batchSrcBufSize : ℕ :=
  if inst.hasValidity then inst.validitySize else bitmaskAllocationSizeBytes inst.numRows

/-- How many validity batches there are. -/
def numBatches : ℕ := sizeToBatchCount inst.batchSrcBufSize

/-- `validity_row_count`, which is a `size_t` first. -/
def validityRowCount (batchIndex : ℕ) : ℕ :=
  let validityBatchRowIndex := batchIndex * validityRowsPerBatch
  min (sizeT (inst.numRows - validityBatchRowIndex : ℤ)) validityRowsPerBatch

/-- `copy_batches`, of the validity. -/
def copyBatch (batchIndex : ℕ) : AssembleBatch :=
  let batchOffset := batchIndex * desiredAssembleBatchSize
  let dstOffset := inst.rowIndex / 32 * 4
  { src := if inst.hasValidity then some batchOffset else none
    dst := dstOffset + batchOffset
    size := min (inst.batchSrcBufSize - batchOffset) desiredAssembleBatchSize
    srcBitShift := inst.srcRowIndex % 8
    dstBitShift := inst.rowIndex % 32
    validityRowCount := sizeType (inst.validityRowCount batchIndex)
    srcBitShift_lt := Nat.mod_lt _ (by decide)
    dstBitShift_lt := Nat.mod_lt _ (by decide)
    rowCount_le := by
      have hle : inst.validityRowCount batchIndex ≤ validityRowsPerBatch := Nat.min_le_right _ _
      rw [sizeType_of_le]
      · exact Int.ofNat_le.2 hle
      · exact Nat.lt_of_le_of_lt hle (by decide) }

end ColumnInstance

/-! ### What a batch addresses -/

/-- How many bytes `load_word` reads. -/
def loadedBytes (numBits : ℕ) : ℕ :=
  if 24 < numBits then 4 else if 16 < numBits then 3 else if 8 < numBits then 2 else 1

/-- The bytes of the source that an access reads. -/
def Op.sourceBytes (batch : ValidityBatch) : Op → List ℕ
  | .loadLeading => List.range (loadedBytes (batch.validityRowCount + batch.srcBitShift))
  | .load _ srcWordIndex numRows =>
    List.range' (batch.leadingBytes + 4 * srcWordIndex) (loadedBytes numRows)
  | _ => []

/-- The word of the destination that an access reads or writes. -/
def Op.dstWord (m : BlockState) : Op → Option ℕ
  | .orLeading => some 0
  | .orOverflow => if m.prevWord 0 ≠ 0 then some 1 else none
  | .atomicOr _ i => some i
  | .assign _ i => some i
  | _ => none

/-- `copy_validity` reads a byte of the source. -/
def AddressesByte (batch : ValidityBatch) (p : ℕ) : Prop :=
  batch.src.isSome ∧ ∃ phase ∈ phases batch, ∃ op ∈ phase.flatten, p ∈ op.sourceBytes batch

/-- In some run, a thread of `copy_validity` comes to an access to a word of the destination. -/
def AddressesWord (batch : ValidityBatch) (k : ℕ) : Prop :=
  ∃ (start : BlockState) (s : Barriers BlockState Op) (thread : ℕ) (op : Op) (ops : List Op),
    (lts (runOp batch) start (phases batch)).Reachable s ∧
      s.current.pending[thread]? = some (op :: ops) ∧ op.dstWord s.current.memory = some k

/-! ### What the batches should be -/

/-- The validity batches of an instance have its rows, one behind the other, and address nothing behind
the validity buffer of the instance, or behind the word of its last row. -/
structure PartitionsRows (inst : ColumnInstance) : Prop where
  nonneg : ∀ b < inst.numBatches, 0 ≤ (inst.copyBatch b).validityRowCount
  sum : ∑ b ∈ Finset.range inst.numBatches, (inst.copyBatch b).validityRowCount = inst.numRows
  rows : ∀ b < inst.numBatches,
    b * validityRowsPerBatch + (inst.copyBatch b).validityRowCount ≤ inst.numRows
  source : ∀ b < inst.numBatches, ∀ src, (inst.copyBatch b).src = some src →
    8 * src + (inst.copyBatch b).srcBitShift = inst.srcRowIndex % 8 + b * validityRowsPerBatch ∧
      ∀ address bytes p, AddressesByte ((inst.copyBatch b).validityBatch address bytes) p →
        src + p < (inst.numRows + inst.srcRowIndex % 8 + 7) / 8
  destination : ∀ b < inst.numBatches,
    8 * (inst.copyBatch b).dst + (inst.copyBatch b).dstBitShift =
      inst.rowIndex + b * validityRowsPerBatch ∧
      ∀ address bytes k, AddressesWord ((inst.copyBatch b).validityBatch address bytes) k →
        (inst.copyBatch b).dst / 4 + k ≤ (inst.rowIndex + inst.numRows - 1) / 32

/-- The bits before the first row, as they count for the number of batches. -/
def ColumnInstance.leadingBits (inst : ColumnInstance) : ℕ :=
  if inst.hasValidity then inst.srcRowIndex % 8 else 0

/-- The last rows and the bits before the first row do not go over a batch, and the number of bits is
an `int`. Where the rows fill their batches, there are no such bits, or the last row is not the last
one of its word. -/
structure RowsFit (inst : ColumnInstance) : Prop where
  bits : inst.numRows + inst.leadingBits + 7 < 2 ^ 31
  last : 0 < inst.numRows % validityRowsPerBatch →
    inst.numRows % validityRowsPerBatch + inst.leadingBits ≤ validityRowsPerBatch
  whole : inst.numRows % validityRowsPerBatch = 0 → inst.leadingBits = 0 ∨ inst.rowIndex % 32 ≠ 0

/-! ### The accesses of the kernel -/

section Addresses

variable {batch : ValidityBatch} {p k : ℕ}

theorem loadedBytes_le (numBits : ℕ) : loadedBytes numBits ≤ max 1 ((numBits + 7) / 8) := by
  unfold loadedBytes
  split_ifs <;> omega

/-- Only the bytes with bits of the rows are read, and at least one byte. -/
theorem AddressesByte.lt (h : AddressesByte batch p) :
    p < max 1 ((batch.srcBitShift + batch.validityRowCount + 7) / 8) := by
  obtain ⟨-, phase, hphase, op, hop, hp⟩ := h
  have hloaded := loadedBytes_le (batch.validityRowCount + batch.srcBitShift)
  have hleading : p ∈ Op.sourceBytes batch .loadLeading →
      p < max 1 ((batch.srcBitShift + batch.validityRowCount + 7) / 8) := by
    intro hp
    have hlt := List.mem_range.1 hp
    omega
  by_cases hremaining : batch.remainingRows = 0
  · unfold phases at hphase
    rw [if_pos hremaining] at hphase
    rw [List.mem_singleton.1 hphase] at hop
    rcases List.mem_cons.1 hop with rfl | hop
    · exact hleading hp
    · have hops : op ∈ [.shareLeading, .orLeading, .orOverflow, .addValidCount] := hop
      simp only [List.mem_cons, List.not_mem_nil, or_false] at hops
      rcases hops with rfl | rfl | rfl | rfl <;> exact absurd hp List.not_mem_nil
  · rcases mem_phases hremaining hphase hop with hop | hop | rfl
    · simp only [List.mem_cons, List.not_mem_nil, or_false] at hop
      rcases hop with rfl | rfl | rfl | rfl | rfl
      · exact hleading hp
      all_goals exact absurd hp List.not_mem_nil
    · cases hop with
      | @load t w hw =>
        -- a word of the loop starts behind the leading bytes
        have hbits := batch.srcBitShift_add_leadingRows (Nat.pos_of_ne_zero hremaining)
        have hloaded := loadedBytes_le (min (batch.remainingRows - 32 * w) 32)
        have hle := batch.leadingRows_le
        have hlt := (List.mem_range'_1.1 hp).2
        unfold ValidityBatch.remainingWords at hw
        unfold ValidityBatch.remainingRows at *
        omega
      | share t => exact absurd hp List.not_mem_nil
      | combine t => exact absurd hp List.not_mem_nil
      | carry t => exact absurd hp List.not_mem_nil
      | @store t i hi =>
        unfold storeWord at hp
        split_ifs at hp <;> exact absurd hp List.not_mem_nil
    · unfold storeWord at hp
      split_ifs at hp <;> exact absurd hp List.not_mem_nil

theorem dstWord_storeWord {m : BlockState} {t i : ℕ}
    (h : (storeWord batch t i).dstWord m = some k) : k = i := by
  unfold storeWord at h
  split_ifs at h <;> exact (Option.some.inj h).symm

/-- Where the leading rows have bits in the second word, there are rows in it. -/
theorem orOverflow_le {start : BlockState}
    (h : Op.dstWord (leadingState batch start) .orOverflow = some k) :
    k ≤ (batch.dstBitShift + batch.validityRowCount - 1) / 32 := by
  have hle := batch.leadingRows_le
  unfold Op.dstWord at h
  split_ifs at h with hne
  obtain rfl := Option.some.inj h
  by_contra hlt
  refine hne (BitVec.eq_of_getLsbD_eq fun j hj => ?_)
  rw [getLsbD_overflow, decide_eq_false (by omega), Bool.false_and]
  exact BitVec.getLsbD_zero.symm

/-- Only the words of the rows are written, and the first one. -/
theorem AddressesWord.le (h : AddressesWord batch k) :
    k ≤ (batch.dstBitShift + batch.validityRowCount - 1) / 32 := by
  obtain ⟨start, s, thread, op, ops, hrun, hop, hk⟩ := h
  by_cases hremaining : batch.remainingRows = 0
  · -- only thread 0 has accesses, and its overflow depends on the ones before
    have hphases : phases batch =
        [[[.loadLeading, .shareLeading, .orLeading, .orOverflow, .addValidCount]]] := if_pos hremaining
    rw [hphases] at hrun
    obtain ⟨before, hsplit, hmemory⟩ := single_thread hrun hop
    rw [hmemory] at hk
    rcases before with _ | ⟨a, _ | ⟨b, _ | ⟨c, _ | ⟨d, before⟩⟩⟩⟩
    · obtain ⟨rfl, -⟩ := List.cons.inj hsplit
      simp [Op.dstWord] at hk
    · simp only [List.cons_append, List.nil_append, List.cons.injEq] at hsplit
      obtain ⟨-, rfl, -⟩ := hsplit
      simp [Op.dstWord] at hk
    · simp only [List.cons_append, List.nil_append, List.cons.injEq] at hsplit
      obtain ⟨-, -, rfl, -⟩ := hsplit
      obtain rfl := Option.some.inj hk
      exact Nat.zero_le _
    · simp only [List.cons_append, List.nil_append, List.cons.injEq] at hsplit
      obtain ⟨rfl, rfl, rfl, rfl, -⟩ := hsplit
      exact orOverflow_le hk
    · simp only [List.cons_append, List.cons.injEq] at hsplit
      obtain ⟨-, -, -, -, hsplit⟩ := hsplit
      obtain rfl : op = .addValidCount := by
        rcases before with _ | ⟨e, before⟩
        · exact (List.cons.inj hsplit).1.symm
        · have hlen := congrArg List.length hsplit
          simp at hlen
      simp [Op.dstWord] at hk
  · have hbounds := lastWordIndex_bounds (Nat.pos_of_ne_zero hremaining)
    have hmem : op ∈ s.current.pending.flatten := by
      refine List.mem_flatten.2 ⟨_, List.mem_of_getElem? hop, List.mem_cons_self ..⟩
    obtain ⟨phase, hphase, hop⟩ := (mem_pending hrun).1 op hmem
    rcases mem_phases hremaining hphase hop with hop | hop | rfl
    · simp only [List.mem_cons, List.not_mem_nil, or_false] at hop
      rcases hop with rfl | rfl | rfl | rfl | rfl
      · simp [Op.dstWord] at hk
      · simp [Op.dstWord] at hk
      · obtain rfl := Option.some.inj hk
        exact Nat.zero_le _
      · simp [Op.dstWord] at hk
      · simp [Op.dstWord] at hk
    · cases hop with
      | load h => simp [Op.dstWord] at hk
      | share t => simp [Op.dstWord] at hk
      | combine t => simp [Op.dstWord] at hk
      | carry t => simp [Op.dstWord] at hk
      | store hi =>
        obtain rfl := dstWord_storeWord hk
        have hle := le_lastWordIndex hi
        omega
    · obtain rfl := dstWord_storeWord hk
      omega

/-- The first word is always written. -/
theorem addressesWord_zero (batch : ValidityBatch) : AddressesWord batch 0 := by
  have hfirst : ∃ rest later, phases batch =
      [.loadLeading :: .shareLeading :: .orLeading :: rest] :: later := by
    unfold phases
    split_ifs
    · exact ⟨_, _, rfl⟩
    · exact ⟨[], _, rfl⟩
  obtain ⟨rest, later, hphases⟩ := hfirst
  let start : BlockState := ⟨fun _ => 0, 0, fun _ => 0, fun _ => 0, fun _ => 0, fun _ => 0, 0⟩
  -- thread 0 goes to its first access to the destination
  have hinit : (lts (runOp batch) start (phases batch)).Reachable
      ⟨⟨start, []⟩, [.loadLeading :: .shareLeading :: .orLeading :: rest] :: later⟩ :=
    .init (by rw [hphases]; rfl)
  have hbarrier := hinit.step (.barrier (fun ops h => absurd h List.not_mem_nil))
  have hload := hbarrier.step (.thread (i := 0) ⟨_, _, _, rfl, rfl, rfl⟩)
  have hshare := hload.step (.thread (i := 0) ⟨_, _, _, rfl, rfl, rfl⟩)
  exact ⟨start, _, 0, .orLeading, rest, hshare, rfl, rfl⟩

end Addresses

/-! ### How many batches there are -/

section Sizes

variable {inst : ColumnInstance} {b n : ℕ}

theorem sizeT_natCast (h : n < 2 ^ 64) : sizeT n = n := by
  unfold sizeT
  omega

theorem bitmaskAllocationSizeBytes_of_lt (h : n + 7 < 2 ^ 31) :
    bitmaskAllocationSizeBytes n = (n + 7) / 8 := by
  have hsum : sizeType ((n : ℤ) + 7) = ((n + 7 : ℕ) : ℤ) := sizeType_of_le h
  unfold bitmaskAllocationSizeBytes
  rw [hsum]
  show sizeT (((n + 7 : ℕ) : ℤ).tdiv ((8 : ℕ) : ℤ)) = _
  rw [← Int.ofNat_tdiv, sizeT_natCast (by omega)]

/-- Where the number of bits is no `int`, the size is beyond all buffers. -/
theorem bitmaskAllocationSizeBytes_of_ge (h : 2 ^ 31 ≤ n + 7) (hlt : n < 2 ^ 31 + 7) :
    2 ^ 63 ≤ bitmaskAllocationSizeBytes (sizeType n) := by
  have hsum : sizeType (sizeType n + 7) = (n : ℤ) + 7 - 2 ^ 32 := by
    unfold sizeType
    rw [Int.bmod_add_bmod, Int.bmod_def]
    norm_num
    omega
  have htdiv : ((n : ℤ) + 7 - 2 ^ 32).tdiv 8 = -(((2 ^ 32 - 7 - n) / 8 : ℕ) : ℤ) := by
    have hneg : (n : ℤ) + 7 - 2 ^ 32 = -((2 ^ 32 - 7 - n : ℕ) : ℤ) := by omega
    rw [hneg, Int.neg_tdiv]
    rfl
  unfold bitmaskAllocationSizeBytes
  rw [hsum, htdiv]
  unfold sizeT
  omega

theorem sizeToBatchCount_eq (bytes : ℕ) :
    sizeToBatchCount bytes = (bytes + (desiredAssembleBatchSize - 1)) / desiredAssembleBatchSize := by
  unfold sizeToBatchCount roundUp desiredAssembleBatchSize
  split_ifs <;> omega

theorem leadingBits_lt (inst : ColumnInstance) : inst.leadingBits < 8 := by
  unfold ColumnInstance.leadingBits
  split_ifs
  · exact Nat.mod_lt _ (by decide)
  · decide

theorem batchSrcBufSize_eq (inst : ColumnInstance) : inst.batchSrcBufSize =
    bitmaskAllocationSizeBytes (sizeType ((inst.numRows + inst.leadingBits : ℕ) : ℤ)) := by
  have hfits := inst.fits
  unfold ColumnInstance.batchSrcBufSize ColumnInstance.validitySize ColumnInstance.leadingBits
  split_ifs with hvalidity
  · rfl
  · exact absurd inst.numRows_pos (by assumption)
  · rw [Nat.add_zero, sizeType_of_le (by omega)]

theorem numBatches_eq (h : inst.numRows + inst.leadingBits + 7 < 2 ^ 31) : inst.numBatches =
    (inst.numRows + inst.leadingBits + (validityRowsPerBatch - 1)) / validityRowsPerBatch := by
  unfold ColumnInstance.numBatches
  rw [batchSrcBufSize_eq, sizeType_of_le (by omega), bitmaskAllocationSizeBytes_of_lt h,
    sizeToBatchCount_eq]
  unfold validityRowsPerBatch desiredAssembleBatchSize
  omega

theorem lt_numBatches_of_ge (h : 2 ^ 31 ≤ inst.numRows + inst.leadingBits + 7) :
    257 < inst.numBatches := by
  have hfits := inst.fits
  have hlt := leadingBits_lt inst
  have hsize := bitmaskAllocationSizeBytes_of_ge h (by omega)
  unfold ColumnInstance.numBatches
  rw [batchSrcBufSize_eq, sizeToBatchCount_eq]
  unfold desiredAssembleBatchSize
  omega

/-! ### The rows of a batch -/

theorem validityRowCount_of_le (h : b * validityRowsPerBatch ≤ inst.numRows) :
    inst.validityRowCount b = min (inst.numRows - b * validityRowsPerBatch) validityRowsPerBatch := by
  have hfits := inst.fits
  have hsub : (inst.numRows : ℤ) - (b * validityRowsPerBatch : ℕ) =
      ((inst.numRows - b * validityRowsPerBatch : ℕ) : ℤ) := by omega
  unfold ColumnInstance.validityRowCount
  dsimp only
  rw [hsub, sizeT_natCast (by omega)]

/-- Behind the last row, the difference wraps around. -/
theorem validityRowCount_of_lt (h : inst.numRows < b * validityRowsPerBatch)
    (hb : b * validityRowsPerBatch < 2 ^ 63) : inst.validityRowCount b = validityRowsPerBatch := by
  refine Nat.min_eq_right ?_
  unfold sizeT validityRowsPerBatch desiredAssembleBatchSize at *
  omega

theorem copyBatch_validityRowCount (inst : ColumnInstance) (b : ℕ) :
    (inst.copyBatch b).validityRowCount = (inst.validityRowCount b : ℤ) := by
  have hle : inst.validityRowCount b ≤ validityRowsPerBatch := Nat.min_le_right _ _
  have hlt : inst.validityRowCount b < 2 ^ 31 := Nat.lt_of_le_of_lt hle (by decide)
  unfold ColumnInstance.copyBatch
  dsimp only
  rw [sizeType_of_le hlt]

/-- No batch of a partition starts behind the last row. -/
theorem PartitionsRows.le (h : PartitionsRows inst) (hb : b < inst.numBatches) (hlt : b < 2 ^ 32) :
    b * validityRowsPerBatch ≤ inst.numRows := by
  by_contra hgt
  rw [Nat.not_le] at hgt
  have hrows := h.rows b hb
  have hbound : b * validityRowsPerBatch < 2 ^ 63 := by
    unfold validityRowsPerBatch desiredAssembleBatchSize
    omega
  rw [copyBatch_validityRowCount, validityRowCount_of_lt hgt hbound] at hrows
  omega

theorem sum_validityRowCount {m : ℕ} (h : ∀ b < m, b * validityRowsPerBatch ≤ inst.numRows) :
    ∑ b ∈ Finset.range m, (inst.copyBatch b).validityRowCount =
      (min inst.numRows (m * validityRowsPerBatch) : ℕ) := by
  induction m with
  | zero =>
    rw [Nat.zero_mul, Nat.min_zero]
    rfl
  | succ m ih =>
    have hm := h m (Nat.lt_succ_self m)
    rw [Finset.sum_range_succ, ih fun b hb => h b (Nat.lt_succ_of_lt hb), copyBatch_validityRowCount,
      validityRowCount_of_le hm, Nat.succ_mul]
    omega

end Sizes

/-! ### When the batches partition the rows -/

section Partition

variable {inst : ColumnInstance} {b : ℕ}

theorem PartitionsRows.rowsFit (h : PartitionsRows inst) : RowsFit inst := by
  have hfits := inst.fits
  have hbits : inst.numRows + inst.leadingBits + 7 < 2 ^ 31 := by
    by_contra hge
    have hle := h.le (lt_numBatches_of_ge (Nat.not_lt.1 hge)) (by decide)
    unfold validityRowsPerBatch desiredAssembleBatchSize at hle
    omega
  have hnum := numBatches_eq hbits
  refine ⟨hbits, fun hpos => ?_, fun hzero => ?_⟩
  · -- otherwise there is a batch behind the one of the last row
    by_contra hgt
    have hle := @PartitionsRows.le inst (inst.numRows / validityRowsPerBatch + 1) h
      (by unfold validityRowsPerBatch desiredAssembleBatchSize at *; omega)
      (by unfold validityRowsPerBatch desiredAssembleBatchSize; omega)
    unfold validityRowsPerBatch desiredAssembleBatchSize at *
    omega
  · -- otherwise there is a batch without rows, and its word is behind the last row
    by_contra hnot
    obtain ⟨hleading, hword⟩ := not_or.1 hnot
    have hbatch : inst.numRows / validityRowsPerBatch < inst.numBatches := by
      unfold validityRowsPerBatch desiredAssembleBatchSize at *
      omega
    have hlast := (h.destination _ hbatch).2 0 (fun _ => 0) 0 (addressesWord_zero _)
    unfold ColumnInstance.copyBatch at hlast
    dsimp only at hlast
    have hpos := inst.numRows_pos
    unfold validityRowsPerBatch desiredAssembleBatchSize at *
    omega

/-- Where the rows fit, every batch starts with a row, but for one behind the rows that has none, and
is in the word of the last row. -/
theorem RowsFit.le (h : RowsFit inst) (hb : b < inst.numBatches) :
    b * validityRowsPerBatch ≤ inst.numRows ∧
      b * validityRowsPerBatch < inst.numRows + inst.leadingBits ∧
        (b * validityRowsPerBatch = inst.numRows → inst.rowIndex % 32 ≠ 0) := by
  have hlt := leadingBits_lt inst
  rw [numBatches_eq h.bits] at hb
  rcases Nat.eq_zero_or_pos (inst.numRows % validityRowsPerBatch) with hzero | hpos
  · have hwhole := h.whole hzero
    unfold validityRowsPerBatch desiredAssembleBatchSize at *
    omega
  · have hlast := h.last hpos
    unfold validityRowsPerBatch desiredAssembleBatchSize at *
    omega

theorem RowsFit.partitionsRows (h : RowsFit inst) : PartitionsRows inst := by
  have hle : ∀ b < inst.numBatches, b * validityRowsPerBatch ≤ inst.numRows := fun b hb => (h.le hb).1
  have hcount : ∀ b < inst.numBatches, (inst.copyBatch b).validityRowCount =
      (min (inst.numRows - b * validityRowsPerBatch) validityRowsPerBatch : ℕ) := by
    intro b hb
    rw [copyBatch_validityRowCount, validityRowCount_of_le (hle b hb)]
  -- no count is negative, they add up, they follow each other, and no access is out of range
  refine ⟨fun b hb => ?_, ?_, fun b hb => ?_, fun b hb src hsrc => ?_, fun b hb => ?_⟩
  · rw [hcount b hb]
    exact Int.natCast_nonneg _
  · rw [sum_validityRowCount hle, Nat.min_eq_left]
    rw [numBatches_eq h.bits]
    unfold validityRowsPerBatch desiredAssembleBatchSize
    omega
  · have hb' := hle b hb
    rw [hcount b hb]
    omega
  · have hvalidity : inst.hasValidity = true ∧ b * desiredAssembleBatchSize = src := by
      unfold ColumnInstance.copyBatch at hsrc
      dsimp only at hsrc
      split_ifs at hsrc with hvalidity
      exact ⟨hvalidity, Option.some.inj hsrc⟩
    obtain ⟨hvalidity, rfl⟩ := hvalidity
    have hbits : inst.leadingBits = inst.srcRowIndex % 8 := if_pos hvalidity
    constructor
    · unfold ColumnInstance.copyBatch validityRowsPerBatch desiredAssembleBatchSize
      dsimp only
      omega
    · intro address bytes p hp
      have hlt := hp.lt
      have hbefore := h.le hb
      have hrows := hcount b hb
      unfold AssembleBatch.validityBatch at hlt
      dsimp only at hlt
      rw [hrows, Int.toNat_natCast] at hlt
      unfold ColumnInstance.copyBatch at hlt
      dsimp only at hlt
      unfold validityRowsPerBatch desiredAssembleBatchSize at *
      omega
  · constructor
    · unfold ColumnInstance.copyBatch validityRowsPerBatch desiredAssembleBatchSize
      dsimp only
      omega
    · intro address bytes k hk
      have hle := hk.le
      have hbefore := h.le hb
      have hrows := hcount b hb
      have hpos := inst.numRows_pos
      unfold AssembleBatch.validityBatch at hle
      dsimp only at hle
      rw [hrows, Int.toNat_natCast] at hle
      unfold ColumnInstance.copyBatch at hle ⊢
      dsimp only at hle ⊢
      unfold validityRowsPerBatch desiredAssembleBatchSize at *
      omega

/-- The validity batches of an instance partition its rows exactly where the rows fit. -/
theorem partitionsRows_iff (inst : ColumnInstance) : PartitionsRows inst ↔ RowsFit inst :=
  ⟨fun h => h.rowsFit, fun h => h.partitionsRows⟩

/-- A row less than a batch has, behind two bits of other rows. -/
def misalignedRows : ColumnInstance where
  hasValidity := true
  numRows := 8388607
  srcRowIndex := 2
  rowIndex := 0
  numRows_pos := by decide
  fits := by decide

/-- The second batch has 8388608 rows, from row 8388608 on. -/
theorem not_partitionsRows_misalignedRows : ¬PartitionsRows misalignedRows := by
  intro h
  have hlast := h.rowsFit.last
  unfold ColumnInstance.leadingBits misalignedRows at hlast
  unfold validityRowsPerBatch desiredAssembleBatchSize at hlast
  norm_num at hlast

end Partition

end SparkRapids.ShuffleAssemble
