import SparkRapidsJni.Kudo.ValidityMerged
import SparkRapidsJni.Kudo.Writer

/-!
# Runs of a `ValidityBufferMerger`

A merger is used for a sequence of operations, in any order: a copy of the validity of a slice, or
rows that are all valid. After each of them the destination starts with the validity of all rows so
far (`runOps_exact`), whatever the destination held before.

Two `int`s of the code bound what it can copy: the index of a slice's last row, and the position in
the source. `runOps_wraps` shows what happens behind them.
-/

namespace SparkRapids.Kudo

open Bytes HostMemoryBuffer

namespace ValidityBufferMerger

/-- The operations on a merger. -/
inductive Op where
  | copyValidityBuffer (src : List Byte) (srcOffset : Nat) (sliceInfo : SliceInfo)
  | appendAllValid (numRows : Int)

namespace Op

/-- The merger after an operation, and the null count that a copy returns. -/
def run (m : ValidityBufferMerger) : Op → Except JavaExn (ValidityBufferMerger × Option Int)
  | .copyValidityBuffer src srcOffset sliceInfo => do
    let (m, nullCount) ← m.copyValidityBuffer src srcOffset sliceInfo
    .ok (m, some nullCount)
  | .appendAllValid numRows => do
    let m ← m.appendAllValid numRows
    .ok (m, none)

/-- The validity of the rows an operation appends. -/
def rows : Op → List Bool
  | .copyValidityBuffer src srcOffset sliceInfo =>
    bits src (8 * srcOffset + sliceInfo.offset % 8) sliceInfo.rowCount
  | .appendAllValid numRows => List.replicate numRows.toNat true

/-- What an operation should return. -/
def nullCount : Op → Option Int
  | op@(.copyValidityBuffer _ _ _) => some (op.rows.count false : Nat)
  | .appendAllValid _ => none

/-- The arguments are `int`s, and the source holds the validity bytes of the slice. -/
def HasSource : Op → Prop
  | .copyValidityBuffer src srcOffset sliceInfo =>
    srcOffset ≤ intMax ∧ sliceInfo.offset ≤ intMax ∧ sliceInfo.rowCount ≤ intMax ∧
      srcOffset + sliceInfo.validityBytes ≤ src.length
  | .appendAllValid numRows => -(2 ^ 31) ≤ numRows ∧ numRows ≤ intMax

/-- The last row of the slice is at an `int`, and so are its validity bytes. -/
def Fits : Op → Prop
  | .copyValidityBuffer _ srcOffset sliceInfo =>
    sliceInfo.LastRowFits ∧ srcOffset + sliceInfo.validityBytes ≤ 2 ^ 31
  | .appendAllValid _ => True

theorem length_rows_copy (src : List Byte) (srcOffset : Nat) (sliceInfo : SliceInfo) :
    (copyValidityBuffer src srcOffset sliceInfo).rows.length = sliceInfo.rowCount := length_bits

end Op

/-- A sequence of operations: the merger after them, and what each returned. -/
def runOps (m : ValidityBufferMerger) :
    List Op → Except JavaExn (ValidityBufferMerger × List (Option Int))
  | [] => .ok (m, [])
  | op :: ops => do
    let (m, nullCount) ← op.run m
    let (m, nullCounts) ← runOps m ops
    .ok (m, nullCount :: nullCounts)

/-- The validity of all rows. -/
def allRows (ops : List Op) : List Bool := ops.flatMap Op.rows

theorem allRows_singleton (op : Op) : allRows [op] = op.rows := List.flatMap_singleton _ _

/-- The destination has room for the words of `rows` rows. -/
def HasRoom (dest : List Byte) (destOffset rows : Nat) : Prop :=
  destOffset + 4 * ((rows + 31) / 32) ≤ dest.length

/-- No byte of the destination has changed but those of the words of `rows` rows. -/
structure OnlyWords (destOffset rows : Nat) (dest dest' : List Byte) : Prop where
  length : dest'.length = dest.length
  below : ∀ i < 8 * destOffset, bit dest' i = bit dest i
  beyond : ∀ i, 8 * destOffset + 32 * ((rows + 31) / 32) ≤ i → bit dest' i = bit dest i

theorem OnlyWords.refl {destOffset rows : Nat} {dest : List Byte} :
    OnlyWords destOffset rows dest dest := ⟨rfl, fun _ _ => rfl, fun _ _ => rfl⟩

theorem OnlyWords.trans {destOffset n n' : Nat} {dest dest' dest'' : List Byte}
    (h : OnlyWords destOffset n dest dest') (h' : OnlyWords destOffset n' dest' dest'')
    (hle : n ≤ n') : OnlyWords destOffset n' dest dest'' := by
  refine ⟨?_, ?_, ?_⟩
  · rw [h'.length, h.length]
  · intro i hi
    rw [h'.below i hi, h.below i hi]
  · intro i hi
    have hword : (n + 31) / 32 ≤ (n' + 31) / 32 := Nat.div_le_div_right (by omega)
    rw [h'.beyond i hi, h.beyond i (by omega)]

variable {m : ValidityBufferMerger} {rows : List Bool}

/-- A copy of a slice without rows does nothing. -/
theorem copyValidityBuffer_of_zero {src : List Byte} {srcOffset : Nat} {s : SliceInfo}
    (h : s.rowCount = 0) : m.copyValidityBuffer src srcOffset s = .ok (m, 0) := by
  unfold copyValidityBuffer
  rw [if_pos (by omega)]

/-- What one operation does to a merger that has merged `rows`. -/
theorem Merged.run (hm : m.Merged rows) {op : Op} (hsource : op.HasSource) (hfits : op.Fits)
    (hroom : HasRoom m.dest m.destOffset (rows.length + op.rows.length)) :
    ∃ m', op.run m = .ok (m', op.nullCount) ∧ m'.Merged (rows ++ op.rows) ∧
      m'.destOffset = m.destOffset ∧
      OnlyWords m.destOffset (rows.length + op.rows.length) m.dest m'.dest := by
  have hcount := hm.rowCount
  unfold HasRoom at hroom
  cases op with
  | copyValidityBuffer src srcOffset sliceInfo =>
    obtain ⟨-, -, hrows, hsrc⟩ := hsource
    obtain ⟨hlast, hint⟩ := hfits
    have hlen := Op.length_rows_copy src srcOffset sliceInfo
    rw [hlen] at hroom ⊢
    unfold SliceInfo.validityBytes at hsrc hint
    by_cases hpos : 0 < sliceInfo.rowCount
    · rw [if_pos hpos] at hsrc hint
      have hcan : CanCopy m src srcOffset sliceInfo :=
        ⟨hpos, hrows, hlast, hsrc, hint, by rw [hcount]; exact hroom⟩
      obtain ⟨m', n, hrun, hmerged, hoffset, hlength, hbelow, hbeyond, hn⟩ :=
        hm.copyValidityBuffer hcan
      refine ⟨m', ?_, hmerged, hoffset, hlength, hbelow, ?_⟩
      · show (m.copyValidityBuffer src srcOffset sliceInfo >>= _) = _
        rw [hrun, hn]
        rfl
      · rw [← hcount]
        exact hbeyond
    · -- a copy of no rows leaves the merger as it is
      have hzero : sliceInfo.rowCount = 0 := by omega
      have hnone : (Op.copyValidityBuffer src srcOffset sliceInfo).rows = [] :=
        List.eq_nil_of_length_eq_zero (by rw [hlen, hzero])
      refine ⟨m, ?_, ?_, rfl, OnlyWords.refl⟩
      · show (m.copyValidityBuffer src srcOffset sliceInfo >>= _) =
          Except.ok (m, some ((Op.rows _).count false : Int))
        rw [copyValidityBuffer_of_zero hzero, hnone]
        rfl
      · rw [hnone, List.append_nil]
        exact hm
  | appendAllValid numRows =>
    have hlen : (Op.appendAllValid numRows).rows.length = numRows.toNat := List.length_replicate
    rw [hlen] at hroom ⊢
    by_cases hpos : 0 < numRows
    · have hcast : ((numRows.toNat : Nat) : Int) = numRows := by omega
      obtain ⟨m', hrun, hmerged, hoffset, hlength, hbelow, hbeyond⟩ :=
        @Merged.appendAllValid m rows numRows.toNat hm (by rw [hcount]; exact hroom)
      rw [hcast] at hrun
      refine ⟨m', ?_, hmerged, hoffset, hlength, hbelow, ?_⟩
      · show (m.appendAllValid numRows >>= _) = _
        rw [hrun]
        rfl
      · rw [← hcount]
        exact hbeyond
    · -- and so does a number that is not positive
      have hnone : (Op.appendAllValid numRows).rows = [] :=
        List.eq_nil_of_length_eq_zero (by rw [hlen]; omega)
      refine ⟨m, ?_, ?_, rfl, OnlyWords.refl⟩
      · show (m.appendAllValid numRows >>= _) = _
        unfold ValidityBufferMerger.appendAllValid
        rw [if_pos (by omega)]
        rfl
      · rw [hnone, List.append_nil]
        exact hm

/-- What a sequence of operations does, by induction on the operations. -/
theorem Merged.runOps {ops : List Op} (hm : m.Merged rows)
    (hsource : ∀ op ∈ ops, op.HasSource) (hfits : ∀ op ∈ ops, op.Fits)
    (hroom : HasRoom m.dest m.destOffset (rows.length + (allRows ops).length)) :
    ∃ m', m.runOps ops = .ok (m', ops.map Op.nullCount) ∧ m'.Merged (rows ++ allRows ops) ∧
      m'.destOffset = m.destOffset ∧
      OnlyWords m.destOffset (rows.length + (allRows ops).length) m.dest m'.dest := by
  induction ops generalizing m rows with
  | nil =>
    refine ⟨m, rfl, ?_, rfl, OnlyWords.refl⟩
    change m.Merged (rows ++ [])
    rw [List.append_nil]
    exact hm
  | cons op ops ih =>
    have hcons : allRows (op :: ops) = op.rows ++ allRows ops := List.flatMap_cons
    rw [hcons, List.length_append] at hroom ⊢
    -- the room for all rows is enough for those of the first operation
    have hroom' : HasRoom m.dest m.destOffset (rows.length + op.rows.length) := by
      unfold HasRoom at hroom ⊢
      have hword : (rows.length + op.rows.length + 31) / 32 ≤
          (rows.length + (op.rows.length + (allRows ops).length) + 31) / 32 :=
        Nat.div_le_div_right (by omega)
      omega
    obtain ⟨m1, hrun, hmerged, hoffset, hwords⟩ :=
      hm.run (hsource op List.mem_cons_self) (hfits op List.mem_cons_self) hroom'
    have hsum : (rows ++ op.rows).length + (allRows ops).length =
        rows.length + (op.rows.length + (allRows ops).length) := by
      rw [List.length_append, Nat.add_assoc]
    have hroom1 : HasRoom m1.dest m1.destOffset ((rows ++ op.rows).length + (allRows ops).length) := by
      unfold HasRoom at hroom ⊢
      rw [hoffset, hwords.length, hsum]
      exact hroom
    obtain ⟨m2, hrun2, hmerged2, hoffset2, hwords2⟩ :=
      ih hmerged (fun o ho => hsource o (List.mem_cons_of_mem _ ho))
        (fun o ho => hfits o (List.mem_cons_of_mem _ ho)) hroom1
    refine ⟨m2, ?_, ?_, ?_, ?_⟩
    · show (op.run m >>= _) = _
      rw [hrun, ok_bind]
      show (m1.runOps ops >>= _) = _
      rw [hrun2]
      rfl
    · rw [← List.append_assoc]
      exact hmerged2
    · rw [hoffset2, hoffset]
    · rw [hsum, hoffset] at hwords2
      exact hwords.trans hwords2 (by omega)

/-- Behind the operations the destination starts with the validity of all rows, the null counts are
those of the slices and of all rows, and only the words of the rows have changed. Where the sequence
is the start of a longer one, this is what holds in between. -/
theorem runOps_exact (dest : List Byte) (destOffset : Nat) (ops : List Op)
    (hsource : ∀ op ∈ ops, op.HasSource) (hfits : ∀ op ∈ ops, op.Fits)
    (hroom : HasRoom dest destOffset (allRows ops).length) :
    ∃ m, (new dest destOffset).runOps ops = .ok (m, ops.map Op.nullCount) ∧
      m.totalRowCount = (allRows ops).length ∧
      bits m.dest (8 * destOffset) m.totalRowCount = allRows ops ∧
      m.totalNullCount = (allRows ops).count false ∧
      OnlyWords destOffset m.totalRowCount dest m.dest := by
  have hnew := merged_new dest destOffset
  obtain ⟨m, hrun, hmerged, hoffset, hwords⟩ :=
    hnew.runOps hsource hfits (by rw [List.length_nil, Nat.zero_add]; exact hroom)
  rw [List.length_nil, Nat.zero_add] at hwords
  rw [List.nil_append] at hmerged
  have hcount := hmerged.rowCount
  have hbits := hmerged.bits
  rw [hoffset] at hbits
  refine ⟨m, hrun, hcount, ?_, hmerged.nullCount, ?_⟩
  · rw [hcount]
    exact hbits
  · rw [hcount]
    exact hwords

/-- Three valid rows and then four of a column's rows, the second and the fourth of them null. -/
theorem runOps_exact_seven :
    ∃ m, (new [0xff#8, 0xff#8, 0xff#8, 0xff#8] 0).runOps
        [.appendAllValid 3, .copyValidityBuffer [0x57#8] 0 { offset := 2, rowCount := 4 }] =
          .ok (m, [none, some 2]) ∧
      m.totalRowCount = 7 ∧ bits m.dest 0 7 = [true, true, true, true, false, true, false] ∧
      m.totalNullCount = 2 ∧
      OnlyWords 0 7 [0xff#8, 0xff#8, 0xff#8, 0xff#8] m.dest := by
  obtain ⟨m, hrun, hrows, hbits, hnull, hwords⟩ := runOps_exact [0xff#8, 0xff#8, 0xff#8, 0xff#8] 0
    [.appendAllValid 3, .copyValidityBuffer [0x57#8] 0 { offset := 2, rowCount := 4 }]
    (by simp [Op.HasSource, SliceInfo.validityBytes, intMax])
    (by simp [Op.Fits, SliceInfo.validityBytes, SliceInfo.LastRowFits])
    (by unfold HasRoom; decide)
  have hseven : m.totalRowCount = 7 := hrows
  rw [hseven] at hbits hwords
  exact ⟨m, hrun, hseven, hbits, hnull, hwords⟩

/-- A slice that starts at a byte, into an empty merger: what the copy loop fails with behind the
first word, the sequence fails with. -/
theorem runOps_of_copyInts {dest src : List Byte} {srcOffset : Nat} {s : SliceInfo} {e : JavaExn}
    (hrows : 0 < s.rowCount) (hbit : s.offset % 8 = 0) (hdest : 4 ≤ dest.length)
    (hlen : srcIntBufLen s ≠ 1)
    (h : ∀ st : CopyState, st.curSrcIntIdx = srcOffset + 4 → st.leftRowCount = s.rowCount - 32 →
      copyInts src srcOffset (srcIntBufLen s) sameStep (fun _ => .error .assertion) st = .error e) :
    (new dest 0).runOps [.copyValidityBuffer src srcOffset s] = .error e := by
  have hfirst : 0 + 4 ≤ dest.length := by omega
  have hcur : (new dest 0).curDestIntIdx = 0 := by simp [curDestIntIdx, new]
  have hcurBit : (new dest 0).curDestBitIdx = 0 := rfl
  have hdest' : (new dest 0).dest = dest := rfl
  have hthree : (new dest 0).copySourceCaseThree src srcOffset s = .error e := by
    unfold copySourceCaseThree
    rw [SliceInfo.beginBit_eq, hbit, hcur, hcurBit, hdest']
    simp only [getInt_of_le hfirst, getIntSafe_eq, setInt_of_le hfirst, ok_bind]
    rw [if_neg hlen, h _ rfl rfl]
    rfl
  have hcopy : (new dest 0).copyValidityBuffer src srcOffset s = .error e := by
    unfold ValidityBufferMerger.copyValidityBuffer
    rw [if_neg (by omega), SliceInfo.beginBit_eq, hbit, hcurBit, if_neg (by decide),
      if_neg (by decide), hthree]
    rfl
  show (((new dest 0).copyValidityBuffer src srcOffset s >>= _) >>= _) = _
  rw [hcopy]
  rfl

/-- The two `int`s that wrap around. The rows `[8, 8 + 2³¹ - 1)` have a last row whose index does: the
buffer's length is negative, and the third case asserts that it has words to read. The second word of
a slice at 2³¹ - 4 is read at a negative position. -/
theorem runOps_wraps :
    let rows : Op := .copyValidityBuffer (List.replicate (2 ^ 28) 0) 0
      { offset := 8, rowCount := 2 ^ 31 - 1 }
    let position : Op := .copyValidityBuffer (List.replicate (2 ^ 31 + 8) 0) (2 ^ 31 - 4)
      { offset := 0, rowCount := 64 }
    (rows.HasSource ∧ HasRoom (List.replicate (2 ^ 28) 0) 0 (allRows [rows]).length ∧
      (new (List.replicate (2 ^ 28) 0) 0).runOps [rows] = .error .assertion) ∧
    (position.HasSource ∧ HasRoom (List.replicate 8 0) 0 (allRows [position]).length ∧
      (new (List.replicate 8 0) 0).runOps [position] = .error .outOfBounds) := by
  have hlen : ∀ (n : Nat), (List.replicate n (0 : Byte)).length = n := fun n => List.length_replicate
  refine ⟨⟨?_, ?_, ?_⟩, ?_, ?_, ?_⟩
  · refine ⟨by decide, by decide, by decide, ?_⟩
    rw [hlen]
    decide
  · unfold HasRoom
    rw [allRows_singleton, Op.length_rows_copy, hlen]
    decide
  · refine runOps_of_copyInts (by decide) (by decide) (by rw [hlen]; decide) (by decide) ?_
    intro st hidx hleft
    have hzero : srcIntBufLen { offset := 8, rowCount := 2 ^ 31 - 1 } = 0 := by decide
    rw [copyInts, hleft, if_pos (by decide), hzero, if_pos (by omega)]
  · refine ⟨by decide, by decide, by decide, ?_⟩
    rw [hlen]
    decide
  · unfold HasRoom
    rw [allRows_singleton, Op.length_rows_copy, hlen]
    decide
  · refine runOps_of_copyInts (by decide) (by decide) (by rw [hlen]; decide) (by decide) ?_
    intro st hidx hleft
    have htwo : srcIntBufLen { offset := 0, rowCount := 64 } = 2 := by decide
    have hwrap : javaInt ((2 ^ 31 - 4 + 4 : Nat) : Int) = -(2 ^ 31) := by decide
    have hone : min bufLength (2 - (2 ^ 31 - 4 + 4 - (2 ^ 31 - 4)) / 4) = 1 := by decide
    rw [copyInts, hleft, if_pos (by decide), htwo, hidx, hone, if_neg (by decide), hwrap]
    unfold getIntsSafe
    rw [if_pos (by rw [hlen]; decide)]
    rfl

/-! ### What the writer has written -/

/-- A slice of a column, and what surrounds its validity in the buffer of its table. -/
structure ValidityPart extends SliceInfo where
  column : HostColumnVectorCore
  before : List Byte
  behind : List Byte

namespace ValidityPart

/-- What `deserializeValidityBuffer` does for a table that the writer has written. -/
def turn (p : ValidityPart) : Except JavaExn Op :=
  match copySlicedValidity p.column p.toSliceInfo with
  | none => .ok (.appendAllValid p.rowCount)
  | some range => do
    let bytes ← copyDataFrom range.buffer range.offset range.length
    .ok (.copyValidityBuffer (p.before ++ (bytes ++ p.behind)) p.before.length p.toSliceInfo)

/-- The validity of the rows. -/
def validity (p : ValidityPart) : List Bool :=
  match p.column.validity with
  | none => List.replicate p.rowCount true
  | some v => bits v p.offset p.rowCount

/-- The slice is inside of its column, and its validity at an `int`. -/
structure Ok (p : ValidityPart) : Prop where
  lastRow : p.offset + p.rowCount < 2 ^ 31
  inside : ∀ v ∈ p.column.validity, p.offset + p.rowCount ≤ 8 * v.length
  place : p.before.length + p.validityBytes < 2 ^ 31

theorem Ok.turn {p : ValidityPart} (h : p.Ok) :
    ∃ op, p.turn = .ok op ∧ op.HasSource ∧ op.Fits ∧ op.rows = p.validity := by
  obtain ⟨hlast, hinside, hplace⟩ := h
  unfold ValidityPart.turn copySlicedValidity validity
  have hall : (Op.appendAllValid p.rowCount).HasSource := ⟨by omega, by unfold intMax; omega⟩
  cases hv : p.column.validity with
  | none => exact ⟨_, rfl, hall, trivial, rfl⟩
  | some v =>
    have hle := hinside v hv
    by_cases hrows : 0 < p.rowCount
    · have hbytes : p.validityBytes = (p.offset % 8 + p.rowCount + 7) / 8 := if_pos hrows
      have hcopy : copyDataFrom (some v) (p.offset / 8 : Nat) p.validityBufferInfo.bufferLength =
          .ok (slice v (p.offset / 8) p.validityBytes) := by
        rw [SliceInfo.bufferLength_eq hlast.le, copyDataFrom, if_neg (by omega)]
        exact getBytes_of_le (by omega)
      have hslice : (slice v (p.offset / 8) p.validityBytes).length = p.validityBytes :=
        length_slice_of_le (by omega)
      rw [if_pos ⟨rfl, hrows⟩]
      unfold Op.HasSource intMax
      refine ⟨_, congrArg (· >>= _) hcopy, ⟨by omega, by omega, by omega, ?_⟩,
        ⟨hlast.le, hplace.le⟩, ?_⟩
      · rw [List.length_append, List.length_append, hslice]
        omega
      · refine bits_congr fun k hk => ?_
        rw [Nat.add_assoc, bit_append_right (by omega), Nat.add_sub_cancel_left,
          bit_append_left (by omega), bit_slice, decide_eq_true (by omega), Bool.true_and]
        congr 1
        omega
    · have hzero : p.rowCount = 0 := by omega
      rw [if_neg fun h => hrows h.2]
      exact ⟨_, rfl, hall, trivial, by rw [hzero]; rfl⟩

end ValidityPart

/-- Merged, what is written of slices, anywhere in the buffers of their tables, has the validity of
their rows. -/
theorem runOps_turns {dest : List Byte} {destOffset : Nat} {parts : List ValidityPart}
    (h : ∀ p ∈ parts, p.Ok)
    (hroom : HasRoom dest destOffset (parts.flatMap ValidityPart.validity).length) :
    ∃ ops m nullCounts, parts.map ValidityPart.turn = ops.map .ok ∧
      (new dest destOffset).runOps ops = .ok (m, nullCounts) ∧
      bits m.dest (8 * destOffset) m.totalRowCount = parts.flatMap ValidityPart.validity ∧
      m.totalNullCount = (parts.flatMap ValidityPart.validity).count false := by
  have : Inhabited Op := ⟨.appendAllValid 0⟩
  choose! op hturn hsource hfits hrows using fun p hp => (h p hp).turn
  have hall : allRows (parts.map op) = parts.flatMap ValidityPart.validity :=
    (List.flatMap_map ..).trans (List.flatMap_congr hrows)
  rw [← hall] at hroom ⊢
  obtain ⟨m, hrun, hmerged, hoffset, -⟩ := (merged_new dest destOffset).runOps
    (List.forall_mem_map.2 hsource) (List.forall_mem_map.2 hfits) ((Nat.zero_add _).symm ▸ hroom)
  refine ⟨_, m, _, ?_, hrun, ?_, hmerged.nullCount⟩
  · rw [List.map_map]
    exact List.map_congr_left hturn
  · have hbits := hmerged.bits
    rwa [← hmerged.rowCount, hoffset] at hbits

/-- Two rows of a column without nulls, and the rows 6 to 9 of another one. -/
theorem runOps_turns_six :
    ∃ ops m nullCounts, [⟨⟨0, 2⟩, ⟨2, none, none, none⟩, [], []⟩,
        ⟨⟨6, 4⟩, ⟨10, some [0x40#8, 0x2#8], none, none⟩, [1], []⟩].map ValidityPart.turn =
          ops.map .ok ∧
      (new [0, 0, 0, 0] 0).runOps ops = .ok (m, nullCounts) ∧
      bits m.dest 0 m.totalRowCount = [true, true, true, false, false, true] ∧
      m.totalNullCount = 2 := by
  refine runOps_turns (List.forall_mem_cons.2 ⟨?_, List.forall_mem_singleton.2 ?_⟩)
    (by unfold HasRoom; decide)
  all_goals exact ⟨by decide, by decide, by decide⟩

end ValidityBufferMerger

end SparkRapids.Kudo
