import SparkRapidsJni.Kudo.HostMemory

/-!
# `KudoTableMerger.ValidityBufferMerger`

Copies the validity bits of slices one after another into one validity buffer, 32 bits at a time.
Source and destination bit differ, so a word of the destination takes bits of two source words, and
the bits that do not fit are carried to the next one.

Here are the definitions, and what the reads and shifts do to the bits. `ValidityCopy` has the copy
loop, and `ValidityMerged` the operations: each extends the bits `[0, totalRowCount)` by the bits it
appends, and writes no word behind the one that holds the last row.
-/

namespace SparkRapids.Kudo

open Bytes HostMemoryBuffer

/-! ### Java's shifts -/

/-- `x << k` on `int`: the distance is taken modulo 32. -/
def shl (x : BitVec 32) (k : Int) : BitVec 32 := x <<< (k % 32).toNat

/-- `x >>> k` on `int`. -/
def ushr (x : BitVec 32) (k : Int) : BitVec 32 := x >>> (k % 32).toNat

section Shifts

variable {x : BitVec 32} {k j : Nat} {n : Int}

theorem getLsbD_shl (hn : n = k) (hk : k < 32) (hj : j < 32) :
    (shl x n).getLsbD j = (decide (k ≤ j) && x.getLsbD (j - k)) := by
  have hmod : (n % 32).toNat = k := by omega
  unfold shl
  rw [hmod, BitVec.getLsbD_shiftLeft, decide_eq_true hj, Bool.true_and]
  by_cases h : k ≤ j
  · rw [decide_eq_true h, decide_eq_false (by omega), Bool.not_false]
  · rw [decide_eq_false h, decide_eq_true (by omega), Bool.not_true]

theorem getLsbD_ushr (hn : n = k) (hk : k < 32) : (ushr x n).getLsbD j = x.getLsbD (k + j) := by
  have hmod : (n % 32).toNat = k := by omega
  unfold ushr
  rw [hmod, BitVec.getLsbD_ushiftRight]

theorem shl_one_toNat (hk : k < 32) : (shl 1 k).toNat = 2 ^ k := by
  have hmod : ((k : Int) % 32).toNat = k := by omega
  have hpow : 2 ^ k < 2 ^ 32 := Nat.pow_lt_pow_right (by decide) hk
  unfold shl
  rw [hmod, BitVec.toNat_shiftLeft, BitVec.ofNat_eq_ofNat, BitVec.toNat_ofNat]
  rw [Nat.mod_eq_of_lt (by decide : (1 : Nat) < 2 ^ 32), Nat.one_shiftLeft, Nat.mod_eq_of_lt hpow]

/-- `(1 << k) - 1` masks the low `k` bits. -/
theorem getLsbD_lowMask (hn : n = k) (hk : k < 32) :
    (shl 1 n - 1).getLsbD j = decide (j < k) := by
  subst hn
  have hpow : 2 ^ k < 2 ^ 32 := Nat.pow_lt_pow_right (by decide) hk
  have hpos : 0 < 2 ^ k := Nat.two_pow_pos k
  have hval : (shl 1 k - 1 : BitVec 32).toNat = 2 ^ k - 1 := by
    rw [BitVec.toNat_sub_of_le, shl_one_toNat hk]
    · rfl
    · rw [BitVec.le_def, shl_one_toNat hk]
      exact hpos
  unfold BitVec.getLsbD
  rw [hval, Nat.testBit_two_pow_sub_one]

/-- `-(1 << k)` masks the other ones. -/
theorem getLsbD_highMask (hn : n = k) (hk : k < 32) (hj : j < 32) :
    (-(shl 1 n)).getLsbD j = decide (k ≤ j) := by
  have hneg : -(shl 1 n) = ~~~(shl 1 n - 1) := by
    bv_omega
  rw [hneg, BitVec.getLsbD_not, getLsbD_lowMask hn hk, decide_eq_true hj, Bool.true_and]
  by_cases h : k ≤ j
  · rw [decide_eq_true h, decide_eq_false (by omega), Bool.not_false]
  · rw [decide_eq_false h, decide_eq_true (by omega), Bool.not_true]

end Shifts

/-! ### Reading words near the end of a buffer -/

/-- `getIntAsBytes`: the bytes behind the buffer count as zero. -/
def getIntAsBytes (src : List Byte) (offset : Nat) : BitVec 32 :=
  (List.range 4).foldl (fun ret at' =>
    if offset + at' < src.length then
      ret ||| shl ((src.getD (offset + at') 0).setWidth 32) (at' * 8)
    else ret) 0

/-- `getIntSafe`. -/
def getIntSafe (src : List Byte) (offset : Nat) : Except JavaExn (BitVec 32) :=
  if offset + 4 < src.length then getInt src offset else .ok (getIntAsBytes src offset)

/-- `getIntsSafe`: the words that are read. -/
def getIntsSafe (src : List Byte) (srcOffset : Int) (count : Nat) :
    Except JavaExn (List (BitVec 32)) :=
  if srcOffset + 4 * count < src.length then getInts src srcOffset count
  else do
    -- as much as possible the fast way, and the rest byte by byte
    let fastCount : Int := (src.length - srcOffset : Int).tdiv 4
    let fast ← getInts src srcOffset fastCount
    .ok (fast ++ (List.range (count - fastCount.toNat)).map fun k =>
      getIntAsBytes src (srcOffset.toNat + (fastCount.toNat + k) * 4))

/-- A byte behind the buffer is zero, so it may as well be combined. -/
theorem byte_or (src : List Byte) (ret : BitVec 32) (o : Nat) (k : Int) :
    (if o < src.length then ret ||| shl ((src.getD o 0).setWidth 32) k else ret) =
      ret ||| shl ((src.getD o 0).setWidth 32) k := by
  split_ifs with h
  · rfl
  · rw [List.getD_eq_default _ _ (by omega)]
    simp [shl]

theorem getIntAsBytes_eq (src : List Byte) (offset : Nat) :
    getIntAsBytes src offset = word src offset := by
  have hbits : ∀ (b : Byte) (i j : Nat), i < 4 → j < 32 →
      (shl (b.setWidth 32) ((i : Nat) * 8)).getLsbD j =
        (decide (8 * i ≤ j) && b.getLsbD (j - 8 * i)) := by
    intro b i j hi hj
    rw [getLsbD_shl (k := 8 * i) (by omega) (by omega) hj, BitVec.getLsbD_setWidth,
      decide_eq_true (by omega : j - 8 * i < 32), Bool.true_and]
  have hfold : getIntAsBytes src offset =
      0 ||| shl ((src.getD (offset + 0) 0).setWidth 32) ((0 : Nat) * 8) |||
        shl ((src.getD (offset + 1) 0).setWidth 32) ((1 : Nat) * 8) |||
        shl ((src.getD (offset + 2) 0).setWidth 32) ((2 : Nat) * 8) |||
        shl ((src.getD (offset + 3) 0).setWidth 32) ((3 : Nat) * 8) := by
    unfold getIntAsBytes
    simp only [byte_or]
    rfl
  refine BitVec.eq_of_getLsbD_eq fun j hj => ?_
  rw [hfold]
  unfold word
  simp only [BitVec.getLsbD_or, BitVec.getLsbD_append, hbits _ 0 j (by decide) hj,
    hbits _ 1 j (by decide) hj, hbits _ 2 j (by decide) hj, hbits _ 3 j (by decide) hj]
  have hzero : (0 : BitVec 32).getLsbD j = false := BitVec.getLsbD_zero
  have hge : ∀ (b : Byte) (i : Nat), 8 ≤ i → b.getLsbD i = false := fun b i h =>
    BitVec.getLsbD_of_ge b i h
  rw [hzero, Bool.false_or, Nat.add_zero]
  -- by the byte that has the bit
  by_cases h1 : j < 8
  · simp [h1, show ¬8 ≤ j by omega, show ¬16 ≤ j by omega, show ¬24 ≤ j by omega]
  by_cases h2 : j < 16
  · simp [h1, show 8 ≤ j by omega, show ¬16 ≤ j by omega, show ¬24 ≤ j by omega,
      show j - 8 < 8 by omega]
  by_cases h3 : j < 24
  · simp [h1, show 8 ≤ j by omega, show 16 ≤ j by omega, show ¬24 ≤ j by omega,
      show ¬j - 8 < 8 by omega, show j - 8 - 8 < 8 by omega,
      hge _ (j - 8) (by omega), show j - 16 = j - 8 - 8 by omega]
  · simp [h1, show 8 ≤ j by omega, show 16 ≤ j by omega, show 24 ≤ j by omega,
      show ¬j - 8 < 8 by omega, show ¬j - 8 - 8 < 8 by omega,
      hge _ (j - 8) (by omega), hge _ (j - 16) (by omega), show j - 24 = j - 8 - 8 - 8 by omega]

theorem getIntSafe_eq (src : List Byte) (offset : Nat) :
    getIntSafe src offset = .ok (word src offset) := by
  unfold getIntSafe
  split_ifs with h
  · exact getInt_of_le (by omega)
  · rw [getIntAsBytes_eq]

theorem getIntsSafe_eq {src : List Byte} {srcOffset : Nat} (h : srcOffset ≤ src.length)
    (count : Nat) :
    getIntsSafe src srcOffset count =
      .ok ((List.range count).map fun k => word src (srcOffset + 4 * k)) := by
  unfold getIntsSafe
  split_ifs with hlt
  · exact getInts_of_le (by omega)
  · have hfast : (src.length - srcOffset : Int).tdiv 4 = ((src.length - srcOffset) / 4 : Nat) := by
      rw [Int.tdiv_eq_ediv_of_nonneg (by omega)]
      omega
    have hcount : count = (src.length - srcOffset) / 4 + (count - (src.length - srcOffset) / 4) := by
      omega
    have hget : getInts src srcOffset ((src.length - srcOffset) / 4 : Nat) = .ok
        ((List.range ((src.length - srcOffset) / 4)).map fun k => word src (srcOffset + 4 * k)) :=
      getInts_of_le (by omega)
    rw [hfast]
    dsimp only
    rw [hget]
    simp only [Int.toNat_natCast, getIntAsBytes_eq]
    conv_rhs => rw [hcount, List.range_add, List.map_append, List.map_map]
    refine congrArg _ (congrArg _ (List.map_congr_left fun k _ => ?_))
    simp only [Function.comp_apply]
    exact congrArg _ (by omega)

/-! ### The copy loop -/

/-- The length of `inputBuf`, `outputBuf` and `ONES`. -/
def bufLength : Nat := 1024

/-- The locals of the three copy loops. -/
structure CopyState where
  dest : List Byte
  curDestIntIdx : Nat
  curSrcIntIdx : Nat
  leftRowCount : Int
  nullCount : Int
  /-- The bits of the last word read that are still to be written. -/
  lastValue : BitVec 32
  lastOutput : BitVec 32

/-- The inner loop: `step` makes of the bits carried and of a word of the source a word of the
destination and the bits to carry. -/
def copyChunk (step : BitVec 32 → BitVec 32 → BitVec 32 × BitVec 32) :
    BitVec 32 → List (BitVec 32) → List (BitVec 32) × BitVec 32
  | last, [] => ([], last)
  | last, x :: xs =>
    let rest := copyChunk step (step last x).2 xs
    ((step last x).1 :: rest.1, rest.2)

/-- The loop `while (leftRowCount > 0)` of the three copies, `src` holding `srcIntBufLen` words of
the slice from `srcOffset` on. `noInput` is what a copy does when they are used up. The source is
read at an `int`, which wraps around behind 2³¹ bytes. -/
def copyInts (src : List Byte) (srcOffset srcIntBufLen : Nat)
    (step : BitVec 32 → BitVec 32 → BitVec 32 × BitVec 32)
    (noInput : CopyState → Except JavaExn CopyState) (st : CopyState) : Except JavaExn CopyState :=
  if 0 < st.leftRowCount then
    let curArrLen := min bufLength (srcIntBufLen - (st.curSrcIntIdx - srcOffset) / 4)
    if curArrLen ≤ 0 then noInput st
    else do
      let inputBuf ← getIntsSafe src (javaInt st.curSrcIntIdx) curArrLen
      let chunk := copyChunk step st.lastValue inputBuf
      let dest ← setInts st.dest st.curDestIntIdx chunk.1
      copyInts src srcOffset srcIntBufLen step noInput
        { dest
          curDestIntIdx := st.curDestIntIdx + curArrLen * 4
          curSrcIntIdx := st.curSrcIntIdx + curArrLen * 4
          leftRowCount := st.leftRowCount - 32 * curArrLen
          nullCount := st.nullCount + (chunk.1.map fun out => 32 - (bitCount out : Int)).sum
          lastValue := chunk.2
          lastOutput := chunk.1.getD (curArrLen - 1) 0 }
  else .ok st
termination_by st.leftRowCount.toNat

/-- The bits of the source go `up` in the word they are read into, and what is left goes `down` into
the next one. -/
def carryStep (up down : Int) (last x : BitVec 32) : BitVec 32 × BitVec 32 :=
  (shl x up ||| last, ushr x down)

/-- The words of the source are those of the destination. -/
def sameStep (last x : BitVec 32) : BitVec 32 × BitVec 32 := (x, last)

/-- The last rows are all among the bits carried. -/
def writeLastValue (st : CopyState) : Except JavaExn CopyState := do
  let dest ← setInt st.dest st.curDestIntIdx st.lastValue
  .ok { st with
    dest
    nullCount := st.nullCount +
      (st.leftRowCount - bitCount (st.lastValue &&& (shl 1 st.leftRowCount - 1)))
    leftRowCount := 0 }

/-- The null count without the bits of the last word behind the last row. -/
def CopyState.correctedNullCount (st : CopyState) : Int :=
  if st.leftRowCount < 0 then
    st.nullCount - (-st.leftRowCount - bitCount (ushr st.lastOutput (32 + st.leftRowCount)))
  else st.nullCount

/-! ### The merger -/

/-- `ValidityBufferMerger`, without its two temporary arrays. -/
structure ValidityBufferMerger where
  dest : List Byte
  destOffset : Nat
  totalNullCount : Int
  totalRowCount : Nat

/-- What a copy returns: the destination, and the null count once it is seen not to be negative. The
count is an `int` that is only added to, so it is enough to wrap it here. -/
def copyResult (dest : List Byte) (nullCount : Int) : Except JavaExn (List Byte × Int) :=
  if javaInt nullCount < 0 then .error .assertion else .ok (dest, javaInt nullCount)

namespace ValidityBufferMerger

variable (m : ValidityBufferMerger) (src : List Byte) (srcOffset : Nat) (sliceInfo : SliceInfo)

def new (dest : List Byte) (destOffset : Nat) : ValidityBufferMerger where
  dest := dest
  destOffset := destOffset
  totalNullCount := 0
  totalRowCount := 0

/-- The word that holds the next row. -/
def curDestIntIdx : Nat := m.destOffset + m.totalRowCount / 32 * 4

/-- The bit of the next row in its word. -/
def curDestBitIdx : Nat := m.totalRowCount % 32

/-- The words of the source that hold bits of the slice. Where the number is not positive, the code
compares it with ones that are. -/
def srcIntBufLen (sliceInfo : SliceInfo) : Nat :=
  ((sliceInfo.validityBufferInfo.bufferLength + 3).tdiv 4).toNat

/-- `copySourceCaseOne`: the source bit is below the destination bit, so the words of the source are
shifted up. -/
def copySourceCaseOne : Except JavaExn (List Byte × Int) := do
  let curSrcBitIdx := sliceInfo.validityBufferInfo.beginBit
  let rshift : Int := m.curDestBitIdx - curSrcBitIdx
  let outputMask := shl 1 m.curDestBitIdx - 1
  let destInput ← getInt m.dest m.curDestIntIdx
  let rawInput ← getIntSafe src srcOffset
  let input := shl (ushr rawInput curSrcBitIdx) m.curDestBitIdx
  let dest ← setInt m.dest m.curDestIntIdx (input ||| destInput &&& outputMask)
  if srcIntBufLen sliceInfo = 1 then
    let leftRem : Int := 32 - curSrcBitIdx - sliceInfo.rowCount
    if leftRem < 0 then .error .assertion
    else
      let nullCount : Int :=
        sliceInfo.rowCount - bitCount (shl (ushr rawInput curSrcBitIdx) (curSrcBitIdx + leftRem))
      if sliceInfo.rowCount + m.curDestBitIdx > 32 then
        let dest ← setInt dest (m.curDestIntIdx + 4 : Nat)
          (ushr rawInput (curSrcBitIdx + 32 - m.curDestBitIdx))
        copyResult dest nullCount
      else copyResult dest nullCount
  else
    let st ← copyInts src srcOffset (srcIntBufLen sliceInfo) (carryStep rshift (32 - rshift))
      writeLastValue
      { dest
        curDestIntIdx := m.curDestIntIdx + 4
        curSrcIntIdx := srcOffset + 4
        leftRowCount := sliceInfo.rowCount - (32 - m.curDestBitIdx)
        nullCount := 32 - m.curDestBitIdx - bitCount (input &&& ~~~outputMask)
        lastValue := ushr rawInput (32 - rshift)
        lastOutput := 0 }
    copyResult st.dest st.correctedNullCount

/-- `copySourceCaseTwo`: the source bit is above the destination bit, so the words of the source are
shifted down. -/
def copySourceCaseTwo : Except JavaExn (List Byte × Int) := do
  let curSrcBitIdx := sliceInfo.validityBufferInfo.beginBit
  let rshift : Int := curSrcBitIdx - m.curDestBitIdx
  let destMask := shl 1 m.curDestBitIdx - 1
  let destInput ← getInt m.dest m.curDestIntIdx
  let destOutput := destInput &&& destMask
  let input ← getIntSafe src srcOffset
  if srcIntBufLen sliceInfo = 1 then
    let leftRem : Int := 32 - curSrcBitIdx - sliceInfo.rowCount
    if leftRem < 0 then .error .assertion
    else
      let inputMask := -(shl 1 curSrcBitIdx)
      let nullCount : Int := sliceInfo.rowCount - bitCount (shl (input &&& inputMask) leftRem)
      let dest ← setInt m.dest m.curDestIntIdx
        (destOutput ||| shl (ushr input curSrcBitIdx) m.curDestBitIdx)
      copyResult dest nullCount
  else
    let st ← copyInts src srcOffset (srcIntBufLen sliceInfo) (carryStep (32 - rshift) rshift)
      writeLastValue
      { dest := m.dest
        curDestIntIdx := m.curDestIntIdx
        curSrcIntIdx := srcOffset + 4
        leftRowCount := javaInt (sliceInfo.rowCount + m.curDestBitIdx)
        nullCount := -(m.curDestBitIdx - (bitCount destOutput : Int))
        lastValue := destOutput ||| shl (ushr input curSrcBitIdx) m.curDestBitIdx
        lastOutput := 0 }
    copyResult st.dest st.correctedNullCount

/-- `copySourceCaseThree`: source and destination bit agree. -/
def copySourceCaseThree : Except JavaExn (List Byte × Int) := do
  let curSrcBitIdx := sliceInfo.validityBufferInfo.beginBit
  let mask := shl 1 m.curDestBitIdx - 1
  let firstInput ← getIntSafe src srcOffset
  let destInput ← getInt m.dest m.curDestIntIdx
  let dest ← setInt m.dest m.curDestIntIdx (firstInput &&& ~~~mask ||| destInput &&& mask)
  if srcIntBufLen sliceInfo = 1 then
    let leftRem : Int := 32 - curSrcBitIdx - sliceInfo.rowCount
    if leftRem < 0 then .error .assertion
    else copyResult dest (sliceInfo.rowCount - bitCount (shl (firstInput &&& ~~~mask) leftRem))
  else
    let st ← copyInts src srcOffset (srcIntBufLen sliceInfo) sameStep (fun _ => .error .assertion)
      { dest
        curDestIntIdx := m.curDestIntIdx + 4
        curSrcIntIdx := srcOffset + 4
        leftRowCount := sliceInfo.rowCount - (32 - curSrcBitIdx)
        nullCount := 32 - curSrcBitIdx - bitCount (firstInput &&& ~~~mask)
        lastValue := 0
        lastOutput := 0 }
    copyResult st.dest st.correctedNullCount

/-- `copyValidityBuffer`: the merger after it, and the null count of the slice. -/
def copyValidityBuffer : Except JavaExn (ValidityBufferMerger × Int) :=
  if sliceInfo.rowCount ≤ 0 then .ok (m, 0)
  else do
    let curSrcBitIdx := sliceInfo.validityBufferInfo.beginBit
    let (dest, nullCount) ←
      if curSrcBitIdx < m.curDestBitIdx then m.copySourceCaseOne src srcOffset sliceInfo
      else if curSrcBitIdx > m.curDestBitIdx then m.copySourceCaseTwo src srcOffset sliceInfo
      else m.copySourceCaseThree src srcOffset sliceInfo
    .ok ({ m with
      dest
      totalRowCount := m.totalRowCount + sliceInfo.rowCount
      totalNullCount := m.totalNullCount + nullCount }, nullCount)

/-- The loop of `appendAllValid`: `leftRowCount` ones from a word on. -/
def fillOnes (dest : List Byte) (curDestIntIdx leftRowCount : Nat) : Except JavaExn (List Byte) :=
  if 0 < leftRowCount then
    let curArrLen := min (leftRowCount / 32) bufLength
    if curArrLen = 0 then setInt dest curDestIntIdx (BitVec.allOnes 32)
    else do
      let dest ← setInts dest curDestIntIdx (List.replicate curArrLen (BitVec.allOnes 32))
      fillOnes dest (curDestIntIdx + curArrLen * 4) (leftRowCount - 32 * curArrLen)
  else .ok dest
termination_by leftRowCount

/-- `appendAllValid`. -/
def appendAllValid (numRows : Int) : Except JavaExn ValidityBufferMerger :=
  if numRows ≤ 0 then .ok m
  else do
    let firstOutput ← getInt m.dest m.curDestIntIdx
    let dest ← setInt m.dest m.curDestIntIdx (firstOutput ||| -(shl 1 m.curDestBitIdx))
    let dest ← fillOnes dest (m.curDestIntIdx + 4) (numRows - (32 - m.curDestBitIdx)).toNat
    .ok { m with dest, totalRowCount := m.totalRowCount + numRows.toNat }

end ValidityBufferMerger

end SparkRapids.Kudo
