import SparkRapidsJni.Kudo.ValidityCopy

/-!
# What a `ValidityBufferMerger` has merged

Each copy extends the rows merged by the rows of the slice, and counts the ones that are null
(`Merged.copyValidityBuffer`, `Merged.appendAllValid`).
-/

namespace SparkRapids.Kudo

open Bytes HostMemoryBuffer

/-! ### The three copies -/

namespace ValidityBufferMerger

variable {m : ValidityBufferMerger} {src : List Byte} {pos : Nat} {slice : SliceInfo}

/-- What the destination should hold from the current word on: the rows before the slice, and then
the source. -/
def target (m : ValidityBufferMerger) (src : List Byte) (pos : Nat) (slice : SliceInfo)
    (i : Nat) : Bool :=
  if i < m.curDestBitIdx then bit m.dest (8 * m.curDestIntIdx + i)
  else bit src (8 * pos + slice.offset % 8 + (i - m.curDestBitIdx))

/-- What a copy has to leave behind: the rows of the slice follow the ones before it, no other word
than theirs has changed, and the count is that of the rows that are null. -/
structure Copied (m : ValidityBufferMerger) (src : List Byte) (pos : Nat)
    (slice : SliceInfo) (dest : List Byte) (nullCount : Int) : Prop where
  length : dest.length = m.dest.length
  bits : ∀ i < slice.rowCount, bit dest (8 * m.destOffset + m.totalRowCount + i) =
    bit src (8 * pos + slice.offset % 8 + i)
  kept : ∀ i < 8 * m.destOffset + m.totalRowCount, bit dest i = bit m.dest i
  frame : ∀ i, 8 * m.destOffset + 32 * ((m.totalRowCount + slice.rowCount + 31) / 32) ≤ i →
    bit dest i = bit m.dest i
  nullCount : nullCount = zeros (bit src) (8 * pos + slice.offset % 8) slice.rowCount

/-- What a copy needs: the slice's bytes are in the source, at positions that are `int`s, the
destination has room for the words, and the slice's last row is at an `int`. -/
structure CanCopy (m : ValidityBufferMerger) (src : List Byte) (pos : Nat)
    (slice : SliceInfo) : Prop where
  rows : 0 < slice.rowCount
  rowCount_le : (slice.rowCount : Int) ≤ intMax
  lastRow : slice.LastRowFits
  source_le : pos + (slice.offset % 8 + slice.rowCount + 7) / 8 ≤ src.length
  isInt : pos + (slice.offset % 8 + slice.rowCount + 7) / 8 ≤ 2 ^ 31
  dest_le : m.destOffset + 4 * ((m.totalRowCount + slice.rowCount + 31) / 32) ≤ m.dest.length

theorem curDestBitIdx_lt : m.curDestBitIdx < 32 := Nat.mod_lt _ (by decide)

/-- The current word and bit are those of the next row. -/
theorem curDest_eq :
    8 * m.curDestIntIdx + m.curDestBitIdx = 8 * m.destOffset + m.totalRowCount := by
  unfold curDestIntIdx curDestBitIdx
  omega

theorem target_of_lt {i : Nat} (h : i < m.curDestBitIdx) :
    m.target src pos slice i = bit m.dest (8 * m.curDestIntIdx + i) := if_pos h

theorem target_of_le {i : Nat} (h : m.curDestBitIdx ≤ i) : m.target src pos slice i =
    bit src (8 * pos + slice.offset % 8 + (i - m.curDestBitIdx)) :=
  if_neg (Nat.not_lt.2 h)

theorem zeros_target : zeros (m.target src pos slice) m.curDestBitIdx slice.rowCount =
    zeros (bit src) (8 * pos + slice.offset % 8) slice.rowCount :=
  zeros_congr fun k _ => by rw [target_of_le (Nat.le_add_right _ _), Nat.add_sub_cancel_left]

section

variable (h : CanCopy m src pos slice)
include h

theorem srcIntBufLen_eq : srcIntBufLen slice = (slice.offset % 8 + slice.rowCount + 31) / 32 := by
  unfold srcIntBufLen
  rw [SliceInfo.bufferLength_eq h.lastRow, SliceInfo.validityBytes, if_pos h.rows,
    Int.tdiv_eq_ediv_of_nonneg (by omega)]
  omega

theorem copyResult_of_zeros {dest : List Byte} {n : Int}
    (hn : n = zeros (bit src) (8 * pos + slice.offset % 8) slice.rowCount) :
    copyResult dest n = .ok (dest, n) := by
  have hle := zeros_le (f := bit src) (a := 8 * pos + slice.offset % 8)
    (n := slice.rowCount)
  have hint := h.rowCount_le
  have hwrap : javaInt n = n := javaInt_of_bounds (by omega) (by omega)
  unfold copyResult
  rw [hwrap, if_neg (by omega)]

omit h in
/-- From the bits of the current words to those of the rows. -/
theorem copied_of_target {dest : List Byte} {n : Int} (hlen : dest.length = m.dest.length)
    (hbits : ∀ i < m.curDestBitIdx + slice.rowCount,
      bit dest (8 * m.curDestIntIdx + i) = m.target src pos slice i)
    (hframe : ∀ i, i < 8 * m.curDestIntIdx ∨ 8 * m.curDestIntIdx +
      32 * ((m.curDestBitIdx + slice.rowCount + 31) / 32) ≤ i → bit dest i = bit m.dest i)
    (hn : n = zeros (m.target src pos slice) m.curDestBitIdx slice.rowCount) :
    Copied m src pos slice dest n := by
  have hcur := m.curDest_eq
  refine ⟨hlen, fun i hi => ?_, fun i hi => ?_, fun i hi => ?_, by rw [hn, zeros_target]⟩
  · have hpos : 8 * m.destOffset + m.totalRowCount + i =
        8 * m.curDestIntIdx + (m.curDestBitIdx + i) := by omega
    rw [hpos, hbits _ (by omega), target_of_le (Nat.le_add_right _ _), Nat.add_sub_cancel_left]
  · by_cases hlow : i < 8 * m.curDestIntIdx
    · exact hframe i (Or.inl hlow)
    · have hpos : i = 8 * m.curDestIntIdx + (i - 8 * m.curDestIntIdx) := by omega
      rw [hpos, hbits _ (by omega), target_of_lt (by omega)]
  · refine hframe i (Or.inr ?_)
    unfold curDestIntIdx curDestBitIdx
    omega

/-- The first word, when it is written on its own: it is the whole copy, or the loop goes on. -/
theorem bit_firstWord {v : BitVec 32} (i : Nat) :
    bit (overwrite m.dest m.curDestIntIdx (wordBytes v)) i =
      if 8 * m.curDestIntIdx ≤ i ∧ i < 8 * m.curDestIntIdx + 32 then
        v.getLsbD (i - 8 * m.curDestIntIdx)
      else bit m.dest i := by
  have hdest := h.dest_le
  have hrows := h.rows
  have hlen : m.curDestIntIdx + (wordBytes v).length ≤ m.dest.length := by
    rw [length_wordBytes]
    unfold curDestIntIdx
    omega
  rw [bit_overwrite hlen, length_wordBytes]
  by_cases hi : 8 * m.curDestIntIdx ≤ i ∧ i < 8 * m.curDestIntIdx + 32
  · rw [if_pos hi, if_pos ⟨hi.1, by omega⟩, bit_wordBytes _ (by omega)]
  · rw [if_neg hi, if_neg (by omega)]

theorem curDest_le : m.curDestIntIdx + 4 *
    ((m.curDestBitIdx + slice.rowCount + 31) / 32) ≤ m.dest.length := by
  have hdest := h.dest_le
  unfold curDestIntIdx curDestBitIdx
  omega

theorem setInt_first (v : BitVec 32) :
    setInt m.dest m.curDestIntIdx v =
      .ok (overwrite m.dest m.curDestIntIdx (wordBytes v)) := by
  have hdest := curDest_le h
  have hrows := h.rows
  exact setInt_of_le (by omega) v

theorem getInt_first : getInt m.dest m.curDestIntIdx = .ok (word m.dest m.curDestIntIdx) := by
  have hdest := curDest_le h
  have hrows := h.rows
  exact getInt_of_le (by omega)

theorem length_firstWord (v : BitVec 32) :
    (overwrite m.dest m.curDestIntIdx (wordBytes v)).length = m.dest.length := by
  have hdest := curDest_le h
  have hrows := h.rows
  refine length_overwrite ?_
  rw [length_wordBytes]
  omega

/-- The slice ends in the first word. -/
theorem copied_firstWord {v : BitVec 32} {n : Int} (hfit : m.curDestBitIdx + slice.rowCount ≤ 32)
    (hv : ∀ j < m.curDestBitIdx + slice.rowCount, v.getLsbD j = m.target src pos slice j)
    (hn : n = zeros (m.target src pos slice) m.curDestBitIdx slice.rowCount) :
    Copied m src pos slice (overwrite m.dest m.curDestIntIdx (wordBytes v)) n := by
  have hrows := h.rows
  refine copied_of_target (length_firstWord h v) (fun i hi => ?_) (fun i hi => ?_) hn
  · rw [bit_firstWord h, if_pos ⟨by omega, by omega⟩, Nat.add_sub_cancel_left, hv i hi]
  · rw [bit_firstWord h, if_neg (by omega)]

/-- The loop after a first word, when the source is `k` bits behind the destination. -/
theorem copied_loop {k : Nat} {step : BitVec 32 → BitVec 32 → BitVec 32 × BitVec 32}
    {noInput : CopyState → Except JavaExn CopyState} {v last : BitVec 32} {n : Int}
    (hstep : Carries k step) (hnoInput : k = 0 ∨ noInput = writeLastValue)
    (hk : slice.offset % 8 + k = m.curDestBitIdx) (hlong : srcIntBufLen slice ≠ 1)
    (hv : ∀ j < 32, v.getLsbD j = m.target src pos slice j)
    (hlast : ∀ j < k, last.getLsbD j = m.target src pos slice (32 + j))
    (hzero : ∀ j, k ≤ j → last.getLsbD j = false)
    (hn : n = zeros (m.target src pos slice) m.curDestBitIdx (32 - m.curDestBitIdx)) :
    ∃ st', copyInts src pos (srcIntBufLen slice) step noInput
        { dest := overwrite m.dest m.curDestIntIdx (wordBytes v)
          curDestIntIdx := m.curDestIntIdx + 4
          curSrcIntIdx := pos + 4
          leftRowCount := slice.rowCount - (32 - m.curDestBitIdx)
          nullCount := n
          lastValue := last
          lastOutput := 0 } = .ok st' ∧
      Copied m src pos slice st'.dest st'.correctedNullCount := by
  have hbit := m.curDestBitIdx_lt
  have hrows := h.rows
  have hdest := curDest_le h
  have hsource := h.source_le
  have hint := h.isInt
  have hN := srcIntBufLen_eq h
  rw [hN] at hlong
  have hinv : CopyInv src pos (srcIntBufLen slice) k (m.target src pos slice) 1
      (slice.rowCount - (32 - m.curDestBitIdx)) (srcIntBufLen slice - 1)
      { dest := overwrite m.dest m.curDestIntIdx (wordBytes v)
        curDestIntIdx := m.curDestIntIdx + 4
        curSrcIntIdx := pos + 4
        leftRowCount := slice.rowCount - (32 - m.curDestBitIdx)
        nullCount := n
        lastValue := last
        lastOutput := 0 } := by
    refine ⟨?_, ?_, Nat.le_add_right _ _, hlast, hzero, fun i => ?_, by omega, by omega, ?_, ?_, ?_⟩
    · show (slice.rowCount : Int) - (32 - m.curDestBitIdx) = _
      omega
    · show srcIntBufLen slice - (pos + 4 - pos) / 4 = _
      omega
    · show bit src (8 * (pos + 4) + i) = _
      rw [target_of_le (by omega)]
      congr 1
      omega
    · show m.curDestIntIdx + 4 + _ ≤ (overwrite _ _ _).length
      rw [length_firstWord h]
      omega
    · show pos + 4 + _ ≤ _
      omega
    · show pos + 4 + _ < _
      omega
  obtain ⟨st', hrun, hdone⟩ := copyInts_spec (by omega) hstep hnoInput hinv
  refine ⟨st', hrun, copied_of_target ?_ (fun i hi => ?_) (fun i hi => ?_) ?_⟩
  · rw [hdone.length]
    exact length_firstWord h v
  · -- the first word, or the ones behind it
    by_cases hi' : i < 32
    · have hkept := hdone.frame (8 * m.curDestIntIdx + i) (Or.inl (by dsimp only; omega))
      rw [hkept, bit_firstWord h, if_pos ⟨by omega, by omega⟩, Nat.add_sub_cancel_left, hv i hi']
    · have hpos : 8 * m.curDestIntIdx + i = 8 * (m.curDestIntIdx + 4) + (i - 32) := by omega
      have hnew := hdone.bits (i - 32) (by omega)
      dsimp only at hnew
      rw [hpos, hnew]
      congr 1
      omega
  · have hkept := hdone.frame i (by dsimp only; omega)
    rw [hkept, bit_firstWord h, if_neg (by omega)]
  · have hsplit : zeros (m.target src pos slice) m.curDestBitIdx slice.rowCount =
        zeros (m.target src pos slice) m.curDestBitIdx (32 - m.curDestBitIdx) +
          zeros (m.target src pos slice) 32
            (slice.rowCount - (32 - m.curDestBitIdx)) := by
      have hbound : m.curDestBitIdx + (32 - m.curDestBitIdx) = 32 := by omega
      have hadd := zeros_add (f := m.target src pos slice) (a := m.curDestBitIdx)
        (n := 32 - m.curDestBitIdx) (m := slice.rowCount - (32 - m.curDestBitIdx))
      rw [hbound] at hadd
      rw [← hadd]
      congr 1
      omega
    rw [hdone.nullCount, hsplit, hn]
    push_cast
    rfl

end

/-- The source's bits moved up to the destination's bit. -/
theorem getLsbD_moved {j : Nat} (hj : j < 32) :
    (shl (ushr (word src pos) (slice.offset % 8 : Nat)) m.curDestBitIdx).getLsbD j =
      (decide (m.curDestBitIdx ≤ j ∧ slice.offset % 8 + (j - m.curDestBitIdx) < 32) &&
        m.target src pos slice j) := by
  rw [getLsbD_shl rfl m.curDestBitIdx_lt hj, getLsbD_ushr rfl (by omega)]
  by_cases h : m.curDestBitIdx ≤ j
  · rw [decide_eq_true h, Bool.true_and, target_of_le h]
    by_cases h' : slice.offset % 8 + (j - m.curDestBitIdx) < 32
    · rw [decide_eq_true ⟨h, h'⟩, Bool.true_and, getLsbD_word h']
      congr 1
      omega
    · rw [decide_eq_false (by omega), Bool.false_and]
      exact BitVec.getLsbD_of_ge _ _ (by omega)
  · rw [decide_eq_false h, decide_eq_false (by omega), Bool.false_and, Bool.false_and]

variable (src pos slice) in
/-- The bits of the rows before the slice, which every case keeps. -/
theorem getLsbD_destBits {j : Nat} (hj : j < 32) :
    (word m.dest m.curDestIntIdx &&& (shl 1 m.curDestBitIdx - 1)).getLsbD j =
      (decide (j < m.curDestBitIdx) && m.target src pos slice j) := by
  rw [BitVec.getLsbD_and, getLsbD_lowMask rfl m.curDestBitIdx_lt, getLsbD_word hj]
  by_cases h : j < m.curDestBitIdx
  · rw [decide_eq_true h, Bool.and_true, Bool.true_and, target_of_lt h]
  · rw [decide_eq_false h, Bool.and_false, Bool.false_and]

/-- A word whose last `rowCount` bits are those of a slice that ends in its first word. -/
theorem bitCount_slice {v : BitVec 32} (hrows : slice.rowCount ≤ 32)
    (hv : ∀ j < 32, v.getLsbD j = (decide (32 - slice.rowCount ≤ j) &&
      bit src (8 * pos + slice.offset % 8 + (j - (32 - slice.rowCount))))) :
    (slice.rowCount : Int) - bitCount v =
      zeros (m.target src pos slice) m.curDestBitIdx slice.rowCount := by
  have hcount : bitCount v + zeros (bit src) (8 * pos + slice.offset % 8)
      slice.rowCount = slice.rowCount := by
    refine bitCount_add_zeros (j := 32 - slice.rowCount) (by omega) (fun i hi => ?_)
      fun i hi hi' => ?_
    · rw [hv _ (by omega), decide_eq_true (by omega), Bool.true_and, Nat.add_sub_cancel_left]
    · rw [hv _ hi, decide_eq_false (by omega), Bool.false_and]
  rw [zeros_target]
  omega

/-- A slice that ends in its first word, whose bits from the slice's first on are those of `w`. -/
theorem bitCount_shl {w : BitVec 32} {k : Int} (hrows : 0 < slice.rowCount)
    (hk : k = 32 - (slice.offset % 8 : Nat) - slice.rowCount) (hfit : slice.offset % 8 + slice.rowCount ≤ 32)
    (hw : ∀ j < 32, w.getLsbD j = (decide (slice.offset % 8 ≤ j) && bit src (8 * pos + j))) :
    (slice.rowCount : Int) - bitCount (shl w k) =
      zeros (m.target src pos slice) m.curDestBitIdx slice.rowCount :=
  bitCount_slice (by omega) fun j hj => by
    rw [getLsbD_shl (k := 32 - slice.offset % 8 - slice.rowCount) (by omega) (by omega) hj, hw _ (by omega)]
    by_cases hj' : 32 - slice.rowCount ≤ j
    · rw [decide_eq_true (by omega), decide_eq_true (by omega), decide_eq_true hj', Bool.true_and,
        Bool.true_and, Bool.true_and]
      congr 1
      omega
    · rw [decide_eq_false hj', Bool.false_and, ← Bool.and_assoc, ← Bool.decide_and,
        decide_eq_false (by omega), Bool.false_and]

/-- The bits of the slice in the current word, next to those of the rows before it. -/
theorem getLsbD_or_destBits {w : BitVec 32}
    (hw : ∀ j < 32, w.getLsbD j = (decide (m.curDestBitIdx ≤ j) && m.target src pos slice j))
    {j : Nat} (hj : j < 32) :
    (w ||| word m.dest m.curDestIntIdx &&& (shl 1 m.curDestBitIdx - 1)).getLsbD j =
      m.target src pos slice j := by
  rw [BitVec.getLsbD_or, hw j hj, getLsbD_destBits src pos slice hj, ← Bool.and_or_distrib_right,
    ← Bool.decide_or, decide_eq_true (by omega), Bool.true_and]

/-- The null rows of the slice in the current word are those without a bit. -/
theorem bitCount_firstWord {w : BitVec 32}
    (hw : ∀ j < 32, w.getLsbD j = (decide (m.curDestBitIdx ≤ j) && m.target src pos slice j)) :
    bitCount w + zeros (m.target src pos slice) m.curDestBitIdx (32 - m.curDestBitIdx) =
      32 - m.curDestBitIdx := by
  have hd := m.curDestBitIdx_lt
  refine bitCount_add_zeros (j := m.curDestBitIdx) (by omega) (fun i hi => ?_) fun i hi hi' => ?_
  · rw [hw _ (by omega), decide_eq_true (Nat.le_add_right _ _), Bool.true_and]
  · rw [hw _ hi, decide_eq_false (by omega), Bool.false_and]

theorem copySourceCaseOne_spec (h : CanCopy m src pos slice)
    (hlt : slice.offset % 8 < m.curDestBitIdx) :
    ∃ dest n, m.copySourceCaseOne src pos slice = .ok (dest, n) ∧
      Copied m src pos slice dest n := by
  have hd := m.curDestBitIdx_lt
  have hrows := h.rows
  have hdest := curDest_le h
  have hN := srcIntBufLen_eq h
  -- the source's bits fill the first word of the destination
  have hin : ∀ j < 32, (shl (ushr (word src pos) (slice.offset % 8 : Nat)) m.curDestBitIdx).getLsbD j =
      (decide (m.curDestBitIdx ≤ j) && m.target src pos slice j) := by
    intro j hj
    have hiff : m.curDestBitIdx ≤ j ∧ slice.offset % 8 + (j - m.curDestBitIdx) < 32 ↔
        m.curDestBitIdx ≤ j := by omega
    rw [getLsbD_moved hj, decide_eq_decide.2 hiff]
  unfold copySourceCaseOne
  rw [SliceInfo.beginBit_eq]
  simp only [getInt_first h, getIntSafe_eq, setInt_first h, ok_bind]
  by_cases hone : srcIntBufLen slice = 1
  · have hshort : slice.offset % 8 + slice.rowCount ≤ 32 := by omega
    have hn : (slice.rowCount : Int) -
        bitCount (shl (ushr (word src pos) (slice.offset % 8 : Nat))
          ((slice.offset % 8 : Nat) + (32 - (slice.offset % 8 : Nat) - slice.rowCount))) =
        zeros (m.target src pos slice) m.curDestBitIdx slice.rowCount :=
      bitCount_slice (by omega) fun j hj => by
        rw [getLsbD_shl (k := 32 - slice.rowCount) (by omega) (by omega) hj,
          getLsbD_ushr rfl (by omega)]
        by_cases hj' : 32 - slice.rowCount ≤ j
        · rw [getLsbD_word (by omega)]
          congr 2
          omega
        · rw [decide_eq_false hj', Bool.false_and, Bool.false_and]
    have hleft : ¬(32 - ((slice.offset % 8 : Nat) : Int) - slice.rowCount < 0) := by omega
    rw [if_pos hone, if_neg hleft]
    by_cases hfit : slice.rowCount + m.curDestBitIdx > 32
    · -- the rows that do not fit in the first word
      have hspill : ∀ j < m.curDestBitIdx + slice.rowCount - 32,
          (ushr (word src pos)
            ((slice.offset % 8 : Nat) + 32 - m.curDestBitIdx)).getLsbD j =
            m.target src pos slice (32 + j) := by
        intro j hj
        rw [getLsbD_ushr (k := slice.offset % 8 + 32 - m.curDestBitIdx) (by omega) (by omega),
          getLsbD_word (by omega), target_of_le (by omega)]
        congr 1
        omega
      have hlen := length_firstWord h (shl (ushr (word src pos)
        (slice.offset % 8 : Nat)) m.curDestBitIdx |||
          word m.dest m.curDestIntIdx &&& (shl 1 m.curDestBitIdx - 1))
      rw [if_pos hfit, setInt_of_le (by rw [hlen]; omega)]
      rw [ok_bind, copyResult_of_zeros h (by rw [hn, zeros_target])]
      refine ⟨_, _, rfl, copied_of_target ?_ (fun i hi => ?_) (fun i hi => ?_) hn⟩
      · rw [length_overwrite (by rw [hlen, length_wordBytes]; omega), hlen]
      · rw [bit_overwrite (by rw [hlen, length_wordBytes]; omega), length_wordBytes,
          bit_firstWord h]
        by_cases hi' : i < 32
        · rw [if_neg (by omega), if_pos ⟨by omega, by omega⟩, Nat.add_sub_cancel_left,
            getLsbD_or_destBits hin hi']
        · have hpos : 8 * m.curDestIntIdx + i - 8 * (m.curDestIntIdx + 4) = i - 32 := by omega
          rw [if_pos ⟨by omega, by omega⟩, hpos, bit_wordBytes _ (by omega), hspill _ (by omega)]
          congr 1
          omega
      · rw [bit_overwrite (by rw [hlen, length_wordBytes]; omega), length_wordBytes,
          bit_firstWord h, if_neg (by omega), if_neg (by omega)]
    · rw [if_neg hfit, copyResult_of_zeros h (by rw [hn, zeros_target])]
      exact ⟨_, _, rfl, copied_firstWord h (by omega) (fun j hj => getLsbD_or_destBits hin (by omega)) hn⟩
  · rw [if_neg hone]
    have hmasked : ∀ j < 32, (shl (ushr (word src pos) (slice.offset % 8 : Nat)) m.curDestBitIdx &&&
        ~~~(shl 1 m.curDestBitIdx - 1)).getLsbD j =
          (decide (m.curDestBitIdx ≤ j) && m.target src pos slice j) := by
      intro j hj
      rw [BitVec.getLsbD_and, hin j hj, BitVec.getLsbD_not, getLsbD_lowMask rfl hd, decide_eq_true hj,
        Bool.true_and, ← decide_not, decide_eq_decide.2 Nat.not_lt, Bool.and_right_comm, Bool.and_self]
    have hcount := bitCount_firstWord hmasked
    have hshift : 32 - ((m.curDestBitIdx : Int) - (slice.offset % 8 : Nat)) =
        ((32 - m.curDestBitIdx + slice.offset % 8 : Nat) : Int) := by omega
    have hstep : Carries (m.curDestBitIdx - slice.offset % 8)
        (carryStep (m.curDestBitIdx - (slice.offset % 8 : Nat))
          (32 - (m.curDestBitIdx - (slice.offset % 8 : Nat)))) :=
      carries_carryStep (by omega) rfl (by omega) (by omega)
    -- the bits of the first word of the source that the second word of the destination starts with
    have hlast : ∀ j < m.curDestBitIdx - slice.offset % 8,
        (ushr (word src pos)
          (32 - (m.curDestBitIdx - (slice.offset % 8 : Nat)))).getLsbD j =
          m.target src pos slice (32 + j) := by
      intro j hj
      rw [getLsbD_ushr hshift (by omega), getLsbD_word (by omega), target_of_le (by omega)]
      congr 1
      omega
    have hzero : ∀ j, m.curDestBitIdx - slice.offset % 8 ≤ j →
        (ushr (word src pos)
          (32 - (m.curDestBitIdx - (slice.offset % 8 : Nat)))).getLsbD j = false := by
      intro j hj
      rw [getLsbD_ushr hshift (by omega)]
      exact BitVec.getLsbD_of_ge _ _ (by omega)
    obtain ⟨st', hrun, hcopied⟩ := copied_loop (n := 32 - m.curDestBitIdx -
      bitCount (shl (ushr (word src pos) (slice.offset % 8 : Nat)) m.curDestBitIdx &&&
        ~~~(shl 1 m.curDestBitIdx - 1)))
      h hstep (Or.inr rfl) (by omega) hone (fun _ => getLsbD_or_destBits hin) hlast hzero (by omega)
    rw [hrun, ok_bind, copyResult_of_zeros h hcopied.nullCount]
    exact ⟨_, _, rfl, hcopied⟩

/-- The loop when the source is ahead of the destination: it writes the first word as well. -/
theorem copied_loop_caseTwo {last : BitVec 32} {n : Int} (h : CanCopy m src pos slice)
    (hlt : m.curDestBitIdx < slice.offset % 8)
    (hlast : ∀ j < 32, last.getLsbD j =
      (decide (j < 32 - (slice.offset % 8 - m.curDestBitIdx)) &&
        m.target src pos slice j))
    (hn : n = -(zeros (m.target src pos slice) 0 m.curDestBitIdx : Int)) :
    ∃ st', copyInts src pos (srcIntBufLen slice)
        (carryStep (32 - ((slice.offset % 8 : Nat) - m.curDestBitIdx))
          ((slice.offset % 8 : Nat) - m.curDestBitIdx))
        writeLastValue
        { dest := m.dest
          curDestIntIdx := m.curDestIntIdx
          curSrcIntIdx := pos + 4
          leftRowCount := javaInt (slice.rowCount + m.curDestBitIdx)
          nullCount := n
          lastValue := last
          lastOutput := 0 } = .ok st' ∧
      Copied m src pos slice st'.dest st'.correctedNullCount := by
  have hrows := h.rows
  have hsource := h.source_le
  have hint := h.isInt
  have hN := srcIntBufLen_eq h
  -- the rows before the slice in the first word are fewer than those of the source
  have hlast' : slice.offset + slice.rowCount ≤ 2 ^ 31 := h.lastRow
  have hwrap : javaInt (slice.rowCount + m.curDestBitIdx) =
      ((m.curDestBitIdx + slice.rowCount : Nat) : Int) := by
    rw [javaInt_of_bounds (by omega) (by unfold intMax; omega)]
    omega
  rw [hwrap]
  clear hwrap
  have hinv : CopyInv src pos (srcIntBufLen slice)
      (32 - (slice.offset % 8 - m.curDestBitIdx)) (m.target src pos slice) 0
      (m.curDestBitIdx + slice.rowCount) (srcIntBufLen slice - 1)
      { dest := m.dest
        curDestIntIdx := m.curDestIntIdx
        curSrcIntIdx := pos + 4
        leftRowCount := ((m.curDestBitIdx + slice.rowCount : Nat) : Int)
        nullCount := n
        lastValue := last
        lastOutput := 0 } := by
    refine ⟨rfl, ?_, Nat.le_add_right _ _, fun j hj => ?_, fun j hj => ?_, fun i => ?_, by omega,
      by omega, curDest_le h, ?_, ?_⟩
    · show srcIntBufLen slice - (pos + 4 - pos) / 4 = _
      omega
    · show last.getLsbD j = _
      rw [hlast j (by omega), decide_eq_true hj, Bool.true_and, Nat.mul_zero, Nat.zero_add]
    · show last.getLsbD j = _
      by_cases hj' : j < 32
      · rw [hlast j hj', decide_eq_false (by omega), Bool.false_and]
      · exact BitVec.getLsbD_of_ge _ _ (by omega)
    · show bit src (8 * (pos + 4) + i) = _
      rw [target_of_le (by omega)]
      refine congrArg (bit src) ?_
      omega
    · show pos + 4 + _ ≤ _
      omega
    · show pos + 4 + _ < _
      omega
  have hstep : Carries (32 - (slice.offset % 8 - m.curDestBitIdx))
      (carryStep (32 - ((slice.offset % 8 : Nat) - m.curDestBitIdx))
        ((slice.offset % 8 : Nat) - m.curDestBitIdx)) :=
    carries_carryStep (by omega) (by omega) (by omega) (by omega)
  obtain ⟨st', hrun, hdone⟩ := copyInts_spec (by omega) hstep (Or.inr rfl) hinv
  refine ⟨st', hrun, copied_of_target hdone.length (fun i hi => ?_) (fun i hi => hdone.frame i hi) ?_⟩
  · rw [hdone.bits i hi, Nat.mul_zero, Nat.zero_add]
  · rw [hdone.nullCount, Nat.mul_zero, zeros_add, Nat.zero_add, hn]
    push_cast
    omega

theorem copySourceCaseTwo_spec (h : CanCopy m src pos slice)
    (hlt : m.curDestBitIdx < slice.offset % 8) :
    ∃ dest n, m.copySourceCaseTwo src pos slice = .ok (dest, n) ∧
      Copied m src pos slice dest n := by
  have hrows := h.rows
  have hN := srcIntBufLen_eq h
  have hd := m.curDestBitIdx_lt
  -- the first word has the bits that its two parts have: the source's end before the word's
  have hv : ∀ j < 32, (word m.dest m.curDestIntIdx &&& (shl 1 m.curDestBitIdx - 1) |||
      shl (ushr (word src pos) (slice.offset % 8 : Nat)) m.curDestBitIdx).getLsbD j =
        (decide (j < 32 - (slice.offset % 8 - m.curDestBitIdx)) &&
          m.target src pos slice j) := by
    intro j hj
    have hiff : j < m.curDestBitIdx ∨ m.curDestBitIdx ≤ j ∧
        slice.offset % 8 + (j - m.curDestBitIdx) < 32 ↔
          j < 32 - (slice.offset % 8 - m.curDestBitIdx) := by omega
    rw [BitVec.getLsbD_or, getLsbD_moved hj, getLsbD_destBits src pos slice hj, ← Bool.and_or_distrib_right, ← Bool.decide_or,
      decide_eq_decide.2 hiff]
  unfold copySourceCaseTwo
  rw [SliceInfo.beginBit_eq]
  simp only [getInt_first h, getIntSafe_eq, setInt_first h, ok_bind]
  by_cases hone : srcIntBufLen slice = 1
  · have hleft : ¬(32 - ((slice.offset % 8 : Nat) : Int) - slice.rowCount < 0) := by omega
    have hn : (slice.rowCount : Int) -
        bitCount (shl (word src pos &&& -(shl 1 (slice.offset % 8 : Nat)))
          (32 - (slice.offset % 8 : Nat) - slice.rowCount)) =
        zeros (m.target src pos slice) m.curDestBitIdx slice.rowCount :=
      bitCount_shl hrows rfl (by omega) fun j hj => by
        rw [BitVec.getLsbD_and, getLsbD_highMask rfl (by omega) hj, getLsbD_word hj, Bool.and_comm]
    rw [if_pos hone, if_neg hleft, copyResult_of_zeros h (by rw [hn, zeros_target])]
    refine ⟨_, _, rfl, copied_firstWord h (by omega) (fun j hj => ?_) hn⟩
    rw [hv j (by omega), decide_eq_true (by omega), Bool.true_and]
  · rw [if_neg hone]
    have hcount : bitCount (word m.dest m.curDestIntIdx &&& (shl 1 m.curDestBitIdx - 1)) +
        zeros (m.target src pos slice) 0 m.curDestBitIdx = m.curDestBitIdx := by
      refine bitCount_add_zeros (j := 0) (by omega) (fun i hi => ?_) fun i hi hi' => ?_
      · rw [Nat.zero_add, getLsbD_destBits src pos slice (by omega), decide_eq_true hi, Bool.true_and]
      · rw [getLsbD_destBits src pos slice hi,
          decide_eq_false (by omega), Bool.false_and]
    obtain ⟨st', hrun, hcopied⟩ := copied_loop_caseTwo (n := -(m.curDestBitIdx -
      (bitCount (word m.dest m.curDestIntIdx &&& (shl 1 m.curDestBitIdx - 1)) : Int)))
      h hlt hv (by omega)
    rw [hrun, ok_bind, copyResult_of_zeros h hcopied.nullCount]
    exact ⟨_, _, rfl, hcopied⟩

theorem copySourceCaseThree_spec (h : CanCopy m src pos slice)
    (heq : slice.offset % 8 = m.curDestBitIdx) :
    ∃ dest n, m.copySourceCaseThree src pos slice = .ok (dest, n) ∧
      Copied m src pos slice dest n := by
  have hrows := h.rows
  have hN := srcIntBufLen_eq h
  have hd := m.curDestBitIdx_lt
  -- the source's bits of the first word
  have hsource : ∀ j < 32, (word src pos &&& ~~~(shl 1 m.curDestBitIdx - 1)).getLsbD j =
      (decide (slice.offset % 8 ≤ j) && bit src (8 * pos + j)) := by
    intro j hj
    rw [BitVec.getLsbD_and, BitVec.getLsbD_not, getLsbD_lowMask rfl hd, decide_eq_true hj, Bool.true_and,
      getLsbD_word hj, heq, Bool.and_comm, ← decide_not, decide_eq_decide.2 Nat.not_lt]
  have hin : ∀ j < 32, (word src pos &&& ~~~(shl 1 m.curDestBitIdx - 1)).getLsbD j =
      (decide (m.curDestBitIdx ≤ j) && m.target src pos slice j) := by
    intro j hj
    rw [hsource j hj, heq]
    by_cases hj' : m.curDestBitIdx ≤ j
    · rw [target_of_le hj']
      congr 2
      omega
    · rw [decide_eq_false hj', Bool.false_and, Bool.false_and]
  unfold copySourceCaseThree
  rw [SliceInfo.beginBit_eq]
  simp only [getInt_first h, getIntSafe_eq, setInt_first h, ok_bind]
  by_cases hone : srcIntBufLen slice = 1
  · have hleft : ¬(32 - ((slice.offset % 8 : Nat) : Int) - slice.rowCount < 0) := by omega
    have hn : (slice.rowCount : Int) -
        bitCount (shl (word src pos &&& ~~~(shl 1 m.curDestBitIdx - 1))
          (32 - (slice.offset % 8 : Nat) - slice.rowCount)) =
        zeros (m.target src pos slice) m.curDestBitIdx slice.rowCount := bitCount_shl hrows rfl (by omega) hsource
    rw [if_pos hone, if_neg hleft, copyResult_of_zeros h (by rw [hn, zeros_target])]
    exact ⟨_, _, rfl, copied_firstWord h (by omega) (fun j hj => getLsbD_or_destBits hin (by omega)) hn⟩
  · rw [if_neg hone]
    have hcount := bitCount_firstWord hin
    have hzero : ∀ j, 0 ≤ j → (0 : BitVec 32).getLsbD j = false := fun j _ => BitVec.getLsbD_zero
    rw [heq]
    obtain ⟨st', hrun, hcopied⟩ := copied_loop (n := 32 - m.curDestBitIdx -
        bitCount (word src pos &&& ~~~(shl 1 m.curDestBitIdx - 1)))
      h carries_sameStep (Or.inl rfl) (by omega) hone (fun _ => getLsbD_or_destBits hin)
      (fun j hj => absurd hj (Nat.not_lt_zero j)) hzero (by omega)
    rw [hrun, ok_bind, copyResult_of_zeros h hcopied.nullCount]
    exact ⟨_, _, rfl, hcopied⟩

/-- The three cases together. -/
theorem copied_copyValidityBuffer (h : CanCopy m src pos slice) :
    ∃ dest n, m.copyValidityBuffer src pos slice = .ok
        ({ m with
          dest
          totalRowCount := m.totalRowCount + slice.rowCount
          totalNullCount := m.totalNullCount + n }, n) ∧
      Copied m src pos slice dest n := by
  have hrows := h.rows
  unfold copyValidityBuffer
  rw [if_neg (by omega), SliceInfo.beginBit_eq]
  rcases Nat.lt_trichotomy (slice.offset % 8) m.curDestBitIdx with hlt | heq | hgt
  · obtain ⟨dest, n, hrun, hcopied⟩ := copySourceCaseOne_spec h hlt
    exact ⟨dest, n, by rw [if_pos hlt, hrun]; rfl, hcopied⟩
  · obtain ⟨dest, n, hrun, hcopied⟩ := copySourceCaseThree_spec h heq
    exact ⟨dest, n, by rw [if_neg (by omega), if_neg (by omega), hrun]; rfl, hcopied⟩
  · obtain ⟨dest, n, hrun, hcopied⟩ := copySourceCaseTwo_spec h hgt
    exact ⟨dest, n, by rw [if_neg (by omega), if_pos hgt, hrun]; rfl, hcopied⟩

/-! ### Appending rows that are all valid -/

/-- `n` ones from the word `cur` on, in whole words: the rest of the last one is set as well, or
not. -/
theorem fillOnes_spec {n cur : Nat} {dest : List Byte}
    (hdest : cur + 4 * ((n + 31) / 32) ≤ dest.length) :
    ∃ dest', fillOnes dest cur n = .ok dest' ∧ dest'.length = dest.length ∧
      (∀ i < n, bit dest' (8 * cur + i) = true) ∧
      ∀ i, i < 8 * cur ∨ 8 * cur + 32 * ((n + 31) / 32) ≤ i → bit dest' i = bit dest i := by
  have hbuf : 0 < bufLength := by decide
  have hones : ∀ j < 32, (BitVec.allOnes 32).getLsbD j = true := fun j hj => by
    rw [BitVec.getLsbD_allOnes, decide_eq_true hj]
  induction n using Nat.strong_induction_on generalizing cur dest with
  | _ n ih =>
    rw [fillOnes]
    by_cases hn : 0 < n
    · by_cases hlast : min (n / 32) bufLength = 0
      · -- the last word
        have hone : (n + 31) / 32 = 1 := by omega
        rw [hone] at hdest ⊢
        rw [if_pos hn, if_pos hlast, setInt_of_le hdest]
        refine ⟨_, rfl, length_overwrite hdest, fun i hi => ?_, fun i hi => ?_⟩
        · rw [bit_overwrite hdest, length_wordBytes, if_pos ⟨by omega, by omega⟩,
            bit_wordBytes _ (by omega), hones _ (by omega)]
        · rw [bit_overwrite hdest, length_wordBytes, if_neg (by omega)]
      · have hlen : (wordsBytes (List.replicate (min (n / 32) bufLength) (BitVec.allOnes 32))).length =
            4 * min (n / 32) bufLength := by
          rw [length_wordsBytes, List.length_replicate]
        have hfit : cur + 4 * min (n / 32) bufLength ≤ dest.length := by omega
        rw [if_pos hn, if_neg hlast, setInts_of_le (by rw [List.length_replicate]; exact hfit), ok_bind]
        have hdest' : cur + min (n / 32) bufLength * 4 +
            4 * ((n - 32 * min (n / 32) bufLength + 31) / 32) ≤ (overwrite dest cur
              (wordsBytes (List.replicate (min (n / 32) bufLength) (BitVec.allOnes 32)))).length := by
          rw [length_overwrite (by rw [hlen]; exact hfit)]
          omega
        obtain ⟨dest', hrun, hlength, hbits, hframe⟩ :=
          ih (n - 32 * min (n / 32) bufLength) (by omega) hdest'
        refine ⟨dest', hrun, ?_, fun i hi => ?_, fun i hi => ?_⟩
        · rw [hlength, length_overwrite (by rw [hlen]; exact hfit)]
        · by_cases hi' : i < 32 * min (n / 32) bufLength
          · have hget : (List.replicate (min (n / 32) bufLength) (BitVec.allOnes 32)).getD (i / 32) 0 =
                BitVec.allOnes 32 := List.getD_replicate _ (by omega)
            rw [hframe _ (Or.inl (by omega)), bit_overwrite (by rw [hlen]; exact hfit), hlen,
              if_pos ⟨by omega, by omega⟩, Nat.add_sub_cancel_left,
              bit_wordsBytes _ (by rw [List.length_replicate]; omega), hget, hones _ (by omega)]
          · have hpos : 8 * cur + i = 8 * (cur + min (n / 32) bufLength * 4) +
                (i - 32 * min (n / 32) bufLength) := by omega
            rw [hpos, hbits _ (by omega)]
        · rw [hframe _ (by omega), bit_overwrite (by rw [hlen]; exact hfit), hlen,
            if_neg (by omega)]
    · rw [if_neg hn]
      exact ⟨dest, rfl, rfl, fun i hi => absurd hi (by omega), fun _ _ => rfl⟩

/-- What `appendAllValid` has to leave behind. -/
structure Appended (m : ValidityBufferMerger) (numRows : Nat) (dest : List Byte) : Prop where
  length : dest.length = m.dest.length
  bits : ∀ i < numRows, bit dest (8 * m.destOffset + m.totalRowCount + i) = true
  kept : ∀ i < 8 * m.destOffset + m.totalRowCount, bit dest i = bit m.dest i
  frame : ∀ i, 8 * m.destOffset + 32 * ((m.totalRowCount + numRows + 31) / 32) ≤ i →
    bit dest i = bit m.dest i

theorem appended_appendAllValid {numRows : Nat} (hrows : 0 < numRows)
    (hdest : m.destOffset + 4 * ((m.totalRowCount + numRows + 31) / 32) ≤ m.dest.length) :
    ∃ dest, m.appendAllValid numRows =
        .ok { m with dest, totalRowCount := m.totalRowCount + numRows } ∧
      Appended m numRows dest := by
  have hd := m.curDestBitIdx_lt
  have hcur := m.curDest_eq
  have hdest' : m.curDestIntIdx + 4 * ((m.curDestBitIdx + numRows + 31) / 32) ≤ m.dest.length := by
    unfold curDestIntIdx curDestBitIdx
    omega
  have hfirst : m.curDestIntIdx + 4 ≤ m.dest.length := by omega
  have hleft : ((numRows : Int) - (32 - m.curDestBitIdx)).toNat =
      numRows - (32 - m.curDestBitIdx) := by omega
  -- the first word: the rows before, and then ones
  have hword : ∀ j < 32, (word m.dest m.curDestIntIdx ||| -(shl 1 m.curDestBitIdx)).getLsbD j =
      (bit m.dest (8 * m.curDestIntIdx + j) || decide (m.curDestBitIdx ≤ j)) := by
    intro j hj
    rw [BitVec.getLsbD_or, getLsbD_word hj, getLsbD_highMask rfl hd hj]
  have hrest : m.curDestIntIdx + 4 + 4 * ((numRows - (32 - m.curDestBitIdx) + 31) / 32) ≤
      (overwrite m.dest m.curDestIntIdx
        (wordBytes (word m.dest m.curDestIntIdx ||| -(shl 1 m.curDestBitIdx)))).length := by
    rw [length_overwrite hfirst]
    omega
  obtain ⟨dest, hrun, hlen, hbits, hframe⟩ := fillOnes_spec hrest
  refine ⟨dest, ?_, ?_, fun i hi => ?_, fun i hi => ?_, fun i hi => ?_⟩
  · unfold appendAllValid
    rw [if_neg (by omega), getInt_of_le hfirst, ok_bind, setInt_of_le hfirst, ok_bind, hleft, hrun]
    rfl
  · rw [hlen, length_overwrite hfirst]
  · by_cases hi' : m.curDestBitIdx + i < 32
    · rw [hframe _ (Or.inl (by omega)), bit_overwrite hfirst, length_wordBytes,
        if_pos ⟨by omega, by omega⟩, bit_wordBytes _ (by omega), hword _ (by omega),
        decide_eq_true (by omega), Bool.or_true]
    · have hpos : 8 * m.destOffset + m.totalRowCount + i =
          8 * (m.curDestIntIdx + 4) + (m.curDestBitIdx + i - 32) := by omega
      rw [hpos, hbits _ (by omega)]
  · rw [hframe _ (Or.inl (by omega)), bit_overwrite hfirst, length_wordBytes]
    by_cases hlow : i < 8 * m.curDestIntIdx
    · rw [if_neg (by omega)]
    · rw [if_pos ⟨by omega, by omega⟩, bit_wordBytes _ (by omega), hword _ (by omega),
        decide_eq_false (by omega), Bool.or_false]
      congr 1
      omega
  · have hend : 8 * m.curDestIntIdx + 32 * ((m.curDestBitIdx + numRows + 31) / 32) ≤ i := by
      unfold curDestIntIdx curDestBitIdx
      omega
    rw [hframe _ (Or.inr (by omega)), bit_overwrite hfirst, length_wordBytes, if_neg (by omega)]

/-! ### The rows a merger has merged -/

/-- The merger has merged the validity `rows`. -/
structure Merged (m : ValidityBufferMerger) (rows : List Bool) : Prop where
  rowCount : m.totalRowCount = rows.length
  nullCount : m.totalNullCount = rows.count false
  bits : bits m.dest (8 * m.destOffset) rows.length = rows

theorem merged_new (dest : List Byte) (destOffset : Nat) :
    (ValidityBufferMerger.new dest destOffset).Merged [] := ⟨rfl, rfl, rfl⟩

theorem Merged.copyValidityBuffer {rows : List Bool} (hm : m.Merged rows)
    (h : CanCopy m src pos slice) :
    ∃ m' n, m.copyValidityBuffer src pos slice = .ok (m', n) ∧
      m'.Merged (rows ++ Bytes.bits src (8 * pos + slice.offset % 8) slice.rowCount) ∧
      m'.destOffset = m.destOffset ∧ m'.dest.length = m.dest.length ∧
      (∀ i < 8 * m.destOffset, bit m'.dest i = bit m.dest i) ∧
      (∀ i, 8 * m.destOffset + 32 * ((m.totalRowCount + slice.rowCount + 31) / 32) ≤ i →
        bit m'.dest i = bit m.dest i) ∧
      n = zeros (bit src) (8 * pos + slice.offset % 8) slice.rowCount := by
  obtain ⟨dest, n, hrun, hcopied⟩ := copied_copyValidityBuffer h
  have hrow := hm.rowCount
  refine ⟨_, n, hrun, ⟨?_, ?_, ?_⟩, rfl, hcopied.length, fun i hi => hcopied.kept i (by omega),
    hcopied.frame, hcopied.nullCount⟩
  · show m.totalRowCount + slice.rowCount = _
    rw [List.length_append, length_bits, hrow]
  · show m.totalNullCount + n = _
    rw [List.count_append, hm.nullCount, hcopied.nullCount]
    rfl
  · show Bytes.bits dest (8 * m.destOffset) _ = _
    have hold : Bytes.bits dest (8 * m.destOffset) rows.length = rows :=
      Eq.trans (bits_congr fun k hk => hcopied.kept _ (by omega)) hm.bits
    rw [List.length_append, length_bits, bits_add, hold]
    refine congrArg (rows ++ ·) (bits_congr fun k hk => ?_)
    rw [← hrow, hcopied.bits k hk]

theorem Merged.appendAllValid {rows : List Bool} {numRows : Nat} (hm : m.Merged rows)
    (hdest : m.destOffset + 4 * ((m.totalRowCount + numRows + 31) / 32) ≤ m.dest.length) :
    ∃ m', m.appendAllValid numRows = .ok m' ∧
      m'.Merged (rows ++ List.replicate numRows true) ∧
      m'.destOffset = m.destOffset ∧ m'.dest.length = m.dest.length ∧
      (∀ i < 8 * m.destOffset, bit m'.dest i = bit m.dest i) ∧
      ∀ i, 8 * m.destOffset + 32 * ((m.totalRowCount + numRows + 31) / 32) ≤ i →
        bit m'.dest i = bit m.dest i := by
  have hrow := hm.rowCount
  by_cases hrows : 0 < numRows
  · obtain ⟨dest, hrun, happ⟩ := appended_appendAllValid hrows hdest
    refine ⟨_, hrun, ⟨?_, ?_, ?_⟩, rfl, happ.length, fun i hi => happ.kept i (by omega), happ.frame⟩
    · show m.totalRowCount + numRows = _
      rw [List.length_append, List.length_replicate, hrow]
    · show m.totalNullCount = _
      have hnone : (List.replicate numRows true).count false = 0 := by
        rw [List.count_replicate]
        rfl
      rw [List.count_append, hnone, hm.nullCount, Nat.add_zero]
    · show Bytes.bits dest (8 * m.destOffset) _ = _
      have hold : Bytes.bits dest (8 * m.destOffset) rows.length = rows :=
        Eq.trans (bits_congr fun k hk => happ.kept _ (by omega)) hm.bits
      rw [List.length_append, List.length_replicate, bits_add, hold]
      refine congrArg (rows ++ ·) (window_const fun k hk => ?_)
      rw [← hrow, happ.bits k hk]
  · have hzero : numRows = 0 := by omega
    subst hzero
    refine ⟨m, if_pos (Int.le_refl 0), ?_, rfl, rfl, fun _ _ => rfl, fun _ _ => rfl⟩
    rw [List.replicate_zero, List.append_nil]
    exact hm

end ValidityBufferMerger

end SparkRapids.Kudo
