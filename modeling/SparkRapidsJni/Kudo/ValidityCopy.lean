import SparkRapidsJni.Kudo.ValidityMerger

/-!
# The copy loop of `ValidityBufferMerger`

A copy loop carries the bits of a word of the source that did not fit into the destination. What the
destination should hold is a function of the bit (`f`), so that the three loops, which differ in
the bits they carry and in how they end, have one invariant (`CopyInv`).
-/

namespace SparkRapids.Kudo

open Bytes HostMemoryBuffer

/-! ### One round -/

/-- What a step of a copy loop has to do, when `k` bits are carried: if the word `w` of the result
should start with the bits carried and the source goes on from there, then the step makes the word
`w` and carries the first bits of the next one. -/
def Carries (k : Nat) (step : BitVec 32 → BitVec 32 → BitVec 32 × BitVec 32) : Prop :=
  ∀ (f : Nat → Bool) (w : Nat) (last x : BitVec 32),
    (∀ j < k, last.getLsbD j = f (32 * w + j)) → (∀ j, k ≤ j → last.getLsbD j = false) →
    (∀ j < 32, x.getLsbD j = f (32 * w + k + j)) →
      (∀ j < 32, (step last x).1.getLsbD j = f (32 * w + j)) ∧
      (∀ j < k, (step last x).2.getLsbD j = f (32 * (w + 1) + j)) ∧
      ∀ j, k ≤ j → (step last x).2.getLsbD j = false

theorem carries_carryStep {k : Nat} {up down : Int} (hup : up = k) (hdown : down = 32 - up)
    (hk : 0 < k) (hk' : k < 32) : Carries k (carryStep up down) := by
  intro f w last x hlast hzero hx
  have hdown' : down = ((32 - k : Nat) : Int) := by omega
  refine ⟨fun j hj => ?_, fun j hj => ?_, fun j hj => ?_⟩
  · -- below bit `k` the bits carried, above it the source
    show (shl x up ||| last).getLsbD j = _
    rw [BitVec.getLsbD_or, getLsbD_shl hup hk' hj]
    by_cases h : k ≤ j
    · rw [decide_eq_true h, Bool.true_and, hzero j h, Bool.or_false, hx _ (by omega)]
      congr 1
      omega
    · rw [decide_eq_false h, Bool.false_and, Bool.false_or, hlast j (by omega)]
  · show (ushr x down).getLsbD j = _
    rw [getLsbD_ushr hdown' (by omega), hx _ (by omega)]
    congr 1
    omega
  · show (ushr x down).getLsbD j = _
    rw [getLsbD_ushr hdown' (by omega)]
    exact BitVec.getLsbD_of_ge _ _ (by omega)

theorem carries_sameStep : Carries 0 sameStep := by
  intro f w last x _ hzero hx
  refine ⟨fun j hj => ?_, fun j hj => absurd hj (Nat.not_lt_zero j), hzero⟩
  show x.getLsbD j = _
  rw [hx j hj, Nat.add_zero]

/-- What the inner loop makes of `xs`. -/
structure ChunkSpec (k : Nat) (f : Nat → Bool) (w n : Nat)
    (r : List (BitVec 32) × BitVec 32) : Prop where
  length : r.1.length = n
  bits : ∀ i < n, ∀ j < 32, (r.1.getD i 0).getLsbD j = f (32 * (w + i) + j)
  carried : ∀ j < k, r.2.getLsbD j = f (32 * (w + n) + j)
  zero : ∀ j, k ≤ j → r.2.getLsbD j = false
  nullCount : (r.1.map fun out => 32 - (bitCount out : Int)).sum = zeros f (32 * w) (32 * n)

/-- A word that is a whole window counts the set bits of it. -/
theorem bitCount_word {f : Nat → Bool} {v : BitVec 32} {a : Nat}
    (h : ∀ j < 32, v.getLsbD j = f (a + j)) : bitCount v + zeros f a 32 = 32 := by
  refine bitCount_add_zeros (j := 0) (Nat.le_refl 32) (fun k hk => ?_) fun k hk hk' => ?_
  · rw [Nat.zero_add]
    exact h k hk
  · omega

theorem copyChunk_spec {k : Nat} {step : BitVec 32 → BitVec 32 → BitVec 32 × BitVec 32}
    (hstep : Carries k step) {f : Nat → Bool} {w : Nat} {last : BitVec 32} {xs : List (BitVec 32)}
    (hlast : ∀ j < k, last.getLsbD j = f (32 * w + j)) (hzero : ∀ j, k ≤ j → last.getLsbD j = false)
    (hxs : ∀ i < xs.length, ∀ j < 32, (xs.getD i 0).getLsbD j = f (32 * (w + i) + k + j)) :
    ChunkSpec k f w xs.length (copyChunk step last xs) := by
  induction xs generalizing w last with
  | nil =>
    exact ⟨rfl, fun i hi => absurd hi (Nat.not_lt_zero i), hlast, hzero, rfl⟩
  | cons x xs ih =>
    obtain ⟨hout, hcarry, hcarry0⟩ := hstep f w last x hlast hzero (hxs 0 (by simp))
    -- the words behind the first, with the bits it carries
    have hrest := ih hcarry hcarry0 fun i hi j hj => by
      have h := hxs (i + 1) (by simpa using hi) j hj
      rw [List.getD_cons_succ] at h
      rw [h]
      congr 2
      omega
    have hcount := bitCount_word hout
    refine ⟨?_, fun i hi j hj => ?_, fun j hj => ?_, hrest.zero, ?_⟩
    · show (copyChunk step (step last x).2 xs).1.length + 1 = xs.length + 1
      rw [hrest.length]
    · cases i with
      | zero => exact hout j hj
      | succ i =>
        show ((copyChunk step (step last x).2 xs).1.getD i 0).getLsbD j = _
        rw [hrest.bits i (by simpa using hi) j hj]
        congr 2
        omega
    · show (copyChunk step (step last x).2 xs).2.getLsbD j = _
      rw [hrest.carried j hj, List.length_cons]
      congr 2
      omega
    · show (((step last x).1 :: (copyChunk step (step last x).2 xs).1).map _).sum = _
      have hsum := hrest.nullCount
      rw [List.map_cons, List.sum_cons]
      have hlen : 32 * (xs.length + 1) = 32 + 32 * xs.length := by omega
      have hw : 32 * (w + 1) = 32 * w + 32 := by omega
      rw [hsum, List.length_cons, hlen, zeros_add, hw]
      omega

/-- Where the loop stands before word `w` of the result: `L` bits are to be written, `M` words of the
source are left, and their bits follow the `k` bits carried. -/
structure CopyInv (src : List Byte) (srcOffset srcIntBufLen : Nat) (k : Nat) (f : Nat → Bool)
    (w L M : Nat) (st : CopyState) : Prop where
  left : st.leftRowCount = L
  words : srcIntBufLen - (st.curSrcIntIdx - srcOffset) / 4 = M
  srcOffset_le : srcOffset ≤ st.curSrcIntIdx
  carried : ∀ j < k, st.lastValue.getLsbD j = f (32 * w + j)
  zero : ∀ j, k ≤ j → st.lastValue.getLsbD j = false
  source : ∀ i, bit src (8 * st.curSrcIntIdx + i) = f (32 * w + k + i)
  enough : L ≤ 32 * M + k
  notMore : 32 * M < L + 32
  dest_le : st.curDestIntIdx + 4 * ((L + 31) / 32) ≤ st.dest.length
  source_le : st.curSrcIntIdx + 4 * M ≤ src.length + 4
  isInt : st.curSrcIntIdx + 4 * M < 2 ^ 31 + 4

/-- What the loop leaves behind: the `L` bits are written, only their words have changed, and the
corrected null count has gone up by the unset ones. -/
structure CopyDone (f : Nat → Bool) (w L : Nat) (st st' : CopyState) : Prop where
  length : st'.dest.length = st.dest.length
  bits : ∀ i < L, bit st'.dest (8 * st.curDestIntIdx + i) = f (32 * w + i)
  frame : ∀ i, i < 8 * st.curDestIntIdx ∨ 8 * st.curDestIntIdx + 32 * ((L + 31) / 32) ≤ i →
    bit st'.dest i = bit st.dest i
  nullCount : st'.correctedNullCount = st.nullCount + zeros f (32 * w) L

/-- The rows left fit in the bits carried: `writeLastValue` ends the loop. -/
theorem writeLastValue_spec {k L w : Nat} {f : Nat → Bool} {st : CopyState}
    (hk : k < 32) (hleft : st.leftRowCount = L) (hL : 0 < L) (hLk : L ≤ k)
    (hcarried : ∀ j < k, st.lastValue.getLsbD j = f (32 * w + j))
    (hdest : st.curDestIntIdx + 4 * ((L + 31) / 32) ≤ st.dest.length) :
    ∃ st', writeLastValue st = .ok st' ∧ CopyDone f w L st st' := by
  have hone : (L + 31) / 32 = 1 := by omega
  rw [hone] at hdest
  have hset : setInt st.dest st.curDestIntIdx st.lastValue =
      .ok (overwrite st.dest st.curDestIntIdx (wordBytes st.lastValue)) := setInt_of_le hdest _
  have hlen : st.curDestIntIdx + (wordBytes st.lastValue).length ≤ st.dest.length := hdest
  have hcount : bitCount (st.lastValue &&& (shl 1 st.leftRowCount - 1)) + zeros f (32 * w) L = L := by
    refine bitCount_add_zeros (j := 0) (by omega) (fun i hi => ?_) fun i hi hi' => ?_
    · rw [Nat.zero_add, BitVec.getLsbD_and, getLsbD_lowMask hleft (by omega), decide_eq_true hi,
        Bool.and_true, hcarried i (by omega)]
    · rw [BitVec.getLsbD_and, getLsbD_lowMask hleft (by omega), decide_eq_false (by omega),
        Bool.and_false]
  unfold writeLastValue
  rw [hset]
  refine ⟨_, rfl, length_overwrite hlen, fun i hi => ?_, fun i hi => ?_, ?_⟩
  · show bit (overwrite _ _ _) _ = _
    rw [bit_overwrite hlen, length_wordBytes, if_pos ⟨by omega, by omega⟩, Nat.add_sub_cancel_left,
      bit_wordBytes _ (by omega), hcarried i (by omega)]
  · show bit (overwrite _ _ _) _ = _
    rw [hone] at hi
    rw [bit_overwrite hlen, length_wordBytes, if_neg (by omega)]
  · unfold CopyState.correctedNullCount
    rw [if_neg (Int.lt_irrefl 0)]
    show st.nullCount + (st.leftRowCount - _) = _
    omega

section Loop

variable {k L M w srcOffset srcIntBufLen c : Nat} {f : Nat → Bool} {src : List Byte}
  {step : BitVec 32 → BitVec 32 → BitVec 32 × BitVec 32}
  {noInput : CopyState → Except JavaExn CopyState} {st : CopyState}

/-- The words one round reads. -/
def roundInput (src : List Byte) (st : CopyState) (c : Nat) : List (BitVec 32) :=
  (List.range c).map fun i => word src (st.curSrcIntIdx + 4 * i)

/-- The locals after a round that reads `c` words. -/
def roundState (step : BitVec 32 → BitVec 32 → BitVec 32 × BitVec 32) (src : List Byte)
    (st : CopyState) (c : Nat) : CopyState :=
  let chunk := copyChunk step st.lastValue (roundInput src st c)
  { dest := overwrite st.dest st.curDestIntIdx (wordsBytes chunk.1)
    curDestIntIdx := st.curDestIntIdx + c * 4
    curSrcIntIdx := st.curSrcIntIdx + c * 4
    leftRowCount := st.leftRowCount - 32 * c
    nullCount := st.nullCount + (chunk.1.map fun out => 32 - (bitCount out : Int)).sum
    lastValue := chunk.2
    lastOutput := chunk.1.getD (c - 1) 0 }

section

variable (hstep : Carries k step)
include hstep

theorem round_chunk (inv : CopyInv src srcOffset srcIntBufLen k f w L M st) (c : Nat) :
    ChunkSpec k f w c (copyChunk step st.lastValue (roundInput src st c)) := by
  have hlen : (roundInput src st c).length = c := by simp [roundInput]
  have hspec : ChunkSpec k f w (roundInput src st c).length
      (copyChunk step st.lastValue (roundInput src st c)) :=
    copyChunk_spec hstep inv.carried inv.zero fun i hi j hj => by
      rw [hlen] at hi
      have hget : (roundInput src st c).getD i 0 = word src (st.curSrcIntIdx + 4 * i) := by
        simp [roundInput, hi]
      have hbit : 8 * (st.curSrcIntIdx + 4 * i) + j = 8 * st.curSrcIntIdx + (32 * i + j) := by omega
      rw [hget, getLsbD_word hj, hbit, inv.source]
      congr 1
      omega
  rwa [hlen] at hspec

/-- While the source has words, the loop goes through a round. -/
theorem copyInts_round (inv : CopyInv src srcOffset srcIntBufLen k f w L M st) (hL : 0 < L)
    (hM : 0 < M) :
    copyInts src srcOffset srcIntBufLen step noInput st =
      copyInts src srcOffset srcIntBufLen step noInput
        (roundState step src st (min bufLength M)) := by
  have hbuf : 0 < bufLength := by decide
  have hleft : 0 < st.leftRowCount := by rw [inv.left]; omega
  have hspec := round_chunk hstep inv (min bufLength M)
  have hsource := inv.source_le
  have hdest := inv.dest_le
  have hmore := inv.notMore
  have hint := inv.isInt
  have hle : st.curSrcIntIdx ≤ src.length := by omega
  have hindex : javaInt st.curSrcIntIdx = st.curSrcIntIdx :=
    javaInt_of_bounds (by omega) (by unfold intMax; omega)
  have hget := getIntsSafe_eq hle (min bufLength M)
  have hset : setInts st.dest st.curDestIntIdx
      (copyChunk step st.lastValue (roundInput src st (min bufLength M))).1 = .ok _ :=
    setInts_of_le (by rw [hspec.length]; omega)
  conv_lhs => rw [copyInts]
  rw [if_pos hleft, inv.words, if_neg (by omega), hindex, hget]
  show (setInts st.dest st.curDestIntIdx
    (copyChunk step st.lastValue (roundInput src st (min bufLength M))).1 >>= _) = _
  rw [hset]
  rfl

/-- The words that a round writes hold the result, and the others are as before. -/
theorem bit_roundState (inv : CopyInv src srcOffset srcIntBufLen k f w L M st)
    (hdest : st.curDestIntIdx + 4 * c ≤ st.dest.length) (i : Nat) :
    bit (roundState step src st c).dest i =
      if 8 * st.curDestIntIdx ≤ i ∧ i < 8 * st.curDestIntIdx + 32 * c then
        f (32 * w + (i - 8 * st.curDestIntIdx))
      else bit st.dest i := by
  have hspec := round_chunk hstep inv c
  have hlen : (wordsBytes (copyChunk step st.lastValue (roundInput src st c)).1).length = 4 * c := by
    rw [length_wordsBytes, hspec.length]
  show bit (overwrite _ _ _) i = _
  rw [bit_overwrite (by rw [hlen]; exact hdest), hlen]
  by_cases hi : 8 * st.curDestIntIdx ≤ i ∧ i < 8 * st.curDestIntIdx + 32 * c
  · rw [if_pos hi, if_pos ⟨hi.1, by omega⟩, bit_wordsBytes _ (by rw [hspec.length]; omega),
      hspec.bits _ (by omega) _ (by omega)]
    congr 1
    omega
  · rw [if_neg hi, if_neg (by omega)]

/-- The round that writes the last word: what it has written behind the last row is taken off the
null count. -/
theorem copyDone_lastRound (inv : CopyInv src srcOffset srcIntBufLen k f w L M st) (hM : 0 < M)
    (hlast : L < 32 * M) : CopyDone f w L st (roundState step src st M) := by
  have hspec := round_chunk hstep inv M
  have hmore := inv.notMore
  have hdest := inv.dest_le
  have hwords : (L + 31) / 32 = M := by omega
  rw [hwords] at hdest
  have hleft : (roundState step src st M).leftRowCount = (L : Int) - 32 * M := by
    show st.leftRowCount - 32 * M = _
    rw [inv.left]
  have hneg : (L : Int) - 32 * M < 0 := by omega
  have hshift : 32 + ((L : Int) - 32 * M) = ((32 + L - 32 * M : Nat) : Int) := by omega
  -- the bits of the last word from the last row on
  have hcount : bitCount (ushr (roundState step src st M).lastOutput (32 + ((L : Int) - 32 * M))) +
      zeros f (32 * w + L) (32 * M - L) = 32 * M - L := by
    refine bitCount_add_zeros (j := 0) (by omega) (fun i hi => ?_) fun i hi hi' => ?_
    · show (ushr ((copyChunk step st.lastValue (roundInput src st M)).1.getD (M - 1) 0) _).getLsbD _ = _
      rw [Nat.zero_add, getLsbD_ushr hshift (by omega), hspec.bits _ (by omega) _ (by omega)]
      congr 1
      omega
    · rw [getLsbD_ushr hshift (by omega)]
      exact BitVec.getLsbD_of_ge _ _ (by omega)
  refine ⟨length_overwrite ?_, fun i hi => ?_, fun i hi => ?_, ?_⟩
  · rw [length_wordsBytes, hspec.length]
    omega
  · rw [bit_roundState hstep inv hdest, if_pos ⟨by omega, by omega⟩, Nat.add_sub_cancel_left]
  · rw [hwords] at hi
    rw [bit_roundState hstep inv hdest, if_neg (by omega)]
  · have hsplit : zeros f (32 * w) (32 * M) = zeros f (32 * w) L + zeros f (32 * w + L) (32 * M - L) := by
      rw [← zeros_add]
      congr 1
      omega
    have hsum := hspec.nullCount
    unfold CopyState.correctedNullCount
    rw [hleft, if_pos hneg]
    show st.nullCount + _ - _ = _
    rw [hsum]
    omega

/-- The rounds before the last one leave the locals in step. -/
theorem copyInv_roundState (inv : CopyInv src srcOffset srcIntBufLen k f w L M st) (hc : c ≤ M)
    (hcL : 32 * c ≤ L) :
    CopyInv src srcOffset srcIntBufLen k f (w + c) (L - 32 * c) (M - c)
      (roundState step src st c) := by
  have hspec := round_chunk hstep inv c
  have hle := inv.srcOffset_le
  have hwords := inv.words
  have henough := inv.enough
  have hmore := inv.notMore
  have hdest := inv.dest_le
  have hsource := inv.source_le
  have hint := inv.isInt
  refine ⟨?_, ?_, Nat.le_trans hle (Nat.le_add_right _ _), hspec.carried, hspec.zero, fun i => ?_,
    by omega, by omega, ?_, ?_, ?_⟩
  · show st.leftRowCount - 32 * c = _
    rw [inv.left]
    omega
  · show srcIntBufLen - (st.curSrcIntIdx + c * 4 - srcOffset) / 4 = _
    omega
  · show bit src (8 * (st.curSrcIntIdx + c * 4) + i) = _
    have hbit : 8 * (st.curSrcIntIdx + c * 4) + i = 8 * st.curSrcIntIdx + (32 * c + i) := by omega
    rw [hbit, inv.source]
    congr 1
    omega
  · have hlen : st.curDestIntIdx +
        (wordsBytes (copyChunk step st.lastValue (roundInput src st c)).1).length ≤ st.dest.length := by
      rw [length_wordsBytes, hspec.length]
      omega
    show st.curDestIntIdx + c * 4 + _ ≤ (overwrite _ _ _).length
    rw [length_overwrite hlen]
    omega
  · show st.curSrcIntIdx + c * 4 + _ ≤ _
    omega
  · show st.curSrcIntIdx + c * 4 + _ < _
    omega

theorem CopyDone.of_round (inv : CopyInv src srcOffset srcIntBufLen k f w L M st) (hcL : 32 * c ≤ L)
    {st' : CopyState} (h : CopyDone f (w + c) (L - 32 * c) (roundState step src st c) st') :
    CopyDone f w L st st' := by
  have hspec := round_chunk hstep inv c
  have hdest := inv.dest_le
  have hidx : (roundState step src st c).curDestIntIdx = st.curDestIntIdx + c * 4 := rfl
  have hround := bit_roundState hstep inv (c := c) (by omega)
  refine ⟨?_, fun i hi => ?_, fun i hi => ?_, ?_⟩
  · rw [h.length]
    refine length_overwrite ?_
    rw [length_wordsBytes, hspec.length]
    omega
  · -- a bit of this round's words, or one that the rounds after it write
    by_cases hi' : i < 32 * c
    · rw [h.frame _ (Or.inl (by rw [hidx]; omega)), hround, if_pos ⟨by omega, by omega⟩,
        Nat.add_sub_cancel_left]
    · have hbit : 8 * st.curDestIntIdx + i =
          8 * (roundState step src st c).curDestIntIdx + (i - 32 * c) := by
        rw [hidx]
        omega
      rw [hbit, h.bits _ (by omega)]
      congr 1
      omega
  · rw [h.frame _ (by rw [hidx]; omega), hround, if_neg (by omega)]
  · have hsplit : zeros f (32 * w) L = zeros f (32 * w) (32 * c) +
        zeros f (32 * (w + c)) (L - 32 * c) := by
      have hw : 32 * (w + c) = 32 * w + 32 * c := by omega
      rw [hw, ← zeros_add]
      congr 1
      omega
    rw [h.nullCount]
    show st.nullCount + _ + _ = _
    rw [hspec.nullCount, hsplit]
    omega

end

/-- The copy loop, by induction on the rows left. -/
theorem copyInts_spec (hk : k < 32) (hstep : Carries k step)
    (hnoInput : k = 0 ∨ noInput = writeLastValue)
    (inv : CopyInv src srcOffset srcIntBufLen k f w L M st) :
    ∃ st', copyInts src srcOffset srcIntBufLen step noInput st = .ok st' ∧
      CopyDone f w L st st' := by
  induction L using Nat.strong_induction_on generalizing w M st with
  | _ L ih =>
    have hbuf : 0 < bufLength := by decide
    have henough := inv.enough
    have hmore := inv.notMore
    by_cases hL : 0 < L
    · by_cases hM : 0 < M
      · rw [copyInts_round hstep inv hL hM]
        by_cases hcL : 32 * min bufLength M ≤ L
        · have hnext := copyInv_roundState hstep inv (Nat.min_le_right bufLength M) hcL
          obtain ⟨st', hrun, hdone⟩ := ih _ (by omega) hnext
          exact ⟨st', hrun, hdone.of_round hstep inv hcL⟩
        · -- only the last word can reach beyond the last row
          have hmin : min bufLength M = M := by omega
          rw [hmin]
          refine ⟨_, ?_, copyDone_lastRound hstep inv hM (by omega)⟩
          rw [copyInts, if_neg]
          show ¬0 < st.leftRowCount - 32 * M
          rw [inv.left]
          omega
      · rcases hnoInput with hzero | htail
        · omega
        · have hleft : 0 < st.leftRowCount := by rw [inv.left]; omega
          obtain ⟨st', hrun, hdone⟩ :=
            writeLastValue_spec hk inv.left hL (by omega) inv.carried inv.dest_le
          refine ⟨st', ?_, hdone⟩
          rw [copyInts, if_pos hleft, inv.words, if_pos (by omega), htail, hrun]
    · have hzero : L = 0 := by omega
      subst hzero
      refine ⟨st, ?_, rfl, fun i hi => absurd hi (Nat.not_lt_zero i), fun _ _ => rfl, ?_⟩
      · rw [copyInts, if_neg]
        rw [inv.left]
        omega
      · unfold CopyState.correctedNullCount
        rw [inv.left, if_neg (by omega), zeros_zero]
        omega

end Loop

end SparkRapids.Kudo
