import SparkRapidsJni.Lib.Reading
import SparkRapidsJni.Lib.Xxh64
import SparkRapidsJni.Hash.JavaBigDecimal

/-!
# XXHash64 of bytes

The hash of the bytes of one element. The kernel reads blocks of 4 and 8 bytes at a running offset:
four of 8 bytes a turn as long as a stripe of 32 is left, then blocks of 8 bytes, one of 4 bytes and
single bytes, each loop behind a guard on the remainder of the length. Its integers are signed, and so
a rotation masks the copies of the sign bit off the bits that a signed shift brings down.

`computeBytes_eq` says that this is XXH64, and that every byte is read once.
-/

namespace SparkRapids.Hash.XxHash64

open Xxh64 (prime1 prime2 prime3 prime4 prime5)

variable {σ : Type}

/-! ### The kernel -/

/-- `rotate_bits_left_signed`, where `-1 << r` is an `int`. -/
def rotateBitsLeftSigned (h : BitVec 64) (r : ℕ) : BitVec 64 :=
  h <<< r ||| h.sshiftRight (64 - r) &&& (~~~((-1 : BitVec 32) <<< r)).signExtend 64

/-- `data[offset]` -/
def byteAt (offset : ℕ) : Reading Byte σ Byte := .read offset pure

/-- `getblock32` -/
def getblock32 (offset : ℕ) : Reading Byte σ (BitVec 32) := do
  let block0 ← byteAt offset
  let block1 ← byteAt (offset + 1)
  let block2 ← byteAt (offset + 2)
  let block3 ← byteAt (offset + 3)
  pure (block0.zeroExtend 32 ||| block1.zeroExtend 32 <<< 8 ||| block2.zeroExtend 32 <<< 16 |||
    block3.zeroExtend 32 <<< 24)

/-- `getblock64` -/
def getblock64 (offset : ℕ) : Reading Byte σ (BitVec 64) := do
  let low ← getblock32 offset
  let high ← getblock32 (offset + 4)
  pure (low.zeroExtend 64 ||| high.zeroExtend 64 <<< 32)

/-- The loop of `compute_remaining_bytes` in 8-byte chunks. -/
def chunks8 (nbytes offset : ℕ) (h64 : BitVec 64) : Reading Byte σ (ℕ × BitVec 64) :=
  if (offset : ℤ) ≤ nbytes - 8 then do
    let k1 := (← getblock64 offset) * prime2
    let k1 := rotateBitsLeftSigned k1 31 * prime1
    let h64 := h64 ^^^ k1
    let h64 := rotateBitsLeftSigned h64 27 * prime1 + prime4
    chunks8 nbytes (offset + 8) h64
  else pure (offset, h64)
termination_by nbytes - offset
decreasing_by omega

/-- The loop in 4-byte chunks, where the block is an `int32_t`. -/
def chunks4 (nbytes offset : ℕ) (h64 : BitVec 64) : Reading Byte σ (ℕ × BitVec 64) :=
  if (offset : ℤ) ≤ nbytes - 4 then do
    let block ← getblock32 offset
    let h64 := h64 ^^^ (block.signExtend 64 &&& 0xffffffff) * prime1
    let h64 := rotateBitsLeftSigned h64 23 * prime2 + prime3
    chunks4 nbytes (offset + 4) h64
  else pure (offset, h64)
termination_by nbytes - offset
decreasing_by omega

/-- The loop over the rest. -/
def chunks1 (nbytes offset : ℕ) (h64 : BitVec 64) : Reading Byte σ (ℕ × BitVec 64) :=
  if offset < nbytes then do
    let b ← byteAt offset
    let h64 := h64 ^^^ (b.zeroExtend 64 &&& 0xff) * prime5
    let h64 := rotateBitsLeftSigned h64 11 * prime1
    chunks1 nbytes (offset + 1) h64
  else pure (offset, h64)
termination_by nbytes - offset

/-- Remaining data can be processed in 8-byte chunks. -/
def remaining8 (nbytes offset : ℕ) (h64 : BitVec 64) : Reading Byte σ (ℕ × BitVec 64) :=
  if nbytes % 32 ≥ 8 then chunks8 nbytes offset h64 else pure (offset, h64)

/-- Remaining data can be processed in 4-byte chunks. -/
def remaining4 (nbytes offset : ℕ) (h64 : BitVec 64) : Reading Byte σ (ℕ × BitVec 64) :=
  if nbytes % 32 % 8 ≥ 4 then chunks4 nbytes offset h64 else pure (offset, h64)

/-- And the rest. -/
def remaining1 (nbytes offset : ℕ) (h64 : BitVec 64) : Reading Byte σ (ℕ × BitVec 64) :=
  if nbytes % 4 ≠ 0 then chunks1 nbytes offset h64 else pure (offset, h64)

/-- `compute_remaining_bytes` -/
def computeRemainingBytes (nbytes offset : ℕ) (h64 : BitVec 64) : Reading Byte σ (BitVec 64) := do
  let (offset, h64) ← remaining8 nbytes offset h64
  let (offset, h64) ← remaining4 nbytes offset h64
  let (_, h64) ← remaining1 nbytes offset h64
  pure h64

/-- The four values of the pipeline. -/
structure Pipeline where
  v1 : BitVec 64
  v2 : BitVec 64
  v3 : BitVec 64
  v4 : BitVec 64

/-- `v += getblock64(data, offset) * prime2; v = rotate_bits_left_signed(v, 31); v *= prime1` -/
def pipelineStep (v : BitVec 64) (offset : ℕ) : Reading Byte σ (BitVec 64) := do
  let v := v + (← getblock64 offset) * prime2
  let v := rotateBitsLeftSigned v 31
  pure (v * prime1)

/-- The `do` loop of `compute_bytes`. -/
def stripes (limit offset : ℕ) (p : Pipeline) : Reading Byte σ (ℕ × Pipeline) := do
  let v1 ← pipelineStep p.v1 offset
  let v2 ← pipelineStep p.v2 (offset + 8)
  let v3 ← pipelineStep p.v3 (offset + 16)
  let v4 ← pipelineStep p.v4 (offset + 24)
  if offset + 32 ≤ limit then stripes limit (offset + 32) { v1, v2, v3, v4 }
  else pure (offset + 32, { v1, v2, v3, v4 })
termination_by limit - offset
decreasing_by omega

/-- `v *= prime2; v = rotate_bits_left_signed(v, 31); v *= prime1; h64 ^= v;
h64 = h64 * prime1 + prime4` -/
def merge (h64 v : BitVec 64) : BitVec 64 :=
  let v := v * prime2
  let v := rotateBitsLeftSigned v 31
  let v := v * prime1
  let h64 := h64 ^^^ v
  h64 * prime1 + prime4

/-- `finalize` -/
def finalize (h : BitVec 64) : BitVec 64 :=
  let h := h ^^^ h >>> 33
  let h := h * prime2
  let h := h ^^^ h >>> 29
  let h := h * prime3
  h ^^^ h >>> 32

/-- Data can be processed in 32-byte chunks. -/
def chunks32 (seed : BitVec 64) (nbytes : ℕ) : Reading Byte σ (ℕ × BitVec 64) :=
  if nbytes ≥ 32 then do
    let limit := nbytes - 32
    let v1 := seed + prime1 + prime2
    let v2 := seed + prime2
    let v3 := seed
    let v4 := seed - prime1
    let (offset, p) ← stripes limit 0 { v1, v2, v3, v4 }
    let h64 := rotateBitsLeftSigned p.v1 1 + rotateBitsLeftSigned p.v2 7 +
      rotateBitsLeftSigned p.v3 12 + rotateBitsLeftSigned p.v4 18
    let h64 := merge h64 p.v1
    let h64 := merge h64 p.v2
    let h64 := merge h64 p.v3
    let h64 := merge h64 p.v4
    pure (offset, h64)
  else pure (0, seed + prime5)

/-- `compute_bytes`, with the seed. -/
def computeBytes (seed : BitVec 64) (nbytes : ℕ) : Reading Byte σ (BitVec 64) := do
  let (offset, h64) ← chunks32 seed nbytes
  let h64 := h64 + BitVec.ofNat 64 nbytes
  let h64 ← computeRemainingBytes nbytes offset h64
  pure (finalize h64)

/-! ### Rotations and blocks -/

/-- The mask has the lowest `r` bits. -/
theorem getLsbD_mask {r : ℕ} (hlt : r < 32) {i : ℕ} (hi : i < 64) :
    ((~~~((-1 : BitVec 32) <<< r)).signExtend 64).getLsbD i = decide (i < r) := by
  have hones : (-1 : BitVec 32) = BitVec.allOnes 32 := rfl
  rw [BitVec.getLsbD_signExtend, hones, BitVec.msb_eq_getLsbD_last]
  simp only [BitVec.getLsbD_not, BitVec.getLsbD_shiftLeft, BitVec.getLsbD_allOnes]
  grind

/-- The signed shift and the mask are a rotation. -/
theorem rotateBitsLeftSigned_eq (h : BitVec 64) {r : ℕ} (hpos : 0 < r) (hlt : r < 32) :
    rotateBitsLeftSigned h r = h.rotateLeft r := by
  apply BitVec.eq_of_getLsbD_eq
  intro i hi
  have hmod : r % 64 = r := Nat.mod_eq_of_lt (by omega)
  unfold rotateBitsLeftSigned
  rw [BitVec.getLsbD_rotateLeft, BitVec.getLsbD_or, BitVec.getLsbD_and, getLsbD_mask hlt hi,
    BitVec.getLsbD_shiftLeft, BitVec.getLsbD_sshiftRight, hmod]
  by_cases hir : i < r
  · -- a bit that comes down, not a copy of the sign
    have hdown : 64 - r + i < 64 := by omega
    rw [decide_eq_true hir, if_pos hdown]
    simp [hi]
  · rw [decide_eq_false hir]
    simp

theorem word_eq_or (b₀ b₁ b₂ b₃ : Byte) :
    b₀.zeroExtend 32 ||| b₁.zeroExtend 32 <<< 8 ||| b₂.zeroExtend 32 <<< 16 |||
      b₃.zeroExtend 32 <<< 24 = b₃ ++ b₂ ++ b₁ ++ b₀ := by
  apply BitVec.eq_of_getLsbD_eq
  intro i hi
  simp only [BitVec.getLsbD_or, BitVec.getLsbD_shiftLeft, BitVec.getLsbD_append,
    BitVec.truncate_eq_setWidth, BitVec.getLsbD_setWidth]
  grind

theorem long_eq_or (low high : BitVec 32) :
    low.zeroExtend 64 ||| high.zeroExtend 64 <<< 32 = high ++ low := by
  apply BitVec.eq_of_getLsbD_eq
  intro i hi
  simp only [BitVec.getLsbD_or, BitVec.getLsbD_shiftLeft, BitVec.getLsbD_append,
    BitVec.truncate_eq_setWidth, BitVec.getLsbD_setWidth]
  grind

/-- An `int32_t` without its sign. -/
theorem signExtend_and (v : BitVec 32) :
    v.signExtend 64 &&& 0xffffffff = v.zeroExtend 64 := by
  have hmask : (0xffffffff : BitVec 64) = (BitVec.allOnes 32).zeroExtend 64 := by decide
  apply BitVec.eq_of_getLsbD_eq
  intro i hi
  rw [hmask]
  simp only [BitVec.getLsbD_and, BitVec.getLsbD_signExtend, BitVec.getLsbD_allOnes,
    BitVec.truncate_eq_setWidth, BitVec.getLsbD_setWidth]
  grind

theorem zeroExtend_and (b : Byte) : b.zeroExtend 64 &&& 0xff = b.zeroExtend 64 := by
  have hmask : (0xff : BitVec 64) = (BitVec.allOnes 8).zeroExtend 64 := by decide
  apply BitVec.eq_of_getLsbD_eq
  intro i hi
  rw [hmask]
  simp only [BitVec.getLsbD_and, BitVec.getLsbD_allOnes, BitVec.truncate_eq_setWidth,
    BitVec.getLsbD_setWidth]
  grind

/-! ### What the kernel reads, and what it returns -/

/-- The bytes as a memory. -/
def memory (data : List Byte) (offset : ℕ) : Byte := data.getD offset 0

section

variable {data : List Byte} {offset n : ℕ} {h64 v : BitVec 64}

theorem getD_drop (i : ℕ) : (data.drop offset).getD i 0 = memory data (offset + i) := by
  rw [memory, List.getD_eq_getElem?_getD, List.getD_eq_getElem?_getD, List.getElem?_drop]

theorem byteAt_scans :
    (byteAt offset : Reading Byte σ Byte).Scans (memory data) offset 1 (memory data offset) :=
  ⟨rfl, rfl⟩

theorem getblock32_scans : (getblock32 offset : Reading Byte σ _).Scans (memory data) offset 4
    (Xxh64.lane32 (data.drop offset)) := by
  have hlane : Xxh64.lane32 (data.drop offset) =
      memory data (offset + 3) ++ memory data (offset + 2) ++ memory data (offset + 1) ++
        memory data offset := by
    unfold Xxh64.lane32 Bytes.word
    simp only [getD_drop]
    rfl
  rw [hlane, ← word_eq_or]
  exact ⟨rfl, rfl⟩

theorem getblock64_scans : (getblock64 offset : Reading Byte σ _).Scans (memory data) offset 8
    (Xxh64.lane64 (data.drop offset)) := by
  have hlane : Xxh64.lane64 (data.drop offset) =
      Xxh64.lane32 (data.drop (offset + 4)) ++ Xxh64.lane32 (data.drop offset) := by
    unfold Xxh64.lane64 Xxh64.lane32 Bytes.word
    simp only [getD_drop, Nat.add_assoc]
  rw [hlane, ← long_eq_or]
  exact getblock32_scans.bind (m := 4) (getblock32_scans.bind (m := 0) (.pure _))

/-- The chunks of 8 bytes are the lanes. -/
theorem chunks8_scans {rest : ℕ} (hlen : data.length = offset + 8 * n + rest) (hrest : rest < 8) :
    (chunks8 data.length offset h64 : Reading Byte σ _).Scans (memory data) offset (8 * n)
      (offset + 8 * n, Xxh64.lanes64 n h64 (data.drop offset)) := by
  induction n generalizing offset h64 with
  | zero =>
    rw [chunks8, if_neg (by omega)]
    exact .pure _
  | succ n ih =>
    rw [chunks8, if_pos (by omega), Xxh64.lanes64, List.drop_drop, Nat.mul_succ, Nat.add_comm (8 * n)]
    refine getblock64_scans.bind ?_
    have hround : rotateBitsLeftSigned (h64 ^^^ rotateBitsLeftSigned
          (Xxh64.lane64 (data.drop offset) * prime2) 31 * prime1) 27 * prime1 + prime4 =
        (h64 ^^^ Xxh64.round 0 (Xxh64.lane64 (data.drop offset))).rotateLeft 27 * Xxh64.prime1 +
          Xxh64.prime4 := by
      rw [rotateBitsLeftSigned_eq _ (by decide) (by decide),
        rotateBitsLeftSigned_eq _ (by decide) (by decide), Xxh64.round, zero_add]
    dsimp only
    rw [hround, ← Nat.add_assoc]
    exact ih (by omega)

/-- A chunk of 4 bytes is the lane, and there is no other one. -/
theorem chunks4_scans {rest : ℕ} (hlen : data.length = offset + rest) (hrest : 4 ≤ rest)
    (hlt : rest < 8) :
    (chunks4 data.length offset h64 : Reading Byte σ _).Scans (memory data) offset 4
      (offset + 4, Xxh64.oneLane32 h64 (data.drop offset)) := by
  have hlane : 4 ≤ (data.drop offset).length := by
    rw [List.length_drop]
    omega
  rw [chunks4, if_pos (by omega), Xxh64.oneLane32, if_pos hlane]
  refine getblock32_scans.map ?_
  dsimp only
  rw [signExtend_and, rotateBitsLeftSigned_eq _ (by decide) (by decide), chunks4, if_neg (by omega)]
  exact .pure _

/-- The chunks of a byte. -/
theorem chunks1_scans (hlen : data.length = offset + n) :
    (chunks1 data.length offset h64 : Reading Byte σ _).Scans (memory data) offset n
      (offset + n, Xxh64.tailBytes h64 (data.drop offset)) := by
  induction n generalizing offset h64 with
  | zero =>
    rw [chunks1, if_neg (by omega), List.drop_of_length_le (by omega)]
    exact .pure _
  | succ n ih =>
    have hlt : offset < data.length := by omega
    have hbyte : memory data offset = data[offset] := List.getD_eq_getElem _ _ hlt
    rw [chunks1, if_pos hlt, List.drop_eq_getElem_cons hlt, Nat.add_comm n, ← hbyte,
      ← Nat.add_assoc]
    refine byteAt_scans.bind ?_
    dsimp only
    rw [zeroExtend_and, rotateBitsLeftSigned_eq _ (by decide) (by decide)]
    exact ih (by omega)

variable {rest : ℕ}

theorem remaining8_scans (hlen : data.length = offset + 8 * n + rest) (hrest : rest < 8)
    (hmod : data.length % 32 = 8 * n + rest) :
    (remaining8 data.length offset h64 : Reading Byte σ _).Scans (memory data) offset (8 * n)
      (offset + 8 * n, Xxh64.lanes64 n h64 (data.drop offset)) := by
  unfold remaining8
  by_cases hguard : data.length % 32 ≥ 8
  · rw [if_pos hguard]
    exact chunks8_scans hlen hrest
  · obtain rfl : n = 0 := by omega
    rw [if_neg hguard]
    exact .pure _

/-- The width of the lane of 4 bytes, if there is one. -/
def width4 (rest : ℕ) : ℕ := if 4 ≤ rest then 4 else 0

theorem remaining4_scans (hlen : data.length = offset + rest)
    (hmod : data.length % 32 % 8 = rest) :
    (remaining4 data.length offset h64 : Reading Byte σ _).Scans (memory data) offset (width4 rest)
      (offset + width4 rest, Xxh64.oneLane32 h64 (data.drop offset)) := by
  unfold remaining4
  by_cases hguard : 4 ≤ rest
  · rw [if_pos (by omega), show width4 rest = 4 from if_pos hguard]
    exact chunks4_scans hlen hguard (by omega)
  · have hshort : ¬4 ≤ (data.drop offset).length := by
      rw [List.length_drop]
      omega
    rw [if_neg (by omega), show width4 rest = 0 from if_neg hguard, Xxh64.oneLane32, if_neg hshort]
    exact .pure _

theorem remaining1_scans (hlen : data.length = offset + rest) (hmod : data.length % 4 = rest) :
    (remaining1 data.length offset h64 : Reading Byte σ _).Scans (memory data) offset rest
      (offset + rest, Xxh64.tailBytes h64 (data.drop offset)) := by
  unfold remaining1
  by_cases hguard : data.length % 4 ≠ 0
  · rw [if_pos hguard]
    exact chunks1_scans hlen
  · obtain rfl : rest = 0 := by omega
    rw [if_neg hguard, List.drop_of_length_le (by omega)]
    exact .pure _

/-- The guards let a loop run if it has something to do. -/
theorem computeRemainingBytes_scans (hoffset : offset = 32 * (data.length / 32)) :
    (computeRemainingBytes data.length offset h64 : Reading Byte σ _).Scans (memory data) offset
      (data.length % 32) (Xxh64.consumeRemaining h64 (data.drop offset)) := by
  have hlen : (data.drop offset).length = data.length % 32 := by
    rw [List.length_drop]
    omega
  obtain ⟨n, rest, hn, hrest⟩ : ∃ n rest, data.length % 32 = 8 * n + rest ∧ rest < 8 :=
    ⟨data.length % 32 / 8, data.length % 32 % 8, by omega, by omega⟩
  have hdiv : data.length % 32 / 8 = n := by omega
  have hwidth : width4 rest ≤ rest ∧ rest - width4 rest = rest % 4 := by
    unfold width4
    split_ifs <;> omega
  have hinput : (if 4 ≤ (data.drop (offset + 8 * n)).length then
      (data.drop (offset + 8 * n)).drop 4 else data.drop (offset + 8 * n)) =
      data.drop (offset + 8 * n + width4 rest) := by
    have hleft : data.length - (offset + 8 * n) = rest := by omega
    rw [List.length_drop, List.drop_drop, hleft, width4]
    split_ifs <;> rfl
  have hsum : data.length % 32 = 8 * n + (width4 rest + (rest - width4 rest)) := by omega
  unfold computeRemainingBytes Xxh64.consumeRemaining
  rw [hlen, hdiv, List.drop_drop]
  dsimp only
  rw [hinput, hsum]
  refine (remaining8_scans (by omega) hrest hn).bind ?_
  refine (remaining4_scans (by omega) (by omega)).bind ?_
  exact (remaining1_scans (by omega) (by omega)).map (.pure _)

/-! ### Stripes -/

/-- The values of the pipeline as accumulators. -/
def Pipeline.accumulators (p : Pipeline) : Xxh64.Accumulators where
  acc1 := p.v1
  acc2 := p.v2
  acc3 := p.v3
  acc4 := p.v4

theorem pipelineStep_scans :
    (pipelineStep v offset : Reading Byte σ _).Scans (memory data) offset 8
      (Xxh64.round v (Xxh64.lane64 (data.drop offset))) := by
  refine getblock64_scans.map ?_
  dsimp only
  rw [rotateBitsLeftSigned_eq _ (by decide) (by decide)]
  exact .pure _

/-- The values after a turn. -/
def Pipeline.turn (data : List Byte) (offset : ℕ) (p : Pipeline) : Pipeline where
  v1 := Xxh64.round p.v1 (Xxh64.lane64 (data.drop offset))
  v2 := Xxh64.round p.v2 (Xxh64.lane64 (data.drop (offset + 8)))
  v3 := Xxh64.round p.v3 (Xxh64.lane64 (data.drop (offset + 16)))
  v4 := Xxh64.round p.v4 (Xxh64.lane64 (data.drop (offset + 24)))

theorem accumulators_turn (p : Pipeline) :
    (p.turn data offset).accumulators = Xxh64.stripe p.accumulators (data.drop offset) := by
  unfold Xxh64.stripe
  simp only [List.drop_drop]
  rfl

/-- The turns read the stripes. -/
theorem stripes_scans (p : Pipeline) (hlen : data.length = offset + 32 * (n + 1) + rest)
    (hrest : rest < 32) :
    ∃ q : Pipeline, (stripes (data.length - 32) offset p : Reading Byte σ _).Scans (memory data)
        offset (32 * (n + 1)) (offset + 32 * (n + 1), q) ∧
      q.accumulators = Xxh64.stripes (n + 1) p.accumulators (data.drop offset) := by
  induction n generalizing offset p with
  | zero =>
    refine ⟨p.turn data offset, ?_, accumulators_turn p⟩
    rw [stripes]
    refine pipelineStep_scans.bind (m := 24) (pipelineStep_scans.bind (m := 16)
      (pipelineStep_scans.bind (m := 8) (pipelineStep_scans.map ?_)))
    rw [if_neg (by omega)]
    exact .pure _
  | succ n ih =>
    obtain ⟨q, hscans, hq⟩ := @ih (offset + 32) (p.turn data offset) (by omega)
    have hsum : 32 * (n + 1 + 1) = 8 + (8 + (8 + (8 + 32 * (n + 1)))) := by omega
    have hend : offset + 32 * (n + 1 + 1) = offset + 32 + 32 * (n + 1) := by omega
    refine ⟨q, ?_, ?_⟩
    · rw [stripes, hend, hsum]
      refine pipelineStep_scans.bind (pipelineStep_scans.bind
        (pipelineStep_scans.bind (pipelineStep_scans.bind ?_)))
      rw [if_pos (by omega)]
      exact hscans
    · rw [hq, accumulators_turn, ← List.drop_drop]
      rfl

theorem merge_eq (h64 v : BitVec 64) : merge h64 v = Xxh64.mergeAccumulator h64 v := by
  unfold merge Xxh64.mergeAccumulator Xxh64.round
  dsimp only
  rw [rotateBitsLeftSigned_eq _ (by decide) (by decide), zero_add]

/-- The hash before the length is added. -/
theorem chunks32_scans (seed : BitVec 64) :
    (chunks32 seed data.length : Reading Byte σ _).Scans (memory data) 0 (32 * (data.length / 32))
      (32 * (data.length / 32), if 32 ≤ data.length then
        Xxh64.convergence
          (Xxh64.stripes (data.length / 32) (Xxh64.initialAccumulators seed) data)
      else seed + Xxh64.prime5) := by
  unfold chunks32
  by_cases hguard : 32 ≤ data.length
  · obtain ⟨n, hn⟩ : ∃ n, data.length / 32 = n + 1 := ⟨data.length / 32 - 1, by omega⟩
    obtain ⟨q, hscans, hq⟩ := @stripes_scans σ data 0 n (data.length % 32)
      { v1 := seed + prime1 + prime2, v2 := seed + prime2, v3 := seed, v4 := seed - prime1 }
      (by omega) (by omega)
    rw [if_pos hguard, if_pos hguard, hn]
    rw [Nat.zero_add] at hscans
    refine hscans.map ?_
    have hconvergence : Xxh64.convergence
        (Xxh64.stripes (n + 1) (Xxh64.initialAccumulators seed) data) =
          Xxh64.convergence q.accumulators := by
      rw [hq]
      rfl
    rw [hconvergence]
    dsimp only
    rw [merge_eq, merge_eq, merge_eq, merge_eq, rotateBitsLeftSigned_eq _ (by decide) (by decide),
      rotateBitsLeftSigned_eq _ (by decide) (by decide),
      rotateBitsLeftSigned_eq _ (by decide) (by decide),
      rotateBitsLeftSigned_eq _ (by decide) (by decide)]
    exact .pure _
  · have hzero : data.length / 32 = 0 := by omega
    rw [if_neg hguard, if_neg hguard, hzero]
    exact .pure _

/-- `compute_bytes` reads the bytes front to back and returns their XXH64. -/
theorem computeBytes_scans (seed : BitVec 64) (data : List Byte) :
    (computeBytes seed data.length : Reading Byte σ _).Scans (memory data) 0 data.length
      (Xxh64.hash seed data) := by
  have hsum : data.length = 32 * (data.length / 32) + (data.length % 32 + 0) := by omega
  have hscans : (computeBytes seed data.length : Reading Byte σ _).Scans (memory data) 0
      (32 * (data.length / 32) + (data.length % 32 + 0)) (Xxh64.hash seed data) := by
    refine (chunks32_scans seed).bind ?_
    rw [Nat.zero_add]
    exact (computeRemainingBytes_scans rfl).bind (.pure _)
  rwa [← hsum] at hscans

end

/-- The counts of the rotations in `compute_bytes` and `compute_remaining_bytes`. -/
def rotationCounts : List ℕ := [31, 27, 23, 11, 1, 7, 12, 18]

/-- **XXHash64 of bytes**: for every seed and all bytes, `compute_bytes` returns the XXH64 of the
bytes and reads each of them exactly once; and for each count that occurs and every 64-bit value, the
signed rotation is the rotation. -/
theorem computeBytes_eq :
    (∀ (seed : BitVec 64) (data : List Byte),
      (computeBytes seed data.length : Reading Byte σ _).run (memory data) = Xxh64.hash seed data ∧
      (computeBytes seed data.length : Reading Byte σ _).accesses (memory data) =
        List.range data.length) ∧
    ∀ r ∈ rotationCounts, ∀ h : BitVec 64, rotateBitsLeftSigned h r = h.rotateLeft r := by
  refine ⟨fun seed data => ?_, fun r hr h => ?_⟩
  · have hscans := computeBytes_scans (σ := σ) seed data
    refine ⟨hscans.run, ?_⟩
    rw [hscans.accesses, List.range_eq_range']
  · have hcounts : ∀ r ∈ rotationCounts, 0 < r ∧ r < 32 := by decide
    obtain ⟨hpos, hlt⟩ := hcounts r hr
    exact rotateBitsLeftSigned_eq h hpos hlt

/-! ### Decimals -/

/-- `XXHash_64<numeric::decimal128>::operator()` -/
def hashDecimal128 (seed : BitVec 64) (key : BitVec 128) : BitVec 64 :=
  (computeBytes seed (toJavaBigdecimal key).2 : Reading Byte Empty _).run
    (memory (toBytes (toJavaBigdecimal key).1))

/-- A decimal of 128 bits is hashed by the shortest two's complement of its unscaled value: each of its
bytes is read once, and the ones behind them in the buffer are not. -/
theorem hashDecimal128_eq (seed : BitVec 64) (key : BitVec 128) :
    hashDecimal128 seed key = Xxh64.hash seed (javaBytes key) ∧
      (computeBytes seed (toJavaBigdecimal key).2 : Reading Byte Empty _).accesses
        (memory (toBytes (toJavaBigdecimal key).1)) = List.range (javaBytes key).length := by
  obtain ⟨_, _, hlen, _, _⟩ := javaBytes_minimal key
  have hscans := computeBytes_scans (σ := Empty) seed (javaBytes key)
  rw [hlen] at hscans ⊢
  rw [← hscans.run, hashDecimal128, List.range_eq_range', ← hscans.accesses]
  -- the bytes behind the first ones are not read
  refine (Reading.run_congr fun place hplace => ?_).imp_right And.left
  rw [hscans.accesses, List.mem_range'_1, Nat.zero_add] at hplace
  unfold memory javaBytes
  rw [List.getD_eq_getElem?_getD, List.getD_eq_getElem?_getD, List.getElem?_take_of_lt hplace.2]

end SparkRapids.Hash.XxHash64
