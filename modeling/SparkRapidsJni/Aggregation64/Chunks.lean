import Mathlib

/-!
# Sums of 64-bit values by chunks of 32 bits

A column of 64-bit values is split into a column of the lower 32 bits, without a sign, and one of the
upper 32 bits, with a sign. Each of the two is summed into 64 bits, in any grouping into partial sums,
and the sum of the values is assembled from the two sums: its lower 64 bits, and whether it fits into
them.
-/

namespace SparkRapids.Aggregation64

/-! ### Chunks -/

/-- The types of a chunk column. -/
inductive ChunkType
  | uint32
  | int32
  deriving DecidableEq, Repr

/-- A value of a chunk column in 64 bits. -/
def ChunkType.extend : ChunkType → BitVec 32 → BitVec 64
  | .uint32, chunk => chunk.setWidth 64
  | .int32, chunk => chunk.signExtend 64

/-- `extract_chunk32_from_64bit`, of a row. -/
def extractChunk32From64bit (chunkIdx : Fin 2) (val : BitVec 64) : BitVec 32 :=
  if chunkIdx = 0 then val.setWidth 32 else (val >>> 32).setWidth 32

/-- `chunk_assembler_64bit`, of a row: the value, and whether there is an overflow. -/
def chunkAssembler64bit (chunks0 chunks1 : BitVec 64) : BitVec 64 × Bool :=
  let c0 := chunks0
  let c1 := chunks1 + (c0 >>> 32)
  let result := (c1 <<< 32) ||| (c0.setWidth 32).setWidth 64
  -- an overflow is seen by a sign bit that does not match the top carry bits
  let replicatedSignBit := (c1.setWidth 32).sshiftRight 31
  let topCarryBits := (c1.sshiftRight 32).setWidth 32
  (result, replicatedSignBit != topCarryBits)

/-! ### Sums -/

/-- How a list of values is summed: partial sums of some of the values are summed again. -/
inductive Grouping
  | empty
  | value (val : BitVec 64)
  | merge (left right : Grouping)

namespace Grouping

/-- The values, from left to right. -/
def values : Grouping → List (BitVec 64)
  | empty => []
  | value val => [val]
  | merge left right => left.values ++ right.values

/-- The sum of a chunk of all values, in 64 bits at every step. -/
def chunkSum (chunkIdx : Fin 2) (type : ChunkType) : Grouping → BitVec 64
  | empty => 0
  | value val => type.extend (extractChunk32From64bit chunkIdx val)
  | merge left right => left.chunkSum chunkIdx type + right.chunkSum chunkIdx type

end Grouping

/-- The exact sum of values. -/
def exactSum (vals : List (BitVec 64)) : Int := (vals.map BitVec.toInt).sum

/-! ### A value is its chunks -/

/-- The lower chunk of a value, without a sign. -/
def low (val : BitVec 64) : Int := val.toNat % 2 ^ 32

/-- The upper chunk of a value, with a sign. -/
def high (val : BitVec 64) : Int := val.toInt / 2 ^ 32

theorem toInt_eq_chunks (val : BitVec 64) : val.toInt = high val * 2 ^ 32 + low val := by
  unfold high low
  rw [BitVec.toInt_eq_toNat_cond]
  have hlt := val.isLt
  split_ifs <;> omega

theorem low_bounds (val : BitVec 64) : 0 ≤ low val ∧ low val < 2 ^ 32 := by
  unfold low
  omega

theorem high_bounds (val : BitVec 64) : -2 ^ 31 ≤ high val ∧ high val < 2 ^ 31 := by
  have hlt := val.toInt_lt
  have hle := val.le_toInt
  unfold high
  omega

theorem extend_low (val : BitVec 64) :
    ChunkType.uint32.extend (extractChunk32From64bit 0 val) = BitVec.ofInt 64 (low val) := by
  refine BitVec.eq_of_toNat_eq ?_
  show ((val.setWidth 32).setWidth 64).toNat = _
  unfold low
  have hlt : val.toNat % 2 ^ 32 < 2 ^ 64 := by omega
  rw [BitVec.toNat_setWidth, BitVec.toNat_setWidth, Nat.mod_eq_of_lt hlt, BitVec.toNat_ofInt]
  omega

theorem extend_high (val : BitVec 64) :
    ChunkType.int32.extend (extractChunk32From64bit 1 val) = BitVec.ofInt 64 (high val) := by
  obtain ⟨hle, hlt⟩ := high_bounds val
  have hchunks := toInt_eq_chunks val
  obtain ⟨hlow0, hlow1⟩ := low_bounds val
  refine BitVec.eq_of_toInt_eq ?_
  show (((val >>> 32).setWidth 32).signExtend 64).toInt = _
  rw [BitVec.toInt_signExtend_of_le (by decide), BitVec.toInt_setWidth, BitVec.toInt_ofInt,
    BitVec.toNat_ushiftRight, Nat.shiftRight_eq_div_pow]
  have hofInt : (high val).bmod (2 ^ 64) = high val := Int.bmod_eq_of_le (by omega) (by omega)
  rw [hofInt]
  -- the upper chunk without a sign is the one with a sign, up to `2 ^ 32`
  have hupper : ((val.toNat / 2 ^ 32 : Nat) : Int) = high val ∨
      ((val.toNat / 2 ^ 32 : Nat) : Int) = high val + 2 ^ 32 := by
    have hval := val.toInt_eq_toNat_cond
    unfold high
    split_ifs at hval <;> omega
  obtain heq | heq := hupper
  · rw [heq]
    exact Int.bmod_eq_of_le (by omega) (by omega)
  · rw [heq]
    have hadd : (high val + 2 ^ 32).bmod (2 ^ 32) = (high val).bmod (2 ^ 32) := by
      have h := Int.add_bmod_right (high val) (2 ^ 32)
      exact_mod_cast h
    rw [hadd]
    exact Int.bmod_eq_of_le (by omega) (by omega)

/-! ### The sums of the chunks -/

/-- The exact sum of values is that of their chunks. -/
theorem exactSum_eq_chunks (vals : List (BitVec 64)) :
    exactSum vals = (vals.map high).sum * 2 ^ 32 + (vals.map low).sum := by
  unfold exactSum
  induction vals with
  | nil => rfl
  | cons val vals ih =>
    have hval := toInt_eq_chunks val
    simp only [List.map_cons, List.sum_cons]
    omega

namespace Grouping

/-- The exact sum of a chunk, of values in a grouping. -/
def exactChunkSum (chunk : BitVec 64 → Int) (g : Grouping) : Int := (g.values.map chunk).sum

variable {g : Grouping}

/-- In 64 bits the sum of a chunk is its exact sum, up to the bits that are lost. -/
theorem chunkSum_eq {chunkIdx : Fin 2} {type : ChunkType} {chunk : BitVec 64 → Int}
    (hchunk : ∀ val, type.extend (extractChunk32From64bit chunkIdx val) = BitVec.ofInt 64 (chunk val)) :
    g.chunkSum chunkIdx type = BitVec.ofInt 64 (g.exactChunkSum chunk) := by
  induction g with
  | empty => rfl
  | value val =>
    show type.extend _ = BitVec.ofInt 64 (chunk val + 0)
    rw [hchunk, Int.add_zero]
  | merge left right ihl ihr =>
    show left.chunkSum chunkIdx type + right.chunkSum chunkIdx type =
      BitVec.ofInt 64 ((left.values ++ right.values).map chunk).sum
    rw [ihl, ihr, List.map_append, List.sum_append, ← BitVec.ofInt_add]
    rfl

/-- The bounds of a chunk, times the number of values, are bounds of its sum. -/
theorem exactChunkSum_bounds {chunk : BitVec 64 → Int} {lo hi : Int}
    (hlo : ∀ val, lo ≤ chunk val) (hhi : ∀ val, chunk val ≤ hi) :
    lo * g.values.length ≤ g.exactChunkSum chunk ∧ g.exactChunkSum chunk ≤ hi * g.values.length := by
  unfold exactChunkSum
  induction g.values with
  | nil => simp
  | cons val vals ih =>
    have hl := hlo val
    have hh := hhi val
    simp only [List.map_cons, List.sum_cons, List.length_cons]
    push_cast
    constructor
    · linarith [ih.1]
    · linarith [ih.2]

end Grouping

/-! ### Assembling -/

/-- The bits of the result: the upper bits of a sum before the lower ones. -/
theorem shiftLeft_or_setWidth (x : Int) (c0 : BitVec 64) :
    (BitVec.ofInt 64 x <<< 32) ||| (c0.setWidth 32).setWidth 64 =
      BitVec.ofInt 64 (x * 2 ^ 32 + (c0.toNat % 2 ^ 32 : Nat)) := by
  refine BitVec.eq_of_toNat_eq ?_
  have hlow : c0.toNat % 2 ^ 32 < 2 ^ 32 := Nat.mod_lt _ (by norm_num)
  have hlow' : c0.toNat % 2 ^ 32 < 2 ^ 64 := by omega
  -- only the lower half of the upper bits stays in the word
  have hupper : (BitVec.ofInt 64 x <<< 32).toNat = 2 ^ 32 * ((BitVec.ofInt 64 x).toNat % 2 ^ 32) := by
    rw [BitVec.toNat_shiftLeft, Nat.shiftLeft_eq]
    omega
  rw [BitVec.toNat_or, BitVec.toNat_setWidth, BitVec.toNat_setWidth, hupper,
    Nat.mod_eq_of_lt hlow', ← Nat.two_pow_add_eq_or_of_lt hlow, BitVec.toNat_ofInt,
    BitVec.toNat_ofInt]
  omega

/-- The sign of the lower half of a word, in all bits. -/
theorem toInt_replicatedSignBit (c : BitVec 32) :
    (c.sshiftRight 31).toInt = if c.toInt < 0 then -1 else 0 := by
  have hlt := c.toInt_lt
  have hle := c.le_toInt
  rw [BitVec.toInt_sshiftRight, Int.shiftRight_eq_div_pow]
  split_ifs <;> omega

theorem toInt_setWidth_32 (c : BitVec 64) : (c.setWidth 32).toInt = c.toInt.bmod (2 ^ 32) := by
  rw [BitVec.toInt_setWidth, BitVec.toInt_eq_toNat_bmod]
  exact (Int.bmod_bmod_of_dvd (by norm_num)).symm

/-- The sign bit matches the carry bits iff the upper bits of the sum fit into half of a word. -/
theorem replicatedSignBit_eq_topCarryBits {x : Int} (hx : -2 ^ 62 ≤ x) (hx' : x < 2 ^ 63) :
    ((BitVec.ofInt 64 x).setWidth 32).sshiftRight 31 =
        ((BitVec.ofInt 64 x).sshiftRight 32).setWidth 32 ↔
      -2 ^ 31 ≤ x ∧ x < 2 ^ 31 := by
  have hc : (BitVec.ofInt 64 x).toInt = x := by
    rw [BitVec.toInt_ofInt]
    exact Int.bmod_eq_of_le (by omega) (by omega)
  have hcarry : ((BitVec.ofInt 64 x).sshiftRight 32).toInt = x / 2 ^ 32 := by
    rw [BitVec.toInt_sshiftRight, hc, Int.shiftRight_eq_div_pow]
    norm_num
  -- the carry bits fit into half of a word
  have hcarry' : (((BitVec.ofInt 64 x).sshiftRight 32).setWidth 32).toInt = x / 2 ^ 32 := by
    rw [toInt_setWidth_32, hcarry]
    exact Int.bmod_eq_of_le (by omega) (by omega)
  rw [← BitVec.toInt_inj, toInt_replicatedSignBit, toInt_setWidth_32, hc, hcarry', Int.bmod_def]
  norm_num
  split_ifs <;> omega

/-- The assembler, of sums of chunks that are exact: the lower bits of the sum, and whether it does not
fit into 64 bits. -/
theorem chunkAssembler64bit_ofInt {s₀ s₁ : Int} (h0 : 0 ≤ s₀) (h0' : s₀ < 2 ^ 63)
    (h1 : -2 ^ 62 ≤ s₁) (h1' : s₁ ≤ 2 ^ 62) :
    chunkAssembler64bit (BitVec.ofInt 64 s₀) (BitVec.ofInt 64 s₁) =
      (BitVec.ofInt 64 (s₁ * 2 ^ 32 + s₀),
        decide ¬(-2 ^ 63 ≤ s₁ * 2 ^ 32 + s₀ ∧ s₁ * 2 ^ 32 + s₀ < 2 ^ 63)) := by
  have hc0 : ((BitVec.ofInt 64 s₀).toNat : Int) = s₀ := by
    rw [BitVec.toNat_ofInt]
    omega
  have hc1 : BitVec.ofInt 64 s₁ + BitVec.ofInt 64 s₀ >>> 32 = BitVec.ofInt 64 (s₁ + s₀ / 2 ^ 32) := by
    rw [BitVec.ofInt_add]
    congr 1
    refine BitVec.eq_of_toNat_eq ?_
    rw [BitVec.toNat_ushiftRight, Nat.shiftRight_eq_div_pow, BitVec.toNat_ofInt, BitVec.toNat_ofInt]
    omega
  have hsum : (s₁ + s₀ / 2 ^ 32) * 2 ^ 32 + ((BitVec.ofInt 64 s₀).toNat % 2 ^ 32 : Nat) =
      s₁ * 2 ^ 32 + s₀ := by
    push_cast
    rw [hc0]
    omega
  unfold chunkAssembler64bit
  dsimp only
  rw [hc1, shiftLeft_or_setWidth, hsum]
  refine Prod.ext rfl ?_
  have hfits := @replicatedSignBit_eq_topCarryBits (s₁ + s₀ / 2 ^ 32) (by omega) (by omega)
  show (_ != _) = decide _
  rw [Bool.eq_iff_iff, bne_iff_ne, decide_eq_true_iff, Ne, hfits]
  omega

/-! ### The sum that is assembled -/

section

variable {g : Grouping}

theorem Grouping.exactChunkSum_low_fits (hlen : g.values.length ≤ 2 ^ 31 - 1) :
    0 ≤ g.exactChunkSum low ∧ g.exactChunkSum low < 2 ^ 63 := by
  have h := g.exactChunkSum_bounds (fun val => (low_bounds val).1)
    (fun val => (show low val ≤ 2 ^ 32 - 1 by have := (low_bounds val).2; omega))
  norm_num at h
  omega

theorem Grouping.exactChunkSum_high_fits (hlen : g.values.length ≤ 2 ^ 31 - 1) :
    -2 ^ 62 ≤ g.exactChunkSum high ∧ g.exactChunkSum high ≤ 2 ^ 62 := by
  have h := g.exactChunkSum_bounds (fun val => (high_bounds val).1)
    (fun val => (show high val ≤ 2 ^ 31 - 1 by have := (high_bounds val).2; omega))
  norm_num at h
  omega

end

/-- **The sum of 64-bit values by chunks is exact.** Whatever the groupings of the chunks into partial
sums, the two sums of chunks are exact, and the value that is assembled from them is the lower 64 bits of
the sum of the values, with an overflow iff that sum does not fit. -/
theorem chunkAssembler64bit_eq_exactSum {vals : List (BitVec 64)} (hlen : vals.length ≤ 2 ^ 31 - 1)
    {g₀ g₁ : Grouping} (hg0 : g₀.values.Perm vals) (hg1 : g₁.values.Perm vals) :
    ((g₀.chunkSum 0 .uint32).toNat : Int) = (vals.map low).sum ∧
      (g₁.chunkSum 1 .int32).toInt = (vals.map high).sum ∧
      chunkAssembler64bit (g₀.chunkSum 0 .uint32) (g₁.chunkSum 1 .int32) =
        (BitVec.ofInt 64 (exactSum vals),
          decide ¬(-2 ^ 63 ≤ exactSum vals ∧ exactSum vals < 2 ^ 63)) := by
  have hsum0 : g₀.exactChunkSum low = (vals.map low).sum := (hg0.map low).sum_eq
  have hsum1 : g₁.exactChunkSum high = (vals.map high).sum := (hg1.map high).sum_eq
  obtain ⟨hlow, hlow'⟩ := Grouping.exactChunkSum_low_fits (hg0.length_eq ▸ hlen)
  obtain ⟨hhigh, hhigh'⟩ := Grouping.exactChunkSum_high_fits (hg1.length_eq ▸ hlen)
  rw [Grouping.chunkSum_eq extend_low, Grouping.chunkSum_eq extend_high, ← hsum0, ← hsum1]
  refine ⟨?_, ?_, ?_⟩
  · rw [BitVec.toNat_ofInt]
    omega
  · rw [BitVec.toInt_ofInt]
    exact Int.bmod_eq_of_le (by omega) (by omega)
  · rw [exactSum_eq_chunks, ← hsum0, ← hsum1]
    exact chunkAssembler64bit_ofInt hlow hlow' hhigh hhigh'

/-- The largest value twice and a one, summed from the right and from the left. -/
theorem chunkAssembler64bit_of_max :
    chunkAssembler64bit
        ((Grouping.merge (.value (BitVec.ofInt 64 (2 ^ 63 - 1)))
          (.merge (.value 1) (.value (BitVec.ofInt 64 (2 ^ 63 - 1))))).chunkSum 0 .uint32)
        ((Grouping.merge (.merge (.value (BitVec.ofInt 64 (2 ^ 63 - 1))) (.value 1))
          (.value (BitVec.ofInt 64 (2 ^ 63 - 1)))).chunkSum 1 .int32) =
      (BitVec.ofInt 64 (2 ^ 64 - 1), true) := by
  have h := (@chunkAssembler64bit_eq_exactSum
    [1, BitVec.ofInt 64 (2 ^ 63 - 1), BitVec.ofInt 64 (2 ^ 63 - 1)] (by decide)
    (.merge (.value (BitVec.ofInt 64 (2 ^ 63 - 1)))
      (.merge (.value 1) (.value (BitVec.ofInt 64 (2 ^ 63 - 1)))))
    (.merge (.merge (.value (BitVec.ofInt 64 (2 ^ 63 - 1))) (.value 1))
      (.value (BitVec.ofInt 64 (2 ^ 63 - 1))))
    (by decide) (by decide)).2.2
  rw [h]
  decide

end SparkRapids.Aggregation64
