import SparkRapidsJni.Lib.Limbs

/-!
# 256-bit integers in chunks

`chunked256` keeps a 256-bit integer as four 64-bit chunks, the least significant one first.
`__int128_t`, `__uint128_t` and `uint64_t` are bit vectors, and a signed reading is asked for where
the source has a signed type.

The operations are those of `Limbs` at four words of 64 bits. A value is read as an unsigned number
(`toNat`) or, as the two's complement it stands for, as an integer (`toInt`): addition, negation and
multiplication are exact modulo `2 ^ 256`, and exact on integers as long as the result is in the
signed range (`InRange`).
-/

namespace SparkRapids

/-- `chunked256` -/
structure Chunked256 where
  chunks : List (BitVec 64)
  length_chunks : chunks.length = 4

namespace Chunked256

/-- `chunked256(uint64_t a, uint64_t b, uint64_t c, uint64_t d)`, from the most significant chunk. -/
def ofChunks (a b c d : BitVec 64) : Chunked256 := ⟨[d, c, b, a], rfl⟩

/-- `chunked256(__int128_t x)`: the sign of `x` is extended into the upper chunks. -/
def ofInt128 (x : BitVec 128) : Chunked256 :=
  let xShifted := x.sshiftRight 64
  let upper := (xShifted.sshiftRight 64).truncate 64
  ofChunks upper upper (xShifted.truncate 64) (x.truncate 64)

/-- `operator[]` -/
def get (x : Chunked256) (i : ℕ) : BitVec 64 := x.chunks.getD i 0

/-- `sign`: minus one for a negative value, and zero otherwise. -/
def sign (x : Chunked256) : BitVec 64 := (x.get 3).sshiftRight 63

/-- `add(chunked256 const& a)` -/
def add (x a : Chunked256) : Chunked256 :=
  ⟨Limbs.add 0 x.chunks a.chunks, by
    rw [Limbs.length_add 0 _ _ (x.length_chunks.trans a.length_chunks.symm), x.length_chunks]⟩

/-- `add(int a)` -/
def addInt (x : Chunked256) (a : BitVec 32) : Chunked256 := x.add (ofInt128 (a.signExtend 128))

/-- `negate` -/
def negate (x : Chunked256) : Chunked256 :=
  addInt ⟨x.chunks.map (~~~ ·), by rw [List.length_map, x.length_chunks]⟩ 1

/-- `lt_unsigned` -/
def ltUnsigned (x other : Chunked256) : Bool :=
  Limbs.ltFromTop x.chunks.reverse other.chunks.reverse

/-- `gte_unsigned` -/
def gteUnsigned (x other : Chunked256) : Bool := !x.ltUnsigned other

/-- `as_128_bits` -/
def as128Bits (x : Chunked256) : BitVec 128 :=
  ((x.get 1).zeroExtend 128 <<< 64) ||| (x.get 0).zeroExtend 128

/-- `as_64_bits` -/
def as64Bits (x : Chunked256) : BitVec 64 := x.get 0

/-- `multiply` -/
def multiply (a b : Chunked256) : Chunked256 :=
  ⟨Limbs.mul a.chunks b.chunks, by
    rw [Limbs.length_mul _ _ (a.length_chunks.trans b.length_chunks.symm), a.length_chunks]⟩

/-! ### The number a value stands for -/

/-- The unsigned number. -/
def toNat (x : Chunked256) : ℕ := Limbs.value x.chunks

/-- The integer in two's complement. -/
def toInt (x : Chunked256) : ℤ := (x.toNat : ℤ).bmod (2 ^ 256)

/-- The integers of 256 bits. -/
def InRange (z : ℤ) : Prop := -2 ^ 255 ≤ z ∧ z < 2 ^ 255

variable {x a b : Chunked256} {z : ℤ}

theorem toNat_lt (x : Chunked256) : x.toNat < 2 ^ 256 := by
  have hlt := Limbs.value_lt x.chunks
  rwa [x.length_chunks] at hlt

theorem exists_ofChunks (x : Chunked256) : ∃ a b c d, x = ofChunks a b c d := by
  obtain ⟨_ | ⟨d, _ | ⟨c, _ | ⟨b, _ | ⟨a, _ | ⟨e, l⟩⟩⟩⟩⟩, h⟩ := x <;> simp at h
  exact ⟨a, b, c, d, rfl⟩

theorem toNat_ofChunks (a b c d : BitVec 64) : (ofChunks a b c d).toNat =
    d.toNat + 2 ^ 64 * (c.toNat + 2 ^ 64 * (b.toNat + 2 ^ 64 * a.toNat)) := rfl

theorem inRange_toInt (x : Chunked256) : InRange x.toInt :=
  ⟨Int.le_bmod (m := 2 ^ 256) (by norm_num), Int.bmod_lt (m := 2 ^ 256) (by norm_num)⟩

theorem bmod_of_inRange (h : InRange z) : z.bmod (2 ^ 256) = z :=
  Int.bmod_eq_of_le (m := 2 ^ 256) h.1 h.2

/-- The integer depends on the remainder alone. -/
theorem bmod_congr {m n k : ℕ} (h : m % k = n % k) : (m : ℤ).bmod k = (n : ℤ).bmod k := by
  have hcast : (m : ℤ) % k = (n : ℤ) % k := by exact_mod_cast h
  rw [← Int.emod_bmod, hcast, Int.emod_bmod]

theorem toInt_eq_cond (x : Chunked256) :
    x.toInt = if x.toNat < 2 ^ 255 then (x.toNat : ℤ) else x.toNat - 2 ^ 256 := by
  have hx := x.toNat_lt
  unfold toInt
  rw [Int.bmod_def]
  split <;> split <;> omega

/-! ### Arithmetic -/

theorem toNat_add (x a : Chunked256) : (x.add a).toNat = (x.toNat + a.toNat) % 2 ^ 256 := by
  have hadd := Limbs.value_add (by omega) x.chunks a.chunks
    (x.length_chunks.trans a.length_chunks.symm)
  rw [x.length_chunks] at hadd
  exact hadd

theorem toInt_add (x a : Chunked256) : (x.add a).toInt = (x.toInt + a.toInt).bmod (2 ^ 256) := by
  have hmod : (x.add a).toNat % 2 ^ 256 = (x.toNat + a.toNat) % 2 ^ 256 := by
    rw [toNat_add, Nat.mod_mod]
  unfold toInt
  rw [bmod_congr hmod, Nat.cast_add, Int.add_bmod]

theorem toNat_multiply (a b : Chunked256) :
    (a.multiply b).toNat % 2 ^ 256 = (a.toNat * b.toNat) % 2 ^ 256 := by
  have hmul := Limbs.value_mul a.chunks b.chunks (a.length_chunks.trans b.length_chunks.symm)
  rw [a.length_chunks] at hmul
  exact hmul

theorem toInt_multiply (a b : Chunked256) :
    (a.multiply b).toInt = (a.toInt * b.toInt).bmod (2 ^ 256) := by
  unfold toInt
  rw [bmod_congr (toNat_multiply a b), Nat.cast_mul, Int.mul_bmod]

/-- The bits of a signed number, as an unsigned one. -/
theorem toNat_eq_toInt_emod (x : BitVec 128) : (x.toNat : ℤ) = x.toInt % 2 ^ 128 := by
  have hx := x.isLt
  rw [BitVec.toInt_eq_toNat_cond]
  split <;> omega

theorem toInt_ofInt128 (x : BitVec 128) : (ofInt128 x).toInt = x.toInt := by
  have hlow := toNat_eq_toInt_emod x
  have hmid := toNat_eq_toInt_emod (x.sshiftRight 64)
  have hhigh := toNat_eq_toInt_emod ((x.sshiftRight 64).sshiftRight 64)
  have hlo := BitVec.le_toInt x
  have hhi := BitVec.toInt_lt (x := x)
  rw [toInt_eq_cond, ofInt128, toNat_ofChunks]
  simp only [BitVec.truncate_eq_setWidth, BitVec.toNat_setWidth, BitVec.toInt_sshiftRight,
    Int.shiftRight_eq_div_pow] at hlow hmid hhigh hlo hhi ⊢
  generalize x.toInt = z at *
  generalize x.toNat = n at *
  generalize (x.sshiftRight 64).toNat = m at *
  generalize ((x.sshiftRight 64).sshiftRight 64).toNat = k at *
  omega

theorem toInt_addInt (x : Chunked256) (a : BitVec 32) :
    (x.addInt a).toInt = (x.toInt + a.toInt).bmod (2 ^ 256) := by
  rw [addInt, toInt_add, toInt_ofInt128, BitVec.toInt_signExtend_of_le (by omega)]

/-- The negated number is the complement and one. -/
theorem bmod_neg {v n k : ℕ} (h : v + n + 1 = k) :
    ((v : ℤ).bmod k + 1).bmod k = (-(n : ℤ).bmod k).bmod k := by
  have hv : (v : ℤ) + 1 = k + -(n : ℤ) := by omega
  calc ((v : ℤ).bmod k + 1).bmod k
      = (-(n : ℤ)).bmod k := by rw [Int.bmod_add_bmod, hv, Int.add_bmod_left]
    _ = (-1 * (n : ℤ).bmod k).bmod k := by rw [Int.mul_bmod_bmod, neg_one_mul]
    _ = (-(n : ℤ).bmod k).bmod k := by rw [neg_one_mul]

theorem toInt_negate (x : Chunked256) : x.negate.toInt = (-x.toInt).bmod (2 ^ 256) := by
  have hnot := Limbs.value_map_not x.chunks
  rw [x.length_chunks] at hnot
  rw [negate, toInt_addInt]
  exact bmod_neg hnot

/-! ### Sign, order and low bits -/

/-- The top bit of the top chunk is the sign of the integer. -/
theorem toInt_sign (x : Chunked256) : x.sign.toInt = if x.toInt < 0 then -1 else 0 := by
  have hx := toInt_eq_cond x
  obtain ⟨a, b, c, d, rfl⟩ := exists_ofChunks x
  rw [toNat_ofChunks] at hx
  have hget : (ofChunks a b c d).get 3 = a := rfl
  rw [hx, sign, hget, BitVec.toInt_sshiftRight, Int.shiftRight_eq_div_pow,
    BitVec.toInt_eq_toNat_cond]
  have ha := a.isLt
  have hb := b.isLt
  have hc := c.isLt
  have hd := d.isLt
  split_ifs <;> omega

theorem sign_slt_iff (x : Chunked256) : x.sign.slt 0 = true ↔ x.toInt < 0 := by
  rw [BitVec.slt_iff_toInt_lt, toInt_sign, BitVec.ofNat_eq_ofNat, BitVec.toInt_zero]
  split_ifs with h
  · exact iff_of_true (by norm_num) h
  · exact iff_of_false (by norm_num) h

theorem sign_ne_iff (x : Chunked256) : x.sign ≠ 0 ↔ x.toInt < 0 := by
  rw [ne_eq, ← BitVec.toInt_inj, toInt_sign, BitVec.ofNat_eq_ofNat, BitVec.toInt_zero]
  split_ifs with h
  · exact iff_of_true (by norm_num) h
  · exact iff_of_false (by norm_num) h

theorem ltUnsigned_iff (x other : Chunked256) :
    x.ltUnsigned other = true ↔ x.toNat < other.toNat := by
  have hlen : x.chunks.reverse.length = other.chunks.reverse.length := by
    rw [List.length_reverse, List.length_reverse, x.length_chunks, other.length_chunks]
  rw [ltUnsigned, Limbs.ltFromTop_iff _ _ hlen, List.reverse_reverse, List.reverse_reverse]
  rfl

/-- The low 128 bits. -/
theorem as128Bits_eq (x : Chunked256) : x.as128Bits = BitVec.ofInt 128 x.toInt := by
  have hx := toInt_eq_cond x
  obtain ⟨a, b, c, d, rfl⟩ := exists_ofChunks x
  apply BitVec.eq_of_toNat_eq
  have hor : (c.zeroExtend 128 <<< 64 ||| d.zeroExtend 128).toNat = 2 ^ 64 * c.toNat + d.toNat := by
    have hc := c.isLt
    have hle : 64 ≤ 128 := by omega
    simp only [BitVec.toNat_or, BitVec.toNat_shiftLeft, BitVec.truncate_eq_setWidth,
      BitVec.toNat_setWidth_of_le hle]
    rw [Nat.shiftLeft_eq, Nat.mul_comm, Nat.mod_eq_of_lt (by omega),
      ← Nat.two_pow_add_eq_or_of_lt d.isLt]
  have has : (ofChunks a b c d).as128Bits = c.zeroExtend 128 <<< 64 ||| d.zeroExtend 128 := rfl
  rw [has, hor, BitVec.toNat_ofInt, hx, toNat_ofChunks]
  have ha := a.isLt
  have hb := b.isLt
  have hc := c.isLt
  have hd := d.isLt
  split_ifs <;> omega

/-- The low 128 bits hold an integer that fits into them. -/
theorem toInt_as128Bits (hlow : -2 ^ 127 ≤ x.toInt) (hhigh : x.toInt < 2 ^ 127) :
    x.as128Bits.toInt = x.toInt := by
  rw [as128Bits_eq, BitVec.toInt_ofInt]
  exact Int.bmod_eq_of_le (m := 2 ^ 128) hlow hhigh

end Chunked256

end SparkRapids
