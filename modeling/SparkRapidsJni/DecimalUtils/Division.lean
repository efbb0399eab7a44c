import SparkRapidsJni.DecimalUtils.PowTen
import SparkRapidsJni.Lib.HalfAway

/-!
# Division of 256-bit integers

`divide_unsigned` is the long division in base two, `divide` puts the signs back, and
`round_from_remainder` turns a truncated quotient into a rounded one.

The loop keeps `Divided`: after the bits from `i` on have been read, the quotient and the remainder
are those of the number these bits spell. The rounding compares a doubled remainder with the divisor,
and a remainder of 128 bits can be doubled except for `-2 ^ 126`, whose double has no absolute value
in an `__int128_t`: there the quotient stays truncated (`roundInc128`).
-/

namespace SparkRapids

open Chunked256

/-- `divmod256` -/
structure DivMod256 where
  quotient : Chunked256
  remainder : BitVec 128

/-- `q[block] = q[block] | bit_set` -/
def Chunked256.setBit (q : Chunked256) (i : ℕ) : Chunked256 :=
  ⟨Limbs.setBit q.chunks i, by rw [Limbs.length_setBit, q.length_chunks]⟩

/-- One round of `divide_unsigned`, for the bit `i`. -/
def divideStep (n : Chunked256) (d : BitVec 128) (i : ℕ) (s : DivMod256) : DivMod256 :=
  let read := (n.get (i / 64) >>> (i % 64)) &&& 1
  let r := (s.remainder <<< 1) ||| read.zeroExtend 128
  if d ≤ r then ⟨s.quotient.setBit i, r - d⟩ else ⟨s.quotient, r⟩

/-- The rounds for the bits below `i`, from the top one down. -/
def divideLoop (n : Chunked256) (d : BitVec 128) : ℕ → DivMod256 → DivMod256
  | 0, s => s
  | i + 1, s => divideLoop n d i (divideStep n d i s)

/-- `divide_unsigned` -/
def divideUnsigned (n : Chunked256) (d : BitVec 128) : DivMod256 :=
  divideLoop n d 256 ⟨ofInt128 0, 0⟩

/-- `divide` -/
def divide (n : Chunked256) (d : BitVec 128) : DivMod256 :=
  let isNNeg := n.sign.slt 0
  let isDNeg := d.slt 0
  let absN := if isNNeg then n.negate else n
  let absD := if isDNeg then -d else d
  let result := divideUnsigned absN absD
  { quotient := if isDNeg != isNNeg then result.quotient.negate else result.quotient
    remainder := if isNNeg then -result.remainder else result.remainder }

/-- `round_from_remainder` -/
def roundFromRemainder (q : Chunked256) (r : BitVec 128) (n : Chunked256) (d : BitVec 128) :
    Chunked256 :=
  let doubleRemainder := r <<< 1
  let needInc : Bool := doubleRemainder.sshiftRight 1 != r ||
    (if d.slt 0 then -d else d).sle
      (if doubleRemainder.slt 0 then -doubleRemainder else doubleRemainder)
  let isNNeg := n.sign.slt 0
  let isDNeg := d.slt 0
  let roundDown := isNNeg != isDNeg
  let roundInc : BitVec 32 := if needInc then (if roundDown then -1 else 1) else 0
  q.addInt roundInc

/-- `divide_and_round` -/
def divideAndRound (n : Chunked256) (d : BitVec 128) : Chunked256 :=
  let divResult := divide n d
  roundFromRemainder divResult.quotient divResult.remainder n d

/-- `integer_divide` -/
def integerDivide (n : Chunked256) (d : BitVec 128) : Chunked256 := (divide n d).quotient

/-! ### The long division -/

/-- The quotient and the remainder of the bits of `n` from `i` on. -/
structure Divided (n d i : ℕ) (s : DivMod256) : Prop where
  quotient : s.quotient.toNat = 2 ^ i * (n / 2 ^ i / d)
  remainder : s.remainder.toNat = n / 2 ^ i % d

variable {n : Chunked256} {d : BitVec 128} {i : ℕ} {s : DivMod256}

theorem testBit_toNat (n : Chunked256) (hi : i < 256) :
    n.toNat.testBit i = (n.get (i / 64)).getLsbD (i % 64) :=
  Limbs.testBit_value n.chunks i (by rw [n.length_chunks]; exact hi)

/-- The bit that is read, in front of the bits above it. -/
theorem div_two_pow_step (m i : ℕ) : m / 2 ^ i = 2 * (m / 2 ^ (i + 1)) + (m.testBit i).toNat := by
  rw [Nat.testBit_eq_decide_div_mod_eq, pow_succ, ← Nat.div_div_eq_div_mul]
  rcases Nat.mod_two_eq_zero_or_one (m / 2 ^ i) with h | h <;> simp [h] <;> omega

theorem toNat_read (n : Chunked256) (hi : i < 256) :
    (((n.get (i / 64) >>> (i % 64)) &&& 1).zeroExtend 128).toNat = (n.toNat.testBit i).toNat := by
  have hle : 64 ≤ 128 := by omega
  have hone : (1 : BitVec 64).toNat = 1 := rfl
  simp only [BitVec.truncate_eq_setWidth, BitVec.toNat_setWidth_of_le hle, BitVec.toNat_and, hone]
  rw [BitVec.toNat_ushiftRight, testBit_toNat n hi, Nat.and_one_is_mod, Nat.shiftRight_eq_div_pow,
    BitVec.getLsbD, Nat.toNat_testBit]

/-- The remainder moves up by one bit, and the bit that is read takes the place. -/
theorem toNat_shifted {r b : BitVec 128} (hr : r.toNat < 2 ^ 127) (hb : b.toNat ≤ 1) :
    (r <<< 1 ||| b).toNat = 2 * r.toNat + b.toNat := by
  rw [BitVec.toNat_or, BitVec.toNat_shiftLeft, Nat.shiftLeft_eq, Nat.mul_comm,
    Nat.mod_eq_of_lt (by omega), ← Nat.two_pow_add_eq_or_of_lt (by omega), pow_one]

/-- A digit of the quotient: the divisor is taken off a remainder that reaches it. -/
theorem quotient_digit {m d b : ℕ} (hd : 0 < d) (hb : b ≤ 1) :
    (d ≤ 2 * (m % d) + b → (2 * m + b) / d = 2 * (m / d) + 1 ∧
      (2 * m + b) % d = 2 * (m % d) + b - d) ∧
    (2 * (m % d) + b < d → (2 * m + b) / d = 2 * (m / d) ∧
      (2 * m + b) % d = 2 * (m % d) + b) := by
  have hmod := Nat.mod_lt m hd
  have hdiv := Nat.div_add_mod m d
  constructor
  · intro h
    have heq : 2 * m + b = (2 * (m % d) + b - d) + d * (2 * (m / d) + 1) := by
      rw [Nat.mul_add, Nat.mul_left_comm]
      omega
    rw [heq, Nat.add_mul_div_left _ _ hd, Nat.add_mul_mod_self_left, Nat.div_eq_of_lt (by omega),
      Nat.mod_eq_of_lt (by omega)]
    exact ⟨Nat.zero_add _, rfl⟩
  · intro h
    have heq : 2 * m + b = (2 * (m % d) + b) + d * (2 * (m / d)) := by
      rw [Nat.mul_left_comm]
      omega
    rw [heq, Nat.add_mul_div_left _ _ hd, Nat.add_mul_mod_self_left, Nat.div_eq_of_lt h,
      Nat.mod_eq_of_lt h]
    exact ⟨Nat.zero_add _, rfl⟩

theorem divided_step (hd : 0 < d.toNat) (hd' : d.toNat ≤ 2 ^ 127) (hi : i < 256)
    (hs : Divided n.toNat d.toNat (i + 1) s) : Divided n.toNat d.toNat i (divideStep n d i s) := by
  have hbit := toNat_read n hi
  have hle := Bool.toNat_le (n.toNat.testBit i)
  have hrem := hs.remainder
  have hlt := Nat.mod_lt (n.toNat / 2 ^ (i + 1)) hd
  have hdigit := quotient_digit (m := n.toNat / 2 ^ (i + 1)) hd hle
  rw [← div_two_pow_step] at hdigit
  have hshift := toNat_shifted (r := s.remainder)
    (b := ((n.get (i / 64) >>> (i % 64)) &&& 1).zeroExtend 128) (by omega) (by omega)
  rw [hrem, hbit] at hshift
  unfold divideStep
  simp only [BitVec.le_def, hshift]
  split
  · next hge =>
    obtain ⟨hq, hr⟩ := hdigit.1 hge
    constructor
    · -- the bits of the quotient from here down have not been set
      have hclear : 2 ^ (i + 1) ∣ s.quotient.toNat := ⟨_, hs.quotient⟩
      have hset := Limbs.value_setBit s.quotient.chunks i
        (by rw [s.quotient.length_chunks]; exact hi) hclear
      show Limbs.value (Limbs.setBit s.quotient.chunks i) = _
      have hval : Limbs.value s.quotient.chunks = 2 ^ (i + 1) * (n.toNat / 2 ^ (i + 1) / d.toNat) :=
        hs.quotient
      rw [hset, hval, hq, pow_succ]
      ring
    · rw [BitVec.toNat_sub_of_le (by rw [BitVec.le_def, hshift]; exact hge), hshift, hr]
  · next hlt =>
    obtain ⟨hq, hr⟩ := hdigit.2 (not_le.1 hlt)
    constructor
    · show s.quotient.toNat = _
      rw [hs.quotient, hq, pow_succ]
      ring
    · rw [hr]
      exact hshift

theorem divided_loop (hd : 0 < d.toNat) (hd' : d.toNat ≤ 2 ^ 127) (hi : i ≤ 256)
    (hs : Divided n.toNat d.toNat i s) : Divided n.toNat d.toNat 0 (divideLoop n d i s) := by
  induction i generalizing s with
  | zero => exact hs
  | succ i ih => exact ih (by omega) (divided_step hd hd' (by omega) hs)

/-- `divide_unsigned` divides. -/
theorem divideUnsigned_spec (n : Chunked256) (hd : 0 < d.toNat) (hd' : d.toNat ≤ 2 ^ 127) :
    (divideUnsigned n d).quotient.toNat = n.toNat / d.toNat ∧
      (divideUnsigned n d).remainder.toNat = n.toNat % d.toNat := by
  have hzero : n.toNat / 2 ^ 256 = 0 := Nat.div_eq_of_lt n.toNat_lt
  have hinit : Divided n.toNat d.toNat 256 ⟨ofInt128 0, 0⟩ := by
    constructor
    · rw [hzero, Nat.zero_div, Nat.mul_zero]
      rfl
    · rw [hzero, Nat.zero_mod]
      rfl
  have hloop := divided_loop hd hd' le_rfl hinit
  have hq := hloop.quotient
  have hr := hloop.remainder
  rw [pow_zero, Nat.div_one] at hq hr
  rw [Nat.one_mul] at hq
  exact ⟨hq, hr⟩

/-! ### Signs -/

theorem toNat_abs128 (d : BitVec 128) : (if d.slt 0 then -d else d).toNat = d.toInt.natAbs := by
  have hd := d.isLt
  have hcond := BitVec.toInt_eq_toNat_cond d
  have hslt : d.slt 0 = true ↔ d.toInt < 0 := by
    rw [BitVec.slt_iff_toInt_lt, BitVec.ofNat_eq_ofNat, BitVec.toInt_zero]
  split_ifs with h
  · rw [hslt] at h
    rw [BitVec.toNat_neg]
    split_ifs at hcond <;> omega
  · rw [hslt] at h
    split_ifs at hcond <;> omega

theorem natAbs_le_two_pow (d : BitVec 128) : d.toInt.natAbs ≤ 2 ^ 127 := by
  have hlow := BitVec.le_toInt d
  have hhigh := BitVec.toInt_lt (x := d)
  omega

theorem toInt_of_toNat_lt {x : Chunked256} (h : x.toNat < 2 ^ 255) : x.toInt = x.toNat := by
  rw [toInt_eq_cond, if_pos h]

theorem toInt_negate_of_toNat_lt {x : Chunked256} (h : x.toNat < 2 ^ 255) :
    x.negate.toInt = -x.toNat := by
  rw [toInt_negate, toInt_of_toNat_lt h]
  exact bmod_of_inRange ⟨by omega, by omega⟩

theorem toInt_of_toNat_lt128 {r : BitVec 128} (h : r.toNat < 2 ^ 127) : r.toInt = r.toNat := by
  rw [BitVec.toInt_eq_toNat_cond, if_pos (by omega)]

theorem toInt_neg_of_toNat_lt128 {r : BitVec 128} (h : r.toNat < 2 ^ 127) :
    (-r).toInt = -r.toNat := by
  rw [BitVec.toInt_neg, toInt_of_toNat_lt128 h]
  exact Int.bmod_eq_of_le (m := 2 ^ 128) (by omega) (by omega)

/-- `divide` truncates, and the remainder has the sign of the dividend. -/
theorem divide_spec (hn : n.toInt ≠ -2 ^ 255) (hd : d.toInt ≠ 0) :
    (divide n d).quotient.toInt = n.toInt.tdiv d.toInt ∧
      (divide n d).remainder.toInt = n.toInt.tmod d.toInt := by
  have hrange := inRange_toInt n
  have hdpos : 0 < d.toInt.natAbs := Int.natAbs_pos.2 hd
  have hdle := natAbs_le_two_pow d
  have hspec := divideUnsigned_spec (if n.sign.slt 0 then n.negate else n)
    (d := if d.slt 0 then -d else d) (by rw [toNat_abs128]; exact hdpos)
    (by rw [toNat_abs128]; exact hdle)
  rw [toNat_abs, toNat_abs128] at hspec
  obtain ⟨hq, hr⟩ := hspec
  -- neither the quotient nor the remainder reaches its sign bit
  have hqlt : n.toInt.natAbs / d.toInt.natAbs < 2 ^ 255 := by
    have hle := Nat.div_le_self n.toInt.natAbs d.toInt.natAbs
    have habs : n.toInt.natAbs < 2 ^ 255 := by
      have hlow := hrange.1
      have hhigh := hrange.2
      omega
    omega
  have hrlt : n.toInt.natAbs % d.toInt.natAbs < 2 ^ 127 :=
    lt_of_lt_of_le (Nat.mod_lt _ hdpos) hdle
  have hdslt : d.slt 0 = true ↔ d.toInt < 0 := by
    rw [BitVec.slt_iff_toInt_lt, BitVec.ofNat_eq_ofNat, BitVec.toInt_zero]
  have hnslt := sign_slt_iff n
  rw [← hq] at hqlt
  rw [← hr] at hrlt
  constructor
  · rw [tdiv_eq_natAbs, ← hq]
    unfold divide
    by_cases hsign : n.toInt < 0 ↔ d.toInt < 0
    · have hbool : (d.slt 0 != n.sign.slt 0) = false := by
        rw [bne_eq_false_iff_eq, Bool.eq_iff_iff, hdslt, hnslt]
        exact hsign.symm
      rw [if_pos hsign]
      simp only [hbool]
      exact toInt_of_toNat_lt hqlt
    · have hbool : (d.slt 0 != n.sign.slt 0) = true := by
        rw [bne_iff_ne, ne_eq, Bool.eq_iff_iff, hdslt, hnslt]
        exact fun h => hsign h.symm
      rw [if_neg hsign]
      simp only [hbool]
      exact toInt_negate_of_toNat_lt hqlt
  · rw [tmod_eq_natAbs, ← hr]
    unfold divide
    by_cases hneg : n.toInt < 0
    · have hbool := hnslt.2 hneg
      rw [if_pos hneg]
      simp only [hbool] at hrlt ⊢
      exact toInt_neg_of_toNat_lt128 hrlt
    · have hbool : n.sign.slt 0 = false := Bool.eq_false_iff.2 (fun h => hneg (hnslt.1 h))
      rw [if_neg hneg]
      simp only [hbool] at hrlt ⊢
      exact toInt_of_toNat_lt128 hrlt

/-! ### Rounding -/

/-- What `round_from_remainder` adds to the truncated quotient: it misses the remainder of which the
double is the least `__int128_t`. -/
def roundInc128 (n d : ℤ) : ℤ := if n.tmod d = -2 ^ 126 then 0 else roundInc n d

theorem slt_zero_iff (d : BitVec 128) : d.slt 0 = true ↔ d.toInt < 0 := by
  rw [BitVec.slt_iff_toInt_lt, BitVec.ofNat_eq_ofNat, BitVec.toInt_zero]

theorem toInt_double (r : BitVec 128) : (r <<< 1).toInt =
    if r.toInt < -2 ^ 126 then 2 * r.toInt + 2 ^ 128
    else if r.toInt < 2 ^ 126 then 2 * r.toInt else 2 * r.toInt - 2 ^ 128 := by
  have hr := r.isLt
  have hcond := BitVec.toInt_eq_toNat_cond r
  have hdouble : (r <<< 1).toNat = 2 * r.toNat % 2 ^ 128 := by
    rw [BitVec.toNat_shiftLeft, Nat.shiftLeft_eq, pow_one, Nat.mul_comm]
  rw [BitVec.toInt_eq_toNat_cond, hdouble]
  split_ifs at hcond ⊢ <;> omega

/-- The absolute value of an `__int128_t`, where it has one. -/
theorem toInt_abs128 {d : BitVec 128} (hd : d.toInt ≠ -2 ^ 127) :
    (if d.slt 0 then -d else d).toInt = |d.toInt| := by
  have hlow := BitVec.le_toInt d
  have hhigh := BitVec.toInt_lt (x := d)
  have habs := toNat_abs128 d
  rw [BitVec.toInt_eq_toNat_cond, habs, Int.abs_eq_natAbs, if_pos (by omega)]

theorem needInc_iff {r d : BitVec 128} (hd : d.toInt ≠ -2 ^ 127) :
    ((r <<< 1).sshiftRight 1 != r || (if d.slt 0 then -d else d).sle
      (if (r <<< 1).slt 0 then -(r <<< 1) else r <<< 1)) = true ↔
      r.toInt ≠ -2 ^ 126 ∧ |d.toInt| ≤ 2 * |r.toInt| := by
  have hdlow := BitVec.le_toInt d
  have hdhigh := BitVec.toInt_lt (x := d)
  have hdouble := toInt_double r
  have hlost : ((r <<< 1).sshiftRight 1 != r) = true ↔ r.toInt < -2 ^ 126 ∨ 2 ^ 126 ≤ r.toInt := by
    rw [bne_iff_ne, ne_eq, ← BitVec.toInt_inj, BitVec.toInt_sshiftRight, Int.shiftRight_eq_div_pow,
      hdouble]
    split_ifs <;> omega
  rw [Bool.or_eq_true, hlost, BitVec.sle_iff_toInt_le, toInt_abs128 hd]
  by_cases hmin : r.toInt = -2 ^ 126
  · -- the double is its own negation
    have hneg : (r <<< 1).slt 0 = true := by
      rw [slt_zero_iff, hdouble, hmin]
      decide
    have hself : (-(r <<< 1)).toInt = -2 ^ 127 := by
      rw [BitVec.toInt_neg, hdouble, hmin]
      decide
    rw [if_pos hneg, hself, hmin]
    have habs := abs_nonneg d.toInt
    constructor
    · rintro ((h | h) | h) <;> omega
    · exact fun h => absurd rfl h.1
  · rw [and_iff_right hmin]
    by_cases hlarge : r.toInt < -2 ^ 126 ∨ 2 ^ 126 ≤ r.toInt
    · -- half of the largest divisor is not more than the remainder
      have hle : |d.toInt| ≤ 2 * |r.toInt| := by
        have hd127 : |d.toInt| ≤ 2 ^ 127 := abs_le.2 ⟨by omega, by omega⟩
        have hr126 : 2 ^ 126 ≤ |r.toInt| := by
          rcases hlarge with h | h
          · exact le_trans (by omega) (neg_le_abs r.toInt)
          · exact le_trans h (le_abs_self _)
        omega
      exact iff_of_true (Or.inl hlarge) hle
    · have hexact : (r <<< 1).toInt = 2 * r.toInt := by
        rw [hdouble]
        split_ifs <;> omega
      have habs : (if (r <<< 1).slt 0 then -(r <<< 1) else r <<< 1).toInt = 2 * |r.toInt| := by
        rw [toInt_abs128 (by rw [hexact]; omega), hexact, abs_mul, abs_two]
      rw [habs, or_iff_right hlarge]

/-- `round_from_remainder`, for a remainder of `n` and a quotient that has room for the increment. -/
theorem toInt_roundFromRemainder {q : Chunked256} {r : BitVec 128} (hd : d.toInt ≠ -2 ^ 127)
    (hr : r.toInt = n.toInt.tmod d.toInt) :
    (roundFromRemainder q r n d).toInt =
      (q.toInt + roundInc128 n.toInt d.toInt).bmod (2 ^ 256) := by
  have hneed := needInc_iff (r := r) hd
  have hdown : (n.sign.slt 0 != d.slt 0) = true ↔ ¬(n.toInt < 0 ↔ d.toInt < 0) := by
    rw [bne_iff_ne, ne_eq, Bool.eq_iff_iff, slt_zero_iff, sign_slt_iff]
  unfold roundFromRemainder
  rw [toInt_addInt]
  refine congrArg (fun inc => (q.toInt + inc).bmod (2 ^ 256)) ?_
  unfold roundInc128 roundInc
  rw [← hr]
  by_cases hmin : r.toInt = -2 ^ 126
  · rw [if_pos hmin, if_neg (by rw [hneed]; exact fun h => h.1 hmin)]
    rfl
  · rw [if_neg hmin]
    by_cases hhalf : |d.toInt| ≤ 2 * |r.toInt|
    · rw [if_pos hhalf, if_pos (hneed.2 ⟨hmin, hhalf⟩)]
      by_cases hsign : n.toInt < 0 ↔ d.toInt < 0
      · rw [if_pos hsign, if_neg (by rw [hdown]; exact not_not.2 hsign)]
        rfl
      · rw [if_neg hsign, if_pos (hdown.2 hsign)]
        rfl
    · rw [if_neg hhalf, if_neg (by rw [hneed]; exact fun h => hhalf h.2)]
      rfl

theorem abs_roundInc128_le (n d : ℤ) : |roundInc128 n d| ≤ 1 := by
  unfold roundInc128 roundInc
  split_ifs <;> decide

/-- Nothing is added to the quotient by one or minus one. -/
theorem roundInc128_of_abs_eq_one {n d : ℤ} (hd : |d| = 1) : roundInc128 n d = 0 := by
  have hmod : n.tmod d = 0 := Int.tmod_eq_zero_of_dvd (by rw [← abs_dvd, hd]; exact one_dvd n)
  rw [roundInc128, roundInc, hmod, if_neg (by decide), if_neg (by rw [hd]; decide)]

/-- A quotient of a number in the signed range has room for the increment. -/
theorem inRange_rounded {n d : ℤ} (hn : InRange n) (hn' : n ≠ -2 ^ 255) (hd : d ≠ 0) :
    InRange (n.tdiv d + roundInc128 n d) := by
  have hinc := abs_le.1 (abs_roundInc128_le n d)
  obtain ⟨hlow, hhigh⟩ := hn
  have hq : (n.tdiv d).natAbs = n.natAbs / d.natAbs := Int.natAbs_tdiv n d
  rcases Nat.lt_or_ge d.natAbs 2 with hone | htwo
  · have hd1 : d.natAbs = 1 := by omega
    rw [roundInc128_of_abs_eq_one (by rw [Int.abs_eq_natAbs, hd1]; rfl), add_zero]
    rw [hd1, Nat.div_one] at hq
    exact ⟨by omega, by omega⟩
  · have hhalf : n.natAbs / d.natAbs ≤ n.natAbs / 2 := Nat.div_le_div_left htwo (by norm_num)
    exact ⟨by omega, by omega⟩

/-- `divide_and_round` rounds half away from zero, but for one remainder. -/
theorem toInt_divideAndRound (hn : n.toInt ≠ -2 ^ 255) (hd : d.toInt ≠ 0)
    (hd' : d.toInt ≠ -2 ^ 127) :
    (divideAndRound n d).toInt = n.toInt.tdiv d.toInt + roundInc128 n.toInt d.toInt := by
  obtain ⟨hq, hr⟩ := divide_spec hn hd
  unfold divideAndRound
  rw [toInt_roundFromRemainder hd' hr, hq]
  exact bmod_of_inRange (inRange_rounded (inRange_toInt n) hn hd)

/-- Where the remainder can be doubled, the rounded quotient is the exact one. -/
theorem tdiv_add_roundInc128 {n d : ℤ} (hd : d ≠ 0) (h : n.tmod d ≠ -2 ^ 126) :
    n.tdiv d + roundInc128 n d = roundHalfAway (n / d) := by
  rw [roundHalfAway_div hd, roundInc128, if_neg h]

end SparkRapids
