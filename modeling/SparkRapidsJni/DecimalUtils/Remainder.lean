import SparkRapidsJni.DecimalUtils.Divide
import SparkRapidsJni.Lib.TruncDiv

/-!
# Integer division and remainder of decimals

`dec128_divider` with `is_int_div` leaves the truncated quotient, of which the low 64 bits are stored.

`dec128_remainder` takes the truncated quotient times the divisor off the dividend, all without signs.
The dividend stays at the scale at which it was divided, though, and only the other number is brought
to the scale of the remainder (`toInt_difference`): they are at one scale if the remainder has the
scale of the dividend, or a scale between those of the dividend and of the divisor. And a divisor that
gets zero where it is rounded is not noticed.
-/

namespace SparkRapids

open Chunked256

/-! ### The kernels -/

/-- A row of the two output columns of an integer division. -/
structure IntegerRow where
  overflow : Bool
  value : BitVec 64

/-- `dec128_divider<uint64_t, true>::operator()` -/
def Dec128Divider.integerRow (f : Dec128Divider) (a b : BitVec 128) : IntegerRow :=
  if b = 0 then ⟨true, 0⟩
  else
    let result := f.result true (ofInt128 a) b
    ⟨isGreaterThanDecimal38 result, result.as64Bits⟩

/-- The scales of `dec128_remainder` -/
structure Dec128Remainder where
  aScale : ℤ
  bScale : ℤ
  remScale : ℤ

namespace Dec128Remainder

variable (f : Dec128Remainder)

/-- `d_shift_exp` -/
def dShiftExp : ℤ := f.remScale - f.bScale

/-- `n_shift_exp`, as it is used in the division. -/
def nShiftExp : ℤ :=
  let nShiftExp := f.remScale - f.aScale
  if f.dShiftExp > 0 then nShiftExp else nShiftExp - f.dShiftExp

/-- `abs_d` -/
def absD (d : BitVec 128) : BitVec 128 :=
  let absD := if d.slt 0 then -d else d
  -- the scale of the divisor is shifted to `rem_scale`, with rounding
  if f.dShiftExp > 0 then
    let scaleDivisor := (powTen f.dShiftExp.toNat).as128Bits
    (divideAndRound (ofInt128 absD) scaleDivisor).as128Bits
  else absD

/-- `abs_n`, before it is shifted. -/
def absN (a : BitVec 128) : Chunked256 :=
  let n := ofInt128 a
  if n.sign.slt 0 then n.negate else n

/-- `abs_n`, as it is divided. -/
def shiftedN (a : BitVec 128) : Chunked256 :=
  if f.nShiftExp < 0 then multiply (absN a) (powTen (-f.nShiftExp).toNat) else absN a

/-- `int_div_result` -/
def intDivResult (a b : BitVec 128) : Chunked256 :=
  if f.nShiftExp > 0 then
    let firstDivResult := divide (absN a) (f.absD b)
    let scaleDivisor := (powTen f.nShiftExp.toNat).as128Bits
    integerDivide firstDivResult.quotient scaleDivisor
  else integerDivide (f.shiftedN a) (f.absD b)

/-- `less_n` -/
def lessN (a b : BitVec 128) : Chunked256 :=
  let lessN := multiply (f.intDivResult a b) (ofInt128 (f.absD b))
  if f.dShiftExp < 0 then multiply lessN (powTen (-f.dShiftExp).toNat) else lessN

/-- `abs_n`, with `less_n` taken off. -/
def difference (a b : BitVec 128) : Chunked256 := (f.shiftedN a).add (f.lessN a b).negate

/-- `dec128_remainder::operator()` -/
def row (a b : BitVec 128) : DecimalRow :=
  if b = 0 then ⟨true, some 0⟩
  else
    let result := (f.difference a b).as128Bits
    let isNNeg := (ofInt128 a).sign.slt 0
    ⟨isGreaterThanDecimal38 (f.difference a b), some (if isNNeg then -result else result)⟩

end Dec128Remainder

/-- The functor at the cudf scales of three decimal scales. -/
def dec128Remainder (s₁ s₂ s : ℕ) : Dec128Remainder := ⟨-s₁, -s₂, -s⟩

variable {a b : BitVec 128} {x : Chunked256} {s₁ s₂ s k : ℕ}

/-! ### Integer division -/

/-- The low 64 bits. -/
theorem Chunked256.as64Bits_eq (x : Chunked256) : x.as64Bits = BitVec.ofInt 64 x.toInt := by
  have hx := toInt_eq_cond x
  obtain ⟨a, b, c, d, rfl⟩ := exists_ofChunks x
  apply BitVec.eq_of_toNat_eq
  have has : (ofChunks a b c d).as64Bits = d := rfl
  rw [has, BitVec.toNat_ofInt, hx, toNat_ofChunks]
  have hd := d.isLt
  split_ifs <;> omega

/-- The row has the low 64 bits of `q`, and reports whether `q` has more than 38 digits. -/
structure IntegerRow.Stores (row : IntegerRow) (q : ℤ) : Prop where
  overflow : row.overflow = true ↔ 10 ^ 38 ≤ |q|
  value : row.value = BitVec.ofInt 64 q

theorem truncate_decimal_div (hb : b.toInt ≠ 0) :
    truncate (decimal a s₁ / decimal b s₂) = (a.toInt * 10 ^ s₂).tdiv (b.toInt * 10 ^ s₁) := by
  have hpow : (10 : ℤ) ^ s₁ ≠ 0 := by positivity
  rw [← truncate_div _ (mul_ne_zero hb hpow), decimal, decimal, div_div_div_eq]
  push_cast
  rw [mul_comm ((10 : ℚ) ^ s₁)]

/-- Integer division of the numbers that the unscaled values stand for. -/
theorem toInt_integerResult (ha : |a.toInt| < 10 ^ 38) (hb : b.toInt ≠ 0) (hs1 : s₁ ≤ 38)
    (hs2 : s₂ ≤ 38) : ((dec128Divider s₁ s₂ 0).result true (ofInt128 a) b).toInt =
      truncate (decimal a s₁ / decimal b s₂) := by
  have hle := abs_tdiv_le a.toInt b.toInt
  rw [truncate_decimal_div hb]
  unfold Dec128Divider.result
  rw [shift_eq]
  dsimp only
  rcases Nat.lt_or_ge s₂ s₁ with hlt | hge
  · -- the quotient is divided once more
    obtain ⟨k, rfl⟩ : ∃ k, s₁ = s₂ + k := ⟨s₁ - s₂, by omega⟩
    have hexp : (((s₂ + k : ℕ) : ℤ) - s₂ - (0 : ℕ)) = k := by omega
    have hpow := toInt_as128Bits_powTen (i := k) (by omega)
    have hq := (divide_spec (n := ofInt128 a) (toInt_ne_min (by rw [toInt_ofInt128]; omega)) hb).1
    rw [toInt_ofInt128] at hq
    have hq2 := (divide_spec (n := (divide (ofInt128 a) b).quotient)
      (d := (powTen k).as128Bits) (toInt_ne_min (by rw [hq]; omega)) (by rw [hpow]; positivity)).1
    rw [hexp, if_pos (by omega), if_pos rfl, Int.toNat_natCast]
    show (divide (divide (ofInt128 a) b).quotient (powTen k).as128Bits).quotient.toInt = _
    rw [hq2, hq, hpow, tdiv_tdiv _ hb, pow_add, mul_comm ((10 : ℤ) ^ s₂),
      ← mul_assoc, Int.mul_tdiv_mul_of_pos_left _ _ (by positivity)]
  · -- the dividend is multiplied first
    obtain ⟨k, rfl⟩ : ∃ k, s₂ = s₁ + k := ⟨s₂ - s₁, by omega⟩
    have hexp : ((s₁ : ℤ) - (s₁ + k : ℕ) - (0 : ℕ)) = -k := by omega
    have hlt := abs_mul_pow_ten_lt ha (show k ≤ 38 by omega)
    have hn : (if (-(k : ℤ)) < 0 then multiply (ofInt128 a) (powTen (- -(k : ℤ)).toNat)
        else ofInt128 a).toInt = a.toInt * 10 ^ k := by
      split
      · rw [neg_neg, Int.toNat_natCast, toInt_multiply_powTen (by omega), toInt_ofInt128]
        rw [toInt_ofInt128]
        exact inRange_of_abs_lt (by omega)
      · next hzero =>
        obtain rfl : k = 0 := by omega
        rw [toInt_ofInt128, pow_zero, mul_one]
    rw [hexp, if_neg (by omega), if_neg (by omega), if_pos rfl]
    show (divide _ b).quotient.toInt = _
    rw [(divide_spec (toInt_ne_min (by rw [hn]; omega)) hb).1, hn, pow_add,
      mul_comm ((10 : ℤ) ^ s₁), ← mul_assoc, Int.mul_tdiv_mul_of_pos_left _ _ (by positivity)]

theorem toInt_ne_zero_iff : b.toInt ≠ 0 ↔ b ≠ 0 := by
  rw [ne_eq, ne_eq, ← BitVec.toInt_inj, BitVec.ofNat_eq_ofNat, BitVec.toInt_zero]

theorem integerRow_stores (ha : |a.toInt| < 10 ^ 38) (hb : b.toInt ≠ 0) (hs1 : s₁ ≤ 38)
    (hs2 : s₂ ≤ 38) : ((dec128Divider s₁ s₂ 0).integerRow a b).Stores
      (truncate (decimal a s₁ / decimal b s₂)) := by
  have hresult : ((dec128Divider s₁ s₂ 0).result true (ofInt128 a) b).toInt =
      truncate (decimal a s₁ / decimal b s₂) := toInt_integerResult ha hb hs1 hs2
  unfold Dec128Divider.integerRow
  rw [if_neg (toInt_ne_zero_iff.1 hb)]
  constructor
  · show isGreaterThanDecimal38 _ = true ↔ _
    rw [isGreaterThanDecimal38_iff, hresult]
  · show as64Bits _ = _
    rw [as64Bits_eq, hresult]

/-! ### The divisor and the dividend of the remainder -/

/-- The divisor as an unscaled value of the scale `s`, rounded half up. -/
def divisorAt (b : BitVec 128) (s₂ s : ℕ) : ℤ := roundHalfAway (decimal b s₂ * 10 ^ s)

theorem ne_min_of_abs_lt (hb : |b.toInt| < 10 ^ 38) : b.toInt ≠ -2 ^ 127 := by
  have hlow := (abs_lt.1 hb).1
  omega

theorem toInt_absN (a : BitVec 128) : (Dec128Remainder.absN a).toInt = |a.toInt| := by
  have hnat : (Dec128Remainder.absN a).toNat = (ofInt128 a).toInt.natAbs := toNat_abs (ofInt128 a)
  have hle := natAbs_le_two_pow a
  rw [toInt_ofInt128] at hnat
  rw [toInt_of_toNat_lt (by omega), hnat, Int.abs_eq_natAbs]

/-- A divisor that is rounded to a smaller scale. -/
theorem abs_divisorAt_of_lt (h : s₂ = s + k) :
    |divisorAt b s₂ s| = roundHalfAway ((|b.toInt| : ℤ) / (10 ^ k : ℤ)) := by
  have hpos : (0 : ℚ) < 10 ^ s := by positivity
  rw [divisorAt, abs_roundHalfAway, decimal, h, pow_add, div_mul_eq_mul_div,
    mul_comm ((10 : ℚ) ^ s), mul_div_mul_right _ _ hpos.ne', abs_div, abs_of_pos (by positivity :
      (0 : ℚ) < 10 ^ k)]
  push_cast
  rfl

theorem divisorAt_of_le (h : s = s₂ + k) : divisorAt b s₂ s = b.toInt * 10 ^ k := by
  have hpos : (0 : ℚ) < 10 ^ s₂ := by positivity
  rw [divisorAt, decimal, h, pow_add, ← mul_assoc, div_mul_cancel₀ _ hpos.ne',
    ← roundHalfAway_intCast (b.toInt * 10 ^ k)]
  push_cast
  rfl

/-- The absolute value of the divisor, at the smaller one of its scale and the one of the result. -/
theorem toInt_absD (s₁ s : ℕ) (hb : |b.toInt| < 10 ^ 38) (hs2 : s₂ ≤ 38) :
    0 ≤ ((dec128Remainder s₁ s₂ s).absD b).toInt ∧
      ((dec128Remainder s₁ s₂ s).absD b).toInt < 10 ^ 38 ∧
      ((dec128Remainder s₁ s₂ s).absD b).toInt * 10 ^ (s - min s s₂) = |divisorAt b s₂ s| := by
  have habs := toInt_abs128 (ne_min_of_abs_lt hb)
  have hnonneg := abs_nonneg b.toInt
  have hexp : (dec128Remainder s₁ s₂ s).dShiftExp = (s₂ : ℤ) - s := by
    show -(s : ℤ) - -(s₂ : ℤ) = _
    ring
  unfold Dec128Remainder.absD
  rw [hexp]
  dsimp only
  rcases Nat.lt_or_ge s s₂ with hlt | hge
  · obtain ⟨k, rfl⟩ : ∃ k, s₂ = s + k := ⟨s₂ - s, by omega⟩
    have hpow := toInt_as128Bits_powTen (i := k) (by omega)
    have hpos : (0 : ℤ) < 10 ^ k := by positivity
    -- the remainder of an absolute value is not negative
    have hmod : |b.toInt|.tmod (10 ^ k) ≠ -2 ^ 126 := by
      have hle := Int.tmod_nonneg (10 ^ k) hnonneg
      omega
    have hround : (divideAndRound (ofInt128 (if b.slt 0 then -b else b))
        (powTen k).as128Bits).toInt = |divisorAt b (s + k) s| := by
      have hd : (powTen k).as128Bits.toInt ≠ -2 ^ 127 := by
        rw [hpow]
        omega
      rw [toInt_divideAndRound (toInt_ne_min (by rw [toInt_ofInt128, habs, abs_abs]; omega))
        (by rw [hpow]; positivity) hd, toInt_ofInt128, habs, hpow,
        tdiv_add_roundInc128 hpos.ne' hmod, abs_divisorAt_of_lt rfl]
    have hle : |divisorAt b (s + k) s| ≤ |b.toInt| := by
      have hcast : (0 : ℚ) ≤ (|b.toInt| : ℤ) := by exact_mod_cast hnonneg
      have hone : (1 : ℚ) ≤ (10 ^ k : ℤ) := by exact_mod_cast hpos
      have hquot : (0 : ℚ) ≤ (|b.toInt| : ℤ) / (10 ^ k : ℤ) := div_nonneg hcast (by linarith)
      rw [abs_divisorAt_of_lt rfl, ← abs_of_nonneg (roundHalfAway_nonneg hquot)]
      apply abs_roundHalfAway_le
      rw [abs_of_nonneg hquot]
      exact div_le_self hcast hone
    rw [if_pos (by omega), show ((s + k : ℕ) : ℤ) - s = k by omega, Int.toNat_natCast,
      toInt_as128Bits (by rw [hround]; have := abs_nonneg (divisorAt b (s + k) s); omega)
        (by rw [hround]; omega), hround, show s - min s (s + k) = 0 by omega, pow_zero, mul_one]
    exact ⟨abs_nonneg _, by omega, rfl⟩
  · obtain ⟨k, rfl⟩ : ∃ k, s = s₂ + k := ⟨s - s₂, by omega⟩
    rw [if_neg (by omega), habs, show s₂ + k - min (s₂ + k) s₂ = k by omega,
      divisorAt_of_le rfl, abs_mul, abs_of_pos (by positivity : (0 : ℤ) < 10 ^ k)]
    exact ⟨hnonneg, hb, rfl⟩

theorem nShiftExp_eq (s₁ s₂ s : ℕ) :
    (dec128Remainder s₁ s₂ s).nShiftExp = (s₁ : ℤ) - (min s s₂ : ℕ) := by
  have hexp : (dec128Remainder s₁ s₂ s).dShiftExp = (s₂ : ℤ) - s := by
    show -(s : ℤ) - -(s₂ : ℤ) = _
    ring
  have hn : (dec128Remainder s₁ s₂ s).remScale - (dec128Remainder s₁ s₂ s).aScale = (s₁ : ℤ) - s := by
    show -(s : ℤ) - -(s₁ : ℤ) = _
    ring
  unfold Dec128Remainder.nShiftExp
  dsimp only
  rw [hexp, hn]
  split <;> omega

/-- The dividend at the larger one of its scale and the one of the divisor. -/
theorem toInt_shiftedN (s₁ s : ℕ) (ha : |a.toInt| < 10 ^ 38) (hs2 : s₂ ≤ 38) :
    ((dec128Remainder s₁ s₂ s).shiftedN a).toInt = |a.toInt| * 10 ^ (min s s₂ - s₁) := by
  have hlt := abs_mul_pow_ten_lt ha (show min s s₂ - s₁ ≤ 38 by omega)
  have habs : |(|a.toInt| * 10 ^ (min s s₂ - s₁))| < 10 ^ 76 := by
    rwa [abs_mul, abs_abs, ← abs_mul]
  unfold Dec128Remainder.shiftedN
  rw [nShiftExp_eq]
  split
  · next hneg =>
    have hexp : (-((s₁ : ℤ) - (min s s₂ : ℕ))).toNat = min s s₂ - s₁ := by omega
    rw [hexp, toInt_multiply_powTen (by omega), toInt_absN]
    rw [toInt_absN]
    exact inRange_of_abs_lt (by omega)
  · next hpos =>
    rw [toInt_absN, show min s s₂ - s₁ = 0 by omega, pow_zero, mul_one]

/-! ### What is taken off -/

/-- The absolute values of the dividend and the quotient of the division in the kernel: the dividend
is at the larger one of its scale and the one of the divisor. -/
def scaledDividend (a : BitVec 128) (s₁ s₂ s : ℕ) : ℤ := |a.toInt| * 10 ^ (min s s₂ - s₁)

def absQuotient (a : BitVec 128) (d : ℤ) (s₁ s₂ s : ℕ) : ℤ :=
  scaledDividend a s₁ s₂ s / (d * 10 ^ (s₁ - min s s₂))

theorem scaledDividend_nonneg (a : BitVec 128) (s₁ s₂ s : ℕ) : 0 ≤ scaledDividend a s₁ s₂ s :=
  mul_nonneg (abs_nonneg _) (pow_nonneg (by norm_num) _)

theorem toInt_intDivResult (ha : |a.toInt| < 10 ^ 38) (hs1 : s₁ ≤ 38) (hs2 : s₂ ≤ 38)
    (hd : 0 < ((dec128Remainder s₁ s₂ s).absD b).toInt) :
    ((dec128Remainder s₁ s₂ s).intDivResult a b).toInt =
      absQuotient a ((dec128Remainder s₁ s₂ s).absD b).toInt s₁ s₂ s := by
  have hnonneg := abs_nonneg a.toInt
  unfold Dec128Remainder.intDivResult absQuotient scaledDividend
  rw [nShiftExp_eq]
  dsimp only
  split
  · -- the quotient is divided once more
    next hpos =>
    obtain ⟨k, hk⟩ : ∃ k, s₁ = min s s₂ + k := ⟨s₁ - min s s₂, by omega⟩
    have hpow := toInt_as128Bits_powTen (i := k) (by omega)
    have hle := abs_tdiv_le |a.toInt| ((dec128Remainder s₁ s₂ s).absD b).toInt
    rw [abs_abs] at hle
    have hq := (divide_spec (n := Dec128Remainder.absN a)
      (toInt_ne_min (by rw [toInt_absN, abs_abs]; omega)) hd.ne').1
    rw [toInt_absN] at hq
    have hq2 := (divide_spec (n := (divide (Dec128Remainder.absN a)
      ((dec128Remainder s₁ s₂ s).absD b)).quotient) (d := (powTen k).as128Bits)
      (toInt_ne_min (by rw [hq]; omega)) (by rw [hpow]; positivity)).1
    rw [show ((s₁ : ℤ) - (min s s₂ : ℕ)).toNat = k by omega, show min s s₂ - s₁ = 0 by omega,
      show s₁ - min s s₂ = k by omega, pow_zero, mul_one]
    show (divide _ (powTen k).as128Bits).quotient.toInt = _
    rw [hq2, hq, hpow, tdiv_tdiv _ hd.ne', Int.tdiv_eq_ediv_of_nonneg hnonneg]
  · next hneg =>
    have hn := toInt_shiftedN s₁ s ha hs2
    have hlt := abs_mul_pow_ten_lt (z := |a.toInt|) (by rwa [abs_abs])
      (show min s s₂ - s₁ ≤ 38 by omega)
    show (divide _ _).quotient.toInt = _
    rw [(divide_spec (toInt_ne_min (by rw [hn]; omega)) hd.ne').1, hn,
      show s₁ - min s s₂ = 0 by omega, pow_zero, mul_one]
    exact Int.tdiv_eq_ediv_of_nonneg (scaledDividend_nonneg a s₁ s₂ s)

/-- What is taken off is not more than the dividend, but for a scale that is added. -/
theorem absQuotient_mul_le (a : BitVec 128) (s₁ s₂ s : ℕ) {d : ℤ} (hd : 0 < d) :
    0 ≤ absQuotient a d s₁ s₂ s * d ∧ absQuotient a d s₁ s₂ s * d ≤ scaledDividend a s₁ s₂ s := by
  have hnonneg := scaledDividend_nonneg a s₁ s₂ s
  have hpow : (1 : ℤ) ≤ 10 ^ (s₁ - min s s₂) := one_le_pow₀ (by norm_num)
  have hdpow : d ≤ d * 10 ^ (s₁ - min s s₂) := le_mul_of_one_le_right hd.le hpow
  have hq : 0 ≤ absQuotient a d s₁ s₂ s := Int.ediv_nonneg hnonneg (by linarith)
  refine ⟨mul_nonneg hq hd.le, ?_⟩
  calc absQuotient a d s₁ s₂ s * d
      ≤ absQuotient a d s₁ s₂ s * (d * 10 ^ (s₁ - min s s₂)) := mul_le_mul_of_nonneg_left hdpow hq
    _ ≤ scaledDividend a s₁ s₂ s := Int.ediv_mul_le _ (by linarith)

theorem scaledDividend_lt (s₁ : ℕ) (ha : |a.toInt| < 10 ^ 38) (hs2 : s₂ ≤ 38) (hs : s ≤ 38) :
    scaledDividend a s₁ s₂ s * 10 ^ (s - min s s₂) < 10 ^ 76 := by
  have hlt := abs_mul_pow_ten_lt (z := |a.toInt|) (by rwa [abs_abs])
    (show min s s₂ - s₁ + (s - min s s₂) ≤ 38 by omega)
  rw [abs_of_nonneg (by positivity), pow_add, ← mul_assoc] at hlt
  exact hlt

theorem inRange_of_nonneg {z : ℤ} (h : 0 ≤ z) (h' : z < 10 ^ 76) : InRange z :=
  ⟨by omega, by omega⟩

/-- What is taken off is not negative, and is in range at the dividend's scale as well. -/
theorem absQuotient_mul_pow (s₁ : ℕ) (ha : |a.toInt| < 10 ^ 38) (hs2 : s₂ ≤ 38) (hs : s ≤ 38) {d : ℤ}
    (hd : 0 < d) : 0 ≤ absQuotient a d s₁ s₂ s * d ∧
      absQuotient a d s₁ s₂ s * d ≤ absQuotient a d s₁ s₂ s * d * 10 ^ (s - min s s₂) ∧
      absQuotient a d s₁ s₂ s * d * 10 ^ (s - min s s₂) < 10 ^ 76 := by
  obtain ⟨hlow, hhigh⟩ := absQuotient_mul_le a s₁ s₂ s hd
  have hpow : (1 : ℤ) ≤ 10 ^ (s - min s s₂) := one_le_pow₀ (by norm_num)
  have hmul := mul_le_mul_of_nonneg_right hhigh (by linarith : (0 : ℤ) ≤ 10 ^ (s - min s s₂))
  exact ⟨hlow, le_mul_of_one_le_right hlow hpow, hmul.trans_lt (scaledDividend_lt s₁ ha hs2 hs)⟩

theorem toInt_lessN (ha : |a.toInt| < 10 ^ 38) (hb : |b.toInt| < 10 ^ 38) (hs1 : s₁ ≤ 38)
    (hs2 : s₂ ≤ 38) (hs : s ≤ 38) (hd : 0 < ((dec128Remainder s₁ s₂ s).absD b).toInt) :
    ((dec128Remainder s₁ s₂ s).lessN a b).toInt =
      absQuotient a ((dec128Remainder s₁ s₂ s).absD b).toInt s₁ s₂ s * |divisorAt b s₂ s| := by
  obtain ⟨-, -, hdivisor⟩ := toInt_absD s₁ s hb hs2
  obtain ⟨hlow, hmul, hlt⟩ := absQuotient_mul_pow s₁ ha hs2 hs hd
  have hproduct : (multiply ((dec128Remainder s₁ s₂ s).intDivResult a b)
      (ofInt128 ((dec128Remainder s₁ s₂ s).absD b))).toInt =
      absQuotient a ((dec128Remainder s₁ s₂ s).absD b).toInt s₁ s₂ s *
        ((dec128Remainder s₁ s₂ s).absD b).toInt := by
    rw [toInt_multiply, toInt_ofInt128, toInt_intDivResult ha hs1 hs2 hd]
    exact bmod_of_inRange ⟨by omega, by omega⟩
  have hexp : (dec128Remainder s₁ s₂ s).dShiftExp = (s₂ : ℤ) - s := by
    show -(s : ℤ) - -(s₂ : ℤ) = _
    ring
  unfold Dec128Remainder.lessN
  rw [hexp, ← hdivisor, ← mul_assoc]
  dsimp only
  split
  · next hneg =>
    have hrange : InRange (absQuotient a ((dec128Remainder s₁ s₂ s).absD b).toInt s₁ s₂ s *
        ((dec128Remainder s₁ s₂ s).absD b).toInt * 10 ^ (s - min s s₂)) :=
      inRange_of_nonneg (hlow.trans hmul) hlt
    rw [← hproduct] at hrange
    rw [show (-((s₂ : ℤ) - s)).toNat = s - min s s₂ by omega,
      toInt_multiply_powTen (by omega) hrange, hproduct]
  · next hpos =>
    rw [hproduct, show s - min s s₂ = 0 by omega, pow_zero, mul_one]

theorem toInt_add_negate {y : Chunked256} (hx : 0 ≤ x.toInt) (hx' : x.toInt < 10 ^ 76)
    (hy : 0 ≤ y.toInt) (hy' : y.toInt < 10 ^ 76) : (x.add y.negate).toInt = x.toInt - y.toInt := by
  rw [toInt_add, toInt_negate, Int.add_bmod_bmod, ← sub_eq_add_neg]
  exact bmod_of_inRange ⟨by omega, by omega⟩

/-- The dividend and what is taken off may be at different scales. -/
theorem toInt_difference (ha : |a.toInt| < 10 ^ 38) (hb : |b.toInt| < 10 ^ 38) (hs1 : s₁ ≤ 38)
    (hs2 : s₂ ≤ 38) (hs : s ≤ 38) (hd : 0 < ((dec128Remainder s₁ s₂ s).absD b).toInt) :
    ((dec128Remainder s₁ s₂ s).difference a b).toInt = scaledDividend a s₁ s₂ s -
      absQuotient a ((dec128Remainder s₁ s₂ s).absD b).toInt s₁ s₂ s * |divisorAt b s₂ s| := by
  obtain ⟨-, -, hdivisor⟩ := toInt_absD s₁ s hb hs2
  obtain ⟨hlow, hmul, hlt⟩ := absQuotient_mul_pow s₁ ha hs2 hs hd
  have hpow : (1 : ℤ) ≤ 10 ^ (s - min s s₂) := one_le_pow₀ (by norm_num)
  have hn := toInt_shiftedN s₁ s ha hs2
  have hnonneg := scaledDividend_nonneg a s₁ s₂ s
  have hle := le_mul_of_one_le_right hnonneg hpow
  have hless := toInt_lessN ha hb hs1 hs2 hs hd
  rw [← hdivisor, ← mul_assoc] at hless ⊢
  have hless' := hlow.trans hmul
  have hn' : ((dec128Remainder s₁ s₂ s).shiftedN a).toInt = scaledDividend a s₁ s₂ s := hn
  rw [← hless] at hless' hlt
  have hlt'' := hle.trans_lt (scaledDividend_lt s₁ ha hs2 hs)
  rw [← hn'] at hnonneg hlt''
  unfold Dec128Remainder.difference
  rw [toInt_add_negate hnonneg hlt'' hless' hlt, hn', hless]

/-- Nothing is taken off for a divisor that is rounded to zero. -/
theorem toInt_difference_of_eq_zero (ha : |a.toInt| < 10 ^ 38) (hs2 : s₂ ≤ 38)
    (hd : ((dec128Remainder s₁ s₂ s).absD b).toInt = 0) :
    ((dec128Remainder s₁ s₂ s).difference a b).toInt = scaledDividend a s₁ s₂ s := by
  have hzero : ∀ x y : Chunked256, (x.toInt * y.toInt = 0) → (multiply x y).toInt = 0 := by
    intro x y h
    rw [toInt_multiply, h, Int.zero_bmod]
  have hproduct : (multiply ((dec128Remainder s₁ s₂ s).intDivResult a b)
      (ofInt128 ((dec128Remainder s₁ s₂ s).absD b))).toInt = 0 :=
    hzero _ _ (by rw [toInt_ofInt128, hd, mul_zero])
  have hless : ((dec128Remainder s₁ s₂ s).lessN a b).toInt = 0 := by
    unfold Dec128Remainder.lessN
    dsimp only
    split
    · exact hzero _ _ (by rw [hproduct, zero_mul])
    · exact hproduct
  have hn : ((dec128Remainder s₁ s₂ s).shiftedN a).toInt = scaledDividend a s₁ s₂ s :=
    toInt_shiftedN s₁ s ha hs2
  have hlt : |scaledDividend a s₁ s₂ s| < 10 ^ 76 :=
    abs_mul_pow_ten_lt (by rwa [abs_abs]) (by omega)
  have hnonneg := scaledDividend_nonneg a s₁ s₂ s
  rw [abs_of_nonneg hnonneg] at hlt
  rw [← hn] at hnonneg hlt
  unfold Dec128Remainder.difference
  rw [toInt_add_negate hnonneg hlt hless.ge (by rw [hless]; norm_num), hn, hless, sub_zero]

/-! ### The exact remainder -/

/-- The remainder of the dividend by the divisor that is rounded half up to the scale `s`. -/
def exactRemainder (a b : BitVec 128) (s₁ s₂ s : ℕ) : ℚ :=
  truncRem (decimal a s₁) (divisorAt b s₂ s / 10 ^ s)

/-- The row reports a divisor that is rounded to zero as an overflow, and nothing else, and stores the
remainder at the scale `s`. -/
def DecimalRow.StoresRemainder (row : DecimalRow) (a b : BitVec 128) (s₁ s₂ s : ℕ) : Prop :=
  if divisorAt b s₂ s = 0 then row.overflow = true
  else row.overflow = false ∧ ∃ r, row.value = some r ∧ decimal r s = exactRemainder a b s₁ s₂ s ∧
    0 ≤ decimal r s * decimal a s₁ ∧ |decimal r s| < |(divisorAt b s₂ s : ℚ) / 10 ^ s|

/-- The sign of the dividend. -/
def signOf (a : BitVec 128) : ℤ := if a.toInt < 0 then -1 else 1

theorem signOf_mul_abs (a : BitVec 128) : signOf a * |a.toInt| = a.toInt := by
  unfold signOf
  split_ifs with h
  · rw [abs_of_neg h]
    ring
  · rw [abs_of_nonneg (not_lt.1 h), one_mul]

theorem truncRem_signOf (a : BitVec 128) (x d : ℚ) :
    truncRem (signOf a * x) d = signOf a * truncRem x d := by
  unfold signOf
  split_ifs
  · push_cast
    rw [neg_one_mul, neg_one_mul, truncRem_neg]
  · push_cast
    rw [one_mul, one_mul]

/-- The quotient of the kernel is the exact one. -/
theorem floor_absQuotient {d : ℤ} (hd : 0 < d) (h : d * 10 ^ (s - min s s₂) = |divisorAt b s₂ s|) :
    truncate ((|a.toInt| : ℤ) / 10 ^ s₁ / ((|divisorAt b s₂ s| : ℤ) / 10 ^ s)) =
      absQuotient a d s₁ s₂ s := by
  have hd' : (0 : ℚ) < d := by exact_mod_cast hd
  have hpow : 0 < d * 10 ^ (s₁ - min s s₂) := by positivity
  have hs : (10 : ℚ) ^ s = 10 ^ (s - min s s₂) * 10 ^ min s s₂ := by
    rw [← pow_add]
    congr 1
    omega
  have hmin : (10 : ℚ) ^ min s s₂ * 10 ^ (s₁ - min s s₂) = 10 ^ s₁ * 10 ^ (min s s₂ - s₁) := by
    rw [← pow_add, ← pow_add]
    congr 1
    omega
  have hquot : ((|a.toInt| : ℤ) : ℚ) / 10 ^ s₁ / ((|divisorAt b s₂ s| : ℤ) / 10 ^ s) =
      (scaledDividend a s₁ s₂ s : ℤ) / ((d * 10 ^ (s₁ - min s s₂) : ℤ) : ℚ) := by
    rw [← h, hs, scaledDividend]
    push_cast
    rw [div_div_eq_mul_div, div_mul_eq_mul_div, div_div, div_eq_div_iff (by positivity)
      (by positivity)]
    linear_combination |(a.toInt : ℚ)| * 10 ^ (s - min s s₂) * d * hmin
  rw [hquot, truncate_div_nonneg (scaledDividend_nonneg a s₁ s₂ s) hpow]
  rfl

theorem exactRemainder_eq (a : BitVec 128) (s₁ : ℕ) {d : ℤ} (hd : 0 < d)
    (h : d * 10 ^ (s - min s s₂) = |divisorAt b s₂ s|) :
    exactRemainder a b s₁ s₂ s * 10 ^ s = signOf a * ((|a.toInt| : ℤ) / 10 ^ s₁ * 10 ^ s -
      absQuotient a d s₁ s₂ s * |divisorAt b s₂ s| : ℚ) := by
  have hs : (10 : ℚ) ^ s ≠ 0 := by positivity
  have hdecimal : decimal a s₁ = signOf a * ((|a.toInt| : ℤ) / 10 ^ s₁) := by
    rw [decimal, ← mul_div_assoc]
    congr 1
    exact_mod_cast (signOf_mul_abs a).symm
  have habs : truncRem ((|a.toInt| : ℤ) / 10 ^ s₁) (divisorAt b s₂ s / 10 ^ s) =
      truncRem ((|a.toInt| : ℤ) / 10 ^ s₁) ((|divisorAt b s₂ s| : ℤ) / 10 ^ s) := by
    rw [← truncRem_abs, abs_div, abs_of_pos (by positivity : (0 : ℚ) < 10 ^ s)]
    push_cast
    rfl
  rw [exactRemainder, hdecimal, truncRem_signOf, habs, truncRem, floor_absQuotient hd h, mul_assoc,
    sub_mul, mul_assoc _ _ ((10 : ℚ) ^ s), div_mul_cancel₀ _ hs]

/-- The dividend is at the scale of the remainder. -/
theorem scaledDividend_eq_iff : (scaledDividend a s₁ s₂ s : ℚ) = (|a.toInt| : ℤ) / 10 ^ s₁ * 10 ^ s ↔
    a.toInt = 0 ∨ s = s₁ ∨ s₁ ≤ s ∧ s ≤ s₂ := by
  have hpow : (0 : ℚ) < 10 ^ s₁ := by positivity
  have hmax : (10 : ℚ) ^ (min s s₂ - s₁) * 10 ^ s₁ = 10 ^ max (min s s₂) s₁ := by
    rw [← pow_add]
    congr 1
    omega
  have hiff : (scaledDividend a s₁ s₂ s : ℚ) = (|a.toInt| : ℤ) / 10 ^ s₁ * 10 ^ s ↔
      ((|a.toInt| : ℤ) : ℚ) * 10 ^ max (min s s₂) s₁ = (|a.toInt| : ℤ) * 10 ^ s := by
    rw [div_mul_eq_mul_div, eq_div_iff hpow.ne', scaledDividend, ← hmax, ← mul_assoc]
    push_cast
    rfl
  rw [hiff]
  rcases eq_or_ne a.toInt 0 with hzero | hne
  · simp [hzero]
  · have hcast : ((|a.toInt| : ℤ) : ℚ) ≠ 0 := by exact_mod_cast abs_ne_zero.2 hne
    rw [mul_right_inj' hcast, pow_right_inj₀ (by norm_num) (by norm_num)]
    constructor
    · intro h
      right
      omega
    · rintro (h | h | h)
      · exact absurd h hne
      · omega
      · omega

/-- The remainder as it is stored. -/
theorem toInt_stored (a : BitVec 128) (h : |x.toInt| < 10 ^ 38) :
    (if (ofInt128 a).sign.slt 0 then -x.as128Bits else x.as128Bits).toInt = signOf a * x.toInt := by
  obtain ⟨h1, h2⟩ := abs_lt.1 h
  have hlow : x.as128Bits.toInt = x.toInt := toInt_as128Bits (by omega) (by omega)
  have hsign := sign_slt_iff (ofInt128 a)
  rw [toInt_ofInt128] at hsign
  unfold signOf
  by_cases hneg : a.toInt < 0
  · rw [if_pos (hsign.2 hneg), if_pos hneg, BitVec.toInt_neg, hlow, neg_one_mul]
    exact Int.bmod_eq_of_le (m := 2 ^ 128) (by omega) (by omega)
  · rw [if_neg (mt hsign.1 hneg), if_neg hneg, hlow, one_mul]

theorem signOf_ne_zero (a : BitVec 128) : signOf a ≠ 0 := by
  unfold signOf
  split_ifs <;> decide

/-- Where the dividend is at the scale of the remainder, the difference has at most 38 digits. -/
theorem abs_difference_lt (ha : |a.toInt| < 10 ^ 38) (hb : |b.toInt| < 10 ^ 38) (hs1 : s₁ ≤ 38)
    (hs2 : s₂ ≤ 38) (hs : s ≤ 38) (hd : 0 < ((dec128Remainder s₁ s₂ s).absD b).toInt)
    (h : a.toInt = 0 ∨ s = s₁ ∨ s₁ ≤ s ∧ s ≤ s₂) :
    |((dec128Remainder s₁ s₂ s).difference a b).toInt| < 10 ^ 38 := by
  obtain ⟨-, hdlt, hdivisor⟩ := toInt_absD s₁ s hb hs2
  rw [toInt_difference ha hb hs1 hs2 hs hd, ← hdivisor, absQuotient]
  generalize ((dec128Remainder s₁ s₂ s).absD b).toInt = d at hd hdlt
  have hnonneg := scaledDividend_nonneg a s₁ s₂ s
  rcases h with hzero | rfl | ⟨hle, hle'⟩
  · -- nothing is divided
    rw [scaledDividend, hzero, abs_zero, zero_mul, Int.zero_ediv, zero_mul, sub_zero, abs_zero]
    norm_num
  · -- the remainder is at most the dividend
    have hpow : 0 < d * 10 ^ (s - min s s₂) := by positivity
    have hmod := Int.emod_nonneg (scaledDividend a s s₂ s) hpow.ne'
    have hquot := mul_nonneg (Int.ediv_nonneg hnonneg hpow.le) hpow.le
    have hN : scaledDividend a s s₂ s = |a.toInt| := by
      rw [scaledDividend, show min s s₂ - s = 0 by omega, pow_zero, mul_one]
    rw [Int.emod_def, mul_comm (d * _)] at hmod
    rw [abs_of_nonneg hmod]
    linarith
  · -- the remainder is less than the divisor
    rw [show s₁ - min s s₂ = 0 by omega, show s - min s s₂ = 0 by omega, pow_zero, mul_one]
    have hmod := Int.emod_nonneg (scaledDividend a s₁ s₂ s) hd.ne'
    have hmod' := Int.emod_lt_of_pos (scaledDividend a s₁ s₂ s) hd
    rw [Int.emod_def, mul_comm d] at hmod hmod'
    rw [abs_of_nonneg hmod]
    exact hmod'.trans hdlt

theorem absD_eq_zero_iff (hb : |b.toInt| < 10 ^ 38) (hs2 : s₂ ≤ 38) :
    ((dec128Remainder s₁ s₂ s).absD b).toInt = 0 ↔ divisorAt b s₂ s = 0 := by
  obtain ⟨-, -, hdivisor⟩ := toInt_absD s₁ s hb hs2
  have hpow : (10 : ℤ) ^ (s - min s s₂) ≠ 0 := by positivity
  rw [← abs_eq_zero (a := divisorAt b s₂ s), ← hdivisor, mul_eq_zero, or_iff_left hpow]

/-- The row of a divisor that is not rounded to zero. -/
theorem storesRemainder_iff (ha : |a.toInt| < 10 ^ 38) (hb : |b.toInt| < 10 ^ 38)
    (hb0 : b.toInt ≠ 0) (hs1 : s₁ ≤ 38) (hs2 : s₂ ≤ 38) (hs : s ≤ 38)
    (hdivisor : divisorAt b s₂ s ≠ 0) :
    ((dec128Remainder s₁ s₂ s).row a b).StoresRemainder a b s₁ s₂ s ↔
      a.toInt = 0 ∨ s = s₁ ∨ s₁ ≤ s ∧ s ≤ s₂ := by
  obtain ⟨hd, -, hmul⟩ := toInt_absD s₁ s hb hs2
  have hne : ((dec128Remainder s₁ s₂ s).absD b).toInt ≠ 0 :=
    mt (absD_eq_zero_iff hb hs2).1 hdivisor
  have hpos : 0 < ((dec128Remainder s₁ s₂ s).absD b).toInt := by omega
  have hpow : (10 : ℚ) ^ s ≠ 0 := by positivity
  have hsign : (signOf a : ℚ) ≠ 0 := by exact_mod_cast signOf_ne_zero a
  -- the exact remainder is the difference, once the dividend is at its scale
  have hexact := exactRemainder_eq a s₁ hpos hmul
  have hdiff : (((dec128Remainder s₁ s₂ s).difference a b).toInt : ℚ) = scaledDividend a s₁ s₂ s -
      absQuotient a ((dec128Remainder s₁ s₂ s).absD b).toInt s₁ s₂ s * |divisorAt b s₂ s| := by
    rw [toInt_difference ha hb hs1 hs2 hs hpos]
    push_cast
    rfl
  have hstored : ∀ r : BitVec 128,
      r.toInt = signOf a * ((dec128Remainder s₁ s₂ s).difference a b).toInt →
      (decimal r s = exactRemainder a b s₁ s₂ s ↔ a.toInt = 0 ∨ s = s₁ ∨ s₁ ≤ s ∧ s ≤ s₂) := by
    intro r hr
    rw [← scaledDividend_eq_iff, decimal, div_eq_iff hpow, hexact, hr, Int.cast_mul, hdiff,
      mul_right_inj' hsign, sub_left_inj]
  have hover := isGreaterThanDecimal38_iff ((dec128Remainder s₁ s₂ s).difference a b)
  unfold DecimalRow.StoresRemainder Dec128Remainder.row
  rw [if_neg hdivisor, if_neg (toInt_ne_zero_iff.1 hb0)]
  dsimp only
  constructor
  · rintro ⟨hfalse, r, hr, hremainder, -, -⟩
    have hlt : |((dec128Remainder s₁ s₂ s).difference a b).toInt| < 10 ^ 38 := by
      rw [← Bool.not_eq_true, hover, not_le] at hfalse
      exact hfalse
    obtain rfl := Option.some.inj hr
    exact (hstored _ (toInt_stored a hlt)).1 hremainder
  · intro h
    have hlt := abs_difference_lt ha hb hs1 hs2 hs hpos h
    have hremainder := (hstored _ (toInt_stored a hlt)).2 h
    have hq : (divisorAt b s₂ s : ℚ) / 10 ^ s ≠ 0 :=
      div_ne_zero (by exact_mod_cast hdivisor) hpow
    refine ⟨?_, _, rfl, hremainder, ?_, ?_⟩
    · rw [← Bool.not_eq_true, hover, not_le]
      exact hlt
    · rw [hremainder]
      exact truncRem_mul_nonneg _ hq
    · rw [hremainder]
      exact abs_truncRem_lt _ hq

theorem storesRemainder_zero_iff (ha : |a.toInt| < 10 ^ 38) (hb : |b.toInt| < 10 ^ 38)
    (hb0 : b.toInt ≠ 0) (hs2 : s₂ ≤ 38) (hdivisor : divisorAt b s₂ s = 0) :
    ((dec128Remainder s₁ s₂ s).row a b).StoresRemainder a b s₁ s₂ s ↔
      10 ^ 38 ≤ |a.toInt| * 10 ^ (s - s₁) := by
  -- only a smaller scale rounds a divisor to zero
  have hlt : s < s₂ := by
    by_contra hge
    rw [divisorAt_of_le (show s = s₂ + (s - s₂) by omega)] at hdivisor
    exact mul_ne_zero hb0 (by positivity) hdivisor
  have hover := isGreaterThanDecimal38_iff ((dec128Remainder s₁ s₂ s).difference a b)
  rw [toInt_difference_of_eq_zero ha hs2 ((absD_eq_zero_iff hb hs2).2 hdivisor),
    abs_of_nonneg (scaledDividend_nonneg a s₁ s₂ s), scaledDividend, min_eq_left hlt.le] at hover
  unfold DecimalRow.StoresRemainder Dec128Remainder.row
  rw [if_pos hdivisor, if_neg (toInt_ne_zero_iff.1 hb0)]
  exact hover

/-- Integer division is exact. The remainder is, for a divisor that is not rounded to zero, if the
dividend is zero, or its scale is the one of the result, or the scale of the result is between the
ones of the dividend and the divisor. -/
theorem remainder_exact_iff (ha : |a.toInt| < 10 ^ 38) (hb : |b.toInt| < 10 ^ 38)
    (hb0 : b.toInt ≠ 0) (hs1 : s₁ ≤ 38) (hs2 : s₂ ≤ 38) (hs : s ≤ 38) :
    (((dec128Divider s₁ s₂ 0).integerRow a b).Stores (truncate (decimal a s₁ / decimal b s₂)) ∧
      ((dec128Remainder s₁ s₂ s).row a b).StoresRemainder a b s₁ s₂ s) ↔
      if divisorAt b s₂ s = 0 then 10 ^ 38 ≤ |a.toInt| * 10 ^ (s - s₁)
      else a.toInt = 0 ∨ s = s₁ ∨ s₁ ≤ s ∧ s ≤ s₂ := by
  rw [and_iff_right (integerRow_stores ha hb0 hs1 hs2)]
  split_ifs with hdivisor
  · exact storesRemainder_zero_iff ha hb hb0 hs2 hdivisor
  · exact storesRemainder_iff ha hb hb0 hs1 hs2 hs hdivisor

/-- `7 % 3` at the scale zero. -/
theorem remainder_exact_iff_seven :
    (((dec128Divider 0 0 0).integerRow 7 3).Stores (truncate (decimal 7 0 / decimal 3 0)) ∧
      ((dec128Remainder 0 0 0).row 7 3).StoresRemainder 7 3 0 0 0) ↔
      if divisorAt 3 0 0 = 0 then 10 ^ 38 ≤ |(7 : BitVec 128).toInt| * 10 ^ (0 - 0)
      else (7 : BitVec 128).toInt = 0 ∨ 0 = 0 ∨ 0 ≤ 0 ∧ 0 ≤ 0 :=
  remainder_exact_iff (by decide) (by decide) (by decide) (by norm_num) (by norm_num) (by norm_num)

/-- `5 % 3` at the scale one: the kernel gives `-2.5`. -/
theorem remainder_not_exact : ¬((dec128Remainder 0 0 1).row 5 3).StoresRemainder 5 3 0 0 1 := by
  have hdivisor : divisorAt 3 0 1 = 3 * 10 ^ 1 := divisorAt_of_le rfl
  rw [storesRemainder_iff (by decide) (by decide) (by decide) (by norm_num) (by norm_num)
    (by norm_num) (by rw [hdivisor]; decide)]
  decide

example : ((dec128Remainder 0 0 1).row 5 3).value.map BitVec.toInt = some (-25) := by decide +kernel

end SparkRapids
