import SparkRapidsJni.DecimalUtils.AddSub

/-!
# Division of decimals

`dec128_divider` scales the dividend by a power of ten `10 ^ e`, where the decimal scales of the
operands and of the quotient give `e = s + s₂ - s₁`, in one of three ways: it divides the truncated
quotient once more for a negative `e`, multiplies first as long as `10 ^ e` fits, and otherwise
multiplies by `10 ^ 38`, divides, and goes on with the quotient and the remainder as in a long
division.

The last way multiplies the quotient without a check, so that only its remainder modulo `2 ^ 256` is
left of a quotient that does not fit (`toInt_result_of_nonneg`).
-/

namespace SparkRapids

open Chunked256

/-- The scales of `dec128_divider` -/
structure Dec128Divider where
  aScale : ℤ
  bScale : ℤ
  quotScale : ℤ

namespace Dec128Divider

/-- The quotient of `dec128_divider::operator()` for a divisor that is not zero; `isIntDiv` is the
parameter of the template. -/
def result (f : Dec128Divider) (isIntDiv : Bool) (n : Chunked256) (d : BitVec 128) : Chunked256 :=
  let nShiftExp := f.quotScale - (f.aScale - f.bScale)
  if nShiftExp > 0 then
    -- divide twice; the first remainder is not needed
    let firstDivResult := divide n d
    let scaleDivisor := (powTen nShiftExp.toNat).as128Bits
    if isIntDiv then integerDivide firstDivResult.quotient scaleDivisor
    else divideAndRound firstDivResult.quotient scaleDivisor
  else if nShiftExp < -38 then
    -- first multiply by 10^38 and divide to get a remainder
    let n := multiply n (powTen 38)
    let firstDivResult := divide n d
    let firstDivR := ofInt128 firstDivResult.remainder
    -- now both have to be multiplied by how much is left
    let remainingExp := -nShiftExp - 38
    let scaleMult := powTen remainingExp.toNat
    let result := multiply firstDivResult.quotient scaleMult
    let scaledDivR := multiply firstDivR scaleMult
    let secondDivResult := divide scaledDivR d
    let result := result.add secondDivResult.quotient
    if isIntDiv then result
    else roundFromRemainder result secondDivResult.remainder scaledDivR d
  else
    -- regular multiply followed by a divide
    let n := if nShiftExp < 0 then multiply n (powTen (-nShiftExp).toNat) else n
    if isIntDiv then integerDivide n d else divideAndRound n d

/-- `dec128_divider<__int128_t, false>::operator()` -/
def row (f : Dec128Divider) (a b : BitVec 128) : DecimalRow :=
  if b = 0 then ⟨true, some 0⟩ else DecimalRow.ofChunked (f.result false (ofInt128 a) b)

end Dec128Divider

/-- The functor at the cudf scales of three decimal scales. -/
def dec128Divider (s₁ s₂ s : ℕ) : Dec128Divider := ⟨-s₁, -s₂, -s⟩

variable {a b : BitVec 128} {x n : Chunked256} {q : ℤ} {s₁ s₂ s k : ℕ}

/-! ### The three ways -/

theorem shift_eq (s₁ s₂ s : ℕ) : (dec128Divider s₁ s₂ s).quotScale -
    ((dec128Divider s₁ s₂ s).aScale - (dec128Divider s₁ s₂ s).bScale) = (s₁ : ℤ) - s₂ - s := by
  show -(s : ℤ) - (-(s₁ : ℤ) - -(s₂ : ℤ)) = _
  ring

theorem toInt_ne_min (h : |x.toInt| < 2 * 10 ^ 76) : x.toInt ≠ -2 ^ 255 := by
  have hlow := (abs_lt.1 h).1
  omega

theorem abs_tdiv_le (n d : ℤ) : |n.tdiv d| ≤ |n| := by
  rw [Int.abs_eq_natAbs, Int.abs_eq_natAbs, Int.natAbs_tdiv]
  exact_mod_cast Nat.div_le_self _ _

theorem abs_tmod_lt (n : ℤ) {d : ℤ} (hd : d ≠ 0) : |n.tmod d| < |d| := by
  rw [Int.abs_eq_natAbs, Int.abs_eq_natAbs, Int.natAbs_tmod]
  exact_mod_cast Nat.mod_lt _ (Int.natAbs_pos.2 hd)

/-- A negative exponent: the truncated quotient is divided and rounded. -/
theorem toInt_result_of_neg (ha : |a.toInt| < 10 ^ 38) (hb : b.toInt ≠ 0) (hs1 : s₁ ≤ 38)
    (h : s₁ = s + s₂ + k) (hk : 0 < k) :
    ((dec128Divider s₁ s₂ s).result false (ofInt128 a) b).toInt =
      (a.toInt.tdiv b.toInt).tdiv (10 ^ k) + roundInc128 (a.toInt.tdiv b.toInt) (10 ^ k) := by
  have hexp : (s₁ : ℤ) - s₂ - s = k := by omega
  have hle := abs_tdiv_le a.toInt b.toInt
  have hq := (divide_spec (n := ofInt128 a) (toInt_ne_min (by rw [toInt_ofInt128]; omega)) hb).1
  rw [toInt_ofInt128] at hq
  unfold Dec128Divider.result
  rw [shift_eq, hexp]
  dsimp only
  rw [if_pos (by omega), if_neg Bool.false_ne_true, Int.toNat_natCast,
    toInt_divideAndRound_powTen (by omega) (toInt_ne_min (by rw [hq]; omega)), hq]

/-- An exponent up to 38: the dividend is multiplied first. -/
theorem toInt_result_of_le (ha : |a.toInt| < 10 ^ 38) (hb : b.toInt ≠ 0) (hb' : |b.toInt| < 10 ^ 38)
    (h : s + s₂ = s₁ + k) (hk : k ≤ 38) :
    ((dec128Divider s₁ s₂ s).result false (ofInt128 a) b).toInt =
      (a.toInt * 10 ^ k).tdiv b.toInt + roundInc128 (a.toInt * 10 ^ k) b.toInt := by
  have hexp : (s₁ : ℤ) - s₂ - s = -k := by omega
  have hlt := abs_mul_pow_ten_lt ha hk
  have hmin : b.toInt ≠ -2 ^ 127 := by
    have hlow := (abs_lt.1 hb').1
    omega
  have hn : (if (-(k : ℤ)) < 0 then multiply (ofInt128 a) (powTen (- -(k : ℤ)).toNat)
      else ofInt128 a).toInt = a.toInt * 10 ^ k := by
    split
    · next hneg =>
      rw [neg_neg, Int.toNat_natCast, toInt_multiply_powTen (by omega), toInt_ofInt128]
      rw [toInt_ofInt128]
      exact inRange_of_abs_lt (by omega)
    · next hzero =>
      obtain rfl : k = 0 := by omega
      rw [toInt_ofInt128, pow_zero, mul_one]
  unfold Dec128Divider.result
  rw [shift_eq, hexp]
  dsimp only
  rw [if_neg (by omega), if_neg (by omega), if_neg Bool.false_ne_true,
    toInt_divideAndRound (toInt_ne_min (by rw [hn]; omega)) hb hmin, hn]

/-- A larger exponent: a long division in two steps, of which the quotient may wrap around. -/
theorem toInt_result_of_lt (ha : |a.toInt| < 10 ^ 38) (hb : b.toInt ≠ 0) (hb' : |b.toInt| < 10 ^ 38)
    (h : s + s₂ = s₁ + 38 + k) (hk : 0 < k) (hk' : k ≤ 38) :
    ((dec128Divider s₁ s₂ s).result false (ofInt128 a) b).toInt =
      ((a.toInt * 10 ^ (38 + k)).tdiv b.toInt +
        roundInc128 (a.toInt * 10 ^ (38 + k)) b.toInt).bmod (2 ^ 256) := by
  have hexp : (s₁ : ℤ) - s₂ - s = -((38 + k : ℕ) : ℤ) := by omega
  have hrem : (- -((38 + k : ℕ) : ℤ) - 38).toNat = k := by omega
  have hpos : (0 : ℤ) < 10 ^ k := by positivity
  have hmin : b.toInt ≠ -2 ^ 127 := by
    have hlow := (abs_lt.1 hb').1
    omega
  -- the first division
  have hlt := abs_mul_pow_ten_lt ha (le_refl 38)
  have hn : (multiply (ofInt128 a) (powTen 38)).toInt = a.toInt * 10 ^ 38 := by
    rw [toInt_multiply_powTen (by omega), toInt_ofInt128]
    rw [toInt_ofInt128]
    exact inRange_of_abs_lt (by omega)
  obtain ⟨hq, hr⟩ := divide_spec (n := multiply (ofInt128 a) (powTen 38))
    (toInt_ne_min (by rw [hn]; omega)) hb
  rw [hn] at hq hr
  -- the second one, of the scaled remainder
  have hrlt : |(a.toInt * 10 ^ 38).tmod b.toInt| < 10 ^ 38 :=
    lt_trans (abs_tmod_lt _ hb) hb'
  have hscaled : (multiply (ofInt128 (divide (multiply (ofInt128 a) (powTen 38)) b).remainder)
      (powTen k)).toInt = (a.toInt * 10 ^ 38).tmod b.toInt * 10 ^ k := by
    have habs := abs_mul_pow_ten_lt hrlt hk'
    rw [toInt_multiply_powTen (by omega), toInt_ofInt128, hr]
    rw [toInt_ofInt128, hr]
    exact inRange_of_abs_lt (by omega)
  have habs := abs_mul_pow_ten_lt hrlt hk'
  obtain ⟨hq2, hr2⟩ := divide_spec (n := multiply
    (ofInt128 (divide (multiply (ofInt128 a) (powTen 38)) b).remainder) (powTen k))
    (toInt_ne_min (by rw [hscaled]; omega)) hb
  have hinc : roundInc128 ((a.toInt * 10 ^ 38).tmod b.toInt * 10 ^ k) b.toInt =
      roundInc128 (a.toInt * 10 ^ (38 + k)) b.toInt := by
    rw [roundInc128, roundInc128, ← tmod_mul_step _ hb hpos, ← roundInc_mul_step _ hb hpos, pow_add,
      mul_assoc]
  unfold Dec128Divider.result
  rw [shift_eq, hexp]
  dsimp only
  rw [if_neg (by omega), if_pos (by omega), if_neg Bool.false_ne_true, hrem,
    toInt_roundFromRemainder hmin hr2, toInt_add, toInt_multiply, toInt_powTen (by omega), hq, hq2,
    hscaled, hinc, Int.bmod_add_bmod, add_assoc, Int.bmod_add_bmod, ← add_assoc, pow_add,
    ← mul_assoc, tdiv_mul_step (a.toInt * 10 ^ 38) hb hpos]

/-! ### The exact quotient -/

/-- The last remainder of the division: of the scaled dividend, or of the truncated quotient by the
power of ten that is left. -/
def finalRemainder (a b : BitVec 128) (s₁ s₂ s : ℕ) : ℤ :=
  if s₁ ≤ s + s₂ then (a.toInt * 10 ^ (s + s₂ - s₁)).tmod b.toInt
  else (a.toInt.tdiv b.toInt).tmod (10 ^ (s₁ - (s + s₂)))

/-- The quotient of that division, which is the exact one without its fraction. -/
def truncatedQuotient (a b : BitVec 128) (s₁ s₂ s : ℕ) : ℤ :=
  if s₁ ≤ s + s₂ then (a.toInt * 10 ^ (s + s₂ - s₁)).tdiv b.toInt
  else (a.toInt.tdiv b.toInt).tdiv (10 ^ (s₁ - (s + s₂)))

/-- The quotient at its scale, rounded half away from zero. -/
def exactQuotient (a b : BitVec 128) (s₁ s₂ s : ℕ) : ℤ :=
  roundHalfAway (decimal a s₁ / decimal b s₂ * 10 ^ s)

/-- A number is a wrapped one of at most 38 digits if it is that near to a multiple of `2 ^ 256`. -/
def WrapsBelow (z : ℤ) : Prop := ∃ k : ℤ, k ≠ 0 ∧ |z - k * 2 ^ 256| < 10 ^ 38

/-- Only a number that wraps to one of at most 38 digits loses its overflow. -/
theorem abs_bmod_lt_iff {z : ℤ} (hz : 10 ^ 38 ≤ |z|) :
    |z.bmod (2 ^ 256)| < 10 ^ 38 ↔ WrapsBelow z := by
  have hbmod : ∃ k : ℤ, z.bmod (2 ^ 256) = z - k * 2 ^ 256 := by
    rw [Int.bmod_def]
    split
    · exact ⟨z / 2 ^ 256, by omega⟩
    · exact ⟨z / 2 ^ 256 + 1, by omega⟩
  constructor
  · intro h
    obtain ⟨k, hk⟩ := hbmod
    refine ⟨k, ?_, by rwa [← hk]⟩
    rintro rfl
    rw [hk, zero_mul, sub_zero] at h
    exact absurd hz (not_le.2 h)
  · rintro ⟨k, -, hk⟩
    -- the number near to the multiple is the one in the signed range
    obtain ⟨h1, h2⟩ := abs_lt.1 hk
    have hrange : InRange (z - k * 2 ^ 256) := ⟨by omega, by omega⟩
    have heq : z.bmod (2 ^ 256) = z - k * 2 ^ 256 := by
      have hcast : z - k * 2 ^ 256 = z - k * ((2 ^ 256 : ℕ) : ℤ) := by norm_num
      rw [← bmod_of_inRange hrange, hcast, Int.sub_mul_bmod_self_right]
    rwa [heq]

theorem decimal_div_eq (a b : BitVec 128) (s₁ s₂ s : ℕ) : decimal a s₁ / decimal b s₂ * 10 ^ s =
    (a.toInt : ℚ) * 10 ^ (s + s₂) / (b.toInt * 10 ^ s₁) := by
  rw [decimal, decimal, div_div_div_eq, pow_add]
  ring

/-- The exact quotient rounds the truncated one. -/
theorem exactQuotient_eq (hb : b.toInt ≠ 0) :
    exactQuotient a b s₁ s₂ s = truncatedQuotient a b s₁ s₂ s +
      (if s₁ ≤ s + s₂ then roundInc (a.toInt * 10 ^ (s + s₂ - s₁)) b.toInt
      else roundInc (a.toInt.tdiv b.toInt) (10 ^ (s₁ - (s + s₂)))) := by
  unfold exactQuotient truncatedQuotient
  rw [decimal_div_eq]
  split
  · next hle =>
    rw [← roundHalfAway_div hb]
    congr 1
    push_cast
    rw [← pow_sub_mul_pow (10 : ℚ) hle, ← mul_assoc, mul_div_mul_right _ _ (by positivity)]
  · next hlt =>
    have hle : s + s₂ ≤ s₁ := by omega
    have heven : (2 : ℤ) ∣ 10 ^ (s₁ - (s + s₂)) := dvd_pow (by norm_num) (by omega)
    have hstep := roundHalfAway_tdiv (n := a.toInt) hb (by positivity) heven
    rw [← roundHalfAway_div_pow_ten]
    push_cast at hstep
    rw [hstep]
    congr 1
    rw [← pow_sub_mul_pow (10 : ℚ) hle, ← mul_assoc, mul_div_mul_right _ _ (by positivity)]

/-- The quotient as it is rounded, before any wrapping. -/
def roundedQuotient (a b : BitVec 128) (s₁ s₂ s : ℕ) : ℤ :=
  if finalRemainder a b s₁ s₂ s = -2 ^ 126 then truncatedQuotient a b s₁ s₂ s
  else exactQuotient a b s₁ s₂ s

theorem roundedQuotient_eq (hb : b.toInt ≠ 0) :
    roundedQuotient a b s₁ s₂ s = truncatedQuotient a b s₁ s₂ s +
      (if s₁ ≤ s + s₂ then roundInc128 (a.toInt * 10 ^ (s + s₂ - s₁)) b.toInt
      else roundInc128 (a.toInt.tdiv b.toInt) (10 ^ (s₁ - (s + s₂)))) := by
  unfold roundedQuotient
  rw [exactQuotient_eq hb]
  unfold finalRemainder roundInc128
  split_ifs <;> omega

/-- What the kernel stores: a quotient that does not fit wraps around. -/
theorem toInt_result (ha : |a.toInt| < 10 ^ 38) (hb : b.toInt ≠ 0) (hb' : |b.toInt| < 10 ^ 38)
    (hs1 : s₁ ≤ 38) (hs2 : s₂ ≤ 38) (hs : s ≤ 38) :
    ((dec128Divider s₁ s₂ s).result false (ofInt128 a) b).toInt =
      (roundedQuotient a b s₁ s₂ s).bmod (2 ^ 256) := by
  -- a result that is not wrapped is in the signed range
  have hexact : ∀ {z : ℤ}, ((dec128Divider s₁ s₂ s).result false (ofInt128 a) b).toInt = z →
      ((dec128Divider s₁ s₂ s).result false (ofInt128 a) b).toInt = z.bmod (2 ^ 256) := by
    rintro z rfl
    exact (bmod_of_inRange (inRange_toInt _)).symm
  rw [roundedQuotient_eq hb]
  unfold truncatedQuotient
  rcases Nat.lt_or_ge (s + s₂) s₁ with hneg | hnonneg
  · rw [if_neg (by omega), if_neg (by omega)]
    exact hexact (toInt_result_of_neg ha hb hs1 (by omega) (by omega))
  · rw [if_pos hnonneg, if_pos hnonneg]
    rcases Nat.lt_or_ge 38 (s + s₂ - s₁) with hlarge | hsmall
    · obtain ⟨k, hk⟩ : ∃ k, s + s₂ - s₁ = 38 + k := ⟨s + s₂ - s₁ - 38, by omega⟩
      rw [hk]
      exact toInt_result_of_lt ha hb hb' (by omega) (by omega) (by omega)
    · exact hexact (toInt_result_of_le ha hb hb' (by omega) hsmall)

/-- The remainder that cannot be doubled is always rounded away from the truncated quotient. -/
theorem abs_exactQuotient_of_eq (hb : b.toInt ≠ 0) (hb' : |b.toInt| < 10 ^ 38) (hs1 : s₁ ≤ 38)
    (h : finalRemainder a b s₁ s₂ s = -2 ^ 126) :
    |exactQuotient a b s₁ s₂ s| = |truncatedQuotient a b s₁ s₂ s| + 1 := by
  rw [exactQuotient_eq hb]
  unfold truncatedQuotient
  unfold finalRemainder at h
  split_ifs at h ⊢
  · refine abs_tdiv_add_roundInc ?_
    rw [h, abs_neg, abs_of_pos (by norm_num : (0 : ℤ) < 2 ^ 126)]
    omega
  · have hpow : (10 : ℤ) ^ (s₁ - (s + s₂)) ≤ 10 ^ 38 := pow_le_pow_right₀ (by norm_num) (by omega)
    refine abs_tdiv_add_roundInc ?_
    rw [h, abs_neg, abs_of_pos (by norm_num : (0 : ℤ) < 2 ^ 126), abs_of_pos (by positivity)]
    omega

/-- A quotient that fits is not wrapped. -/
theorem bmod_of_abs_lt {z : ℤ} (h : |z| < 10 ^ 38) : z.bmod (2 ^ 256) = z := by
  obtain ⟨h1, h2⟩ := abs_lt.1 h
  exact bmod_of_inRange ⟨by omega, by omega⟩

theorem not_wrapsBelow_of_abs_lt {z : ℤ} (h : |z| < 10 ^ 38) : ¬WrapsBelow z := by
  rintro ⟨k, hk, hlt⟩
  obtain ⟨h1, h2⟩ := abs_lt.1 h
  obtain ⟨h3, h4⟩ := abs_lt.1 hlt
  omega

/-- The row of a result that is the number `z` modulo `2 ^ 256`, where `q` is the exact one. -/
theorem stores_bmod_self_iff (hx : x.toInt = q.bmod (2 ^ 256)) :
    (DecimalRow.ofChunked x).Stores q ↔ ¬WrapsBelow q := by
  rw [stores_ofChunked_iff, hx]
  rcases lt_or_ge |q| (10 ^ 38) with hlt | hge
  · refine iff_of_true ⟨fun _ => bmod_of_abs_lt hlt, fun h => absurd h (not_le.2 hlt)⟩ ?_
    exact not_wrapsBelow_of_abs_lt hlt
  · rw [← abs_bmod_lt_iff hge, not_lt]
    exact ⟨fun h => h.2 hge, fun h => ⟨fun hlt => absurd hge (not_le.2 hlt), fun _ => h⟩⟩

theorem stores_bmod_truncated_iff {t : ℤ} (hx : x.toInt = t.bmod (2 ^ 256)) (hq : |q| = |t| + 1) :
    (DecimalRow.ofChunked x).Stores q ↔ 10 ^ 38 ≤ |t| ∧ ¬WrapsBelow t := by
  rw [stores_ofChunked_iff, hx]
  rcases lt_or_ge |t| (10 ^ 38) with hlt | hge
  · -- the truncated quotient is stored, and it is another number than the exact one
    rw [bmod_of_abs_lt hlt]
    refine iff_of_false ?_ (fun h => absurd h.1 (not_le.2 hlt))
    rintro ⟨hsmall, hlarge⟩
    rcases lt_or_ge |q| (10 ^ 38) with hq' | hq'
    · have heq := hsmall hq'
      rw [heq] at hq
      omega
    · exact absurd (hlarge hq') (not_le.2 hlt)
  · rw [← abs_bmod_lt_iff hge, not_lt]
    exact ⟨fun h => ⟨hge, h.2 (by omega)⟩, fun h => ⟨fun hlt => by omega, fun _ => h.2⟩⟩

/-- Division is exact unless the quotient, of more than 38 digits, wraps around to one of at most 38
digits, or the final remainder cannot be doubled and the truncated quotient has at most 38 digits. -/
theorem divide_exact_iff (ha : |a.toInt| < 10 ^ 38) (hb : |b.toInt| < 10 ^ 38)
    (hs1 : s₁ ≤ 38) (hs2 : s₂ ≤ 38) (hs : s ≤ 38) :
    ((b.toInt = 0 → ((dec128Divider s₁ s₂ s).row a b).overflow = true) ∧
      (b.toInt ≠ 0 → ((dec128Divider s₁ s₂ s).row a b).Stores
        (roundHalfAway (decimal a s₁ / decimal b s₂ * 10 ^ s)))) ↔
      (b.toInt ≠ 0 → if finalRemainder a b s₁ s₂ s = -2 ^ 126
        then 10 ^ 38 ≤ |truncatedQuotient a b s₁ s₂ s| ∧ ¬WrapsBelow (truncatedQuotient a b s₁ s₂ s)
        else ¬WrapsBelow (exactQuotient a b s₁ s₂ s)) := by
  have hzero : b = 0 ↔ b.toInt = 0 := by
    rw [← BitVec.toInt_inj, BitVec.ofNat_eq_ofNat, BitVec.toInt_zero]
  have hdiv : b.toInt = 0 → ((dec128Divider s₁ s₂ s).row a b).overflow = true := by
    intro h
    rw [Dec128Divider.row, if_pos (hzero.2 h)]
  rw [and_iff_right hdiv]
  refine forall_congr' (fun hne => ?_)
  have hx := toInt_result ha hne hb hs1 hs2 hs
  have hrow : (dec128Divider s₁ s₂ s).row a b =
      DecimalRow.ofChunked ((dec128Divider s₁ s₂ s).result false (ofInt128 a) b) := by
    rw [Dec128Divider.row, if_neg (fun h => hne (hzero.1 h))]
  rw [hrow]
  unfold roundedQuotient at hx
  split_ifs at hx ⊢ with hmin
  · exact stores_bmod_truncated_iff hx (abs_exactQuotient_of_eq hne hb hs1 hmin)
  · exact stores_bmod_self_iff hx

/-- `1.00 / 3` at the scale two -/
theorem divide_exact_iff_third :
    (((3 : BitVec 128).toInt = 0 → ((dec128Divider 2 0 2).row 100 3).overflow = true) ∧
      ((3 : BitVec 128).toInt ≠ 0 → ((dec128Divider 2 0 2).row 100 3).Stores
        (roundHalfAway (decimal 100 2 / decimal 3 0 * 10 ^ 2)))) ↔
      ((3 : BitVec 128).toInt ≠ 0 → if finalRemainder 100 3 2 0 2 = -2 ^ 126
        then 10 ^ 38 ≤ |truncatedQuotient 100 3 2 0 2| ∧ ¬WrapsBelow (truncatedQuotient 100 3 2 0 2)
        else ¬WrapsBelow (exactQuotient 100 3 2 0 2)) :=
  divide_exact_iff (by decide) (by decide) (by norm_num) (by norm_num) (by norm_num)

/-- A quotient of 78 digits that is `2 ^ 256` but for 38 digits: no overflow is reported. -/
theorem quotient_wraps : |(86998147662917218055 : BitVec 128).toInt| < 10 ^ 38 ∧
    |(7513306671979489256 : BitVec 128).toInt| < 10 ^ 38 ∧
    (7513306671979489256 : BitVec 128).toInt ≠ 0 ∧
    ¬((dec128Divider 0 38 38).row 86998147662917218055 7513306671979489256).Stores
      (roundHalfAway (decimal 86998147662917218055 0 / decimal 7513306671979489256 38 * 10 ^ 38)) := by
  have ha : |(86998147662917218055 : BitVec 128).toInt| < 10 ^ 38 := by decide
  have hb : |(7513306671979489256 : BitVec 128).toInt| < 10 ^ 38 := by decide
  have hne : (7513306671979489256 : BitVec 128).toInt ≠ 0 := by decide
  refine ⟨ha, hb, hne, ?_⟩
  have hx := toInt_result ha hne hb (Nat.zero_le 38) (le_refl 38) (le_refl 38)
  have hmin : finalRemainder 86998147662917218055 7513306671979489256 0 38 38 ≠ -2 ^ 126 := by decide
  rw [roundedQuotient, if_neg hmin] at hx
  have hwraps : WrapsBelow (exactQuotient 86998147662917218055 7513306671979489256 0 38 38) := by
    rw [exactQuotient_eq hne]
    exact ⟨1, by decide, by decide⟩
  have hrow : (dec128Divider 0 38 38).row 86998147662917218055 7513306671979489256 =
      DecimalRow.ofChunked ((dec128Divider 0 38 38).result false
        (ofInt128 86998147662917218055) 7513306671979489256) := rfl
  rw [hrow]
  exact fun hstores => (stores_bmod_self_iff hx).1 hstores hwraps

end SparkRapids
