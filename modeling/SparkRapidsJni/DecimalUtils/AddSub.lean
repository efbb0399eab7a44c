import SparkRapidsJni.DecimalUtils.Division

/-!
# Addition and subtraction of decimals

`dec128_add` and `dec128_sub` bring both operands to the larger of their decimal scales, add them as
256-bit integers, and round the sum at the scale of the result. A cudf scale is the negated decimal
scale, so that the larger decimal scale is the smaller cudf scale.

The kernels leave a row of the two output columns (`DecimalRow`). A row is right for the exact result
`q` if it reports the overflow of `q` and otherwise stores `q` (`Stores`).
-/

namespace SparkRapids

open Chunked256

/-- A row of the two output columns; the value is `none` if the kernel does not write it. -/
structure DecimalRow where
  overflow : Bool
  value : Option (BitVec 128)

/-- The row reports whether `q` has more than 38 digits, and stores it if it has not. -/
structure DecimalRow.Stores (row : DecimalRow) (q : ℤ) : Prop where
  overflow : row.overflow = true ↔ 10 ^ 38 ≤ |q|
  value : |q| < 10 ^ 38 → row.value.map BitVec.toInt = some q

/-- `overflows[i] = is_greater_than_decimal_38(x)` and `result_data[i] = x.as_128_bits()` -/
def DecimalRow.ofChunked (x : Chunked256) : DecimalRow :=
  ⟨isGreaterThanDecimal38 x, some x.as128Bits⟩

/-- The number that an unscaled value stands for at a decimal scale. -/
def decimal (unscaled : BitVec 128) (scale : ℕ) : ℚ := unscaled.toInt / 10 ^ scale

/-- `set_scale_and_round` -/
def setScaleAndRound (data : Chunked256) (oldScale newScale : ℤ) : Chunked256 :=
  if oldScale ≠ newScale then
    if newScale < oldScale then
      let raise := oldScale - newScale
      let multiplier := powTen raise.toNat
      multiply data multiplier
    else
      let drop := newScale - oldScale
      -- `drop` should not exceed 38 thus `10^drop` should fit in `__int128_t`
      let divisor := (powTen drop.toNat).as128Bits
      divideAndRound data divisor
  else data

/-- The scales of `dec128_add_sub` -/
structure Dec128AddSub where
  aScale : ℤ
  bScale : ℤ
  resultScale : ℤ

namespace Dec128AddSub

variable (f : Dec128AddSub)

/-- `intermediate_scale` -/
def intermediateScale : ℤ := min f.aScale f.bScale

/-- An operand at the intermediate scale. -/
def rescale (x : Chunked256) (scale : ℤ) : Chunked256 :=
  if scale ≠ f.intermediateScale then setScaleAndRound x scale f.intermediateScale else x

/-- The second operand as it is added. -/
def addend (b : Chunked256) (sub : Bool) : Chunked256 :=
  if sub then (f.rescale b f.bScale).negate else f.rescale b f.bScale

/-- The sum at the intermediate scale. -/
def sum (a b : Chunked256) (sub : Bool) : Chunked256 :=
  (f.rescale a f.aScale).add (f.addend b sub)

/-- `do_add_sub` -/
def doAddSub (a b : Chunked256) (sub : Bool) : Chunked256 :=
  if f.resultScale ≠ f.intermediateScale then
    setScaleAndRound (f.sum a b sub) f.intermediateScale f.resultScale
  else f.sum a b sub

/-- The values of `a` and `b` on the way: rescaled, negated, added, and multiplied up to the scale
of the result if that is larger. -/
def intermediates (a b : Chunked256) (sub : Bool) : List Chunked256 :=
  [f.rescale a f.aScale, f.rescale b f.bScale, f.addend b sub, f.sum a b sub] ++
    if f.resultScale < f.intermediateScale then [f.doAddSub a b sub] else []

/-- `dec128_add::operator()` and `dec128_sub::operator()` -/
def row (sub : Bool) (a b : BitVec 128) : DecimalRow :=
  DecimalRow.ofChunked (f.doAddSub (ofInt128 a) (ofInt128 b) sub)

end Dec128AddSub

/-! ### Rows -/

variable {x : Chunked256} {q : ℤ}

/-- What a row of a 256-bit result has to satisfy. -/
theorem stores_ofChunked_iff : (DecimalRow.ofChunked x).Stores q ↔
    (|q| < 10 ^ 38 → x.toInt = q) ∧ (10 ^ 38 ≤ |q| → 10 ^ 38 ≤ |x.toInt|) := by
  have hover := isGreaterThanDecimal38_iff x
  -- a value of at most 38 digits is the one in the low 128 bits
  have hlow : |x.toInt| < 10 ^ 38 → x.as128Bits.toInt = x.toInt := by
    intro h
    obtain ⟨h1, h2⟩ := abs_lt.1 h
    exact toInt_as128Bits (by omega) (by omega)
  constructor
  · rintro ⟨ho, hv⟩
    refine ⟨?_, fun h => hover.1 (ho.2 h)⟩
    intro h
    have hx : |x.toInt| < 10 ^ 38 := by
      by_contra hge
      exact absurd (ho.1 (hover.2 (not_lt.1 hge))) (not_le.2 h)
    rw [← hlow hx]
    exact Option.some.inj (hv h)
  · rintro ⟨hsmall, hlarge⟩
    constructor
    · refine ⟨fun h => ?_, fun h => hover.2 (hlarge h)⟩
      by_contra hlt
      have hge := hover.1 h
      rw [hsmall (not_le.1 hlt)] at hge
      exact hlt hge
    · intro h
      have hx := hsmall h
      show some x.as128Bits.toInt = some q
      rw [hlow (by rw [hx]; exact h), hx]

theorem stores_ofChunked (h : x.toInt = q) : (DecimalRow.ofChunked x).Stores q :=
  stores_ofChunked_iff.2 ⟨fun _ => h, fun hq => by rwa [h]⟩

/-! ### Scaling -/

theorem toInt_multiply_powTen {k : ℕ} (hk : k ≤ 76) (h : InRange (x.toInt * 10 ^ k)) :
    (multiply x (powTen k)).toInt = x.toInt * 10 ^ k := by
  rw [toInt_multiply, toInt_powTen hk, bmod_of_inRange h]

/-- The integers that are kept have at most 76 digits and a carry. -/
theorem inRange_of_abs_lt {z : ℤ} (h : |z| < 2 * 10 ^ 76) : InRange z := by
  obtain ⟨h1, h2⟩ := abs_lt.1 h
  exact ⟨by omega, by omega⟩

theorem abs_mul_pow_ten_lt {z : ℤ} {k : ℕ} (hz : |z| < 10 ^ 38) (hk : k ≤ 38) :
    |z * 10 ^ k| < 10 ^ 76 := by
  have hpow : (10 : ℤ) ^ k ≤ 10 ^ 38 := pow_le_pow_right₀ (by norm_num) hk
  have hpos : (0 : ℤ) < 10 ^ k := by positivity
  rw [abs_mul, abs_of_pos hpos]
  calc |z| * 10 ^ k ≤ |z| * 10 ^ 38 := mul_le_mul_of_nonneg_left hpow (abs_nonneg z)
    _ < 10 ^ 38 * 10 ^ 38 := by
      rw [mul_lt_mul_iff_left₀ (by norm_num)]
      exact hz
    _ = 10 ^ 76 := by norm_num

theorem toInt_divideAndRound_powTen {k : ℕ} (hk : k ≤ 38) (hx : x.toInt ≠ -2 ^ 255) :
    (divideAndRound x (powTen k).as128Bits).toInt =
      x.toInt.tdiv (10 ^ k) + roundInc128 x.toInt (10 ^ k) := by
  have hdiv := toInt_as128Bits_powTen hk
  have hpos : (0 : ℤ) < 10 ^ k := by positivity
  rw [toInt_divideAndRound hx (by rw [hdiv]; exact hpos.ne') (by rw [hdiv]; omega), hdiv]

/-- Only the largest divisor leaves the remainder that cannot be doubled. -/
theorem eq_of_tmod_pow_ten {n : ℤ} {k : ℕ} (hk : k ≤ 38) (h : n.tmod (10 ^ k) = -2 ^ 126) :
    k = 38 := by
  by_contra hne
  have hpos : (0 : ℤ) < 10 ^ k := by positivity
  have hpow : (10 : ℤ) ^ k ≤ 10 ^ 37 := pow_le_pow_right₀ (by norm_num) (by omega)
  have hlt := Int.lt_tmod_of_pos n hpos
  omega

theorem roundHalfAway_div_pow_ten (n : ℤ) (k : ℕ) :
    roundHalfAway (n / 10 ^ k) = n.tdiv (10 ^ k) + roundInc n (10 ^ k) := by
  rw [← roundHalfAway_div (by positivity)]
  push_cast
  rfl

theorem tdiv_add_roundInc128_pow_ten {n : ℤ} {k : ℕ} (h : n.tmod (10 ^ k) ≠ -2 ^ 126) :
    n.tdiv (10 ^ k) + roundInc128 n (10 ^ k) = roundHalfAway (n / 10 ^ k) := by
  rw [roundHalfAway_div_pow_ten, roundInc128, if_neg h]

/-- The remainder that cannot be doubled is one of a negative number, which is rounded away from the
truncated quotient. -/
theorem tdiv_add_roundInc128_of_eq {n : ℤ} (h : n.tmod (10 ^ 38) = -2 ^ 126) :
    n.tdiv (10 ^ 38) + roundInc128 n (10 ^ 38) = roundHalfAway (n / 10 ^ 38) + 1 ∧
      roundHalfAway (n / 10 ^ 38) < 0 := by
  have hneg : n < 0 := by
    by_contra hn
    have hmod := Int.tmod_nonneg (10 ^ 38) (not_lt.1 hn)
    omega
  have hsign : ¬(n < 0 ↔ (10 : ℤ) ^ 38 < 0) := fun hiff => absurd (hiff.1 hneg) (by norm_num)
  have hinc : roundInc n (10 ^ 38) = -1 := by
    rw [roundInc, h, if_pos (by decide), if_neg hsign]
  have hinc128 : roundInc128 n (10 ^ 38) = 0 := if_pos h
  have htdiv : n.tdiv (10 ^ 38) ≤ 0 := by
    rw [tdiv_eq_natAbs, if_neg hsign]
    exact neg_nonpos.2 (Int.natCast_nonneg _)
  rw [roundHalfAway_div_pow_ten, hinc, hinc128]
  constructor <;> omega

theorem abs_tdiv_pow_ten_lt {n : ℤ} (h : |n| < 10 ^ 76) : |n.tdiv (10 ^ 38)| < 10 ^ 38 := by
  have hdiv : (n.tdiv (10 ^ 38)).natAbs = n.natAbs / 10 ^ 38 := Int.natAbs_tdiv n (10 ^ 38)
  rw [Int.abs_eq_natAbs] at h ⊢
  have hlt : n.natAbs / 10 ^ 38 < 10 ^ 38 := Nat.div_lt_of_lt_mul (by omega)
  omega

/-- The missed increment shows: the value stored is another one, or it has still 38 digits where the
exact one has 39. -/
theorem not_stores_of_missed {n : ℤ} (hlt : |n| < 10 ^ 76) (hmod : n.tmod (10 ^ 38) = -2 ^ 126)
    (hx : x.toInt = n.tdiv (10 ^ 38) + roundInc128 n (10 ^ 38)) :
    ¬(DecimalRow.ofChunked x).Stores (roundHalfAway (n / 10 ^ 38)) := by
  intro hstores
  obtain ⟨hsmall, hlarge⟩ := stores_ofChunked_iff.1 hstores
  obtain ⟨hmiss, -⟩ := tdiv_add_roundInc128_of_eq hmod
  have hinc128 : roundInc128 n (10 ^ 38) = 0 := if_pos hmod
  have hq := abs_tdiv_pow_ten_lt hlt
  rcases lt_or_ge |roundHalfAway (n / 10 ^ 38)| (10 ^ 38) with h | h
  · have heq := hsmall h
    omega
  · have hge := hlarge h
    rw [hx, hinc128, add_zero] at hge
    exact absurd hge (not_le.2 hq)

/-! ### The sum -/

/-- The second operand of the sum, or its negation. -/
def signed (sub : Bool) (z : ℤ) : ℤ := if sub then -z else z

/-- The exact sum or difference as an unscaled value at the larger scale of the operands. -/
def exactSum (sub : Bool) (a b : BitVec 128) (s₁ s₂ : ℕ) : ℤ :=
  a.toInt * 10 ^ (max s₁ s₂ - s₁) + signed sub (b.toInt * 10 ^ (max s₁ s₂ - s₂))

/-- What the 256-bit values on the way stand for. -/
def exactIntermediates (sub : Bool) (a b : BitVec 128) (s₁ s₂ s : ℕ) : List ℤ :=
  [a.toInt * 10 ^ (max s₁ s₂ - s₁), b.toInt * 10 ^ (max s₁ s₂ - s₂),
    signed sub (b.toInt * 10 ^ (max s₁ s₂ - s₂)), exactSum sub a b s₁ s₂] ++
    if max s₁ s₂ < s then [exactSum sub a b s₁ s₂ * 10 ^ (s - max s₁ s₂)] else []

/-- The functor at the cudf scales of three decimal scales. -/
def dec128AddSub (s₁ s₂ s : ℕ) : Dec128AddSub := ⟨-s₁, -s₂, -s⟩

variable {a b : BitVec 128} {s₁ s₂ s : ℕ} {sub : Bool}

theorem intermediateScale_eq (s₁ s₂ s : ℕ) :
    (dec128AddSub s₁ s₂ s).intermediateScale = -(max s₁ s₂ : ℕ) := by
  show min (-(s₁ : ℤ)) (-(s₂ : ℤ)) = _
  omega

/-- Values are brought to a larger decimal scale by multiplication. -/
theorem toInt_setScaleAndRound_raise {t m : ℕ} (htm : t ≤ m) (hm : m ≤ 38)
    (h : InRange (x.toInt * 10 ^ (m - t))) :
    (if (-(t : ℤ)) ≠ -(m : ℤ) then setScaleAndRound x (-t) (-m) else x).toInt =
      x.toInt * 10 ^ (m - t) := by
  rcases eq_or_lt_of_le htm with rfl | hlt
  · simp
  · have hne : (-(t : ℤ)) ≠ -(m : ℤ) := by omega
    have hexp : (-(t : ℤ) - -(m : ℤ)).toNat = m - t := by omega
    rw [if_pos hne, setScaleAndRound, if_pos hne, if_pos (by omega)]
    simp only [hexp]
    exact toInt_multiply_powTen (by omega) h

section

variable (ha : |a.toInt| < 10 ^ 38)
include ha

/-- The larger scale is reached without leaving the range of 76 digits. -/
theorem toInt_rescale {t : ℕ} (ht : t ≤ max s₁ s₂) (hm : max s₁ s₂ ≤ 38) :
    ((dec128AddSub s₁ s₂ s).rescale (ofInt128 a) (-t)).toInt =
      a.toInt * 10 ^ (max s₁ s₂ - t) := by
  have habs := abs_mul_pow_ten_lt (k := max s₁ s₂ - t) ha (by omega)
  have hrange : InRange ((ofInt128 a).toInt * 10 ^ (max s₁ s₂ - t)) := by
    rw [toInt_ofInt128]
    exact inRange_of_abs_lt (by omega)
  rw [Dec128AddSub.rescale, intermediateScale_eq, toInt_setScaleAndRound_raise ht hm hrange,
    toInt_ofInt128]

omit ha in
theorem abs_signed (sub : Bool) (z : ℤ) : |signed sub z| = |z| := by
  cases sub
  · rfl
  · exact abs_neg z

omit ha in
theorem toInt_addend (hb : |b.toInt| < 10 ^ 38) (hm : max s₁ s₂ ≤ 38) :
    ((dec128AddSub s₁ s₂ s).addend (ofInt128 b) sub).toInt =
      signed sub (b.toInt * 10 ^ (max s₁ s₂ - s₂)) := by
  have hrescale := toInt_rescale (s := s) hb (le_max_right s₁ s₂) hm
  have habs := abs_mul_pow_ten_lt (k := max s₁ s₂ - s₂) hb (by omega)
  cases sub
  · exact hrescale
  · show ((dec128AddSub s₁ s₂ s).rescale (ofInt128 b) (-s₂)).negate.toInt = _
    rw [toInt_negate, hrescale]
    exact bmod_of_inRange (inRange_of_abs_lt (by rw [abs_neg]; omega))

variable (hb : |b.toInt| < 10 ^ 38)
include hb

theorem abs_exactSum_lt (hm : max s₁ s₂ ≤ 38) : |exactSum sub a b s₁ s₂| < 2 * 10 ^ 76 := by
  have hla := abs_mul_pow_ten_lt (k := max s₁ s₂ - s₁) ha (by omega)
  have hlb := abs_mul_pow_ten_lt (k := max s₁ s₂ - s₂) hb (by omega)
  calc |exactSum sub a b s₁ s₂|
      ≤ |a.toInt * 10 ^ (max s₁ s₂ - s₁)| + |b.toInt * 10 ^ (max s₁ s₂ - s₂)| := by
        rw [← abs_signed sub (b.toInt * 10 ^ (max s₁ s₂ - s₂))]
        exact abs_add_le _ _
    _ < 2 * 10 ^ 76 := by omega

theorem toInt_sum (hm : max s₁ s₂ ≤ 38) :
    ((dec128AddSub s₁ s₂ s).sum (ofInt128 a) (ofInt128 b) sub).toInt =
      exactSum sub a b s₁ s₂ := by
  have hlt : |exactSum sub a b s₁ s₂| < 2 * 10 ^ 76 := abs_exactSum_lt ha hb hm
  have hrescale : ((dec128AddSub s₁ s₂ s).rescale (ofInt128 a) (dec128AddSub s₁ s₂ s).aScale).toInt =
      a.toInt * 10 ^ (max s₁ s₂ - s₁) := toInt_rescale ha (le_max_left s₁ s₂) hm
  rw [Dec128AddSub.sum, toInt_add, hrescale, toInt_addend hb hm]
  exact bmod_of_inRange (inRange_of_abs_lt hlt)

/-- A sum that is scaled up is the sum of the operands scaled up. -/
theorem abs_exactSum_mul_lt (hms : max s₁ s₂ ≤ s) (hs : s ≤ 38) :
    |exactSum sub a b s₁ s₂ * 10 ^ (s - max s₁ s₂)| < 2 * 10 ^ 76 := by
  have hla := abs_mul_pow_ten_lt (k := s - s₁) ha (by omega)
  have hlb := abs_mul_pow_ten_lt (k := s - s₂) hb (by omega)
  have hscale : ∀ t, t ≤ max s₁ s₂ →
      (10 : ℤ) ^ (s - t) = 10 ^ (max s₁ s₂ - t) * 10 ^ (s - max s₁ s₂) := by
    intro t ht
    rw [← pow_add]
    congr 1
    omega
  have hsum : exactSum sub a b s₁ s₂ * 10 ^ (s - max s₁ s₂) =
      a.toInt * 10 ^ (s - s₁) + signed sub (b.toInt * 10 ^ (s - s₂)) := by
    rw [hscale s₁ (le_max_left _ _), hscale s₂ (le_max_right _ _), exactSum]
    cases sub
    · simp only [signed, Bool.false_eq_true, if_false]
      ring
    · simp only [signed, if_true]
      ring
  calc |exactSum sub a b s₁ s₂ * 10 ^ (s - max s₁ s₂)|
      ≤ |a.toInt * 10 ^ (s - s₁)| + |b.toInt * 10 ^ (s - s₂)| := by
        rw [hsum, ← abs_signed sub (b.toInt * 10 ^ (s - s₂))]
        exact abs_add_le _ _
    _ < 2 * 10 ^ 76 := by omega

/-- A result scale that is at least as large as the scale of the sum. -/
theorem toInt_doAddSub_raise (hms : max s₁ s₂ ≤ s) (hs : s ≤ 38) :
    ((dec128AddSub s₁ s₂ s).doAddSub (ofInt128 a) (ofInt128 b) sub).toInt =
      exactSum sub a b s₁ s₂ * 10 ^ (s - max s₁ s₂) := by
  have hsum : ((dec128AddSub s₁ s₂ s).sum (ofInt128 a) (ofInt128 b) sub).toInt =
      exactSum sub a b s₁ s₂ := toInt_sum ha hb (by omega)
  have hlt : |exactSum sub a b s₁ s₂ * 10 ^ (s - max s₁ s₂)| < 2 * 10 ^ 76 :=
    abs_exactSum_mul_lt ha hb hms hs
  have hraise := toInt_setScaleAndRound_raise
    (x := (dec128AddSub s₁ s₂ s).sum (ofInt128 a) (ofInt128 b) sub) hms hs
    (by rw [hsum]; exact inRange_of_abs_lt hlt)
  rw [hsum] at hraise
  rw [← hraise, Dec128AddSub.doAddSub, intermediateScale_eq]
  have hscale : (dec128AddSub s₁ s₂ s).resultScale = -(s : ℤ) := rfl
  rw [hscale]
  by_cases heq : s = max s₁ s₂
  · rw [if_neg (by omega), if_neg (by omega)]
  · rw [if_pos (by omega), if_pos (by omega)]

/-- A result scale below the scale of the sum. -/
theorem toInt_doAddSub_drop (hsm : s < max s₁ s₂) (hm : max s₁ s₂ ≤ 38) :
    ((dec128AddSub s₁ s₂ s).doAddSub (ofInt128 a) (ofInt128 b) sub).toInt =
      (exactSum sub a b s₁ s₂).tdiv (10 ^ (max s₁ s₂ - s)) +
        roundInc128 (exactSum sub a b s₁ s₂) (10 ^ (max s₁ s₂ - s)) := by
  have hsum : ((dec128AddSub s₁ s₂ s).sum (ofInt128 a) (ofInt128 b) sub).toInt =
      exactSum sub a b s₁ s₂ := toInt_sum ha hb hm
  have hlt : |exactSum sub a b s₁ s₂| < 2 * 10 ^ 76 := abs_exactSum_lt ha hb hm
  have hne : exactSum sub a b s₁ s₂ ≠ -2 ^ 255 := by
    have := (abs_lt.1 hlt).1
    omega
  have hscale : (dec128AddSub s₁ s₂ s).resultScale = -(s : ℤ) := rfl
  have hexp : (-(s : ℤ) - -((max s₁ s₂ : ℕ) : ℤ)).toNat = max s₁ s₂ - s := by omega
  rw [Dec128AddSub.doAddSub, intermediateScale_eq, hscale, if_pos (by omega), setScaleAndRound,
    if_pos (by omega), if_neg (by omega)]
  simp only [hexp]
  rw [toInt_divideAndRound_powTen (by omega) (by rw [hsum]; exact hne), hsum]

end

/-- The exact result, from the sum at the larger scale. -/
theorem exact_eq (sub : Bool) (a b : BitVec 128) (s₁ s₂ s : ℕ) :
    (if sub then decimal a s₁ - decimal b s₂ else decimal a s₁ + decimal b s₂) * 10 ^ s =
      (exactSum sub a b s₁ s₂ : ℚ) * 10 ^ s / 10 ^ max s₁ s₂ := by
  -- both operands over the same power of ten
  have hscale : ∀ (x : BitVec 128) (t : ℕ), t ≤ max s₁ s₂ →
      decimal x t = x.toInt * 10 ^ (max s₁ s₂ - t) / 10 ^ max s₁ s₂ := by
    intro x t ht
    rw [decimal, div_eq_div_iff (by positivity) (by positivity), mul_assoc, pow_sub_mul_pow _ ht]
  rw [hscale a s₁ (le_max_left _ _), hscale b s₂ (le_max_right _ _), exactSum]
  cases sub
  · simp only [signed, Bool.false_eq_true, if_false]
    push_cast
    ring
  · simp only [signed, if_true]
    push_cast
    ring

theorem roundHalfAway_exact_raise (n : ℤ) {m s : ℕ} (hms : m ≤ s) :
    roundHalfAway ((n : ℚ) * 10 ^ s / 10 ^ m) = n * 10 ^ (s - m) := by
  have hpow : (n : ℚ) * 10 ^ s / 10 ^ m = ((n * 10 ^ (s - m) : ℤ) : ℚ) := by
    rw [div_eq_iff (by positivity)]
    push_cast
    rw [mul_assoc, pow_sub_mul_pow _ hms]
  rw [hpow, roundHalfAway_intCast]

theorem exact_drop (n : ℤ) {m s : ℕ} (hsm : s ≤ m) :
    (n : ℚ) * 10 ^ s / 10 ^ m = n / 10 ^ (m - s) := by
  rw [div_eq_div_iff (by positivity) (by positivity), mul_assoc, mul_comm (10 ^ s),
    pow_sub_mul_pow _ hsm]

/-- With an operand scale of 38, the other operand alone is scaled up. -/
theorem abs_exactSum_lt_of_eq (ha : |a.toInt| < 10 ^ 38) (hb : |b.toInt| < 10 ^ 38)
    (hm : max s₁ s₂ = 38) : |exactSum sub a b s₁ s₂| < 10 ^ 76 := by
  have hpow : ∀ {z : ℤ} (t : ℕ), |z| < 10 ^ 38 → |z * 10 ^ (38 - t)| ≤ (10 ^ 38 - 1) * 10 ^ 38 := by
    intro z t hz
    have hle : (10 : ℤ) ^ (38 - t) ≤ 10 ^ 38 := pow_le_pow_right₀ (by norm_num) (by omega)
    have hpos : (0 : ℤ) < 10 ^ (38 - t) := by positivity
    rw [abs_mul, abs_of_pos hpos]
    exact mul_le_mul (by omega) hle hpos.le (by norm_num)
  have hself : ∀ {z : ℤ} (t : ℕ), t = 38 → |z| < 10 ^ 38 → |z * 10 ^ (38 - t)| < 10 ^ 38 := by
    rintro z t rfl hz
    rwa [Nat.sub_self, pow_zero, mul_one]
  have habs : |exactSum sub a b s₁ s₂| ≤ |a.toInt * 10 ^ (38 - s₁)| + |b.toInt * 10 ^ (38 - s₂)| := by
    rw [exactSum, hm, ← abs_signed sub (b.toInt * 10 ^ (38 - s₂))]
    exact abs_add_le _ _
  rcases (by omega : s₁ = 38 ∨ s₂ = 38) with h | h
  · have h1 := hself s₁ h ha
    have h2 := hpow s₂ hb
    omega
  · have h1 := hpow s₁ ha
    have h2 := hself s₂ h hb
    omega

theorem intermediates_exact (ha : |a.toInt| < 10 ^ 38) (hb : |b.toInt| < 10 ^ 38)
    (hs1 : s₁ ≤ 38) (hs2 : s₂ ≤ 38) (hs : s ≤ 38) :
    ((dec128AddSub s₁ s₂ s).intermediates (ofInt128 a) (ofInt128 b) sub).map toInt =
      exactIntermediates sub a b s₁ s₂ s := by
  have hm : max s₁ s₂ ≤ 38 := max_le hs1 hs2
  have hra : ((dec128AddSub s₁ s₂ s).rescale (ofInt128 a) (dec128AddSub s₁ s₂ s).aScale).toInt =
      a.toInt * 10 ^ (max s₁ s₂ - s₁) := toInt_rescale ha (le_max_left s₁ s₂) hm
  have hrb : ((dec128AddSub s₁ s₂ s).rescale (ofInt128 b) (dec128AddSub s₁ s₂ s).bScale).toInt =
      b.toInt * 10 ^ (max s₁ s₂ - s₂) := toInt_rescale hb (le_max_right s₁ s₂) hm
  have haddend : ((dec128AddSub s₁ s₂ s).addend (ofInt128 b) sub).toInt =
      signed sub (b.toInt * 10 ^ (max s₁ s₂ - s₂)) := toInt_addend hb hm
  have hsum : ((dec128AddSub s₁ s₂ s).sum (ofInt128 a) (ofInt128 b) sub).toInt =
      exactSum sub a b s₁ s₂ := toInt_sum ha hb hm
  have hscale : (dec128AddSub s₁ s₂ s).resultScale = -(s : ℤ) := rfl
  rw [Dec128AddSub.intermediates, exactIntermediates, List.map_append, List.map_cons, List.map_cons,
    List.map_cons, List.map_cons, List.map_nil, hra, hrb, haddend, hsum, intermediateScale_eq, hscale]
  by_cases hraise : max s₁ s₂ < s
  · rw [if_pos (by omega), if_pos hraise, List.map_cons, List.map_nil,
      toInt_doAddSub_raise ha hb hraise.le hs]
  · rw [if_neg (by omega), if_neg hraise, List.map_nil]

/-- Addition and subtraction are exact but for one remainder: with an operand scale of 38 and a
result scale of zero, a sum of which the fraction is `-2 ^ 126 / 10 ^ 38` is truncated. No value on
the way leaves the signed range, since each one is the exact integer. -/
theorem add_sub_exact_iff (sub : Bool) (ha : |a.toInt| < 10 ^ 38) (hb : |b.toInt| < 10 ^ 38)
    (hs1 : s₁ ≤ 38) (hs2 : s₂ ≤ 38) (hs : s ≤ 38) :
    (((dec128AddSub s₁ s₂ s).row sub a b).Stores (roundHalfAway
        ((if sub then decimal a s₁ - decimal b s₂ else decimal a s₁ + decimal b s₂) * 10 ^ s)) ∧
      ((dec128AddSub s₁ s₂ s).intermediates (ofInt128 a) (ofInt128 b) sub).map toInt =
        exactIntermediates sub a b s₁ s₂ s) ↔
      ¬(max s₁ s₂ - s = 38 ∧ (exactSum sub a b s₁ s₂).tmod (10 ^ 38) = -2 ^ 126) := by
  rw [and_iff_left (intermediates_exact ha hb hs1 hs2 hs), exact_eq, Dec128AddSub.row]
  rcases Nat.lt_or_ge s (max s₁ s₂) with hlt | hge
  · have hdrop : ((dec128AddSub s₁ s₂ s).doAddSub (ofInt128 a) (ofInt128 b) sub).toInt = _ :=
      toInt_doAddSub_drop ha hb hlt (max_le hs1 hs2)
    rw [exact_drop _ hlt.le]
    constructor
    · rintro hstores ⟨hexp, hmod⟩
      rw [hexp] at hdrop hstores
      have hmax : max s₁ s₂ = 38 := by omega
      exact not_stores_of_missed (abs_exactSum_lt_of_eq ha hb hmax) hmod hdrop hstores
    · intro hcond
      refine stores_ofChunked ?_
      rw [hdrop]
      refine tdiv_add_roundInc128_pow_ten (fun hmod => hcond ?_)
      have hexp := eq_of_tmod_pow_ten (by omega) hmod
      exact ⟨hexp, by rwa [hexp] at hmod⟩
  · rw [roundHalfAway_exact_raise _ hge]
    refine iff_of_true (stores_ofChunked (toInt_doAddSub_raise ha hb hge hs)) ?_
    rintro ⟨h, -⟩
    omega

/-- `1.5 - 0.25` at the scale one -/
theorem add_sub_exact_iff_quarter :
    (((dec128AddSub 1 2 1).row true 15 25).Stores
        (roundHalfAway ((decimal 15 1 - decimal 25 2) * 10 ^ 1)) ∧
      ((dec128AddSub 1 2 1).intermediates (ofInt128 15) (ofInt128 25) true).map toInt =
        exactIntermediates true 15 25 1 2 1) ↔
      ¬(max 1 2 - 1 = 38 ∧ (exactSum true 15 25 1 2).tmod (10 ^ 38) = -2 ^ 126) :=
  add_sub_exact_iff true (by decide) (by decide) (by norm_num) (by norm_num) (by norm_num)

/-- The sum of `-2 ^ 126 / 10 ^ 38`, which is about `-0.85`, and of zero is rounded to zero. -/
theorem sum_not_rounded : |(BitVec.ofInt 128 (-2 ^ 126)).toInt| < 10 ^ 38 ∧
    ¬((dec128AddSub 38 0 0).row false (BitVec.ofInt 128 (-2 ^ 126)) 0).Stores (roundHalfAway
      ((decimal (BitVec.ofInt 128 (-2 ^ 126)) 38 + decimal 0 0) * 10 ^ 0)) := by
  have ha : |(BitVec.ofInt 128 (-2 ^ 126)).toInt| < 10 ^ 38 := by decide
  refine ⟨ha, ?_⟩
  have hb : |(0 : BitVec 128).toInt| < 10 ^ 38 := by decide
  have hexact := exact_eq false (BitVec.ofInt 128 (-2 ^ 126)) 0 38 0 0
  rw [if_neg Bool.false_ne_true] at hexact
  rw [hexact, exact_drop _ (by norm_num), Dec128AddSub.row]
  refine not_stores_of_missed ?_ ?_ (toInt_doAddSub_drop ha hb (by norm_num) (by norm_num))
  · decide
  · decide

end SparkRapids
