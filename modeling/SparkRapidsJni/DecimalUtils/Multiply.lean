import SparkRapidsJni.DecimalUtils.AddSub

/-!
# Multiplication of decimals

`dec128_multiplier` multiplies two unscaled values to 256 bits and brings the product to the scale of
the result, upwards by a multiplication unless that has to overflow, or downwards by a rounding
division. With `cast_interim_result` the product is first rounded to 38 digits.

The number of digits of `precision10` is one too small for a power of ten. The rounding to 38 digits
is then one by a divisor of that power, and nothing is lost (`roundToDigits_eq`).
-/

namespace SparkRapids

open Chunked256

/-- The fields of `dec128_multiplier` -/
structure Dec128Multiplier where
  aScale : ℤ
  bScale : ℤ
  prodScale : ℤ
  castInterimResult : Bool

namespace Dec128Multiplier

variable (f : Dec128Multiplier)

/-- The lambda that computes `mult_scale`, with the product it leaves behind. -/
def interim (product : Chunked256) : Chunked256 × ℤ :=
  if f.castInterimResult then
    let firstDivPrecision := precision10 product - 38
    if firstDivPrecision > 0 then
      let firstDivScaleDivisor := (powTen firstDivPrecision.toNat).as128Bits
      -- `a_scale` and `b_scale` are negative, `first_div_precision` is not
      (divideAndRound product firstDivScaleDivisor, f.aScale + f.bScale + firstDivPrecision)
    else (product, f.aScale + f.bScale)
  else (product, f.aScale + f.bScale)

end Dec128Multiplier

/-- The product at the scale of the result, which is `exponent` above the scale of the product. -/
def rescaleProduct (product : Chunked256) (exponent : ℤ) : DecimalRow :=
  if exponent < 0 then
    let newPrecision := precision10 product
    -- this would overflow
    if newPrecision - exponent > 38 then ⟨true, none⟩
    else DecimalRow.ofChunked (multiply product (powTen (-exponent).toNat))
  else
    -- `exponent` should not exceed 38 thus `10^exponent` should fit in `__int128_t`
    let scaleDivisor := (powTen exponent.toNat).as128Bits
    DecimalRow.ofChunked
      (if scaleDivisor ≠ 1 then divideAndRound product scaleDivisor else product)

/-- `dec128_multiplier::operator()` -/
def Dec128Multiplier.row (f : Dec128Multiplier) (a b : BitVec 128) : DecimalRow :=
  let (product, multScale) := f.interim (multiply (ofInt128 a) (ofInt128 b))
  rescaleProduct product (f.prodScale - multScale)

/-- The functor at the cudf scales of three decimal scales. -/
def dec128Multiplier (s₁ s₂ s : ℕ) (cast : Bool) : Dec128Multiplier := ⟨-s₁, -s₂, -s, cast⟩

variable {a b : BitVec 128} {x : Chunked256} {p q : ℤ} {k : ℕ}

/-! ### Rounding to digits -/

/-- The integer rounded half away from zero to `k` digits. -/
def roundToDigits (k : ℕ) (p : ℤ) : ℤ :=
  let drop := (Nat.digits 10 p.natAbs).length - k
  roundHalfAway (p / 10 ^ drop) * 10 ^ drop

/-- Nothing is rounded by a divisor. -/
theorem roundHalfAway_div_mul {d : ℤ} (hd : d ≠ 0) (h : d ∣ p) : roundHalfAway (p / d) * d = p := by
  obtain ⟨c, rfl⟩ := h
  have hcast : ((d * c : ℤ) : ℚ) / d = (c : ℤ) := by
    push_cast
    rw [mul_div_cancel_left₀]
    exact_mod_cast hd
  rw [hcast, roundHalfAway_intCast, mul_comm]

/-- The digits may be counted by `precision10`. -/
theorem roundToDigits_eq (hk : 0 < k) (p : ℤ) :
    roundToDigits k p = roundHalfAway (p / 10 ^ (Nat.clog 10 p.natAbs - k)) *
      10 ^ (Nat.clog 10 p.natAbs - k) := by
  have hle : p.natAbs ≤ 10 ^ Nat.clog 10 p.natAbs := Nat.le_pow_clog (by norm_num) _
  have hdigits : p.natAbs < 10 ^ (Nat.digits 10 p.natAbs).length :=
    Nat.lt_base_pow_length_digits (by norm_num)
  unfold roundToDigits
  rcases Nat.lt_or_eq_of_le hle with hlt | heq
  · -- not a power of ten: the two counts agree
    have h1 := (Nat.digits_length_le_iff (by norm_num : 1 < 10) p.natAbs).2 hlt
    have h2 : Nat.clog 10 p.natAbs ≤ (Nat.digits 10 p.natAbs).length :=
      Nat.clog_le_of_le_pow hdigits.le
    rw [le_antisymm h1 h2]
  · -- a power of ten, which either divisor divides
    have hlen : (Nat.digits 10 p.natAbs).length ≤ Nat.clog 10 p.natAbs + 1 := by
      rw [Nat.digits_length_le_iff (by norm_num)]
      exact lt_of_le_of_lt hle (Nat.pow_lt_pow_succ (by norm_num))
    have hexact : ∀ j, j ≤ Nat.clog 10 p.natAbs →
        roundHalfAway ((p : ℚ) / 10 ^ j) * 10 ^ j = p := by
      intro j hj
      have hdvd : (10 : ℤ) ^ j ∣ p := by
        rw [← Int.natAbs_dvd_natAbs, heq, Int.natAbs_pow]
        exact pow_dvd_pow 10 hj
      have hround := roundHalfAway_div_mul (by positivity) hdvd
      push_cast at hround
      exact hround
    rw [hexact _ (by omega), hexact _ (by omega)]

/-! ### Scaling the product -/

/-- A row that has to overflow. -/
theorem stores_of_overflow {row : DecimalRow} (hrow : row.overflow = true) (hq : 10 ^ 38 ≤ |q|) :
    row.Stores q :=
  ⟨iff_of_true hrow hq, fun h => absurd hq (not_le.2 h)⟩

theorem precision10_le (h : |x.toInt| ≤ 10 ^ 76) : precision10 x = Nat.clog 10 x.toInt.natAbs :=
  precision10_eq (by rw [Int.abs_eq_natAbs] at h; omega)

/-- Upwards the product is exact, and it is only given up where it overflows. -/
theorem rescaleProduct_up (hx : |x.toInt| ≤ 10 ^ 76) (hk : 0 < k)
    (hk' : k ≤ 38 ∨ 1 < |x.toInt|) : (rescaleProduct x (-k)).Stores (x.toInt * 10 ^ k) := by
  have hprec := precision10_le hx
  have hle : x.toInt.natAbs ≤ 10 ^ Nat.clog 10 x.toInt.natAbs := Nat.le_pow_clog (by norm_num) _
  have hpos : (0 : ℤ) < 10 ^ k := by positivity
  have hmul : |x.toInt * 10 ^ k| = |x.toInt| * 10 ^ k := by rw [abs_mul, abs_of_pos hpos]
  rw [rescaleProduct, if_pos (by omega)]
  simp only [hprec]
  split
  · next hover =>
    apply stores_of_overflow rfl
    rw [hmul]
    rcases Nat.lt_or_ge 38 k with hlarge | hsmall
    · have hone : 1 ≤ |x.toInt| := by omega
      calc (10 : ℤ) ^ 38 ≤ 10 ^ k := pow_le_pow_right₀ (by norm_num) hlarge.le
        _ ≤ |x.toInt| * 10 ^ k := le_mul_of_one_le_left hpos.le hone
    · have hlt : 10 ^ (38 - k) < x.toInt.natAbs := Nat.pow_lt_of_lt_clog (by omega)
      have hlt' : (10 : ℤ) ^ (38 - k) ≤ |x.toInt| := by
        rw [Int.abs_eq_natAbs]
        exact_mod_cast hlt.le
      calc (10 : ℤ) ^ 38 = 10 ^ (38 - k) * 10 ^ k := (pow_sub_mul_pow 10 hsmall).symm
        _ ≤ |x.toInt| * 10 ^ k := mul_le_mul_of_nonneg_right hlt' hpos.le
  · next hfit =>
    have hexp : (- -(k : ℤ)).toNat = k := by omega
    have hfit' : Nat.clog 10 x.toInt.natAbs + k ≤ 38 := by omega
    -- a product of at most 38 digits, or the first number of 39
    have hrange : |x.toInt * 10 ^ k| ≤ 10 ^ 38 := by
      have hle' : |x.toInt| ≤ 10 ^ Nat.clog 10 x.toInt.natAbs := by
        rw [Int.abs_eq_natAbs]
        exact_mod_cast hle
      calc |x.toInt * 10 ^ k| ≤ 10 ^ Nat.clog 10 x.toInt.natAbs * 10 ^ k := by
            rw [hmul]
            exact mul_le_mul_of_nonneg_right hle' hpos.le
        _ = 10 ^ (Nat.clog 10 x.toInt.natAbs + k) := (pow_add _ _ _).symm
        _ ≤ 10 ^ 38 := pow_le_pow_right₀ (by norm_num) hfit'
    rw [hexp]
    exact stores_ofChunked (toInt_multiply_powTen (by omega) (inRange_of_abs_lt (by omega)))

/-- Downwards the product is divided. -/
theorem rescaleProduct_down (hx : |x.toInt| ≤ 10 ^ 76) (hk : k ≤ 38) :
    ∃ y : Chunked256, rescaleProduct x k = DecimalRow.ofChunked y ∧
      y.toInt = x.toInt.tdiv (10 ^ k) + roundInc128 x.toInt (10 ^ k) := by
  have hdivisor := toInt_as128Bits_powTen hk
  have hne : x.toInt ≠ -2 ^ 255 := by
    have := (abs_le.1 hx).1
    omega
  rw [rescaleProduct, if_neg (by omega)]
  refine ⟨_, rfl, ?_⟩
  rw [Int.toNat_natCast]
  split
  · exact toInt_divideAndRound_powTen hk hne
  · next hone =>
    -- the divisor is one only for the exponent zero
    have hpow : (10 : ℤ) ^ k = 1 := by
      rw [← hdivisor, not_not.1 hone]
      rfl
    rw [hpow, roundInc128_of_abs_eq_one abs_one, Int.tdiv_one, add_zero]

/-- Downwards the product is rounded, but for one remainder. -/
theorem stores_rescaleProduct_down (hx : |x.toInt| ≤ 10 ^ 76) (hk : k ≤ 38)
    (hmod : x.toInt.tmod (10 ^ k) ≠ -2 ^ 126) :
    (rescaleProduct x k).Stores (roundHalfAway (x.toInt / 10 ^ k)) := by
  obtain ⟨y, hrow, hy⟩ := rescaleProduct_down hx hk
  rw [hrow]
  exact stores_ofChunked (hy.trans (tdiv_add_roundInc128_pow_ten hmod))

theorem not_stores_rescaleProduct_down (hx : |x.toInt| < 10 ^ 76)
    (hmod : x.toInt.tmod (10 ^ 38) = -2 ^ 126) :
    ¬(rescaleProduct x (38 : ℕ)).Stores (roundHalfAway (x.toInt / 10 ^ 38)) := by
  obtain ⟨y, hrow, hy⟩ := rescaleProduct_down hx.le (le_refl 38)
  rw [hrow]
  exact not_stores_of_missed hx hmod hy

/-- The product at the scale of the result, in either direction. -/
theorem stores_rescaleProduct {e : ℤ} (hx : |x.toInt| ≤ 10 ^ 76) (he : e ≤ 38)
    (he' : -38 ≤ e ∨ 1 < |x.toInt|) (hmod : ¬(e = 38 ∧ x.toInt.tmod (10 ^ 38) = -2 ^ 126)) :
    (rescaleProduct x e).Stores (roundHalfAway (x.toInt * 10 ^ (-e))) := by
  rcases lt_or_ge e 0 with hneg | hnonneg
  · obtain ⟨k, rfl⟩ : ∃ k : ℕ, e = -k := ⟨(-e).toNat, by omega⟩
    have hup := rescaleProduct_up hx (k := k) (by omega) (by omega)
    rw [neg_neg, zpow_natCast, ← roundHalfAway_intCast (x.toInt * 10 ^ k)] at *
    push_cast at hup
    exact hup
  · obtain ⟨k, rfl⟩ : ∃ k : ℕ, e = k := ⟨e.toNat, by omega⟩
    have hdown := stores_rescaleProduct_down hx (k := k) (by omega) (fun h => hmod ?_)
    · rwa [zpow_neg, zpow_natCast, ← div_eq_mul_inv]
    · have hk := eq_of_tmod_pow_ten (by omega) h
      subst hk
      exact ⟨rfl, h⟩

/-! ### The product -/

/-- The product of the unscaled values, rounded to 38 digits if the interim result is cast. -/
def exactProduct (cast : Bool) (a b : BitVec 128) : ℤ :=
  if cast then roundToDigits 38 (a.toInt * b.toInt) else a.toInt * b.toInt

theorem abs_product_lt (ha : |a.toInt| < 10 ^ 38) (hb : |b.toInt| < 10 ^ 38) :
    |a.toInt * b.toInt| < 10 ^ 76 := by
  rw [abs_mul]
  calc |a.toInt| * |b.toInt| < 10 ^ 38 * 10 ^ 38 :=
        mul_lt_mul'' ha hb (abs_nonneg _) (abs_nonneg _)
    _ = 10 ^ 76 := by norm_num

theorem toInt_product (ha : |a.toInt| < 10 ^ 38) (hb : |b.toInt| < 10 ^ 38) :
    (multiply (ofInt128 a) (ofInt128 b)).toInt = a.toInt * b.toInt := by
  have hlt := abs_product_lt ha hb
  rw [toInt_multiply, toInt_ofInt128, toInt_ofInt128]
  exact bmod_of_inRange (inRange_of_abs_lt (by omega))

variable {f : Dec128Multiplier}

/-- A product that is not rounded on the way. -/
theorem interim_eq (hx : |x.toInt| ≤ 10 ^ 76) (h : f.castInterimResult = false ∨ |x.toInt| ≤ 10 ^ 38) :
    f.interim x = (x, f.aScale + f.bScale) := by
  rw [Dec128Multiplier.interim]
  split
  · next hcast =>
    have hsmall : |x.toInt| ≤ 10 ^ 38 := h.resolve_left (by rw [hcast]; exact Bool.true_eq_false_eq_False)
    have hclog : Nat.clog 10 x.toInt.natAbs ≤ 38 :=
      Nat.clog_le_of_le_pow (by rw [Int.abs_eq_natAbs] at hsmall; omega)
    simp only [precision10_le hx]
    rw [if_neg (by omega)]
  · rfl

/-- A product of more than 38 digits that is rounded to 38 digits, but for one remainder. -/
theorem interim_round (hcast : f.castInterimResult = true) (hx : |x.toInt| ≤ 10 ^ 76)
    (hx' : 10 ^ 38 < |x.toInt|) (hk : Nat.clog 10 x.toInt.natAbs - 38 = k) :
    ∃ y : Chunked256, f.interim x = (y, f.aScale + f.bScale + k) ∧ 0 < k ∧ k ≤ 38 ∧
      10 ^ (k + 37) < |x.toInt| ∧ |x.toInt| ≤ 10 ^ (k + 38) ∧
      y.toInt = x.toInt.tdiv (10 ^ k) + roundInc128 x.toInt (10 ^ k) := by
  have hne : x.toInt ≠ -2 ^ 255 := by
    have := (abs_le.1 hx).1
    omega
  have hprec := precision10_le hx
  rw [Int.abs_eq_natAbs] at hx hx' ⊢
  have hclog : 38 < Nat.clog 10 x.toInt.natAbs :=
    (Nat.lt_clog_iff_pow_lt (by norm_num)).2 (by omega)
  have hclog' : Nat.clog 10 x.toInt.natAbs ≤ 76 := Nat.clog_le_of_le_pow (by omega)
  have hlow : 10 ^ (k + 37) < x.toInt.natAbs := Nat.pow_lt_of_lt_clog (by omega)
  have hhigh : x.toInt.natAbs ≤ 10 ^ (k + 38) := by
    rw [show k + 38 = Nat.clog 10 x.toInt.natAbs by omega]
    exact Nat.le_pow_clog (by norm_num) _
  have hexp : ((Nat.clog 10 x.toInt.natAbs : ℤ) - 38).toNat = k := by omega
  have hcast' : ((Nat.clog 10 x.toInt.natAbs : ℤ) - 38) = k := by omega
  refine ⟨divideAndRound x (powTen k).as128Bits, ?_, by omega, by omega, by exact_mod_cast hlow,
    by exact_mod_cast hhigh, toInt_divideAndRound_powTen (by omega) hne⟩
  rw [Dec128Multiplier.interim, if_pos hcast]
  simp only [hprec, hcast']
  rw [if_pos (by omega), Int.toNat_natCast]

/-- The exact result, from the product and the difference of the scales. -/
theorem exact_product_eq (n : ℤ) (s₁ s₂ s : ℕ) :
    (n : ℚ) / 10 ^ (s₁ + s₂) * 10 ^ s = n * 10 ^ (-((s₁ : ℤ) + s₂ - s)) := by
  rw [neg_sub, zpow_sub₀ (by norm_num), ← Nat.cast_add, zpow_natCast, zpow_natCast]
  ring

theorem rescaleProduct_cases (x : Chunked256) (e : ℤ) :
    rescaleProduct x e = ⟨true, none⟩ ∨ ∃ y, rescaleProduct x e = DecimalRow.ofChunked y := by
  unfold rescaleProduct
  split
  · dsimp only
    split
    · exact Or.inl rfl
    · exact Or.inr ⟨_, rfl⟩
  · exact Or.inr ⟨_, rfl⟩

/-- Rounding to 38 digits and then by the rest of the scale. -/
theorem exact_interim_eq (R : ℤ) (x : ℤ) (k : ℕ) :
    ((R * 10 ^ k : ℤ) : ℚ) * 10 ^ (-x) = R * 10 ^ (-(x - k)) := by
  rw [neg_sub, sub_eq_add_neg, zpow_add₀ (by norm_num), zpow_natCast]
  push_cast
  ring

theorem roundToDigits_of_le (h : |p| ≤ 10 ^ 38) : roundToDigits 38 p = p := by
  have hclog : Nat.clog 10 p.natAbs ≤ 38 :=
    Nat.clog_le_of_le_pow (by rw [Int.abs_eq_natAbs] at h; omega)
  rw [roundToDigits_eq (by norm_num), Nat.sub_eq_zero_of_le hclog, pow_zero, pow_zero, mul_one,
    div_one, roundHalfAway_intCast]

/-- A product of more than 38 digits still has 38 digits after the rounding, or is the first number
of 39 digits. -/
theorem abs_rounded_bounds (hlow : 10 ^ (k + 37) < |p|) (hhigh : |p| ≤ 10 ^ (k + 38)) :
    10 ^ 37 ≤ |roundHalfAway ((p : ℚ) / 10 ^ k)| ∧ |roundHalfAway ((p : ℚ) / 10 ^ k)| ≤ 10 ^ 38 := by
  have hpos : (0 : ℚ) < 10 ^ k := by positivity
  have hlowq : (10 : ℚ) ^ (k + 37) ≤ |(p : ℚ)| := by exact_mod_cast hlow.le
  have hhighq : |(p : ℚ)| ≤ (10 : ℚ) ^ (k + 38) := by exact_mod_cast hhigh
  constructor
  · apply le_abs_roundHalfAway (by norm_num)
    have hsplit : (10 : ℚ) ^ 37 * 10 ^ k = 10 ^ (k + 37) := by rw [← pow_add, Nat.add_comm]
    rw [abs_div, abs_of_pos hpos, le_div_iff₀ hpos, Int.cast_pow, Int.cast_ofNat, hsplit]
    exact hlowq
  · apply abs_roundHalfAway_le
    have hsplit : (10 : ℚ) ^ 38 * 10 ^ k = 10 ^ (k + 38) := by rw [← pow_add, Nat.add_comm]
    rw [abs_div, abs_of_pos hpos, div_le_iff₀ hpos, Int.cast_pow, Int.cast_ofNat, hsplit]
    exact hhighq

/-- The truncated quotient of a product of 76 digits has 38 digits. -/
theorem le_abs_tdiv (hlow : 10 ^ 75 < |p|) : 10 ^ 37 ≤ |p.tdiv (10 ^ 38)| := by
  have hdiv : (p.tdiv (10 ^ 38)).natAbs = p.natAbs / 10 ^ 38 := Int.natAbs_tdiv p (10 ^ 38)
  rw [Int.abs_eq_natAbs] at hlow ⊢
  have hle : 10 ^ 37 ≤ p.natAbs / 10 ^ 38 := by
    rw [Nat.le_div_iff_mul_le (by norm_num)]
    omega
  omega

variable {s₁ s₂ s : ℕ} {cast : Bool}

theorem row_eq (f : Dec128Multiplier) (a b : BitVec 128) {y : Chunked256} {m : ℤ}
    (h : f.interim (multiply (ofInt128 a) (ofInt128 b)) = (y, m)) :
    f.row a b = rescaleProduct y (f.prodScale - m) := by
  rw [Dec128Multiplier.row, h]

/-- A product that is not rounded to 38 digits first. -/
theorem stores_row_iff (ha : |a.toInt| < 10 ^ 38) (hb : |b.toInt| < 10 ^ 38) (hs : s ≤ 38)
    (hcheck : s₁ + s₂ ≤ s + 38) (h : cast = false ∨ |a.toInt * b.toInt| ≤ 10 ^ 38) :
    ((dec128Multiplier s₁ s₂ s cast).row a b).Stores
        (roundHalfAway ((a.toInt * b.toInt : ℤ) / 10 ^ (s₁ + s₂) * 10 ^ s)) ↔
      ¬(s₁ + s₂ = s + 38 ∧ (a.toInt * b.toInt).tmod (10 ^ 38) = -2 ^ 126) := by
  have hprod := toInt_product ha hb
  have hlt := abs_product_lt ha hb
  have hinterim := interim_eq (f := dec128Multiplier s₁ s₂ s cast)
    (x := multiply (ofInt128 a) (ofInt128 b)) (by rw [hprod]; exact hlt.le) (by rwa [hprod])
  have hexp : (dec128Multiplier s₁ s₂ s cast).prodScale -
      ((dec128Multiplier s₁ s₂ s cast).aScale + (dec128Multiplier s₁ s₂ s cast).bScale) =
        (s₁ : ℤ) + s₂ - s := by
    show -(s : ℤ) - (-(s₁ : ℤ) + -(s₂ : ℤ)) = _
    ring
  rw [row_eq _ a b hinterim, hexp, exact_product_eq, ← hprod]
  by_cases hmod : s₁ + s₂ = s + 38 ∧
      (multiply (ofInt128 a) (ofInt128 b)).toInt.tmod (10 ^ 38) = -2 ^ 126
  · have h38 : (s₁ : ℤ) + s₂ - s = (38 : ℕ) := by omega
    have hnot := not_stores_rescaleProduct_down (by rwa [hprod]) hmod.2
    refine iff_of_false ?_ (not_not.2 hmod)
    rw [h38, zpow_neg, zpow_natCast, ← div_eq_mul_inv]
    exact hnot
  · refine iff_of_true ?_ hmod
    exact stores_rescaleProduct (by rw [hprod]; exact hlt.le) (by omega) (by omega)
      (fun h => hmod ⟨by omega, h.2⟩)

/-- A product that is rounded to 38 digits first, where the remainder can be doubled. -/
theorem stores_row_of_round (hcheck : s₁ + s₂ ≤ s + 38) (hk : 0 < k)
    (hk' : k ≤ 38) {R : ℤ} (hR : 10 ^ 37 ≤ |R|) (hR' : |R| ≤ 10 ^ 38) (hx : x.toInt = R) :
    (rescaleProduct x ((s₁ : ℤ) + s₂ - s - k)).Stores
      (roundHalfAway ((R * 10 ^ k : ℤ) / 10 ^ (s₁ + s₂) * 10 ^ s)) := by
  rw [exact_product_eq, exact_interim_eq, ← hx]
  rw [← hx] at hR hR'
  exact stores_rescaleProduct (by omega) (by omega) (Or.inr (by omega)) (fun h => by omega)

/-- The missed increment of the interim result: it shows at the scale of the interim result, and
overflows with it at a larger one. -/
theorem stores_row_missed_iff (hcheck : s₁ + s₂ ≤ s + 38) (hlt : |p| < 10 ^ 76)
    (hlow : 10 ^ 75 < |p|) (hmod : p.tmod (10 ^ 38) = -2 ^ 126)
    (hx : x.toInt = p.tdiv (10 ^ 38) + roundInc128 p (10 ^ 38)) :
    (rescaleProduct x ((s₁ : ℤ) + s₂ - s - 38)).Stores
        (roundHalfAway ((roundHalfAway (p / 10 ^ 38) * 10 ^ 38 : ℤ) / 10 ^ (s₁ + s₂) * 10 ^ s)) ↔
      s₁ + s₂ ≠ s + 38 := by
  obtain ⟨hmiss, hneg⟩ := tdiv_add_roundInc128_of_eq hmod
  have hinc128 : roundInc128 p (10 ^ 38) = 0 := if_pos hmod
  have hle := le_abs_tdiv hlow
  have htdiv := abs_tdiv_pow_ten_lt hlt
  rw [← add_zero (p.tdiv (10 ^ 38)), ← hinc128, ← hx] at hle htdiv
  rw [exact_product_eq, exact_interim_eq, Nat.cast_ofNat]
  rcases eq_or_lt_of_le hcheck with heq | hlt'
  · -- the interim result is the result
    refine iff_of_false ?_ (not_not.2 heq)
    have hzero : (s₁ : ℤ) + s₂ - s - 38 = (0 : ℕ) := by omega
    obtain ⟨y, hrow, hy⟩ := rescaleProduct_down (x := x) (by omega) (Nat.zero_le 38)
    rw [pow_zero, roundInc128_of_abs_eq_one abs_one, Int.tdiv_one, add_zero] at hy
    have hnot := not_stores_of_missed hlt hmod (hy.trans hx)
    rw [hzero, hrow, Nat.cast_zero, neg_zero, zpow_zero, mul_one, roundHalfAway_intCast]
    exact hnot
  · refine iff_of_true ?_ (by omega)
    obtain ⟨k, hk⟩ : ∃ k : ℕ, (s₁ : ℤ) + s₂ - s - 38 = -k := ⟨s + 38 - s₁ - s₂, by omega⟩
    have hkpos : 0 < k := by omega
    have hpos : (10 : ℤ) ≤ 10 ^ k := le_self_pow₀ (by norm_num) hkpos.ne'
    have hup := rescaleProduct_up (x := x) (by omega) hkpos (Or.inr (by omega))
    have hmul : ∀ z : ℤ, 10 ^ 37 ≤ |z| → 10 ^ 38 ≤ |z * 10 ^ k| := by
      intro z hz
      rw [abs_mul, abs_of_pos (by omega : (0 : ℤ) < 10 ^ k)]
      calc (10 : ℤ) ^ 38 = 10 ^ 37 * 10 := by norm_num
        _ ≤ |z| * 10 ^ k := mul_le_mul hz hpos (by norm_num) (abs_nonneg z)
    have hR : 10 ^ 37 ≤ |roundHalfAway ((p : ℚ) / 10 ^ 38)| := by
      rw [Int.abs_eq_natAbs] at hle ⊢
      omega
    have hq : roundHalfAway ((roundHalfAway ((p : ℚ) / 10 ^ 38) : ℚ) * 10 ^ k) =
        roundHalfAway ((p : ℚ) / 10 ^ 38) * 10 ^ k := by
      rw [← roundHalfAway_intCast (roundHalfAway ((p : ℚ) / 10 ^ 38) * 10 ^ k)]
      push_cast
      rfl
    rw [hk, neg_neg, zpow_natCast, hq]
    exact stores_of_overflow (hup.overflow.2 (hmul _ hle)) (hmul _ hR)

/-- A row that is not written is one that reports an overflow. -/
theorem overflow_of_value_none {f : Dec128Multiplier} (h : (f.row a b).value = none) :
    (f.row a b).overflow = true := by
  have hrow : f.row a b = rescaleProduct (f.interim (multiply (ofInt128 a) (ofInt128 b))).1
      (f.prodScale - (f.interim (multiply (ofInt128 a) (ofInt128 b))).2) := row_eq f a b rfl
  rw [hrow] at h ⊢
  obtain hexit | ⟨y, hy⟩ := rescaleProduct_cases
    (f.interim (multiply (ofInt128 a) (ofInt128 b))).1
    (f.prodScale - (f.interim (multiply (ofInt128 a) (ofInt128 b))).2)
  · rw [hexit]
  · rw [hy] at h
    exact absurd h (Option.some_ne_none _)

/-- A product of more than 38 digits that is rounded to 38 digits first. -/
theorem stores_row_round_iff (ha : |a.toInt| < 10 ^ 38) (hb : |b.toInt| < 10 ^ 38)
    (hcheck : s₁ + s₂ ≤ s + 38) (h38 : 10 ^ 38 < |a.toInt * b.toInt|) :
    ((dec128Multiplier s₁ s₂ s true).row a b).Stores
        (roundHalfAway ((roundToDigits 38 (a.toInt * b.toInt) : ℤ) / 10 ^ (s₁ + s₂) * 10 ^ s)) ↔
      ¬(s₁ + s₂ = s + 38 ∧ (a.toInt * b.toInt).tmod (10 ^ 38) = -2 ^ 126 ∧
        10 ^ 75 < |a.toInt * b.toInt|) := by
  have hprod := toInt_product ha hb
  have hlt := abs_product_lt ha hb
  obtain ⟨k, hk⟩ : ∃ k, Nat.clog 10 (a.toInt * b.toInt).natAbs - 38 = k := ⟨_, rfl⟩
  obtain ⟨y, hinterim, hkpos, hk38, hlow, hhigh, hy⟩ :=
    interim_round (k := k) (f := dec128Multiplier s₁ s₂ s true)
      (x := multiply (ofInt128 a) (ofInt128 b)) rfl
      (by rw [hprod]; exact hlt.le) (by rw [hprod]; exact h38) (by rw [hprod]; exact hk)
  rw [hprod] at hlow hhigh hy
  have hexp : (dec128Multiplier s₁ s₂ s true).prodScale -
      ((dec128Multiplier s₁ s₂ s true).aScale + (dec128Multiplier s₁ s₂ s true).bScale + k) =
        (s₁ : ℤ) + s₂ - s - k := by
    show -(s : ℤ) - (-(s₁ : ℤ) + -(s₂ : ℤ) + k) = _
    ring
  rw [row_eq _ a b hinterim, hexp, roundToDigits_eq (by norm_num), hk]
  by_cases hmod : (a.toInt * b.toInt).tmod (10 ^ k) = -2 ^ 126
  · -- only a divisor of 38 digits leaves the remainder
    obtain rfl := eq_of_tmod_pow_ten hk38 hmod
    have hiff := stores_row_missed_iff hcheck hlt hlow hmod hy
    rw [Nat.cast_ofNat]
    exact hiff.trans ⟨fun hne h => hne h.1, fun h hne => h ⟨hne, hmod, hlow⟩⟩
  · obtain ⟨hR, hR'⟩ := abs_rounded_bounds hlow hhigh
    refine iff_of_true (stores_row_of_round hcheck hkpos hk38 hR hR' ?_) ?_
    · rw [hy, tdiv_add_roundInc128_pow_ten hmod]
    · rintro ⟨-, hmod', h75⟩
      have hlt75 : (10 : ℤ) ^ 75 < 10 ^ (k + 38) := lt_of_lt_of_le h75 hhigh
      have hk' : k = 38 := by
        have := (pow_lt_pow_iff_right₀ (by norm_num : (1 : ℤ) < 10)).1 hlt75
        omega
      exact hmod (by rw [hk']; exact hmod')

/-- Multiplication is exact but for one remainder of the division by `10 ^ 38`, which is the divisor
of the result if the scales of the operands are 38 above it, or of the interim result if the product
has 76 digits; and the early exit is only taken for products that overflow. -/
theorem multiply_exact_iff (cast : Bool) (ha : |a.toInt| < 10 ^ 38) (hb : |b.toInt| < 10 ^ 38)
    (hs : s ≤ 38) (hcheck : checkScaleDivisor (-s₁ + -s₂) (-s) = true) :
    (((dec128Multiplier s₁ s₂ s cast).row a b).Stores
        (roundHalfAway (exactProduct cast a b / 10 ^ (s₁ + s₂) * 10 ^ s)) ∧
      (((dec128Multiplier s₁ s₂ s cast).row a b).value = none →
        10 ^ 38 ≤ |roundHalfAway (exactProduct cast a b / 10 ^ (s₁ + s₂) * 10 ^ s)|)) ↔
      ¬(s₁ + s₂ = s + 38 ∧ (a.toInt * b.toInt).tmod (10 ^ 38) = -2 ^ 126 ∧
        (cast = false ∨ |a.toInt * b.toInt| ≤ 10 ^ 38 ∨ 10 ^ 75 < |a.toInt * b.toInt|)) := by
  have hscales : s₁ + s₂ ≤ s + 38 := by
    have hle := of_decide_eq_true hcheck
    omega
  rw [and_iff_left_of_imp (fun hstores hnone => hstores.overflow.1 (overflow_of_value_none hnone))]
  by_cases hround : cast = false ∨ |a.toInt * b.toInt| ≤ 10 ^ 38
  · -- the interim result is the product
    have hexact : exactProduct cast a b = a.toInt * b.toInt := by
      cases cast
      · rfl
      · exact roundToDigits_of_le (hround.resolve_left (by decide))
    rw [hexact, stores_row_iff ha hb hs hscales hround]
    exact not_congr ⟨fun h => ⟨h.1, h.2, hround.imp_right Or.inl⟩, fun h => ⟨h.1, h.2.1⟩⟩
  · obtain ⟨hcast, h38⟩ := not_or.1 hround
    obtain rfl := (Bool.not_eq_false cast).mp hcast
    refine (stores_row_round_iff ha hb hscales (not_le.1 h38)).trans (not_congr ?_)
    refine ⟨fun h => ⟨h.1, h.2.1, Or.inr (Or.inr h.2.2)⟩, fun h => ⟨h.1, h.2.1, ?_⟩⟩
    exact (h.2.2.resolve_left hcast).resolve_left h38

/-- `0.5 * 1.5` at the scale one, without an interim result -/
theorem multiply_exact_iff_halves :
    (((dec128Multiplier 1 1 1 false).row 5 15).Stores
        (roundHalfAway (exactProduct false 5 15 / 10 ^ (1 + 1) * 10 ^ 1)) ∧
      (((dec128Multiplier 1 1 1 false).row 5 15).value = none →
        10 ^ 38 ≤ |roundHalfAway (exactProduct false 5 15 / 10 ^ (1 + 1) * 10 ^ 1)|)) ↔
      ¬(1 + 1 = 1 + 38 ∧ ((5 : BitVec 128).toInt * (15 : BitVec 128).toInt).tmod (10 ^ 38) = -2 ^ 126 ∧
        (false = false ∨ |(5 : BitVec 128).toInt * (15 : BitVec 128).toInt| ≤ 10 ^ 38 ∨
          10 ^ 75 < |(5 : BitVec 128).toInt * (15 : BitVec 128).toInt|)) :=
  multiply_exact_iff false (by decide) (by decide) (by norm_num) (by decide)

/-- The product of `-2 ^ 126 / 10 ^ 38`, which is about `-0.85`, and of one is rounded to zero. -/
theorem product_not_rounded : |(BitVec.ofInt 128 (-2 ^ 126)).toInt| < 10 ^ 38 ∧
    checkScaleDivisor (-38 + -0) (-0) = true ∧
    ¬((dec128Multiplier 38 0 0 false).row (BitVec.ofInt 128 (-2 ^ 126)) 1).Stores (roundHalfAway
      (exactProduct false (BitVec.ofInt 128 (-2 ^ 126)) 1 / 10 ^ (38 + 0) * 10 ^ 0)) := by
  have ha : |(BitVec.ofInt 128 (-2 ^ 126)).toInt| < 10 ^ 38 := by decide
  refine ⟨ha, by decide, ?_⟩
  have hb : |(1 : BitVec 128).toInt| < 10 ^ 38 := by decide
  intro hstores
  have hnot := (stores_row_iff ha hb (Nat.zero_le 38) (le_refl 38) (Or.inl rfl)).1 hstores
  exact hnot (by decide)

end SparkRapids
