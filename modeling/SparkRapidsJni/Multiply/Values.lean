import Mathlib

/-!
# `multiply.cu`: values

The product of two integers of one type, with or without a check for overflow. The types of 8 and 16
bits are multiplied as `int` and compared with their limits; `int32_t` is multiplied as `int64_t` and
cast back; for `int64_t` there is no wider type, and four divisions that truncate tell in advance whether
the product fits.

`multiplyValues_eq` is what all of them do: the product modulo `2 ^ w`, or nothing where the check is on and
the exact product does not fit.
-/

namespace SparkRapids.Multiply

/-- The integer types of `is_basic_spark_numeric`. -/
inductive NumericType
  | int8
  | int16
  | int32
  | int64
deriving DecidableEq, Repr

def NumericType.bits : NumericType → ℕ
  | int8 => 8
  | int16 => 16
  | int32 => 32
  | int64 => 64

/-- `T` -/
abbrev NumericType.Value (T : NumericType) : Type := BitVec T.bits

/-- `multiply<int8_t>` and `multiply<int16_t>`: the factors are promoted to `int`. -/
def multiplyPromoted (w : ℕ) (x y : BitVec w) (checkOverflow : Bool) : Option (BitVec w) :=
  let r : BitVec 32 := x.signExtend 32 * y.signExtend 32
  if checkOverflow &&
      (r.slt ((BitVec.intMin w).signExtend 32) || ((BitVec.intMax w).signExtend 32).slt r) then none
  else some (r.truncate w)

/-- `multiply<int32_t>` -/
def multiplyInt32 (x y : BitVec 32) (checkOverflow : Bool) : Option (BitVec 32) :=
  if checkOverflow then
    let r : BitVec 64 := x.signExtend 64 * y.signExtend 64
    let rCast := r.truncate 32
    if rCast.signExtend 64 = r then some rCast else none
  else some (x * y)

/-- `is_multiply_overflow` -/
def isMultiplyOverflow (a b : BitVec 64) : Bool :=
  let int64Min := BitVec.intMin 64
  let int64Max := BitVec.intMax 64
  -- positive overflow
  if (0#64).slt a && (0#64).slt b && (int64Max.sdiv b).slt a then true
  -- negative overflow
  else if a.slt 0 && b.slt 0 && a.slt (int64Max.sdiv b) then true
  -- mixed sign overflow
  else if (0#64).slt a && b.slt 0 && b.slt (int64Min.sdiv a) then true
  else if a.slt 0 && (0#64).slt b && a.slt (int64Min.sdiv b) then true
  else false

/-- `multiply<int64_t>` -/
def multiplyInt64 (x y : BitVec 64) (checkOverflow : Bool) : Option (BitVec 64) :=
  if checkOverflow && isMultiplyOverflow x y then none else some (x * y)

/-- `multiply<T>`: the result, or none if `*valid` is set to false. -/
def multiplyValues : (T : NumericType) → T.Value → T.Value → Bool → Option T.Value
  | .int8, x, y, checkOverflow => multiplyPromoted 8 x y checkOverflow
  | .int16, x, y, checkOverflow => multiplyPromoted 16 x y checkOverflow
  | .int32, x, y, checkOverflow => multiplyInt32 x y checkOverflow
  | .int64, x, y, checkOverflow => multiplyInt64 x y checkOverflow

/-- `left_value * right_value`, cast to `T`. -/
def times : (T : NumericType) → T.Value → T.Value → T.Value
  | .int8, x, y => (x.signExtend 32 * y.signExtend 32).truncate 8
  | .int16, x, y => (x.signExtend 32 * y.signExtend 32).truncate 16
  | .int32, x, y => x * y
  | .int64, x, y => x * y

/-! ### What fits a type -/

/-- The integer is one of `w` bits. -/
def Fits (w : ℕ) (z : ℤ) : Prop := -2 ^ (w - 1) ≤ z ∧ z < 2 ^ (w - 1)

instance (w : ℕ) (z : ℤ) : Decidable (Fits w z) := inferInstanceAs (Decidable (_ ∧ _))

section

variable {w : ℕ}

theorem fits_toInt (hw : 0 < w) (x : BitVec w) : Fits w x.toInt := by
  obtain ⟨v, rfl⟩ := Nat.exists_eq_succ_of_ne_zero hw.ne'
  have hlow : (-2 ^ (v + 1) : ℤ) ≤ 2 * x.toInt := BitVec.le_two_mul_toInt
  have hhigh : 2 * x.toInt < (2 ^ (v + 1) : ℤ) := BitVec.two_mul_toInt_lt
  rw [pow_succ] at hlow hhigh
  constructor
  · rw [Nat.succ_sub_one]
    linarith
  · rw [Nat.succ_sub_one]
    linarith

theorem bmod_of_fits (hw : 0 < w) {z : ℤ} (h : Fits w z) : z.bmod (2 ^ w) = z := by
  obtain ⟨v, rfl⟩ := Nat.exists_eq_succ_of_ne_zero hw.ne'
  obtain ⟨hlow, hhigh⟩ := h
  rw [Nat.succ_sub_one] at hlow hhigh
  apply Int.bmod_eq_of_le_mul_two
  · push_cast
    rw [Nat.succ_eq_add_one, pow_succ]
    linarith
  · push_cast
    rw [Nat.succ_eq_add_one, pow_succ]
    linarith

/-- A product fits iff it is the one modulo `2 ^ w`. -/
theorem fits_mul_iff (hw : 0 < w) (x y : BitVec w) :
    Fits w (x.toInt * y.toInt) ↔ (x * y).toInt = x.toInt * y.toInt := by
  constructor
  · intro h
    rw [BitVec.toInt_mul, bmod_of_fits hw h]
  · intro h
    rw [← h]
    exact fits_toInt hw _

/-- In twice the width, no product overflows. -/
theorem toInt_mul_signExtend {v : ℕ} (hw : 0 < w) (hv : 2 * w ≤ v) (x y : BitVec w) :
    (x.signExtend v * y.signExtend v).toInt = x.toInt * y.toInt := by
  obtain ⟨xlow, xhigh⟩ := fits_toInt hw x
  obtain ⟨ylow, yhigh⟩ := fits_toInt hw y
  have hle : w ≤ v := by omega
  have habs : |x.toInt * y.toInt| ≤ 2 ^ (w - 1) * 2 ^ (w - 1) := by
    rw [abs_mul]
    apply mul_le_mul _ _ (abs_nonneg _) (by positivity)
    · exact abs_le.2 ⟨xlow, xhigh.le⟩
    · exact abs_le.2 ⟨ylow, yhigh.le⟩
  have hpow : (2 : ℤ) ^ (w - 1) * 2 ^ (w - 1) < 2 ^ (v - 1) := by
    rw [← pow_add]
    exact pow_lt_pow_right₀ one_lt_two (by omega)
  have hfits : Fits v (x.toInt * y.toInt) := by
    obtain ⟨hlow, hhigh⟩ := abs_le.1 habs
    exact ⟨by linarith, by linarith⟩
  rw [BitVec.toInt_mul, BitVec.toInt_signExtend_of_le hle, BitVec.toInt_signExtend_of_le hle,
    bmod_of_fits (by omega) hfits]

theorem setWidth_signExtend {v : ℕ} (hv : w ≤ v) (x : BitVec w) :
    (x.signExtend v).setWidth w = x := by
  apply BitVec.eq_of_getLsbD_eq
  intro i hi
  rw [BitVec.getLsbD_setWidth, BitVec.getLsbD_signExtend, if_pos hi, decide_eq_true hi,
    decide_eq_true (hi.trans_le hv), Bool.true_and, Bool.true_and]

/-- The product of a wider type, cast back. -/
theorem truncate_mul_signExtend {v : ℕ} (hv : w ≤ v) (x y : BitVec w) :
    (x.signExtend v * y.signExtend v).truncate w = x * y := by
  rw [BitVec.truncate_eq_setWidth, BitVec.setWidth_mul _ _ hv, setWidth_signExtend hv,
    setWidth_signExtend hv]

/-! ### The checks are exact -/

theorem multiplyPromoted_eq (hw : 0 < w) (hle : 2 * w ≤ 32) (x y : BitVec w)
    (checkOverflow : Bool) : multiplyPromoted w x y checkOverflow =
      if checkOverflow ∧ ¬Fits w (x.toInt * y.toInt) then none else some (x * y) := by
  have hle' : w ≤ 32 := by omega
  have hmin : (BitVec.intMin w).toInt = -2 ^ (w - 1) := by
    have hlt : 2 ^ (w - 1) < 2 ^ w := Nat.pow_lt_pow_right one_lt_two (by omega)
    rw [BitVec.toInt_intMin, Nat.mod_eq_of_lt hlt]
    push_cast
    rfl
  have hguard : ((x.signExtend 32 * y.signExtend 32).slt ((BitVec.intMin w).signExtend 32) ||
      ((BitVec.intMax w).signExtend 32).slt (x.signExtend 32 * y.signExtend 32)) =
      decide (¬Fits w (x.toInt * y.toInt)) := by
    rw [Bool.eq_iff_iff, Bool.or_eq_true, BitVec.slt_iff_toInt_lt, BitVec.slt_iff_toInt_lt,
      toInt_mul_signExtend hw hle, BitVec.toInt_signExtend_of_le hle',
      BitVec.toInt_signExtend_of_le hle', hmin, BitVec.toInt_intMax, decide_eq_true_iff, Fits,
      not_and_or]
    omega
  unfold multiplyPromoted
  dsimp only
  rw [hguard, truncate_mul_signExtend hle']
  simp

theorem multiplyInt32_eq (x y : BitVec 32) (checkOverflow : Bool) :
    multiplyInt32 x y checkOverflow =
      if checkOverflow ∧ ¬Fits 32 (x.toInt * y.toInt) then none else some (x * y) := by
  have hcast : (x * y).signExtend 64 = x.signExtend 64 * y.signExtend 64 ↔
      Fits 32 (x.toInt * y.toInt) := by
    rw [fits_mul_iff (by decide), ← BitVec.toInt_inj, BitVec.toInt_signExtend_of_le (by decide),
      toInt_mul_signExtend (by decide) (by decide)]
  unfold multiplyInt32
  dsimp only
  rw [truncate_mul_signExtend (by decide)]
  cases checkOverflow with
  | false => rfl
  | true =>
    by_cases hfits : Fits 32 (x.toInt * y.toInt)
    · rw [if_pos rfl, if_pos (hcast.2 hfits), if_neg fun h => h.2 hfits]
    · rw [if_pos rfl, if_neg fun h => hfits (hcast.1 h), if_pos ⟨rfl, hfits⟩]

/-- A quotient by a positive number is exceeded iff the product is. -/
theorem tdiv_lt_iff {a b m : ℤ} (hb : 0 < b) (hm : 0 ≤ m) : m.tdiv b < a ↔ m < a * b := by
  rw [Int.tdiv_eq_ediv_of_nonneg hm, Int.ediv_lt_iff_lt_mul hb]

theorem lt_tdiv_iff {a b m : ℤ} (hb : 0 < b) (hm : m ≤ 0) : a < m.tdiv b ↔ a * b < m := by
  have hneg := @tdiv_lt_iff (-a) b (-m) hb (Int.neg_nonneg_of_nonpos hm)
  rw [Int.neg_tdiv, neg_lt_neg_iff, neg_mul, neg_lt_neg_iff] at hneg
  exact hneg

theorem isMultiplyOverflow_iff (a b : BitVec 64) :
    isMultiplyOverflow a b = true ↔
      (0 < a.toInt ∧ 0 < b.toInt ∧ (2 ^ 63 - 1 : ℤ).tdiv b.toInt < a.toInt) ∨
      (a.toInt < 0 ∧ b.toInt < 0 ∧ a.toInt < (2 ^ 63 - 1 : ℤ).tdiv b.toInt) ∨
      (0 < a.toInt ∧ b.toInt < 0 ∧ b.toInt < (-2 ^ 63 : ℤ).tdiv a.toInt) ∨
      (a.toInt < 0 ∧ 0 < b.toInt ∧ a.toInt < (-2 ^ 63 : ℤ).tdiv b.toInt) := by
  have hzero : (0#64).toInt = 0 := rfl
  have hmax : ∀ c : BitVec 64,
      ((BitVec.intMax 64).sdiv c).toInt = (2 ^ 63 - 1 : ℤ).tdiv c.toInt := by
    intro c
    rw [BitVec.toInt_sdiv_of_ne_or_ne _ _ (.inl (by decide))]
    rfl
  -- the quotient of the minimum by -1 is not taken
  have hmin : ∀ c : BitVec 64, 0 < c.toInt →
      ((BitVec.intMin 64).sdiv c).toInt = (-2 ^ 63 : ℤ).tdiv c.toInt := by
    intro c hc
    have hne : c ≠ -1#64 := by
      rintro rfl
      exact absurd hc (by decide)
    rw [BitVec.toInt_sdiv_of_ne_or_ne _ _ (.inr hne)]
    rfl
  unfold isMultiplyOverflow
  simp only [Bool.if_true_left, Bool.or_eq_true, Bool.and_eq_true, decide_eq_true_iff,
    BitVec.slt_iff_toInt_lt, hmax, hzero, and_assoc, Bool.false_eq_true, or_false]
  refine or_congr Iff.rfl (or_congr Iff.rfl (or_congr ?_ ?_))
  · exact and_congr_right fun ha => and_congr_right fun _ => by rw [hmin a ha]
  · exact and_congr_right fun _ => and_congr_right fun hb => by rw [hmin b hb]

/-- The four cases of signs; a product with a factor zero fits. -/
theorem isMultiplyOverflow_eq (a b : BitVec 64) :
    isMultiplyOverflow a b = decide (¬Fits 64 (a.toInt * b.toInt)) := by
  have hfits : Fits 64 (a.toInt * b.toInt) ↔
      -2 ^ 63 ≤ a.toInt * b.toInt ∧ a.toInt * b.toInt < 2 ^ 63 := Iff.rfl
  rw [Bool.eq_iff_iff, decide_eq_true_iff, isMultiplyOverflow_iff, hfits, not_and_or]
  generalize a.toInt = a
  generalize b.toInt = b
  rcases lt_trichotomy a 0 with ha | rfl | ha
  · rcases lt_trichotomy b 0 with hb | rfl | hb
    · have hdiv := @tdiv_lt_iff (-a) (-b) (2 ^ 63 - 1) (by omega) (by norm_num)
      have hpos := mul_pos_of_neg_of_neg ha hb
      rw [Int.tdiv_neg, neg_mul_neg] at hdiv
      omega
    · omega
    · have hdiv := @lt_tdiv_iff a b (-2 ^ 63) hb (by norm_num)
      have hneg := mul_neg_of_neg_of_pos ha hb
      omega
  · omega
  · rcases lt_trichotomy b 0 with hb | rfl | hb
    · have hdiv := @lt_tdiv_iff b a (-2 ^ 63) ha (by norm_num)
      have hneg := mul_neg_of_pos_of_neg ha hb
      rw [mul_comm] at hdiv
      omega
    · omega
    · have hdiv := @tdiv_lt_iff a b (2 ^ 63 - 1) hb (by norm_num)
      have hpos := mul_pos ha hb
      omega

theorem multiplyInt64_eq (x y : BitVec 64) (checkOverflow : Bool) :
    multiplyInt64 x y checkOverflow =
      if checkOverflow ∧ ¬Fits 64 (x.toInt * y.toInt) then none else some (x * y) := by
  unfold multiplyInt64
  rw [isMultiplyOverflow_eq]
  simp

end

variable {T : NumericType}

/-- A product, with or without a check. -/
theorem multiplyValues_eq (x y : T.Value) (checkOverflow : Bool) :
    multiplyValues T x y checkOverflow =
      if checkOverflow ∧ ¬Fits T.bits (x.toInt * y.toInt) then none else some (x * y) := by
  cases T with
  | int8 => exact multiplyPromoted_eq (by decide) (by decide) x y checkOverflow
  | int16 => exact multiplyPromoted_eq (by decide) (by decide) x y checkOverflow
  | int32 => exact multiplyInt32_eq x y checkOverflow
  | int64 => exact multiplyInt64_eq x y checkOverflow

theorem times_eq (x y : T.Value) : times T x y = x * y := by
  cases T with
  | int8 => exact truncate_mul_signExtend (by decide) x y
  | int16 => exact truncate_mul_signExtend (by decide) x y
  | int32 => rfl
  | int64 => rfl

theorem NumericType.bits_pos (T : NumericType) : 0 < T.bits := by
  cases T <;> decide

/-- The product is the exact one modulo `2 ^ w`. -/
theorem toInt_mul (x y : T.Value) : (x * y).toInt = (x.toInt * y.toInt).bmod (2 ^ T.bits) :=
  BitVec.toInt_mul x y

theorem toInt_mul_of_fits {x y : T.Value} (h : Fits T.bits (x.toInt * y.toInt)) :
    (x * y).toInt = x.toInt * y.toInt := (fits_mul_iff T.bits_pos x y).1 h

end SparkRapids.Multiply
