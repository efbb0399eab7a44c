import Mathlib

/-!
# Division of rational numbers that truncates

`truncate x` is the integer part of a rational number, and `truncRem x d` what is left of `x` when the
integer part of `x / d` is taken off in multiples of `d`: it has the sign of `x` and is less than `d`
in absolute value. At integers both are `Int.tdiv` and `Int.tmod`.
-/

namespace SparkRapids

/-- The integer part, towards zero. -/
def truncate (x : ℚ) : ℤ := if 0 ≤ x then ⌊x⌋ else -⌊-x⌋

/-- The remainder of the division by `d` that truncates. -/
def truncRem (x d : ℚ) : ℚ := x - truncate (x / d) * d

variable {x d : ℚ} {n m : ℤ}

theorem truncate_of_nonneg (h : 0 ≤ x) : truncate x = ⌊x⌋ := if_pos h

/-- The sign is put in front of the integer part. -/
theorem truncate_neg (x : ℚ) : truncate (-x) = -truncate x := by
  unfold truncate
  rcases lt_trichotomy x 0 with h | rfl | h
  · rw [if_pos (by linarith), if_neg (by linarith), neg_neg]
  · simp
  · rw [if_neg (by linarith), if_pos h.le, neg_neg]

theorem floor_div (n : ℤ) (hm : 0 < m) : ⌊(n : ℚ) / m⌋ = n / m := by
  have hcast : ((m.toNat : ℕ) : ℚ) = m := by
    rw [← Int.cast_natCast, Int.toNat_of_nonneg hm.le]
  have h := Rat.floor_intCast_div_natCast n m.toNat
  rwa [hcast, Int.toNat_of_nonneg hm.le] at h

theorem truncate_div_nonneg (hn : 0 ≤ n) (hm : 0 < m) : truncate (n / m) = n / m := by
  have hq : (0 : ℚ) ≤ n / m := div_nonneg (by exact_mod_cast hn) (by exact_mod_cast hm.le)
  rw [truncate_of_nonneg hq, floor_div n hm]

/-- A quotient of integers is truncated as in most programming languages. -/
theorem truncate_div (n : ℤ) (hm : m ≠ 0) : truncate (n / m) = n.tdiv m := by
  -- a sign in front of either integer is one in front of both sides
  have hsigns : ∀ n m : ℤ, 0 ≤ n → m ≠ 0 → truncate (n / m) = n.tdiv m := by
    intro n m hn hm
    rcases lt_or_gt_of_ne hm with hm' | hm'
    · have h := truncate_div_nonneg hn (by omega : 0 < -m)
      rw [Int.cast_neg, div_neg, truncate_neg] at h
      rw [← Int.tdiv_eq_ediv_of_nonneg hn, Int.tdiv_neg] at h
      exact neg_injective h
    · rw [Int.tdiv_eq_ediv_of_nonneg hn]
      exact truncate_div_nonneg hn hm'
  rcases le_total 0 n with hn | hn
  · exact hsigns n m hn hm
  · have h := hsigns (-n) m (by omega) hm
    rw [Int.cast_neg, neg_div, truncate_neg, Int.neg_tdiv] at h
    exact neg_injective h

/-- The quotient of a quotient drops both fractions at once. -/
theorem tdiv_tdiv {d : ℤ} (n : ℤ) (hd : d ≠ 0) :
    (n.tdiv d).tdiv m = n.tdiv (d * m) := by
  have hsigns : ∀ n d : ℤ, 0 ≤ n → d ≠ 0 → (n.tdiv d).tdiv m = n.tdiv (d * m) := by
    intro n d hn hd
    have hpos : ∀ d : ℤ, 0 < d → (n.tdiv d).tdiv m = n.tdiv (d * m) := by
      intro d hd
      rw [Int.tdiv_eq_ediv_of_nonneg hn, Int.tdiv_eq_ediv_of_nonneg (Int.ediv_nonneg hn hd.le),
        Int.tdiv_eq_ediv_of_nonneg hn, Int.ediv_ediv_of_nonneg hd.le]
    rcases lt_or_gt_of_ne hd with hd' | hd'
    · have h := hpos (-d) (by omega)
      rw [Int.tdiv_neg, Int.neg_tdiv, neg_mul, Int.tdiv_neg] at h
      exact neg_injective h
    · exact hpos d hd'
  rcases le_total 0 n with hn | hn
  · exact hsigns n d hn hd
  · have h := hsigns (-n) d (by omega) hd
    rw [Int.neg_tdiv, Int.neg_tdiv, Int.neg_tdiv] at h
    exact neg_injective h

/-! ### Remainders -/

theorem truncRem_neg (x d : ℚ) : truncRem (-x) d = -truncRem x d := by
  unfold truncRem
  rw [neg_div, truncate_neg]
  push_cast
  ring

/-- The sign of the divisor does not matter. -/
theorem truncRem_neg_right (x d : ℚ) : truncRem x (-d) = truncRem x d := by
  unfold truncRem
  rw [div_neg, truncate_neg]
  push_cast
  ring

theorem truncRem_abs (x d : ℚ) : truncRem x |d| = truncRem x d := by
  rcases abs_choice d with h | h
  · rw [h]
  · rw [h, truncRem_neg_right]

theorem truncRem_of_pos (hx : 0 ≤ x) (hd : 0 < d) : 0 ≤ truncRem x d ∧ truncRem x d < d := by
  have hq : 0 ≤ x / d := div_nonneg hx hd.le
  have hle := Int.floor_le (x / d)
  have hlt := Int.lt_floor_add_one (x / d)
  have hx' : x = x / d * d := (div_mul_cancel₀ x hd.ne').symm
  unfold truncRem
  rw [truncate_of_nonneg hq]
  constructor
  · have h := mul_le_mul_of_nonneg_right hle hd.le
    linarith
  · have h := mul_lt_mul_of_pos_right hlt hd
    linarith

theorem truncRem_nonneg (hx : 0 ≤ x) (hd : d ≠ 0) : 0 ≤ truncRem x d := by
  rw [← truncRem_abs]
  exact (truncRem_of_pos hx (abs_pos.2 hd)).1

/-- The remainder has the sign of the dividend. -/
theorem truncRem_mul_nonneg (x : ℚ) (hd : d ≠ 0) : 0 ≤ truncRem x d * x := by
  rcases le_total 0 x with hx | hx
  · exact mul_nonneg (truncRem_nonneg hx hd) hx
  · have h := truncRem_nonneg (neg_nonneg.2 hx) hd
    rw [truncRem_neg] at h
    exact mul_nonneg_of_nonpos_of_nonpos (neg_nonneg.1 h) hx

theorem abs_truncRem_lt (x : ℚ) (hd : d ≠ 0) : |truncRem x d| < |d| := by
  have hpos : ∀ x : ℚ, 0 ≤ x → |truncRem x d| < |d| := by
    intro x hx
    rw [abs_of_nonneg (truncRem_nonneg hx hd), ← truncRem_abs]
    exact (truncRem_of_pos hx (abs_pos.2 hd)).2
  rcases le_total 0 x with hx | hx
  · exact hpos x hx
  · have h := hpos (-x) (neg_nonneg.2 hx)
    rwa [truncRem_neg, abs_neg] at h

/-! ### Rounding down with a division that truncates -/

section Floor

variable {z n : ℤ}

/-- The dividend is moved before a negative number is divided. -/
theorem sub_tdiv_eq_ediv (hn : 0 < n) (hz : z < 0) : (z - (n - 1)).tdiv n = z / n := by
  have hneg : (z - (n - 1)).tdiv n = -(n - 1 - z).tdiv n := by
    rw [← Int.neg_tdiv, neg_sub]
  have hdiv := Int.mul_ediv_add_emod z n
  have hpos := Int.emod_nonneg z hn.ne'
  have hlt := Int.emod_lt_of_pos z hn
  have hsum : n - 1 - z = n - 1 - z % n + n * -(z / n) := by linarith
  rw [hneg, Int.tdiv_eq_ediv_of_nonneg (by omega), hsum, Int.add_mul_ediv_left _ _ hn.ne',
    Int.ediv_eq_zero_of_lt (by omega) (by omega), zero_add, neg_neg]

/-- The divisor is added to a remainder that may be negative. -/
theorem tmod_add_tmod (hn : 0 < n) (z : ℤ) : (z.tmod n + n).tmod n = z % n := by
  have hgt := Int.lt_tmod_of_pos z hn
  rw [Int.tmod_eq_emod_of_nonneg (by omega), Int.add_emod_right, Int.tmod_eq_emod, Int.sub_emod]
  split_ifs with h
  · simp
  · rw [Int.natCast_natAbs, abs_of_pos hn]
    simp

end Floor

end SparkRapids
