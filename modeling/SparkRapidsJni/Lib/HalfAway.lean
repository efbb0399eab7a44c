import Mathlib

/-!
# Rounding half away from zero

`roundHalfAway x` is the integer nearest to a rational number, the one further from zero if two are
as near. A quotient of integers is rounded with the truncated quotient and the remainder
(`roundHalfAway_div`), and a division in two steps may drop the remainder of the first one if the
second divisor is even (`roundHalfAway_tdiv`).
-/

namespace SparkRapids

/-- The nearest integer, ties away from zero. -/
def roundHalfAway (x : ℚ) : ℤ := if 0 ≤ x then ⌊x + 1 / 2⌋ else -⌊-x + 1 / 2⌋

/-- What is added to the truncated quotient to round it. -/
def roundInc (n d : ℤ) : ℤ :=
  if |d| ≤ 2 * |n.tmod d| then (if n < 0 ↔ d < 0 then 1 else -1) else 0

variable {n d m : ℤ} {x : ℚ}

theorem roundHalfAway_of_nonneg (h : 0 ≤ x) : roundHalfAway x = ⌊x + 1 / 2⌋ := if_pos h

/-- Rounding commutes with the sign. -/
theorem roundHalfAway_neg (x : ℚ) : roundHalfAway (-x) = -roundHalfAway x := by
  unfold roundHalfAway
  rcases lt_trichotomy x 0 with h | h | h
  · rw [if_pos (by linarith), if_neg (by linarith), neg_neg]
  · subst h
    norm_num
  · rw [if_neg (by linarith), if_pos (by linarith), neg_neg]

theorem roundHalfAway_intCast (z : ℤ) : roundHalfAway z = z := by
  have hpos : ∀ z : ℤ, 0 ≤ z → roundHalfAway z = z := by
    intro z hz
    rw [roundHalfAway_of_nonneg (by exact_mod_cast hz), Int.floor_eq_iff]
    constructor <;> norm_num
  rcases le_total 0 z with hz | hz
  · exact hpos z hz
  · have hneg := hpos (-z) (by omega)
    rw [Int.cast_neg, roundHalfAway_neg] at hneg
    omega

theorem roundHalfAway_nonneg (h : 0 ≤ x) : 0 ≤ roundHalfAway x := by
  rw [roundHalfAway_of_nonneg h]
  exact Int.floor_nonneg.2 (by linarith)

/-- A number that is at least an integer rounds to at least it. -/
theorem le_roundHalfAway {z : ℤ} (hz : 0 ≤ z) (h : (z : ℚ) ≤ x) : z ≤ roundHalfAway x := by
  have hx : 0 ≤ x := le_trans (by exact_mod_cast hz) h
  rw [roundHalfAway_of_nonneg hx]
  exact Int.le_floor.2 (by linarith)

theorem abs_roundHalfAway (x : ℚ) : |roundHalfAway x| = roundHalfAway |x| := by
  rcases le_total 0 x with h | h
  · rw [abs_of_nonneg h, abs_of_nonneg (roundHalfAway_nonneg h)]
  · have hneg : 0 ≤ roundHalfAway (-x) := roundHalfAway_nonneg (by linarith)
    rw [abs_of_nonpos h, roundHalfAway_neg, abs_of_nonpos]
    rw [roundHalfAway_neg] at hneg
    omega

theorem abs_roundHalfAway_le {z : ℤ} (h : |x| ≤ z) : |roundHalfAway x| ≤ z := by
  have hlt : |x| + 1 / 2 < (z + 1 : ℤ) := by
    push_cast
    linarith
  rw [abs_roundHalfAway, roundHalfAway_of_nonneg (abs_nonneg x)]
  exact Int.lt_add_one_iff.1 (Int.floor_lt.2 hlt)

theorem le_abs_roundHalfAway {z : ℤ} (hz : 0 ≤ z) (h : z ≤ |x|) : z ≤ |roundHalfAway x| := by
  rw [abs_roundHalfAway]
  exact le_roundHalfAway hz h

/-! ### Quotients -/

theorem tdiv_eq_natAbs (n d : ℤ) : n.tdiv d =
    if n < 0 ↔ d < 0 then ((n.natAbs / d.natAbs : ℕ) : ℤ) else -((n.natAbs / d.natAbs : ℕ) : ℤ) := by
  have hnat : ∀ m k : ℕ, (m : ℤ).tdiv k = ((m / k : ℕ) : ℤ) := fun m k => rfl
  have hneg : ∀ z : ℤ, z < 0 → z = -(z.natAbs : ℤ) := fun z hz => by omega
  have hpos : ∀ z : ℤ, 0 ≤ z → z = (z.natAbs : ℤ) := fun z hz => by omega
  rcases lt_or_ge n 0 with hn | hn <;> rcases lt_or_ge d 0 with hd | hd
  · rw [if_pos (iff_of_true hn hd)]
    conv_lhs => rw [hneg n hn, hneg d hd, Int.neg_tdiv, Int.tdiv_neg, neg_neg, hnat]
  · rw [if_neg (by omega)]
    conv_lhs => rw [hneg n hn, hpos d hd, Int.neg_tdiv, hnat]
  · rw [if_neg (by omega)]
    conv_lhs => rw [hpos n hn, hneg d hd, Int.tdiv_neg, hnat]
  · rw [if_pos (by omega)]
    conv_lhs => rw [hpos n hn, hpos d hd, hnat]

theorem tmod_eq_natAbs (n d : ℤ) : n.tmod d =
    if n < 0 then -((n.natAbs % d.natAbs : ℕ) : ℤ) else ((n.natAbs % d.natAbs : ℕ) : ℤ) := by
  have hnat : ∀ m k : ℕ, (m : ℤ).tmod k = ((m % k : ℕ) : ℤ) := fun m k => rfl
  have habs : n.tmod d = n.tmod d.natAbs := by
    rcases Int.natAbs_eq d with hd | hd
    · rw [← hd]
    · conv_lhs => rw [hd, Int.tmod_neg]
  rw [habs]
  split_ifs with h
  · have hn : n = -(n.natAbs : ℤ) := by omega
    conv_lhs => rw [hn, Int.neg_tmod, hnat]
  · have hn : n = (n.natAbs : ℤ) := by omega
    conv_lhs => rw [hn, hnat]

theorem roundHalfAway_div_nonneg (hn : 0 ≤ n) (hd : 0 < d) :
    roundHalfAway (n / d) = n / d + if d ≤ 2 * (n % d) then 1 else 0 := by
  have hdq : (0 : ℚ) < d := by exact_mod_cast hd
  have hx : (0 : ℚ) ≤ n / d := div_nonneg (by exact_mod_cast hn) hdq.le
  have hdiv : d * (n / d) + n % d = n := Int.mul_ediv_add_emod n d
  have hmod := Int.emod_lt_of_pos n hd
  have hmod' := Int.emod_nonneg n hd.ne'
  -- the quotient as a whole part and a proper fraction
  have hq : (n : ℚ) / d = (n / d : ℤ) + ((n % d : ℤ) : ℚ) / d := by
    rw [eq_comm, ← sub_eq_zero]
    field_simp
    have h : (d : ℚ) * (n / d : ℤ) + (n % d : ℤ) = n := by exact_mod_cast hdiv
    linarith
  rw [roundHalfAway_of_nonneg hx, hq, Int.floor_eq_iff]
  split_ifs with h
  · have hq : (d : ℚ) ≤ 2 * (n % d : ℤ) := by exact_mod_cast h
    have hq' : ((n % d : ℤ) : ℚ) < d := by exact_mod_cast hmod
    have hlow : 1 / 2 ≤ ((n % d : ℤ) : ℚ) / d := by
      rw [le_div_iff₀ hdq]
      linarith
    have hhigh : ((n % d : ℤ) : ℚ) / d < 1 := by
      rw [div_lt_one hdq]
      exact hq'
    push_cast
    constructor <;> linarith
  · have hq : 2 * ((n % d : ℤ) : ℚ) < d := by exact_mod_cast not_le.1 h
    have hlow : 0 ≤ ((n % d : ℤ) : ℚ) / d := div_nonneg (by exact_mod_cast hmod') hdq.le
    have hhigh : ((n % d : ℤ) : ℚ) / d < 1 / 2 := by
      rw [div_lt_iff₀ hdq]
      linarith
    push_cast
    constructor <;> linarith

/-- A quotient is rounded with the truncated quotient and its remainder. -/
theorem roundHalfAway_div (hd : d ≠ 0) : roundHalfAway (n / d) = n.tdiv d + roundInc n d := by
  -- the absolute values first, and then the signs
  have habs := roundHalfAway_div_nonneg (abs_nonneg n) (abs_pos.2 hd)
  have hmod : |n.tmod d| = |n| % |d| := by
    rw [Int.abs_eq_natAbs, Int.natAbs_tmod, Int.abs_eq_natAbs, Int.abs_eq_natAbs]
    rfl
  unfold roundInc
  rw [hmod]
  rcases le_or_gt 0 n with hn | hn <;> rcases lt_or_gt_of_ne hd with hd' | hd'
  · rw [abs_of_nonneg hn, abs_of_neg hd'] at habs ⊢
    have hneg : (n : ℚ) / d = -((n : ℚ) / (-d : ℤ)) := by
      push_cast
      rw [div_neg, neg_neg]
    have hiff : ¬(n < 0 ↔ d < 0) := fun h => absurd (h.2 hd') (not_lt.2 hn)
    have htdiv : n.tdiv d = -(n / -d) := by
      rw [← Int.tdiv_eq_ediv_of_nonneg hn, Int.tdiv_neg, neg_neg]
    rw [hneg, roundHalfAway_neg, habs, htdiv, if_neg hiff]
    split_ifs <;> omega
  · rw [abs_of_nonneg hn, abs_of_pos hd'] at habs ⊢
    have hiff : n < 0 ↔ d < 0 := ⟨fun h => absurd h (not_lt.2 hn), fun h => absurd h (by omega)⟩
    rw [habs, Int.tdiv_eq_ediv_of_nonneg hn, if_pos hiff]
  · rw [abs_of_neg hn, abs_of_neg hd'] at habs ⊢
    have hneg : (n : ℚ) / d = ((-n : ℤ) : ℚ) / (-d : ℤ) := by
      push_cast
      rw [neg_div_neg_eq]
    have htdiv : n.tdiv d = -n / -d := by
      rw [← Int.tdiv_eq_ediv_of_nonneg (by omega : 0 ≤ -n), Int.neg_tdiv, Int.tdiv_neg, neg_neg]
    rw [hneg, habs, htdiv, if_pos (iff_of_true hn hd')]
  · rw [abs_of_neg hn, abs_of_pos hd'] at habs ⊢
    have hneg : (n : ℚ) / d = -(((-n : ℤ) : ℚ) / d) := by
      push_cast
      rw [neg_div, neg_neg]
    have hiff : ¬(n < 0 ↔ d < 0) := fun h => absurd (h.1 hn) (by omega)
    have htdiv : n.tdiv d = -(-n / d) := by
      rw [← Int.tdiv_eq_ediv_of_nonneg (by omega : 0 ≤ -n), Int.neg_tdiv, neg_neg]
    rw [hneg, roundHalfAway_neg, habs, htdiv, if_neg hiff]
    split_ifs <;> omega

/-- The increment goes away from zero. -/
theorem abs_tdiv_add_roundInc (h : |d| ≤ 2 * |n.tmod d|) :
    |n.tdiv d + roundInc n d| = |n.tdiv d| + 1 := by
  have hdiv := tdiv_eq_natAbs n d
  have hq := Int.natCast_nonneg (n.natAbs / d.natAbs)
  unfold roundInc
  rw [if_pos h, hdiv]
  split_ifs
  · rw [abs_of_nonneg (by omega), abs_of_nonneg hq]
  · rw [abs_of_nonpos (by omega), abs_neg, abs_of_nonneg hq]
    omega

/-- Before an even divisor the remainder of another division may be dropped: half of it is an
integer, and so the quotient is on the same side of it. -/
theorem roundHalfAway_tdiv (hd : d ≠ 0) (hm : 0 < m) (heven : 2 ∣ m) :
    roundHalfAway ((n.tdiv d : ℤ) / m) = roundHalfAway (n / (d * m)) := by
  have hmq : (0 : ℚ) < m := by exact_mod_cast hm
  obtain ⟨h, rfl⟩ := heven
  -- for numbers that are not negative, both are the same integer quotient
  have hpos : ∀ n d : ℤ, 0 ≤ n → 0 < d →
      roundHalfAway ((n / d : ℤ) / (2 * h : ℤ)) = roundHalfAway (n / (d * (2 * h : ℤ))) := by
    intro n d hn hd
    have hdq : (0 : ℚ) < d := by exact_mod_cast hd
    have hq : (0 : ℚ) ≤ (n / d : ℤ) / (2 * h : ℤ) :=
      div_nonneg (by exact_mod_cast Int.ediv_nonneg hn hd.le) hmq.le
    have hq' : (0 : ℚ) ≤ n / (d * (2 * h : ℤ)) :=
      div_nonneg (by exact_mod_cast hn) (mul_pos hdq hmq).le
    have hhalf : ∀ y : ℚ, y / (2 * h : ℤ) + 1 / 2 = (y + h) / (2 * h : ℤ) := by
      intro y
      have hhq : (h : ℚ) ≠ 0 := by
        have : h ≠ 0 := by omega
        exact_mod_cast this
      push_cast
      field_simp
    have hfloor : ∀ y : ℚ, ⌊(y + h) / (2 * h : ℤ)⌋ = (⌊y⌋ + h) / (2 * h) := by
      intro y
      have hdiv := Int.floor_div_natCast (y + h) (2 * h).toNat
      have hcast : (((2 * h).toNat : ℕ) : ℚ) = ((2 * h : ℤ) : ℚ) := by
        rw [← Int.cast_natCast, Int.toNat_of_nonneg hm.le]
      have hcastZ : (((2 * h).toNat : ℕ) : ℤ) = 2 * h := Int.toNat_of_nonneg hm.le
      rw [hcast, hcastZ, Int.floor_add_intCast] at hdiv
      exact hdiv
    have hnd : (n : ℚ) / (d * (2 * h : ℤ)) = (n / d) / (2 * h : ℤ) := by rw [div_mul_eq_div_div]
    have hfl : ⌊(n : ℚ) / d⌋ = n / d := by
      have hcast : ((d.toNat : ℕ) : ℚ) = d := by
        rw [← Int.cast_natCast, Int.toNat_of_nonneg hd.le]
      have h := Rat.floor_intCast_div_natCast n d.toNat
      rwa [hcast, Int.toNat_of_nonneg hd.le] at h
    rw [roundHalfAway_of_nonneg hq, roundHalfAway_of_nonneg hq', hnd, hhalf, hhalf, hfloor, hfloor,
      Int.floor_intCast, hfl]
  -- a sign on either side is the same sign on the other
  have hsigns : ∀ n d : ℤ, 0 ≤ n → d ≠ 0 →
      roundHalfAway ((n.tdiv d : ℤ) / (2 * h : ℤ)) = roundHalfAway (n / (d * (2 * h : ℤ))) := by
    intro n d hn hd
    rcases lt_or_gt_of_ne hd with hd' | hd'
    · have hneg := hpos n (-d) hn (by omega)
      have htdiv : n.tdiv d = -(n / -d) := by
        rw [← Int.tdiv_eq_ediv_of_nonneg hn, Int.tdiv_neg, neg_neg]
      rw [htdiv, Int.cast_neg, neg_div, roundHalfAway_neg, hneg, ← roundHalfAway_neg]
      congr 1
      push_cast
      rw [neg_mul, div_neg, neg_neg]
    · rw [Int.tdiv_eq_ediv_of_nonneg hn]
      exact hpos n d hn hd'
  rcases le_total 0 n with hn | hn
  · exact hsigns n d hn hd
  · have hneg := hsigns (-n) d (by omega) hd
    rw [Int.neg_tdiv, Int.cast_neg, neg_div, roundHalfAway_neg, Int.cast_neg, neg_div,
      roundHalfAway_neg] at hneg
    exact neg_injective hneg

/-! ### Division in two steps -/

/-- Long division: the remainder is multiplied up and divided again. -/
theorem tdiv_mul_step (n : ℤ) (hd : d ≠ 0) (hm : 0 < m) :
    (n * m).tdiv d = n.tdiv d * m + (n.tmod d * m).tdiv d := by
  have hpos : ∀ n d : ℤ, 0 ≤ n → 0 < d →
      (n * m).tdiv d = n.tdiv d * m + (n.tmod d * m).tdiv d := by
    intro n d hn hd
    have hmod : 0 ≤ n % d * m := mul_nonneg (Int.emod_nonneg n hd.ne') hm.le
    have hsplit : n * m = n % d * m + d * (n / d * m) := by
      conv_lhs => rw [← Int.mul_ediv_add_emod n d]
      ring
    rw [Int.tmod_eq_emod_of_nonneg hn, Int.tdiv_eq_ediv_of_nonneg hn,
      Int.tdiv_eq_ediv_of_nonneg (mul_nonneg hn hm.le), Int.tdiv_eq_ediv_of_nonneg hmod]
    conv_lhs => rw [hsplit, Int.add_mul_ediv_left _ _ hd.ne']
    ring
  -- a sign in front of either number is a sign in front of both sides
  have hsigns : ∀ n d : ℤ, 0 ≤ n → d ≠ 0 →
      (n * m).tdiv d = n.tdiv d * m + (n.tmod d * m).tdiv d := by
    intro n d hn hd
    rcases lt_or_gt_of_ne hd with hd' | hd'
    · have h := hpos n (-d) hn (by omega)
      rw [Int.tdiv_neg, Int.tdiv_neg, Int.tmod_neg, Int.tdiv_neg] at h
      linarith
    · exact hpos n d hn hd'
  rcases le_total 0 n with hn | hn
  · exact hsigns n d hn hd
  · have h := hsigns (-n) d (by omega) hd
    rw [neg_mul, Int.neg_tdiv, Int.neg_tdiv, Int.neg_tmod, neg_mul, neg_mul, Int.neg_tdiv] at h
    linarith

theorem tmod_mul_step (n : ℤ) (hd : d ≠ 0) (hm : 0 < m) :
    (n * m).tmod d = (n.tmod d * m).tmod d := by
  have hdiv := tdiv_mul_step n hd hm
  have h1 := Int.tmod_def (n * m) d
  have h2 := Int.tmod_def (n.tmod d * m) d
  have h3 := Int.tmod_def n d
  rw [h1, h2, hdiv, h3]
  ring

/-- Both steps round alike: the remainder has the sign of the dividend. -/
theorem roundInc_mul_step (n : ℤ) (hd : d ≠ 0) (hm : 0 < m) :
    roundInc (n * m) d = roundInc (n.tmod d * m) d := by
  have hsign : ∀ z : ℤ, z * m < 0 ↔ z < 0 := by
    intro z
    constructor
    · intro h
      by_contra hz
      exact absurd (mul_nonneg (not_lt.1 hz) hm.le) (not_le.2 h)
    · exact fun h => mul_neg_of_neg_of_pos h hm
  unfold roundInc
  rw [tmod_mul_step n hd hm]
  simp only [hsign]
  rcases eq_or_ne (n.tmod d) 0 with hzero | hne
  · -- nothing is rounded
    have habs : ¬|d| ≤ 2 * |(n.tmod d * m).tmod d| := by
      rw [hzero, zero_mul, Int.zero_tmod, abs_zero, mul_zero]
      exact not_le.2 (abs_pos.2 hd)
    rw [if_neg habs, if_neg habs]
  · have hneg : n.tmod d < 0 ↔ n < 0 := by
      have hcond := tmod_eq_natAbs n d
      split_ifs at hcond <;> omega
    simp only [hneg]

end SparkRapids
