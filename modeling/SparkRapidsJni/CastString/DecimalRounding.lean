import SparkRapidsJni.CastString.StringToDecimal

/-!
# `cast_string.cu`: the kernel of decimals on digits

What `string_to_decimal_kernel` gives for digits, a place of the point and a scale: nothing if there are too many
digits before the point (`Setting.tooLarge`), zero if none is kept (`Setting.tiny`), all of them with zeros behind
(`Setting.whole`), or those that are kept, rounded with the next one (`Setting.rounds_down`, `Setting.rounds_up`,
`Setting.rounds_carried`). `DecimalText.decimal` is what it should be for a literal, with its value in the same
cases.
-/

namespace SparkRapids.CastString

open Ascii MachineInt Numerals March

/-! ### The kernel on digits -/

/-- The kernel from the first digit on, without the point between the digits. -/
def fromDigits (T : IntType) (positive : Bool) (p scale : ℕ) (ds tail : List Byte) (location : Int) :
    Option Int :=
  (if int32 (location + scale) ≥ 0 then
      (start location).run T positive p (int32 (location + scale)) false (ds ++ tail)
    else some (start location)).bind
      (finish T positive p (-scale) (min ds.length location.toNat - leadingZeros (ds.map digit)))

/-- A type that has the values of a precision, and digits that end with the row or in front of an exponent,
where the place of the point does not wrap around. -/
structure Setting (T : IntType) (p scale : ℕ) (ds tail : List Byte) (loc : Int) : Prop where
  signed : T.signed = true
  pos : 0 < p
  le : p ≤ 38
  scale_le : scale ≤ p
  fits (positive : Bool) : T.Fits (signedNat positive (10 ^ p))
  digits : IsDigits ds
  tail : ∀ c ∈ tail.head?, c = chr 'e' ∨ c = chr 'E'
  location : -2147483648 ≤ loc ∧ loc < 2147483647
  length : ds.length < 2147483648

section

variable {T : IntType} {pos : Bool} {p scale : ℕ} {ds tail kept rest : List Byte} {loc : Int} {c : Byte}

theorem not_isDigit_of_marker (htail : ∀ c ∈ tail.head?, c = chr 'e' ∨ c = chr 'E') :
    ∀ c ∈ tail.head?, isDigit c = false ∧ c ≠ chr '.' := by
  intro c hc
  obtain rfl | rfl := htail c hc
  · exact ⟨by decide, by decide⟩
  · exact ⟨by decide, by decide⟩

theorem decimalFrom_eq (hdigits : IsDigits ds) {whole : List Byte} {frac : Option (List Byte)}
    (hds : ds = whole ++ frac.getD []) (htail : ∀ c ∈ tail.head?, c = chr 'e' ∨ c = chr 'E')
    (loc : Int) : decimalFrom T p (-scale) (whole ++ pointText frac ++ tail) pos loc =
      fromDigits T pos p scale ds tail loc := by
  have hwhole : IsDigits whole := fun c hc => hdigits c (by rw [hds]; exact List.mem_append_left _ hc)
  have hcount : countSignificantDigits (whole ++ pointText frac ++ tail) loc =
      min ds.length loc.toNat - leadingZeros (ds.map digit) := by
    have hpoint : countSignificantDigits (whole ++ pointText frac ++ tail) loc =
        countSignificantDigits (ds ++ tail) loc := by
      rw [hds]
      cases frac with
      | none => rfl
      | some fs =>
        rw [List.append_assoc, List.append_assoc]
        exact countSignificantDigitsLoop_point hwhole (fs ++ tail) 0 0
    rw [hpoint]
    unfold countSignificantDigits
    rw [countSignificantDigitsLoop_eq hdigits htail, if_pos rfl, Nat.zero_add, Nat.cast_zero, sub_zero]
  have hrun (lastDigit : Int) : (start loc).run T pos p lastDigit true
      (whole ++ pointText frac ++ tail) = (start loc).run T pos p lastDigit false (ds ++ tail) := by
    rw [run_first rfl, hds]
    cases frac with
    | none => rfl
    | some fs =>
      rw [List.append_assoc, List.append_assoc]
      exact run_point hwhole (fs ++ tail)
  unfold decimalFrom fromDigits
  dsimp only
  rw [hcount, hrun, sub_neg_eq_add]

theorem leadingZeros_le_length (ds : List Byte) : leadingZeros (ds.map digit) ≤ ds.length := by
  have hle := leadingZeros_le (ds.map digit)
  rwa [List.length_map] at hle

namespace Setting

variable (h : Setting T p scale ds tail loc)

include h

theorem lt_ten : ∀ d ∈ ds.map digit, d < 10 := by
  intro d hd
  obtain ⟨c, hc, rfl⟩ := List.mem_map.1 hd
  exact digit_lt (h.digits c hc)

/-- The march over the first digits. -/
theorem run_start (hds : ds = kept ++ rest) {L : Int} (hL : (kept.length : Int) ≤ L)
    (hp : kept.length ≤ p + min (leadingZeros (ds.map digit)) loc.toNat) :
    (start loc).run T pos p L false (ds ++ tail) =
      (after loc (min (leadingZeros (ds.map digit)) loc.toNat) kept.length
        (signedNat pos (readDigits 10 (kept.map digit)))).run T pos p L false (rest ++ tail) := by
  have hstart : start loc = after loc (min (leadingZeros (ds.map digit)) loc.toNat)
      ([] : List Byte).length (signedNat pos (readDigits 10 (([] : List Byte).map digit))) := by
    unfold start after
    rw [List.map_nil, readDigits_nil, signedNat_zero, List.length_nil, Nat.zero_sub,
      decide_eq_false (Nat.not_lt_zero _)]
  have hrun := @run_digits T pos p _ L loc (rest ++ tail) ds [] kept rest h.signed h.pos hds
    h.digits rfl (by simpa using hL) (by simpa using hp) (h.fits pos)
  rw [← hstart, List.nil_append, List.length_nil, Nat.zero_add, ← List.append_assoc, ← hds] at hrun
  exact hrun

/-- Too many digits before the point. -/
theorem finish_none {s : March} {g : ℕ}
    (hrange : s.decimalLocation - ((s.totalDigits : Int) - s.numPreciseDigits) < 2147483648)
    (hover : (p : Int) - scale < s.decimalLocation - ((s.totalDigits : Int) - s.numPreciseDigits)) :
    s.finish T pos p (-scale) g = none := by
  have hle := h.scale_le
  have hlead : int32 (s.decimalLocation - ((s.totalDigits : Int) - s.numPreciseDigits)) =
      s.decimalLocation - ((s.totalDigits : Int) - s.numPreciseDigits) :=
    int32_of_range (by omega) hrange
  unfold finish
  dsimp only
  rw [hlead, ← sub_eq_add_neg, if_pos hover]

/-- Where the last digit wraps around, there are too many digits before the point. -/
theorem wraps (hwrap : 2147483648 ≤ loc + scale) :
    fromDigits T pos p scale ds tail loc = none := by
  have hle := h.scale_le
  have hp := h.le
  have hlocation := h.location
  have hint : int32 (loc + scale) = loc + scale - 4294967296 := by
    have hsub : int32 (loc + scale - 4294967296) = int32 (loc + scale) :=
      Int.sub_bmod_right (loc + scale) (2 ^ 32)
    rw [← hsub, int32_of_range (by omega) (by omega)]
  unfold fromDigits
  rw [hint, if_neg (by omega)]
  refine h.finish_none ?_ ?_
  · show loc - ((0 : ℕ) - (0 : ℕ) : Int) < _
    omega
  · show _ < loc - ((0 : ℕ) - (0 : ℕ) : Int)
    omega

/-- Nothing is left of a value that is small. -/
theorem tiny (htiny : loc + scale < 0) : fromDigits T pos p scale ds tail loc = some 0 := by
  have hle := h.scale_le
  have hlocation := h.location
  have hint : int32 (loc + scale) = loc + scale := int32_of_range (by omega) (by omega)
  have hlead : int32 (loc - ((0 : ℕ) - (0 : ℕ) : Int)) = loc := by
    rw [Nat.cast_zero, sub_zero, sub_zero]
    exact int32_of_range hlocation.1 (by omega)
  unfold fromDigits
  rw [hint, if_neg (by omega)]
  show finish _ _ _ _ _ (start loc) = _
  unfold finish start
  dsimp only
  rw [hlead, if_neg (by omega), padZeros_zero h.signed]
  exact padZeros_zero h.signed _

/-- There is no result if there are too many digits before the point, however many are read. -/
theorem tooLarge (hover : (p : Int) - scale < loc - leadingZeros (ds.map digit)) :
    fromDigits T pos p scale ds tail loc = none := by
  have hscale := h.scale_le
  have hle := h.le
  have hlocation := h.location
  have hzeros := leadingZeros_le_length ds
  by_cases hwrap : 2147483648 ≤ loc + scale
  · exact h.wraps hwrap
  have hint : int32 (loc + scale) = loc + scale := int32_of_range (by omega) (by omega)
  have hm : min (leadingZeros (ds.map digit)) loc.toNat = leadingZeros (ds.map digit) := by omega
  -- as many digits as the precision has, behind the leading zeros
  obtain ⟨k, hk⟩ : ∃ k, k = min ds.length (leadingZeros (ds.map digit) + p) := ⟨_, rfl⟩
  have hkept : (ds.take k).length = k := by
    rw [List.length_take]
    omega
  have hrun := @run_start T pos p scale ds tail (ds.take k) (ds.drop k) loc h
    (List.take_append_drop k ds).symm (loc + scale) (by omega) (by omega)
  have hnone {s : March} {g : ℕ} (hs : s.decimalLocation = loc ∨ s.decimalLocation = loc + 1)
      (hcounts : (s.totalDigits : Int) - s.numPreciseDigits = leadingZeros (ds.map digit)) :
      s.finish T pos p (-scale) g = none := by
    refine h.finish_none ?_ ?_
    · rw [hcounts]
      omega
    · rw [hcounts]
      omega
  rw [hm, hkept] at hrun
  unfold fromDigits
  rw [hint, if_pos (by omega), hrun]
  cases hdrop : ds.drop k with
  | nil =>
    rw [List.nil_append, run_end (not_isDigit_of_marker h.tail)]
    refine hnone (.inl rfl) ?_
    show (k : Int) - (k - leadingZeros (ds.map digit) : ℕ) = _
    omega
  | cons c rest =>
    have hlt : k < ds.length := by
      have hlen := congrArg List.length hdrop
      rw [List.length_drop, List.length_cons] at hlen
      omega
    have hc : isDigit c = true := h.digits c (List.mem_of_mem_drop (by rw [hdrop]; exact List.mem_cons_self ..))
    rw [List.cons_append, run_round hc (.inl ?_)]
    · cases hround : round T pos (digit c) (after loc (leadingZeros (ds.map digit)) k
          (signedNat pos (readDigits 10 ((ds.take k).map digit)))) with
      | none => rfl
      | some s' =>
        obtain hs' | hs' := round_some hround
        · rw [hs']
          refine hnone (.inl rfl) ?_
          show (k : Int) - (k - leadingZeros (ds.map digit) : ℕ) = _
          omega
        · rw [hs']
          refine hnone (.inr (int32_of_range (by show _ ≤ loc + 1; omega) (by show loc + 1 < _; omega))) ?_
          show ((k + 1 : ℕ) : Int) - (k - leadingZeros (ds.map digit) + 1 : ℕ) = _
          omega
    · show ((k - leadingZeros (ds.map digit) : ℕ) : Int) + 1 > p
      omega

/-! ### Values with few digits before the point -/

section

variable (hfew : loc - leadingZeros (ds.map digit) ≤ (p : Int) - scale)

include hfew

/-- The first digits, without the zeros before them, are no more than the precision. -/
theorem readDigits_lt {k : ℕ} (hk : k ≤ ds.length) (n : ℕ) (hn : (k + n : Int) ≤ loc + scale) :
    readDigits 10 ((ds.take k).map digit) * 10 ^ n < 10 ^ p := by
  have hlt := readDigits_take_lt h.lt_ten (by rwa [List.length_map] : k ≤ (ds.map digit).length)
  rw [List.map_take]
  by_cases hzeros : leadingZeros (ds.map digit) ≤ k
  · calc readDigits 10 ((ds.map digit).take k) * 10 ^ n
        < 10 ^ (k - leadingZeros (ds.map digit)) * 10 ^ n := (Nat.mul_lt_mul_right (by positivity)).2 hlt
      _ = 10 ^ (k - leadingZeros (ds.map digit) + n) := (pow_add ..).symm
      _ ≤ 10 ^ p := Nat.pow_le_pow_right (by decide) (by omega)
  · rw [Nat.sub_eq_zero_of_le (by omega), pow_zero, Nat.lt_one_iff] at hlt
    rw [hlt, Nat.zero_mul]
    positivity

theorem readDigits_kept_lt (hds : ds = kept ++ c :: rest) (hkept : (kept.length : Int) = loc + scale) :
    readDigits 10 (kept.map digit) < 10 ^ p := by
  have hlen : kept.length ≤ ds.length := by
    rw [hds, List.length_append]
    omega
  have hlt := h.readDigits_lt hfew hlen 0 (by rw [hkept]; simp)
  have htake : ds.take kept.length = kept := by
    rw [hds]
    exact List.take_left
  rwa [htake, pow_zero, Nat.mul_one] at hlt

/-- What the digits up to the last one that is kept are counted as. -/
theorem counts {k : ℕ} (hkept : k = ds.length ∨ loc ≤ k ∧ k ≤ ds.length) :
    min (leadingZeros (ds.map digit)) loc.toNat +
        (min ds.length loc.toNat - leadingZeros (ds.map digit)) = min k loc.toNat ∧
      ((min ds.length loc.toNat - leadingZeros (ds.map digit) : ℕ) : Int) + max 0 (loc - k) ≤
        (p : Int) - scale ∧
      min (leadingZeros (ds.map digit)) loc.toNat ≤ k := by
  have hscale := h.scale_le
  have hzeros := leadingZeros_le_length ds
  refine ⟨?_, ?_, ?_⟩
  · omega
  · rcases hkept with rfl | ⟨hle, hkept⟩
    · omega
    · rw [max_eq_left (by omega)]
      omega
  · omega

variable (hlast : 0 ≤ loc + scale ∧ loc + scale < 2147483648)

include hlast

/-- The zeros that are appended behind the last digit that is kept. -/
theorem finish_after {k : ℕ} (hk : (k : Int) ≤ loc + scale)
    (hkept : k = ds.length ∨ loc ≤ k ∧ k ≤ ds.length) (w : Int) :
    (after loc (min (leadingZeros (ds.map digit)) loc.toNat) k w).finish T pos p (-scale)
        (min ds.length loc.toNat - leadingZeros (ds.map digit)) =
      padZeros T pos (loc + scale - k).toNat w := by
  obtain ⟨hsum, hprecise, hmk⟩ := h.counts hfew hkept
  have hscale := h.scale_le
  have hle := h.le
  have hlocation := h.location
  have hlen := h.length
  have hk' : k ≤ ds.length := by omega
  revert hsum hprecise hmk
  generalize min (leadingZeros (ds.map digit)) loc.toNat = m
  generalize min ds.length loc.toNat - leadingZeros (ds.map digit) = g
  intro hsum hprecise hmk
  clear hkept hfew
  have hrange : March.InRange p scale g (after loc m k w) := by
    refine ⟨?_, ?_, ?_, ?_, ?_, ?_, ?_, hle, hscale⟩
    all_goals
      simp only [after]
      omega
  rw [finish_eq hrange, if_neg (by simp only [after]; omega), padZeros_bind]
  have hzeros : (zerosToDecimal (after loc m k w)).toNat +
      (zerosToScale p scale g (after loc m k w)).toNat = (loc + scale - k).toNat := by
    simp only [zerosToDecimal, zerosToScale, after]
    rw [min_eq_right (by omega)]
    rcases le_total loc k with hkeeps | hkeeps
    · rw [max_eq_left (by omega)]
      omega
    · rw [max_eq_right (by omega), max_eq_left (by omega : -loc ≤ 0)]
      omega
  rw [hzeros]
  rfl

/-- There are none in front of another digit. -/
theorem finish_kept {k : ℕ} (hk : (k : Int) = loc + scale) (hlt : k < ds.length) (w : Int) :
    (after loc (min (leadingZeros (ds.map digit)) loc.toNat) k w).finish T pos p (-scale)
      (min ds.length loc.toNat - leadingZeros (ds.map digit)) = some w := by
  rw [h.finish_after hfew hlast hk.le (.inr ⟨by omega, hlt.le⟩), ← hk, sub_self]
  rfl

/-- All digits are before the last one that is kept. -/
theorem whole (hall : (ds.length : Int) ≤ loc + scale) :
    fromDigits T pos p scale ds tail loc =
      some (signedNat pos (readDigits 10 (ds.map digit) * 10 ^ (loc + scale - ds.length).toNat)) := by
  have hscale := h.scale_le
  have hle := h.le
  have hlocation := h.location
  have hlen := h.length
  have hzeros := leadingZeros_le_length ds
  have hint : int32 (loc + scale) = loc + scale := int32_of_range (by omega) (by omega)
  have hrun := @run_start T pos p scale ds tail ds [] loc h (List.append_nil ds).symm
    (loc + scale) (by omega) (by omega)
  rw [List.nil_append, run_end (not_isDigit_of_marker h.tail)] at hrun
  have hbound := h.readDigits_lt hfew le_rfl (loc + scale - ds.length).toNat (by omega)
  rw [List.take_length] at hbound
  have hfits {n : ℕ} (hn : n ≤ 10 ^ p) : T.Fits (signedNat pos n) :=
    fits_signedNat_of_le hn (h.fits pos)
  unfold fromDigits
  rw [hint, if_pos (by omega), hrun]
  show finish _ _ _ _ _ (after loc _ ds.length _) = _
  rw [h.finish_after hfew hlast hall (.inl rfl)]
  rw [padZeros_eq h.signed _ (hfits ((Nat.le_mul_of_pos_right _ (by positivity)).trans hbound.le)),
    if_pos (hfits hbound.le)]

/-- The end of the kernel, where rounding has added a digit to the value. -/
theorem finish_carried {k : ℕ} (hk : (k : Int) = loc + scale) (hlt : k < ds.length) (v w : Int) :
    ((after loc (min (leadingZeros (ds.map digit)) loc.toNat) k v).carried w).finish T pos p
      (-scale) (min ds.length loc.toNat - leadingZeros (ds.map digit)) =
      if (p : Int) - scale < loc + 1 - min (leadingZeros (ds.map digit)) loc.toNat then none
      else padZeros T pos (if loc < 0 ∧ scale < p then 1 else 0) w := by
  have hscale := h.scale_le
  have hle := h.le
  have hlocation := h.location
  have hlen := h.length
  have hzeros := leadingZeros_le_length ds
  have hnext : int32 (loc + 1) = loc + 1 := int32_of_range (by omega) (by omega)
  have hcarried (m : ℕ) : (after loc m k v).carried w =
      ⟨loc + 1, k - m + 1, k + 1, w, decide (m < k), 1⟩ := by
    unfold carried after
    dsimp only
    rw [hnext]
  obtain ⟨hsum, hprecise, hmk⟩ := h.counts hfew (.inr ⟨by omega, hlt.le⟩ : k = ds.length ∨ _)
  rw [hcarried]
  revert hsum hprecise hmk
  generalize min (leadingZeros (ds.map digit)) loc.toNat = m
  generalize min ds.length loc.toNat - leadingZeros (ds.map digit) = g
  intro hsum hprecise hmk
  clear hfew hcarried
  have hrange : March.InRange p scale g ⟨loc + 1, k - m + 1, k + 1, w, decide (m < k), 1⟩ := by
    refine ⟨?_, ?_, ?_, ?_, ?_, ?_, ?_, hle, hscale⟩
    all_goals
      dsimp only
      omega
  have hcounts : loc + 1 - (((k + 1 : ℕ) : Int) - ((k - m + 1 : ℕ) : Int)) = loc + 1 - m := by omega
  rw [finish_eq hrange, padZeros_bind]
  dsimp only
  rw [hcounts]
  by_cases hmany : (p : Int) - scale < loc + 1 - m
  · rw [if_pos hmany, if_pos (by omega)]
  rw [if_neg hmany, if_neg (by omega)]
  -- the zeros that are missing: one more digit has come by the carry
  have hpad : (zerosToDecimal ⟨loc + 1, k - m + 1, k + 1, w, decide (m < k), 1⟩).toNat +
      (zerosToScale p scale g ⟨loc + 1, k - m + 1, k + 1, w, decide (m < k), 1⟩).toNat =
      if loc < 0 ∧ scale < p then 1 else 0 := by
    simp only [zerosToDecimal, zerosToScale]
    rw [max_eq_left (by omega)]
    rcases lt_or_ge loc 0 with hneg | hpos
    · obtain ⟨rfl, rfl⟩ : m = 0 ∧ g = 0 := by omega
      rw [max_eq_right (by omega)]
      split_ifs <;> omega
    · rw [max_eq_left (by omega), min_eq_right (by omega), if_neg (by omega)]
      omega
  rw [hpad]

variable (hds : ds = kept ++ c :: rest) (hkept : (kept.length : Int) = loc + scale)
include hds hkept

/-- The last digit that is kept is in front of another one. -/
theorem rounds :
    fromDigits T pos p scale ds tail loc =
      (round T pos (digit c) (after loc (min (leadingZeros (ds.map digit)) loc.toNat)
        kept.length (signedNat pos (readDigits 10 (kept.map digit))))).bind
        (finish T pos p (-scale) (min ds.length loc.toNat - leadingZeros (ds.map digit))) := by
  have hscale := h.scale_le
  have hle := h.le
  have hlocation := h.location
  have hzeros := leadingZeros_le_length ds
  have hint : int32 (loc + scale) = loc + scale := int32_of_range (by omega) (by omega)
  have hc : isDigit c = true := h.digits c (by rw [hds]; simp)
  have hrun := @run_start T pos p scale ds tail kept (c :: rest) loc h hds (loc + scale)
    (by omega) (by omega)
  unfold fromDigits
  rw [hint, if_pos hlast.1, hrun, List.cons_append, run_round hc (.inr ?_)]
  show (kept.length : Int) + 1 > loc + scale
  omega

theorem rounds_down (hc : digit c < 5) : fromDigits T pos p scale ds tail loc =
      some (signedNat pos (readDigits 10 (kept.map digit))) := by
  rw [h.rounds hfew hlast hds hkept, round_down hc]
  exact h.finish_kept hfew hlast hkept (by rw [hds]; simp) _

theorem rounds_up (hc : 5 ≤ digit c) (hcarries : ¬March.Carries (readDigits 10 (kept.map digit))) :
    fromDigits T pos p scale ds tail loc =
      some (signedNat pos (readDigits 10 (kept.map digit) + 1)) := by
  have hfits := fits_signedNat_of_le (Nat.succ_le_of_lt (h.readDigits_kept_lt hfew hds hkept))
    (h.fits pos)
  rw [h.rounds hfew hlast hds hkept, (round_up h.signed rfl hfits hc).2 hcarries]
  exact h.finish_kept hfew hlast hkept (by rw [hds]; simp) _

theorem rounds_carried (hc : 5 ≤ digit c) (hcarries : March.Carries (readDigits 10 (kept.map digit))) :
    fromDigits T pos p scale ds tail loc =
      if (p : Int) - scale < loc + 1 - min (leadingZeros (ds.map digit)) loc.toNat then none
      else padZeros T pos (if loc < 0 ∧ scale < p then 1 else 0)
        (signedNat pos (readDigits 10 (kept.map digit) + 1)) := by
  have hfits := fits_signedNat_of_le (Nat.succ_le_of_lt (h.readDigits_kept_lt hfew hds hkept))
    (h.fits pos)
  rw [h.rounds hfew hlast hds hkept, (round_up h.signed rfl hfits hc).1 hcarries]
  exact h.finish_carried hfew hlast hkept (by rw [hds]; simp) _ _

end

end Setting

end

/-! ### What a decimal should be -/

namespace DecimalText

variable (s : DecimalText) (p scale : ℕ)

/-- The value in units of the scale, rounded half away from zero. -/
def rounded : ℤ := roundHalfAway (s.value * 10 ^ scale)

/-- The decimal of a precision and a scale, if there is one. -/
def decimal : Option Int := if |s.rounded scale| < 10 ^ p then some (s.rounded scale) else none

/-- The digits, as numbers. -/
def figures : List ℕ := s.digits.map digit

/-- The digits in units of the scale. -/
def magnitude : ℚ := readDigits 10 s.figures * 10 ^ (s.location + scale - s.figures.length)

/-- Rounding adds a digit to those that the scale keeps: they are zeros, and then nines. -/
def Carries : Prop :=
  ∃ n d rest, s.figures = List.replicate (leadingZeros s.figures) 0 ++ (List.replicate (n + 1) 9 ++ d :: rest) ∧
    ((leadingZeros s.figures + (n + 1) : ℕ) : Int) = s.location + scale ∧ 5 ≤ d

/-- The value is not computed with an exponent or a last digit that does not fit, is not a zero with too
large an exponent, and does not get another digit by rounding where it is not accounted for. -/
structure Computed (T : IntType) : Prop where
  fits : T.Fits s.exponentVal
  last : 2147483648 ≤ s.location + scale → s.decimal p scale = none
  zero : leadingZeros s.figures = s.figures.length → s.location - s.figures.length ≤ (p : Int) - scale
  carriesBefore : s.Carries scale → 0 ≤ s.location → s.location < leadingZeros s.figures → scale < p
  carriesBehind : s.Carries scale → s.location < 0 → scale = p

/-! ### The value, from its digits -/

section

variable {s : DecimalText} {p scale : ℕ}

theorem figures_lt (s : DecimalText) : ∀ d ∈ s.figures, d < 10 := by
  intro d hd
  obtain ⟨c, hc, rfl⟩ := List.mem_map.1 hd
  rcases List.mem_append.1 hc with hc | hc
  · exact digit_lt (s.isDigits c hc)
  · cases hfrac : s.frac with
    | none =>
      rw [hfrac] at hc
      exact absurd hc List.not_mem_nil
    | some fs =>
      rw [hfrac] at hc
      exact digit_lt (s.isFrac fs hfrac c hc)

/-- The value in units of the scale, from the digits and the last one that is kept. -/
theorem value_mul_eq (s : DecimalText) (scale : ℕ) : s.value * 10 ^ scale =
    (if decide (s.sign = [chr '-']) then -1 else 1) * s.magnitude scale := by
  have hten : (10 : ℚ) ≠ 0 := by norm_num
  have hlen : s.figures.length = s.whole.length + (s.frac.getD []).length := by
    rw [figures, List.length_map, digits, List.length_append]
  have hexponent : s.exponentVal - ((s.frac.getD []).length : Int) + scale =
      s.location + scale - s.figures.length := by
    rw [location, hlen]
    push_cast
    ring
  rw [value, mul_assoc, mul_assoc, ← zpow_natCast (10 : ℚ) scale, ← zpow_add₀ hten, hexponent]
  simp only [decide_eq_true_eq]
  rw [magnitude, figures]

theorem rounded_eq {n : ℕ} (h : roundHalfAway (s.magnitude scale) = n) :
    s.rounded scale = signedNat (decide (s.sign ≠ [chr '-'])) n := by
  rw [rounded, value_mul_eq, roundHalfAway_neg_mul, h]
  unfold signedNat
  by_cases hsign : s.sign = [chr '-']
  · simp [hsign]
  · simp [hsign]

/-- What the decimal should be, where the number is known. -/
theorem decimal_eq {n : ℕ} (h : roundHalfAway (s.magnitude scale) = n) :
    s.decimal p scale = if n < 10 ^ p then some (signedNat (decide (s.sign ≠ [chr '-'])) n) else none := by
  have habs (pos : Bool) : |signedNat pos n| = n := by
    unfold signedNat
    cases pos with
    | true => exact Nat.abs_cast n
    | false =>
      show |-(n : Int)| = n
      rw [abs_neg, Nat.abs_cast]
  unfold decimal
  rw [rounded_eq h, habs]
  by_cases hlt : n < 10 ^ p
  · rw [if_pos hlt, if_pos (by exact_mod_cast hlt)]
  · rw [if_neg hlt, if_neg (by exact_mod_cast hlt)]

/-- All digits are kept. -/
theorem round_whole (h : (s.figures.length : Int) ≤ s.location + scale) :
    roundHalfAway (s.magnitude scale) =
      (readDigits 10 s.figures * 10 ^ (s.location + scale - s.figures.length).toNat : ℕ) := by
  obtain ⟨n, hn⟩ : ∃ n : ℕ, s.location + scale - s.figures.length = n := ⟨_, (Int.toNat_of_nonneg (by omega)).symm⟩
  rw [magnitude, hn, Int.toNat_natCast, zpow_natCast]
  have hcast : ((readDigits 10 s.figures : ℕ) : ℚ) * 10 ^ n =
      (((readDigits 10 s.figures * 10 ^ n : ℕ) : ℤ) : ℚ) := by
    push_cast
    rfl
  rw [hcast, roundHalfAway_intCast]

/-- The first digit that is dropped tells how to round. -/
theorem round_at {kept rest : List ℕ} {d : ℕ} (hsplit : s.figures = kept ++ d :: rest)
    (hkept : (kept.length : Int) = s.location + scale) :
    roundHalfAway (s.magnitude scale) =
      (readDigits 10 kept + if 10 ≤ 2 * d then 1 else 0 : ℕ) := by
  have hall := figures_lt s
  have hexponent : s.location + scale - s.figures.length = -((rest.length + 1 : ℕ) : Int) := by
    rw [hsplit, List.length_append, List.length_cons, ← hkept]
    push_cast
    ring
  rw [magnitude, hexponent, zpow_neg, zpow_natCast, ← div_eq_mul_inv, hsplit]
  have hround := @roundHalfAway_digits 10 d kept rest (by decide) (by decide)
    (fun d hd => hall d (by rw [hsplit]; simp [hd])) (hall d (by rw [hsplit]; simp))
  exact_mod_cast hround

/-- Nothing is kept. -/
theorem round_tiny (h : s.location + scale < 0) :
    roundHalfAway (s.magnitude scale) = ((0 : ℕ) : ℤ) := by
  have hten : (10 : ℚ) ≠ 0 := by norm_num
  have hlt : ((readDigits 10 s.figures : ℕ) : ℚ) < 10 ^ s.figures.length := by
    exact_mod_cast Numerals.readDigits_lt (figures_lt s)
  have hpos : (0 : ℚ) < 10 ^ (s.location + scale - s.figures.length) := by positivity
  have hnonneg : 0 ≤ s.magnitude scale := mul_nonneg (Nat.cast_nonneg _) hpos.le
  have htenth : s.magnitude scale < 1 / 10 := by
    calc s.magnitude scale
        < 10 ^ s.figures.length * (10 : ℚ) ^ (s.location + scale - s.figures.length) :=
          mul_lt_mul_of_pos_right hlt hpos
      _ = 10 ^ (s.location + scale) := by
          rw [← zpow_natCast (10 : ℚ) s.figures.length, ← zpow_add₀ hten]
          congr 1
          ring
      _ ≤ 10 ^ (-1 : ℤ) := zpow_le_zpow_right₀ (by norm_num) (by omega)
      _ = 1 / 10 := by norm_num
  rw [roundHalfAway_of_nonneg hnonneg, Int.floor_eq_iff]
  push_cast
  constructor
  · linarith
  · linarith

/-- A value with too many digits before the point. -/
theorem decimal_tooLarge (hdigit : leadingZeros s.figures < s.figures.length)
    (hover : (p : Int) - scale < s.location - leadingZeros s.figures) : s.decimal p scale = none := by
  have hten : (10 : ℚ) ≠ 0 := by norm_num
  have hle : ((10 ^ (s.figures.length - leadingZeros s.figures - 1) : ℕ) : ℚ) ≤ (readDigits 10 s.figures : ℕ) := by
    exact_mod_cast @le_readDigits 10 _ hdigit
  have hpos : (0 : ℚ) < 10 ^ (s.location + scale - s.figures.length) := by positivity
  have hlarge : (10 : ℚ) ^ p ≤ s.magnitude scale := by
    calc (10 : ℚ) ^ p = 10 ^ (p : ℤ) := (zpow_natCast _ _).symm
      _ ≤ 10 ^ (((s.figures.length - leadingZeros s.figures - 1 : ℕ) : ℤ) +
            (s.location + scale - s.figures.length)) := zpow_le_zpow_right₀ (by norm_num) (by omega)
      _ = ((10 ^ (s.figures.length - leadingZeros s.figures - 1) : ℕ) : ℚ) *
            10 ^ (s.location + scale - s.figures.length) := by
          rw [zpow_add₀ hten, zpow_natCast]
          push_cast
          rfl
      _ ≤ _ := mul_le_mul_of_nonneg_right hle hpos.le
  have hround : ((10 ^ p : ℕ) : ℤ) ≤ |s.rounded scale| := by
    refine le_abs_roundHalfAway (Int.natCast_nonneg _) ?_
    have hnonneg : 0 ≤ s.magnitude scale := mul_nonneg (Nat.cast_nonneg _) hpos.le
    rw [value_mul_eq, abs_mul, abs_of_nonneg hnonneg]
    have hone : |(if decide (s.sign = [chr '-']) = true then -1 else 1 : ℚ)| = 1 := by
      split_ifs
      · rw [abs_neg, abs_one]
      · exact abs_one
    rw [hone, one_mul]
    exact_mod_cast hlarge
  unfold decimal
  rw [if_neg]
  push_cast at hround
  omega

/-- Zero is in the range of every precision. -/
theorem decimal_zero (h : leadingZeros s.figures = s.figures.length) : s.decimal p scale = some 0 := by
  have hzero : readDigits 10 s.figures = 0 := (readDigits_eq_zero_iff (by decide) (figures_lt s)).2 h
  have hround : roundHalfAway (s.magnitude scale) = ((0 : ℕ) : ℤ) := by
    rw [magnitude, hzero, Nat.cast_zero, zero_mul]
    exact_mod_cast roundHalfAway_intCast 0
  rw [decimal_eq hround, if_pos (by positivity), signedNat_zero]

end

end DecimalText

end SparkRapids.CastString
