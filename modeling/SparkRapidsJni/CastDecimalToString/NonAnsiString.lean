import SparkRapidsJni.CastDecimalToString.BigDecimal
import SparkRapidsJni.CastString.ValidateDecimal

/-!
# `cast_decimal_to_string.cu`

A decimal is written in two passes: `compute_output_size` counts the bytes, `decimal_to_non_ansi_string`
writes them. Both have a case for each form of the text, with powers of ten of the storage type to
split the digits at the point. What they write is the text of the `BigDecimal`, from which it is read
back, as long as the adjusted exponent fits in 32 bits (`writesCanonical_iff`): `BigDecimal` computes it
with 64 bits.

Where a sum of integers or a power of ten leaves its type, there is no result. What cudf's `count_digits` and
`integer_to_string` do is taken from their documentation.
-/

namespace SparkRapids.CastDecimalToString

open Ascii Numerals
open CastString (DecimalType)

/-- The most digits of a type. -/
def maxPrecision : DecimalType → ℕ
  | .int32 => 9
  | .int64 => 18
  | .int128 => 38

section Code

variable (T : DecimalType) (scale value : ℤ)

/-- `numeric::detail::exp10` -/
def exp10 (exponent : ℤ) : Option ℕ := (T.integers.checked (10 ^ exponent.toNat)).map Int.toNat

/-- A sum of two `int32_t` -/
def addInt (x y : ℤ) : Option ℤ := if FitsInt (x + y) then some (x + y) else none

/-- `strings::detail::count_digits` -/
def countDigits (n : ℕ) : ℕ := (numeral n).length

/-- `strings::detail::integer_to_string` -/
def integerToString (x : ℤ) : List Byte := signText x ++ numeral x.natAbs

/-- `static_cast<int32_t>(value < 0)` -/
def signSize : ℤ := if value < 0 then 1 else 0

/-- `compute_output_size` -/
def computeOutputSize : Option ℤ :=
  let absValue := value.natAbs
  let absValueDigits : ℤ := countDigits absValue
  (addInt scale (absValueDigits - 1)).bind fun adjustedExponent =>
    if scale = 0 then some (signSize value + absValueDigits)
    else if scale < 0 ∧ adjustedExponent ≥ -6 then
      (exp10 T (-scale)).map fun expTen =>
        let fraction : ℤ := countDigits (absValue % expTen)
        let numZeros := max 0 (-scale - fraction)
        signSize value + countDigits (absValue / expTen) + 1 + numZeros + fraction
    else
      let extraDigits := if absValueDigits > 1 then 3 else 2
      some (signSize value + absValueDigits + extraDigits + countDigits adjustedExponent.natAbs)

/-- The integer part, the point, zeros and the fraction part. -/
def writePointed (absValue expTen : ℕ) (width : ℤ) : List Byte :=
  let numZeros := max 0 (width - countDigits (absValue % expTen))
  integerToString (absValue / expTen : ℕ) ++
    chr '.' :: (List.replicate numZeros.toNat (chr '0') ++ integerToString (absValue % expTen : ℕ))

/-- The digits of `decimal_to_non_ansi_string` without an exponent. -/
def writePlain (absValue : ℕ) : Option (List Byte) :=
  (exp10 T (-scale)).map fun expTen =>
    if scale ≠ 0 then writePointed absValue expTen (-scale)
    else integerToString (absValue / expTen : ℕ)

/-- The digits in front of an exponent. -/
def writeMantissa (absValue : ℕ) : Option (List Byte) :=
  let absValueDigits : ℤ := countDigits absValue
  if absValueDigits > 1 then
    let digitsAfterDecimal := absValueDigits - 1
    (exp10 T digitsAfterDecimal).map fun expTen => writePointed absValue expTen digitsAfterDecimal
  else some (integerToString absValue)

/-- The exponent; the minus sign is added by `integer_to_string`. -/
def writeExponent (adjustedExponent : ℤ) : List Byte :=
  chr 'E' :: ((if adjustedExponent ≥ 0 then [chr '+'] else []) ++ integerToString adjustedExponent)

/-- `decimal_to_non_ansi_string` -/
def decimalToNonAnsiString : Option (List Byte) :=
  let absValue := value.natAbs
  let absValueDigits : ℤ := countDigits absValue
  (addInt scale (absValueDigits - 1)).bind fun adjustedExponent =>
    if scale ≤ 0 ∧ adjustedExponent ≥ -6 then
      (writePlain T scale absValue).map fun digits => signText value ++ digits
    else
      -- positive scale or adjusted exponent < -6 means scientific notation
      (writeMantissa T absValue).map fun digits =>
        signText value ++ (digits ++ writeExponent adjustedExponent)

/-- A text is what is written for a decimal, in the size that is computed for it; it is the text of the
`BigDecimal` with its unscaled value and scale, which is read back from it. -/
structure Canonical (text : List Byte) : Prop where
  size : computeOutputSize T scale value = some (text.length : ℤ)
  bytes : decimalToNonAnsiString T scale value = some text
  toString : BigDecimal.toString ⟨value, -scale⟩ = text
  read : BigDecimal.ofString text = some ⟨value, -scale⟩

/-- The canonical text is written. -/
def WritesCanonical : Prop := ∃ text, Canonical T scale value text

/-- The exponent of the first digit. -/
def adjusted : ℤ := scale + (countDigits value.natAbs - 1)

end Code

/-! ### The parts of a text -/

variable {T : DecimalType} {scale value : ℤ} {n e : ℕ}

theorem exp10_eq (h : e ≤ maxPrecision T) : exp10 T e = some (10 ^ e) := by
  have hfits : T.integers.Fits (10 ^ e) := by
    have hle : (10 : ℤ) ^ e ≤ 10 ^ maxPrecision T := pow_le_pow_right₀ (by decide) h
    have hmax : (10 : ℤ) ^ maxPrecision T ≤ T.integers.max := by cases T <;> decide
    have hmin : T.integers.min ≤ 0 := by cases T <;> decide
    exact ⟨hmin.trans (pow_nonneg (by decide) e), hle.trans hmax⟩
  rw [exp10, Int.toNat_natCast, CastString.IntType.checked, if_pos hfits, Option.map_some]
  exact congrArg some (Int.toNat_natCast (10 ^ e))

theorem integerToString_natCast (n : ℕ) : integerToString n = numeral n := by
  rw [integerToString, signText, if_neg (Int.natCast_nonneg n).not_gt, Int.natAbs_natCast,
    List.nil_append]

theorem length_signText (value : ℤ) : ((signText value).length : ℤ) = signSize value := by
  unfold signText signSize
  split_ifs <;> rfl

/-- The digits at a point are the ones of the quotient and the last ones. -/
theorem writePointed_eq (he : 0 < e) (n : ℕ) :
    writePointed n (10 ^ e) e = numeral (n / 10 ^ e) ++ chr '.' :: lowDigits e n := by
  have hzeros : (max 0 ((e : ℤ) - countDigits (n % 10 ^ e))).toNat =
      e - (numeral (n % 10 ^ e)).length := by
    unfold countDigits
    omega
  rw [writePointed, integerToString_natCast, integerToString_natCast, hzeros, lowDigits_eq_pad he]
  rfl

theorem writeExponent_eq (exponent : ℤ) : writeExponent exponent = exponentText exponent := by
  unfold writeExponent exponentText integerToString signText
  split_ifs <;> first | omega | rfl

theorem one_le_countDigits (n : ℕ) : 1 ≤ countDigits n :=
  List.length_pos_of_ne_nil (numeral_ne_nil n)

/-- The size of the fraction is the number of zeros and digits. -/
theorem fraction_size (he : 0 < e) (n : ℕ) :
    max 0 ((e : ℤ) - countDigits (n % 10 ^ e)) + countDigits (n % 10 ^ e) = e := by
  have hle : countDigits (n % 10 ^ e) ≤ e :=
    (length_numeral_le_iff he).2 (Nat.mod_lt _ (Nat.pow_pos (by decide)))
  omega

/-- The text without an exponent has its point before the last digits. -/
theorem plainText_numeral (he : 0 < e) (n : ℕ) :
    BigDecimal.plainText (numeral n) e = numeral (n / 10 ^ e) ++ chr '.' :: lowDigits e n := by
  rw [BigDecimal.plainText]
  by_cases hlen : (numeral n).length ≤ e
  · have hlt := (length_numeral_le_iff he).1 hlen
    rw [if_pos hlen, Nat.div_eq_of_lt hlt, lowDigits_of_lt he hlt]
    rfl
  · have hge : 10 ^ e ≤ n := not_lt.1 (mt (length_numeral_le_iff he).2 hlen)
    have hsplit := numeral_eq hge
    have hquotient : (numeral n).length - e = (numeral (n / 10 ^ e)).length := by
      rw [hsplit, List.length_append, length_lowDigits, Nat.add_sub_cancel]
    rw [if_neg hlen, hquotient, hsplit, List.take_left, List.drop_left]

/-- There is one digit in front of all the others. -/
theorem numeral_first (hlen : countDigits n = e + 1) (he : 0 < e) :
    numeral n = numeral (n / 10 ^ e) ++ lowDigits e n ∧ countDigits (n / 10 ^ e) = 1 := by
  have hge : 10 ^ e ≤ n := by
    by_contra hlt
    have hle : countDigits n ≤ e := (length_numeral_le_iff he).2 (not_le.1 hlt)
    omega
  have hsplit := numeral_eq hge
  refine ⟨hsplit, ?_⟩
  have hsum := congrArg List.length hsplit
  rw [List.length_append, length_lowDigits] at hsum
  exact Nat.add_right_cancel (hsum.symm.trans (hlen.trans (Nat.add_comm e 1)))

/-- The text in front of an exponent has its point behind the first digit. -/
theorem scientificText_numeral (hlen : countDigits n = e + 1) (he : 0 < e) (exponent : ℤ) :
    BigDecimal.scientificText (numeral n) exponent =
      numeral (n / 10 ^ e) ++ chr '.' :: lowDigits e n ++ exponentText exponent := by
  obtain ⟨hsplit, hfirst⟩ := numeral_first hlen he
  rw [countDigits] at hfirst
  have hmany : (numeral n).length > 1 := by
    rw [countDigits] at hlen
    omega
  have htake : (numeral n).take 1 = numeral (n / 10 ^ e) := by
    rw [hsplit, ← hfirst, List.take_left]
  have hdrop : (numeral n).drop 1 = lowDigits e n := by
    rw [hsplit, ← hfirst, List.drop_left]
  rw [BigDecimal.scientificText, htake, hdrop, if_pos hmany]

theorem writeMantissa_eq (hlen : countDigits n = e + 1) (he : 0 < e)
    (hprecision : e ≤ maxPrecision T) :
    writeMantissa T n = some (numeral (n / 10 ^ e) ++ chr '.' :: lowDigits e n) := by
  have hmany : (countDigits n : ℤ) > 1 := by omega
  have hwidth : (countDigits n : ℤ) - 1 = e := by omega
  unfold writeMantissa
  dsimp only
  rw [if_pos hmany, hwidth, exp10_eq hprecision, Option.map_some, writePointed_eq he]

theorem writeMantissa_digit (hlen : countDigits n = 1) : writeMantissa T n = some (numeral n) := by
  have hone : ¬(countDigits n : ℤ) > 1 := by omega
  rw [writeMantissa, if_neg hone, integerToString_natCast]

theorem length_exponentText (exponent : ℤ) :
    (exponentText exponent).length = countDigits exponent.natAbs + 2 := rfl

/-- The digits around a point, as a number. -/
theorem readDigits_pointed (n e : ℕ) (he : 0 < e) :
    readDigits 10 ((numeral (n / 10 ^ e) ++ lowDigits e n).map digit) = n := by
  by_cases hlt : n < 10 ^ e
  · have hzero : readDigits 10 ((numeral 0).map digit) = 0 := rfl
    rw [Nat.div_eq_of_lt hlt, lowDigits_of_lt he hlt, List.map_append, readDigits_append, hzero,
      Nat.zero_mul, Nat.zero_add, readDigits_pad_numeral]
  · rw [← numeral_eq (not_lt.1 hlt), map_digit_numeral, readDigits_writeDigits]

theorem readDigits_numeral (n : ℕ) : readDigits 10 ((numeral n).map digit) = n := by
  rw [map_digit_numeral, readDigits_writeDigits]

/-! ### The forms of the text -/

theorem addInt_adjusted (hfits : FitsInt (adjusted scale value)) :
    addInt scale (countDigits value.natAbs - 1) = some (adjusted scale value) := if_pos hfits

/-- An integer has its digits only. -/
theorem canonical_integer (hfits : FitsInt (adjusted 0 value)) :
    Canonical T 0 value (decimalText value (numeral value.natAbs) none none) := by
  have hplain : (0 : ℤ) ≤ 0 ∧ adjusted 0 value ≥ -6 := by
    have := one_le_countDigits value.natAbs
    unfold adjusted
    omega
  have htext : decimalText value (numeral value.natAbs) none none =
      signText value ++ numeral value.natAbs := by
    rw [decimalText, Option.elim_none, Option.elim_none, List.append_nil, List.append_nil]
  refine ⟨?_, ?_, ?_, ?_⟩
  · rw [computeOutputSize, addInt_adjusted hfits, Option.bind_some, if_pos rfl, htext,
      List.length_append, Nat.cast_add, length_signText]
    rfl
  · have hone : exp10 T 0 = some (10 ^ 0) := exp10_eq (Nat.zero_le _)
    rw [decimalToNonAnsiString, addInt_adjusted hfits, Option.bind_some, if_pos hplain, writePlain,
      neg_zero, hone, Option.map_some, if_neg (not_not.2 rfl), pow_zero, Nat.div_one,
      integerToString_natCast, Option.map_some, htext]
  · rw [BigDecimal.toString, htext]
    exact congrArg _ (if_pos rfl)
  · exact BigDecimal.ofString_text (fun _ => isDigit_of_mem_numeral) (numeral_ne_nil _)
      (fun fs hfs => absurd hfs (Option.not_mem_none fs))
      (fun exp hexp => absurd hexp (Option.not_mem_none exp)) (by decide)
      (by rw [Option.getD_none, List.append_nil, readDigits_numeral])

/-- A decimal that is not too small has a point in front of as many digits as the scale says. -/
theorem canonical_plain (he : 0 < e) (hprecision : e ≤ maxPrecision T) (hsmall : adjusted (-e) value ≥ -6)
    (hfits : FitsInt (adjusted (-e) value)) (hscale : FitsInt e) :
    Canonical T (-e) value (decimalText value (numeral (value.natAbs / 10 ^ e))
      (some (lowDigits e value.natAbs)) none) := by
  have hzero : ¬(-(e : ℤ) = 0) := by omega
  have htext : decimalText value (numeral (value.natAbs / 10 ^ e))
      (some (lowDigits e value.natAbs)) none =
      signText value ++ (numeral (value.natAbs / 10 ^ e) ++ chr '.' :: lowDigits e value.natAbs) := by
    rw [decimalText, Option.elim_none, Option.elim_some, List.append_nil]
  refine ⟨?_, ?_, ?_, ?_⟩
  · have hfraction := fraction_size he value.natAbs
    have hform : -(e : ℤ) < 0 ∧ adjusted (-e) value ≥ -6 := ⟨by omega, hsmall⟩
    rw [computeOutputSize, addInt_adjusted hfits, Option.bind_some, if_neg hzero, if_pos hform,
      neg_neg, exp10_eq hprecision, Option.map_some, htext]
    congr 1
    rw [List.length_append, List.length_append, List.length_cons, length_lowDigits]
    push_cast
    rw [length_signText, add_assoc _ (max _ _), hfraction, countDigits]
    ring
  · have hform : -(e : ℤ) ≤ 0 ∧ adjusted (-e) value ≥ -6 := ⟨by omega, hsmall⟩
    rw [decimalToNonAnsiString, addInt_adjusted hfits, Option.bind_some, if_pos hform, writePlain,
      neg_neg, exp10_eq hprecision, Option.map_some, if_pos hzero, writePointed_eq he,
      Option.map_some, htext]
  · have hform : 0 ≤ (e : ℤ) ∧ -6 ≤ adjusted (-e) value := ⟨by omega, hsmall⟩
    rw [BigDecimal.toString, neg_neg, htext]
    have hne : ¬(e : ℤ) = 0 := by omega
    refine congrArg _ ((if_neg hne).trans ((if_pos hform).trans ?_))
    exact plainText_numeral he value.natAbs
  · have hread := @BigDecimal.ofString_text value (numeral (value.natAbs / 10 ^ e))
      (some (lowDigits e value.natAbs)) none (fun _ => isDigit_of_mem_numeral) (numeral_ne_nil _)
      (fun fs hfs c hc => isDigit_of_mem_lowDigits (Option.some.inj hfs ▸ hc))
      (fun exp hexp => absurd hexp (Option.not_mem_none exp))
      (by rw [Option.getD_some, length_lowDigits, Option.getD_none, sub_zero]; exact hscale)
      (readDigits_pointed _ _ he)
    rw [Option.getD_some, length_lowDigits, Option.getD_none, sub_zero] at hread
    rw [hread, neg_neg]

/-- The text of a `BigDecimal` with an exponent. -/
theorem toString_scientific {text digits : List Byte} (hform : ¬(scale ≤ 0 ∧ adjusted scale value ≥ -6))
    (hzero : ¬scale = 0)
    (hdigits : BigDecimal.scientificText (numeral value.natAbs) (adjusted scale value) = digits)
    (htext : text = signText value ++ digits) : BigDecimal.toString ⟨value, -scale⟩ = text := by
  have hzero' : ¬-scale = 0 := mt neg_eq_zero.1 hzero
  have hform' : ¬(0 ≤ -scale ∧ -6 ≤ adjusted scale value) := fun h => hform ⟨by omega, h.2⟩
  rw [BigDecimal.toString, neg_neg, htext, ← hdigits]
  exact congrArg _ ((if_neg hzero').trans (if_neg hform'))

/-- Otherwise the text has an exponent, and a point behind the first digit, -/
theorem canonical_scientific (hlen : countDigits value.natAbs = e + 1) (he : 0 < e)
    (hprecision : e ≤ maxPrecision T) (hform : ¬(scale ≤ 0 ∧ adjusted scale value ≥ -6))
    (hfits : FitsInt (adjusted scale value)) (hscale : FitsInt (-scale)) :
    Canonical T scale value (decimalText value (numeral (value.natAbs / 10 ^ e))
      (some (lowDigits e value.natAbs)) (some (adjusted scale value))) := by
  have hadjusted : adjusted scale value = scale + e := by
    rw [adjusted, hlen]
    push_cast
    ring
  -- a number without a scale is written plainly
  have hzero : ¬scale = 0 := by
    rintro rfl
    exact hform ⟨le_rfl, by omega⟩
  have htext : decimalText value (numeral (value.natAbs / 10 ^ e))
      (some (lowDigits e value.natAbs)) (some (adjusted scale value)) =
      signText value ++ (numeral (value.natAbs / 10 ^ e) ++ chr '.' :: lowDigits e value.natAbs ++
        exponentText (adjusted scale value)) := by
    rw [decimalText, Option.elim_some, Option.elim_some, List.append_assoc]
  refine ⟨?_, ?_, ?_, ?_⟩
  · have hnotPlain : ¬(scale < 0 ∧ adjusted scale value ≥ -6) := fun h => hform ⟨h.1.le, h.2⟩
    have hmany : (countDigits value.natAbs : ℤ) > 1 := by omega
    have hfirst : (numeral (value.natAbs / 10 ^ e)).length = 1 := (numeral_first hlen he).2
    rw [computeOutputSize, addInt_adjusted hfits, Option.bind_some, if_neg hzero, if_neg hnotPlain,
      if_pos hmany, htext, hlen]
    refine congrArg some ?_
    rw [List.length_append, List.length_append, List.length_append, List.length_cons,
      length_lowDigits, hfirst, length_exponentText]
    push_cast
    rw [length_signText]
    ring
  · rw [decimalToNonAnsiString, addInt_adjusted hfits, Option.bind_some, if_neg hform,
      writeMantissa_eq hlen he hprecision, Option.map_some, writeExponent_eq, htext]
  · exact toString_scientific hform hzero (scientificText_numeral hlen he _) htext
  · have hread := @BigDecimal.ofString_text value (numeral (value.natAbs / 10 ^ e))
      (some (lowDigits e value.natAbs)) (some (adjusted scale value))
      (fun _ => isDigit_of_mem_numeral) (numeral_ne_nil _)
      (fun fs hfs c hc => isDigit_of_mem_lowDigits (Option.some.inj hfs ▸ hc))
      (fun exp hexp => Option.some.inj hexp ▸ hfits)
      (by
        rw [Option.getD_some, length_lowDigits, Option.getD_some, hadjusted, sub_add_cancel_right]
        exact hscale)
      (readDigits_pointed _ _ he)
    rw [Option.getD_some, length_lowDigits, Option.getD_some, hadjusted, sub_add_cancel_right] at hread
    rw [hadjusted, hread]

/-- or one digit only. -/
theorem canonical_digit (hlen : countDigits value.natAbs = 1)
    (hform : ¬(scale ≤ 0 ∧ adjusted scale value ≥ -6)) (hfits : FitsInt (adjusted scale value))
    (hscale : FitsInt (-scale)) :
    Canonical T scale value (decimalText value (numeral value.natAbs) none
      (some (adjusted scale value))) := by
  have hadjusted : adjusted scale value = scale := by
    rw [adjusted, hlen, Nat.cast_one, sub_self, add_zero]
  have hzero : ¬scale = 0 := by
    rintro rfl
    exact hform ⟨le_rfl, by omega⟩
  have htext : decimalText value (numeral value.natAbs) none (some (adjusted scale value)) =
      signText value ++ (numeral value.natAbs ++ exponentText (adjusted scale value)) := by
    rw [decimalText, Option.elim_some, Option.elim_none, List.nil_append]
  refine ⟨?_, ?_, ?_, ?_⟩
  · have hnotPlain : ¬(scale < 0 ∧ adjusted scale value ≥ -6) := fun h => hform ⟨h.1.le, h.2⟩
    have hone : ¬(countDigits value.natAbs : ℤ) > 1 := by omega
    rw [computeOutputSize, addInt_adjusted hfits, Option.bind_some, if_neg hzero, if_neg hnotPlain,
      if_neg hone, htext]
    refine congrArg some ?_
    rw [List.length_append, List.length_append, length_exponentText]
    push_cast
    rw [length_signText, countDigits]
    ring
  · rw [decimalToNonAnsiString, addInt_adjusted hfits, Option.bind_some, if_neg hform,
      writeMantissa_digit hlen, Option.map_some, writeExponent_eq, htext]
  · apply toString_scientific hform hzero _ htext
    rw [countDigits] at hlen
    rw [BigDecimal.scientificText, if_neg (by omega), List.append_nil,
      List.take_of_length_le hlen.le]
  · -- read back: the exponent is all there is to the scale
    have hread := @BigDecimal.ofString_text value (numeral value.natAbs) none
      (some (adjusted scale value)) (fun _ => isDigit_of_mem_numeral) (numeral_ne_nil _)
      (fun fs hfs => absurd hfs (Option.not_mem_none fs))
      (fun exp hexp => Option.some.inj hexp ▸ hfits)
      (by
        rw [Option.getD_none, Option.getD_some, hadjusted, List.length_nil, Nat.cast_zero, zero_sub]
        exact hscale)
      (by rw [Option.getD_none, List.append_nil, readDigits_numeral])
    rw [Option.getD_none, Option.getD_some, hadjusted, List.length_nil, Nat.cast_zero, zero_sub]
      at hread
    rw [hadjusted, hread]

/-! ### Which decimals are written canonically -/

/-- For a decimal within the digits of its type, the canonical text is written just where the exponent of
the first digit fits in 32 bits. -/
theorem writesCanonical_iff (T : DecimalType) (scale value : ℤ) (hvalue : |value| < 10 ^ maxPrecision T)
    (hscale : -scale ≤ maxPrecision T) (hint : FitsInt scale) :
    WritesCanonical T scale value ↔ adjusted scale value < 2 ^ 31 := by
  have hpositive := one_le_countDigits value.natAbs
  have hprecision : maxPrecision T ≤ 38 := by cases T <;> decide
  have hdigits : countDigits value.natAbs ≤ maxPrecision T := by
    have hpos : 0 < maxPrecision T := by cases T <;> decide
    apply (length_numeral_le_iff hpos).2
    zify
    exact hvalue
  constructor
  · rintro ⟨text, htext⟩
    by_contra hlarge
    -- the sum is none of an `int`
    have hnone : addInt scale (countDigits value.natAbs - 1) = none :=
      if_neg fun h => hlarge h.2
    have hbytes := htext.bytes
    rw [decimalToNonAnsiString, hnone] at hbytes
    cases hbytes
  · intro hlt
    have hfits : FitsInt (adjusted scale value) := by
      refine ⟨?_, hlt⟩
      unfold adjusted
      omega
    have hneg : FitsInt (-scale) := by
      unfold FitsInt at hint ⊢
      omega
    obtain rfl | hzero := eq_or_ne scale 0
    · exact ⟨_, canonical_integer hfits⟩
    by_cases hform : scale ≤ 0 ∧ adjusted scale value ≥ -6
    · obtain ⟨e, rfl⟩ : ∃ e : ℕ, scale = -(e : ℤ) := ⟨(-scale).toNat, by omega⟩
      rw [neg_neg] at hneg
      exact ⟨_, canonical_plain (by omega) (by omega) hform.2 hfits hneg⟩
    obtain ⟨e, he⟩ : ∃ e, countDigits value.natAbs = e + 1 := ⟨_, (Nat.sub_add_cancel hpositive).symm⟩
    obtain rfl | hpos := Nat.eq_zero_or_pos e
    · exact ⟨_, canonical_digit he hform hfits hneg⟩
    · exact ⟨_, canonical_scientific he hpos (by omega) hform hfits hneg⟩

/-- A decimal of 32 bits, with three digits and a negative exponent. -/
theorem writesCanonical_iff_small : WritesCanonical .int32 (-9) (-123) ↔ adjusted (-9) (-123) < 2 ^ 31 :=
  writesCanonical_iff .int32 (-9) (-123) (by decide) (by decide) (by decide)

/-- The exponent of the first digit of `10` is not an `int32_t` at the largest scale. -/
theorem not_writesCanonical : ¬∀ (T : DecimalType) (scale value : ℤ), |value| < 10 ^ maxPrecision T →
    -scale ≤ maxPrecision T → FitsInt scale → WritesCanonical T scale value := by
  intro h
  obtain ⟨text, htext⟩ := h .int32 (2 ^ 31 - 1) 10 (by decide) (by decide) (by decide)
  have hnone : decimalToNonAnsiString .int32 (2 ^ 31 - 1) 10 = none := by decide +kernel
  exact absurd (htext.bytes.symm.trans hnone) (Option.some_ne_none _)

end SparkRapids.CastDecimalToString
