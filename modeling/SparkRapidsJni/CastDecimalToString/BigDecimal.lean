import SparkRapidsJni.CastString.Integer
import SparkRapidsJni.Lib.AsciiNumerals

/-!
# `java.math.BigDecimal`

A `BigDecimal` is an unscaled value and a scale. `toString` is its canonical text, and `ofString` reads a
text, as the documentation of the class has them: a text with the parts of a decimal is read as its digits
and the number of them behind the point, less the exponent (`ofString_text`).
-/

namespace SparkRapids.CastDecimalToString

open Ascii Numerals

/-- `BigDecimal`, the number `unscaledValue * 10 ^ (-scale)`. -/
structure BigDecimal where
  unscaledValue : ℤ
  scale : ℤ
  deriving DecidableEq, Repr

/-- An `int` -/
def FitsInt (x : ℤ) : Prop := -2 ^ 31 ≤ x ∧ x < 2 ^ 31

instance (x : ℤ) : Decidable (FitsInt x) := inferInstanceAs (Decidable (_ ∧ _))

/-- A sign where a number is negative. -/
def signText (x : ℤ) : List Byte := if x < 0 then [chr '-'] else []

/-- The exponent, with a sign even if it is positive. -/
def exponentText (adjusted : ℤ) : List Byte :=
  chr 'E' :: (if adjusted < 0 then chr '-' else chr '+') :: numeral adjusted.natAbs

namespace BigDecimal

/-- Digits with a point, and no exponent. There are as many digits to the right of the point as the scale
says, with zeros where there are not enough, and a zero to the left if there are no others. -/
def plainText (coeff : List Byte) (scale : ℕ) : List Byte :=
  if coeff.length ≤ scale then chr '0' :: chr '.' :: padZeros scale coeff
  else coeff.take (coeff.length - scale) ++ chr '.' :: coeff.drop (coeff.length - scale)

/-- Scientific notation: the point is behind the first digit. -/
def scientificText (coeff : List Byte) (adjusted : ℤ) : List Byte :=
  coeff.take 1 ++ (if coeff.length > 1 then chr '.' :: coeff.drop 1 else []) ++ exponentText adjusted

/-- `toString` -/
def toString (b : BigDecimal) : List Byte :=
  let coeff := numeral b.unscaledValue.natAbs
  let adjusted := -b.scale + (coeff.length - 1)
  signText b.unscaledValue ++
    if b.scale = 0 then coeff
    else if 0 ≤ b.scale ∧ -6 ≤ adjusted then plainText coeff b.scale.toNat
    else scientificText coeff adjusted

/-- The digits of an exponent, with or without a sign. -/
def readExponentDigits (negative : Bool) (ds : List Byte) : Option ℤ :=
  let exp : ℤ := readDigits 10 (ds.map digit)
  let exp := if negative then -exp else exp
  if ds ≠ [] ∧ ds.all isDigit ∧ FitsInt exp then some exp else none

/-- What is behind the digits: nothing, or an exponent. -/
def readExponent : List Byte → Option ℤ
  | [] => some 0
  | marker :: rest =>
    if marker = chr 'e' ∨ marker = chr 'E' then
      if rest.head? = some (chr '-') then readExponentDigits true rest.tail
      else if rest.head? = some (chr '+') then readExponentDigits false rest.tail
      else readExponentDigits false rest
    else none

/-- The digits, those behind the point among them, and the exponent. -/
def readBody (negative : Bool) (body : List Byte) : Option BigDecimal :=
  let whole := body.takeWhile isDigit
  let rest := body.dropWhile isDigit
  let frac := if rest.head? = some (chr '.') then rest.tail.takeWhile isDigit else []
  let rest := if rest.head? = some (chr '.') then rest.tail.dropWhile isDigit else rest
  if whole ++ frac = [] then none
  else
    (readExponent rest).bind fun exp =>
      let unscaled : ℤ := readDigits 10 ((whole ++ frac).map digit)
      if FitsInt (frac.length - exp) then
        some ⟨if negative then -unscaled else unscaled, frac.length - exp⟩
      else none

/-- `new BigDecimal(String)`, or none for an exception. -/
def ofString (s : List Byte) : Option BigDecimal :=
  if s.head? = some (chr '-') then readBody true s.tail
  else if s.head? = some (chr '+') then readBody false s.tail
  else readBody false s

end BigDecimal

/-! ### Texts of decimals -/

/-- The text with these parts. -/
def decimalText (value : ℤ) (whole : List Byte) (frac : Option (List Byte)) (exponent : Option ℤ) :
    List Byte :=
  signText value ++ (whole ++ (frac.elim [] (chr '.' :: ·) ++ exponent.elim [] exponentText))

variable {value : ℤ} {whole : List Byte} {frac : Option (List Byte)} {exponent : Option ℤ}

namespace BigDecimal

theorem readExponentDigits_numeral {exp : ℤ} (hfits : FitsInt exp) :
    readExponentDigits (exp < 0) (numeral exp.natAbs) = some exp := by
  have hdigits : (numeral exp.natAbs).all isDigit = true :=
    List.all_eq_true.2 fun _ => isDigit_of_mem_numeral
  have hsigned : (if decide (exp < 0) = true then -(exp.natAbs : ℤ) else exp.natAbs) = exp := by
    split_ifs with hneg
    · rw [decide_eq_true_iff] at hneg
      omega
    · rw [decide_eq_true_iff] at hneg
      omega
  rw [readExponentDigits, map_digit_numeral, readDigits_writeDigits, hsigned]
  exact if_pos ⟨numeral_ne_nil _, hdigits, hfits⟩

theorem readExponent_text (hexponent : ∀ exp ∈ exponent, FitsInt exp) :
    readExponent (exponent.elim [] exponentText) = some (exponent.getD 0) := by
  cases exponent with
  | none => rfl
  | some exp =>
    have hread := readExponentDigits_numeral (hexponent exp rfl)
    rw [Option.elim_some, exponentText, readExponent, if_pos (.inr rfl)]
    by_cases hneg : exp < 0
    · rw [decide_eq_true hneg] at hread
      rw [if_pos hneg]
      exact hread
    · rw [decide_eq_false hneg] at hread
      rw [if_neg hneg]
      exact hread

theorem head_exponentText : ∀ c ∈ (exponent.elim [] exponentText).head?,
    isDigit c = false ∧ c ≠ chr '.' := by
  intro c hc
  cases exponent with
  | none => cases hc
  | some exp =>
    obtain rfl := Option.some.inj hc
    decide

theorem readBody_text (negative : Bool) (hwhole : ∀ c ∈ whole, isDigit c = true) (hne : whole ≠ [])
    (hfrac : ∀ fs ∈ frac, ∀ c ∈ fs, isDigit c = true) (hexponent : ∀ exp ∈ exponent, FitsInt exp)
    (hscale : FitsInt ((frac.getD []).length - exponent.getD 0)) :
    readBody negative (whole ++ (frac.elim [] (chr '.' :: ·) ++ exponent.elim [] exponentText)) =
      some ⟨if negative then -(readDigits 10 ((whole ++ frac.getD []).map digit) : ℤ)
        else readDigits 10 ((whole ++ frac.getD []).map digit),
        (frac.getD []).length - exponent.getD 0⟩ := by
  have hne' : whole ++ frac.getD [] ≠ [] := fun h => hne (List.append_eq_nil_iff.1 h).1
  cases frac with
  | none =>
    obtain ⟨htake, hdrop⟩ := CastString.takeWhile_digits hwhole
      fun c hc => (@head_exponentText exponent c hc).1
    have hpoint : ¬(exponent.elim [] exponentText).head? = some (chr '.') := fun h =>
      (head_exponentText (chr '.') h).2 rfl
    rw [Option.elim_none, List.nil_append, readBody, htake, hdrop, if_neg hpoint, if_neg hpoint,
      readExponent_text hexponent]
    exact (if_neg hne').trans (if_pos hscale)
  | some fs =>
    obtain ⟨htake, hdrop⟩ := @CastString.takeWhile_digits whole
      (chr '.' :: (fs ++ exponent.elim [] exponentText)) hwhole fun c hc => by
        obtain rfl := Option.some.inj hc
        decide
    obtain ⟨htake', hdrop'⟩ := CastString.takeWhile_digits (hfrac fs rfl)
      fun c hc => (@head_exponentText exponent c hc).1
    rw [Option.elim_some, List.cons_append, readBody, htake, hdrop, List.head?_cons, if_pos rfl,
      if_pos rfl, List.tail_cons, htake', hdrop', readExponent_text hexponent]
    exact (if_neg hne').trans (if_pos hscale)

/-- A text with the parts of a decimal is read as its digits, and their number behind the point, less the
exponent. -/
theorem ofString_text (hwhole : ∀ c ∈ whole, isDigit c = true) (hne : whole ≠ [])
    (hfrac : ∀ fs ∈ frac, ∀ c ∈ fs, isDigit c = true) (hexponent : ∀ exp ∈ exponent, FitsInt exp)
    (hscale : FitsInt ((frac.getD []).length - exponent.getD 0))
    (hvalue : readDigits 10 ((whole ++ frac.getD []).map digit) = value.natAbs) :
    ofString (decimalText value whole frac exponent) =
      some ⟨value, (frac.getD []).length - exponent.getD 0⟩ := by
  have hbody := fun negative => readBody_text negative hwhole hne hfrac hexponent hscale
  rw [hvalue] at hbody
  rw [decimalText, signText]
  by_cases hneg : value < 0
  · rw [if_pos hneg, ofString, List.singleton_append, List.head?_cons, if_pos rfl, List.tail_cons,
      hbody true, if_pos rfl]
    congr 2
    omega
  · -- the text begins with a digit
    obtain ⟨c, whole, rfl⟩ := List.exists_cons_of_ne_nil hne
    have hdigit := hwhole c (List.mem_cons_self ..)
    have hsign : ∀ sign : Byte, isDigit sign = false → ¬some c = some sign := by
      intro sign hsign h
      rw [Option.some.inj h, hsign] at hdigit
      exact Bool.false_ne_true hdigit
    rw [if_neg hneg, List.nil_append, ofString]
    rw [List.cons_append, List.head?_cons, if_neg (hsign _ (by decide)), if_neg (hsign _ (by decide)),
      ← List.cons_append, hbody false, if_neg Bool.false_ne_true]
    congr 2
    omega

end BigDecimal

end SparkRapids.CastDecimalToString
