import SparkRapidsJni.Lib.Ascii
import SparkRapidsJni.Lib.Numerals

/-!
# Decimal numerals in texts

The numeral of a number, as bytes, and its last digits with zeros in front (`lowDigits`). A numeral with more
digits is split into the one of a quotient by a power of ten and the last digits (`numeral_eq`); the last
digits are the numeral of the remainder, padded with zeros (`lowDigits_eq_pad`).
-/

namespace SparkRapids.Ascii

open Numerals

/-- The character of a digit. -/
def figure (d : ℕ) : Byte := BitVec.ofNat 8 (48 + d)

/-- The decimal numeral of a number, without leading zeros. -/
def numeral (n : ℕ) : List Byte := (writeDigits 10 n).map figure

/-- The last `width` digits of a number. -/
@[grind] def lowDigits : ℕ → ℕ → List Byte
  | 0, _ => []
  | width + 1, n => lowDigits width (n / 10) ++ [figure (n % 10)]

/-- A text, with zeros in front of it up to a width. -/
def padZeros (width : ℕ) (text : List Byte) : List Byte :=
  List.replicate (width - text.length) (chr '0') ++ text

variable {n d width : ℕ}

theorem toNat_figure (h : d < 10) : (figure d).toNat = 48 + d := by
  rw [figure, BitVec.toNat_ofNat]
  omega

theorem isDigit_figure (h : d < 10) : isDigit (figure d) = true := by
  rw [isDigit_iff, toNat_figure h]
  omega

theorem digit_figure (h : d < 10) : digit (figure d) = d := by
  rw [digit, toNat_figure h]
  omega

theorem isDigit_of_mem_numeral {c : Byte} (h : c ∈ numeral n) : isDigit c = true := by
  obtain ⟨d, hd, rfl⟩ := List.mem_map.1 h
  exact isDigit_figure (writeDigits_lt (by decide) hd)

theorem map_digit_numeral (n : ℕ) : (numeral n).map digit = writeDigits 10 n := by
  rw [numeral, List.map_map]
  refine (List.map_congr_left fun d hd => ?_).trans (List.map_id _)
  exact digit_figure (writeDigits_lt (by decide) hd)

theorem numeral_ne_nil (n : ℕ) : numeral n ≠ [] := by
  intro h
  exact writeDigits_ne_nil 10 n (List.map_eq_nil_iff.1 h)

theorem numeral_of_lt (h : n < 10) : numeral n = [figure n] := by
  obtain rfl | hpos := Nat.eq_zero_or_pos n
  · rfl
  · rw [numeral, writeDigits_of_pos hpos.ne', Nat.digits_of_lt 10 n hpos.ne' h]
    rfl

/-- The last digit comes off the end. -/
theorem numeral_div (h : 10 ≤ n) : numeral n = numeral (n / 10) ++ [figure (n % 10)] := by
  have hdiv : n / 10 ≠ 0 := by omega
  rw [numeral, numeral, writeDigits_of_pos (by omega), writeDigits_of_pos hdiv,
    digits_reverse_eq (by decide) (by omega), List.map_append]
  rfl

theorem length_lowDigits (width n : ℕ) : (lowDigits width n).length = width := by
  induction width generalizing n with
  | zero => rfl
  | succ width ih => rw [lowDigits, List.length_append, ih, List.length_singleton]

theorem isDigit_of_mem_lowDigits {c : Byte} (h : c ∈ lowDigits width n) : isDigit c = true := by
  induction width generalizing n with
  | zero => exact absurd h List.not_mem_nil
  | succ width ih =>
    rcases List.mem_append.1 h with h | h
    · exact ih h
    · obtain rfl := List.mem_singleton.1 h
      exact isDigit_figure (Nat.mod_lt _ (by decide))

/-- The digits in front of the last ones are those of the quotient. -/
theorem numeral_eq (h : 10 ^ width ≤ n) :
    numeral n = numeral (n / 10 ^ width) ++ lowDigits width n := by
  induction width generalizing n with
  | zero => rw [pow_zero, Nat.div_one, lowDigits, List.append_nil]
  | succ width ih =>
    have hpow : 10 ^ (width + 1) = 10 ^ width * 10 := pow_succ ..
    have hpos : 0 < 10 ^ width := Nat.pow_pos (by decide)
    have hdiv : 10 ^ width ≤ n / 10 := by omega
    rw [numeral_div (by omega), ih hdiv, lowDigits, Nat.div_div_eq_div_mul, Nat.mul_comm 10, ← hpow,
      List.append_assoc]

/-- The last digits are those of the remainder. -/
theorem lowDigits_mod (width n : ℕ) : lowDigits width (n % 10 ^ width) = lowDigits width n := by
  induction width generalizing n with
  | zero => rfl
  | succ width ih =>
    have hdiv : n % 10 ^ (width + 1) / 10 = n / 10 % 10 ^ width := by
      rw [pow_succ', Nat.mod_mul_right_div_self]
    have hmod : n % 10 ^ (width + 1) % 10 = n % 10 :=
      Nat.mod_mod_of_dvd n (dvd_pow_self 10 width.succ_ne_zero)
    rw [lowDigits, lowDigits, hdiv, hmod, ih]

/-- All digits of a number that is not too large, and zeros in front of them. -/
theorem lowDigits_of_lt (hwidth : 0 < width) (h : n < 10 ^ width) :
    lowDigits width n = padZeros width (numeral n) := by
  induction width generalizing n with
  | zero => exact absurd hwidth (Nat.lt_irrefl 0)
  | succ width ih =>
    rw [pow_succ] at h
    rw [lowDigits]
    obtain rfl | hwidth' := Nat.eq_zero_or_pos width
    · rw [numeral_of_lt (by omega), Nat.mod_eq_of_lt (by omega)]
      rfl
    · rw [ih hwidth' (by omega)]
      unfold padZeros
      by_cases hn : n < 10
      · rw [numeral_of_lt hn, Nat.div_eq_of_lt hn, Nat.mod_eq_of_lt hn, numeral_of_lt (by decide),
          List.length_singleton, List.length_singleton, Nat.add_sub_cancel]
        obtain ⟨k, rfl⟩ : ∃ k, width = k + 1 := ⟨width - 1, by omega⟩
        rw [Nat.add_sub_cancel, List.replicate_succ']
        rfl
      · rw [numeral_div (not_lt.1 hn), List.length_append, List.length_singleton,
          Nat.add_sub_add_right, List.append_assoc]

/-- The last digits, as the numeral of the remainder with zeros in front. -/
theorem lowDigits_eq_pad (hwidth : 0 < width) (n : ℕ) :
    lowDigits width n = padZeros width (numeral (n % 10 ^ width)) := by
  rw [← lowDigits_of_lt hwidth (Nat.mod_lt _ (Nat.pow_pos (by decide))), lowDigits_mod]

theorem length_numeral_le_iff (hwidth : 0 < width) : (numeral n).length ≤ width ↔ n < 10 ^ width := by
  obtain rfl | hpos := Nat.eq_zero_or_pos n
  · exact iff_of_true hwidth (Nat.pow_pos (by decide))
  · rw [numeral, List.length_map, writeDigits_of_pos hpos.ne', List.length_reverse,
      Nat.digits_length_le_iff (by decide)]

theorem readDigits_pad_numeral (width n : ℕ) :
    readDigits 10 ((padZeros width (numeral n)).map digit) = n := by
  have hzeros : readDigits 10 ((List.replicate (width - (numeral n).length) (chr '0')).map digit) = 0 := by
    rw [List.map_replicate]
    induction width - (numeral n).length with
    | zero => rfl
    | succ k ih => rw [List.replicate_succ', readDigits_concat, ih]; rfl
  rw [padZeros, List.map_append, readDigits_append, hzeros, Nat.zero_mul, Nat.zero_add,
    map_digit_numeral, readDigits_writeDigits]

end SparkRapids.Ascii
