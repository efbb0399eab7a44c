import SparkRapidsJni.Lib.Bytes

/-!
# ASCII characters

Texts are lists of bytes. The digits of a text have their values, for `Numerals.readDigits`.
-/

namespace SparkRapids.Ascii

/-- The byte of a character. -/
def chr (c : Char) : Byte := BitVec.ofNat 8 c.toNat

/-- `c >= '0' && c <= '9'` -/
def isDigit (c : Byte) : Bool := chr '0' ≤ c && c ≤ chr '9'

/-- `c - '0'`, of a digit -/
def digit (c : Byte) : ℕ := c.toNat - 48

variable {c : Byte}

theorem isDigit_iff : isDigit c = true ↔ 48 ≤ c.toNat ∧ c.toNat ≤ 57 := by
  unfold isDigit
  rw [Bool.and_eq_true, decide_eq_true_iff, decide_eq_true_iff]
  exact Iff.rfl

theorem digit_lt (h : isDigit c = true) : digit c < 10 := by
  rw [isDigit_iff] at h
  unfold digit
  omega

end SparkRapids.Ascii
