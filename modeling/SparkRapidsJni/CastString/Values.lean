import SparkRapidsJni.Lib.Ascii
import SparkRapidsJni.Lib.Numerals

/-!
# `cast_string.cu`: values of digits

`process_value` appends a digit to a value of an integer type, upwards or downwards, with checks before
the multiplication and the addition. The checks are exact: a digit is appended iff the value fits with it,
and no value that is computed leaves the type (`processValue_spec`).

What a value is cut down to is a parameter, `narrow`. With `IntType.checked` there is no result where a
value does not fit; as the specification holds for every `narrow` that keeps the values of the type, no
value wraps around.
-/

namespace SparkRapids.CastString

open Ascii

/-- `is_whitespace` -/
def isWhitespace (chr : Byte) : Bool := chr ≤ 0x1F || chr = Ascii.chr ' '

/-- An integer type, of 8 bits at least. -/
structure IntType where
  bits : ℕ
  signed : Bool
  le_bits : 8 ≤ bits

namespace IntType

variable {T : IntType}

/-- `numeric_limits<T>::min()` -/
def min (T : IntType) : Int := if T.signed then -2 ^ (T.bits - 1) else 0

/-- `numeric_limits<T>::max()` -/
def max (T : IntType) : Int := if T.signed then 2 ^ (T.bits - 1) - 1 else 2 ^ T.bits - 1

def Fits (T : IntType) (x : Int) : Prop := T.min ≤ x ∧ x ≤ T.max

instance (x : Int) : Decidable (T.Fits x) := inferInstanceAs (Decidable (_ ∧ _))

/-- The value of the type for an integer. -/
def wrap (T : IntType) (x : Int) : Int := if T.signed then x.bmod (2 ^ T.bits) else x % 2 ^ T.bits

/-- There is a value for an integer of the type only. -/
def checked (T : IntType) (x : Int) : Option Int := if T.Fits x then some x else none

/-- What keeps the values of the type. -/
def Keeps (T : IntType) (narrow : Int → Option Int) : Prop := ∀ x, T.Fits x → narrow x = some x

end IntType

section Code

variable (T : IntType) (narrow : Int → Option Int)

/-- `will_overflow`, of a value times ten -/
def willOverflowTimesTen (val : Int) (adding : Bool) : Bool :=
  if T.signed ∧ !adding then val < T.min.tdiv 10 else val > T.max.tdiv 10

/-- `will_overflow`, of a sum or a difference -/
def willOverflow (lhs rhs : Int) (adding : Bool) : Option Bool :=
  if T.signed ∧ !adding then (narrow (T.min + rhs)).map fun minval => lhs < minval
  else (narrow (T.max - rhs)).map fun maxval => lhs > maxval

/-- `process_value` -/
def processValue (firstValue : Bool) (currentVal newDigit : Int) (adding : Bool) :
    Option (Bool × Int) := do
  if !firstValue && willOverflowTimesTen T currentVal adding then return (false, currentVal)
  let currentVal ← if firstValue then some currentVal else narrow (currentVal * 10)
  if ← willOverflow T narrow currentVal newDigit adding then return (false, currentVal)
  let currentVal ← narrow (if adding then currentVal + newDigit else currentVal - newDigit)
  return (true, currentVal)

end Code

/-! ### Limits -/

namespace IntType

variable {T : IntType} {x : Int}

theorem min_le (T : IntType) : T.min ≤ 0 := by
  unfold min
  split_ifs
  · have hpos : (0 : Int) < 2 ^ (T.bits - 1) := by positivity
    omega
  · exact le_rfl

theorem le_max (T : IntType) : 127 ≤ T.max := by
  obtain ⟨bits, signed, hbits⟩ := T
  obtain ⟨k, rfl⟩ := Nat.exists_eq_add_of_le hbits
  have hpow : (1 : Int) ≤ 2 ^ k := one_le_pow₀ (by norm_num)
  have hsigned : (2 : Int) ^ (8 + k - 1) = 128 * 2 ^ k := by
    rw [show 8 + k - 1 = 7 + k by omega, pow_add]
    norm_num
  have hunsigned : (2 : Int) ^ (8 + k) = 256 * 2 ^ k := by
    rw [pow_add]
    norm_num
  unfold max
  dsimp only
  rw [hsigned, hunsigned]
  split_ifs <;> omega

theorem fits_zero (T : IntType) : T.Fits 0 := ⟨T.min_le, by linarith [T.le_max]⟩

theorem checked_keeps (T : IntType) : T.Keeps T.checked := fun _ h => if_pos h

/-- A value of the type is its own value. -/
theorem wrap_keeps (T : IntType) : T.Keeps fun x => some (T.wrap x) := by
  intro x h
  obtain ⟨bits, signed, hbits⟩ := T
  obtain ⟨k, rfl⟩ := Nat.exists_eq_add_of_le' (by omega : 1 ≤ bits)
  have hpow : (2 ^ (k + 1) : ℕ) = 2 * 2 ^ k := by ring
  have hpos : 0 < 2 ^ k := by positivity
  obtain ⟨hmin, hmax⟩ := h
  unfold wrap
  dsimp only
  cases signed with
  | true =>
    have hlow : -2 ^ k ≤ x := hmin
    have hhigh : x ≤ 2 ^ k - 1 := hmax
    rw [if_pos rfl]
    congr 1
    refine Int.bmod_eq_of_le ?_ ?_
    · rw [hpow]
      push_cast
      omega
    · rw [hpow]
      push_cast
      omega
  | false =>
    have hlow : 0 ≤ x := hmin
    have hhigh : x ≤ 2 ^ (k + 1) - 1 := hmax
    rw [if_neg (by simp)]
    congr 1
    exact Int.emod_eq_of_lt hlow (by show x < 2 ^ (k + 1); omega)

end IntType

/-! ### One more digit -/

section

variable {T : IntType} {narrow : Int → Option Int} {adding firstValue : Bool} {v d : Int}

/-- A value with one more digit, upwards or downwards. -/
def appended (adding : Bool) (v d : Int) : Int := if adding then 10 * v + d else 10 * v - d

/-- Values go down in signed types only. -/
def Side (T : IntType) (adding : Bool) (v : Int) : Prop :=
  if adding then 0 ≤ v else T.signed = true ∧ v ≤ 0

theorem willOverflowTimesTen_iff (hv : Side T adding v) :
    willOverflowTimesTen T v adding = true ↔ ¬T.Fits (10 * v) := by
  have hmin := T.min_le
  have hmax := T.le_max
  unfold willOverflowTimesTen IntType.Fits
  cases adding with
  | true =>
    have hpos : 0 ≤ v := hv
    rw [if_neg (by simp), decide_eq_true_iff, Int.tdiv_eq_ediv_of_nonneg (by omega)]
    omega
  | false =>
    obtain ⟨hsigned, hneg⟩ : T.signed = true ∧ v ≤ 0 := hv
    have hdiv : T.min.tdiv 10 = -(-T.min / 10) := by
      rw [← Int.tdiv_eq_ediv_of_nonneg (by omega), Int.neg_tdiv, neg_neg]
    rw [if_pos ⟨hsigned, rfl⟩, decide_eq_true_iff, hdiv]
    omega

theorem willOverflow_eq (hn : T.Keeps narrow) (hside : Side T adding v) (hv : T.Fits v)
    (hd : 0 ≤ d ∧ d ≤ 9) : willOverflow T narrow v d adding =
      some (decide ¬T.Fits (if adding then v + d else v - d)) := by
  have hmin := T.min_le
  have hmax := T.le_max
  obtain ⟨hlow, hhigh⟩ := hv
  unfold willOverflow
  cases adding with
  | true =>
    have hpos : 0 ≤ v := hside
    rw [if_neg (by simp), hn _ ⟨by omega, by omega⟩, Option.map_some]
    unfold IntType.Fits
    rw [if_pos rfl]
    congr 1
    rw [decide_eq_decide]
    omega
  | false =>
    obtain ⟨hsigned, hneg⟩ : T.signed = true ∧ v ≤ 0 := hside
    rw [if_pos ⟨hsigned, rfl⟩, hn _ ⟨by omega, by omega⟩, Option.map_some]
    unfold IntType.Fits
    rw [if_neg (by simp)]
    congr 1
    rw [decide_eq_decide]
    omega

/-- The end of `process_value`, behind the multiplication. -/
theorem processValue_rest (hn : T.Keeps narrow) (hside : Side T adding v) (hv : T.Fits v)
    (hd : 0 ≤ d ∧ d ≤ 9) :
    (do
      if ← willOverflow T narrow v d adding then return (false, v)
      let currentVal ← narrow (if adding then v + d else v - d)
      return (true, currentVal) : Option (Bool × Int)) =
      some (decide (T.Fits (if adding then v + d else v - d)),
        if T.Fits (if adding then v + d else v - d) then if adding then v + d else v - d else v) := by
  rw [willOverflow_eq hn hside hv hd]
  by_cases h : T.Fits (if adding then v + d else v - d)
  · simp [h, hn _ h]
  · simp [h]

theorem Side.mul_ten (h : Side T adding v) : Side T adding (v * 10) := by
  unfold Side at h ⊢
  cases adding with
  | true =>
    have hpos : 0 ≤ v := h
    show 0 ≤ v * 10
    omega
  | false =>
    obtain ⟨hsigned, hneg⟩ : T.signed = true ∧ v ≤ 0 := h
    exact ⟨hsigned, by omega⟩

/-- A value that has left the type does not come back with one more digit. -/
theorem not_fits_appended (hside : Side T adding v) (hd : 0 ≤ d) (h : ¬T.Fits (10 * v)) :
    ¬T.Fits (appended adding v d) := by
  have hmin := T.min_le
  have hmax := T.le_max
  unfold appended
  unfold Side at hside
  unfold IntType.Fits at h ⊢
  cases adding with
  | true =>
    have hpos : 0 ≤ v := hside
    rw [if_pos rfl]
    omega
  | false =>
    obtain ⟨-, hneg⟩ : T.signed = true ∧ v ≤ 0 := hside
    rw [if_neg (by simp)]
    omega

/-- A digit is appended iff the value fits with it, whatever values outside of the type are cut down to. -/
theorem processValue_spec (hfirst : firstValue = true → v = 0) (hside : Side T adding v)
    (hv : T.Fits v) (hd : 0 ≤ d ∧ d ≤ 9) :
    ∃ w, (∀ narrow, T.Keeps narrow → processValue T narrow firstValue v d adding =
        some (decide (T.Fits (appended adding v d)), w)) ∧
      (T.Fits (appended adding v d) → w = appended adding v d) := by
  cases firstValue with
  | true =>
    obtain rfl := hfirst rfl
    have happended : appended adding 0 d = if adding then 0 + d else 0 - d := by
      unfold appended
      rw [mul_zero]
    rw [happended]
    refine ⟨if T.Fits (if adding then 0 + d else 0 - d) then if adding then 0 + d else 0 - d else 0,
      fun narrow hn => ?_, fun h => if_pos h⟩
    unfold processValue
    exact processValue_rest hn hside T.fits_zero hd
  | false =>
    have happended : appended adding v d = if adding then v * 10 + d else v * 10 - d := by
      unfold appended
      rw [mul_comm]
    -- the product is tested first, then the sum
    by_cases hten : T.Fits (10 * v)
    · have hten' : willOverflowTimesTen T v adding = false := by
        rw [← Bool.not_eq_true, willOverflowTimesTen_iff hside, not_not]
        exact hten
      rw [mul_comm] at hten
      rw [happended]
      refine ⟨if T.Fits (if adding then v * 10 + d else v * 10 - d)
          then if adding then v * 10 + d else v * 10 - d else v * 10,
        fun narrow hn => ?_, fun h => if_pos h⟩
      have hrest := processValue_rest hn hside.mul_ten hten hd
      unfold processValue
      simpa [hten', hn _ hten] using hrest
    · have hten' : willOverflowTimesTen T v adding = true := (willOverflowTimesTen_iff hside).2 hten
      have hnot := not_fits_appended hside hd.1 hten
      refine ⟨v, fun narrow _ => ?_, fun h => absurd h hnot⟩
      unfold processValue
      simp [hten', hnot]

end

end SparkRapids.CastString
