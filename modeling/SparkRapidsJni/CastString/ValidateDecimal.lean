import SparkRapidsJni.CastString.Integer
import SparkRapidsJni.Lib.MachineInt

/-!
# `cast_string.cu`: the scan of decimals

`validate_and_exponent` scans a row once, by a machine with eight states, for the place of the decimal point
and the exponent. `DecimalText` is what it can read: a sign, digits with a point and an exponent, where any
digits may be missing. From each state on, the scan accepts the texts that continue such a text
(`accepts_trailing`, `accepts_exponent`, `accepts_exponentOrSign`, `accepts_fraction`, `accepts_whole`), and
white space behind it unless the exponent has a sign or digits.
-/

namespace SparkRapids.CastString

open Ascii Numerals

/-! ### The code -/

/-- The types of decimals, by their bits. -/
inductive DecimalType
  | int32
  | int64
  | int128
  deriving DecidableEq, Repr

/-- The integers of a type of decimals. -/
def DecimalType.integers : DecimalType → IntType
  | int32 => ⟨32, true, by decide⟩
  | int64 => ⟨64, true, by decide⟩
  | int128 => ⟨128, true, by decide⟩

/-- `processing_state` -/
inductive ProcessingState
  | digits
  | exponent
  | decimalPoint
  | exponentOrSign
  | exponentSign
  | validatingOnly
  | trailingWhitespace
  | invalid
  deriving DecidableEq, Repr

/-- The variables of the loop over the characters. -/
structure DecimalScan where
  state : ProcessingState
  decimalLocation : Int
  exponentPositive : Bool
  lastDigit : ℕ
  exponentVal : Int
  deriving DecidableEq, Repr

/-- `chr > '9' || chr < '0'` is no digit: a `char` above 127 is negative. -/
def DecimalScan.validateChar (strip : Bool) (s : DecimalScan) (chr : Byte) (chrIdx : ℕ) : DecimalScan :=
  match s.state with
  | .trailingWhitespace => if !isWhitespace chr then { s with state := .invalid } else s
  | .decimalPoint | .digits =>
    if !isDigit chr then
      if chr = Ascii.chr '.' ∧ s.decimalLocation = -1 then
        { s with state := .decimalPoint, decimalLocation := chrIdx }
      else if chr = Ascii.chr 'e' ∨ chr = Ascii.chr 'E' then { s with state := .exponentOrSign }
      else if strip && isWhitespace chr && chrIdx ≠ 0 then { s with state := .trailingWhitespace }
      else { s with state := .invalid }
    else { s with state := .digits }
  | .exponentOrSign =>
    if chr = Ascii.chr '+' then { s with state := .exponentSign }
    else if chr = Ascii.chr '-' then { s with state := .exponentSign, exponentPositive := false }
    else if strip && isWhitespace chr && chrIdx ≠ 0 then { s with state := .trailingWhitespace }
    else if !isDigit chr then { s with state := .invalid }
    else { s with state := .exponent }
  | .exponentSign | .exponent =>
    if !isDigit chr then { s with state := .invalid } else { s with state := .exponent }
  | .validatingOnly | .invalid => s

section Code

variable (T : IntType) (strip : Bool) (firstDigit : ℕ)

/-- `last_digit`, where the digits end -/
def DecimalScan.saveLocation (lastState : ProcessingState) (s : DecimalScan) (c : ℕ) : DecimalScan :=
  if lastState = .digits ∧ s.state ≠ .digits ∧ s.state ≠ .decimalPoint then { s with lastDigit := c } else s

/-- The loop of `validate_and_exponent`: the last values of the variables, if no character is invalid. There
is no result where `process_value` has none. -/
@[grind] def decimalLoop : List Byte → ℕ → DecimalScan → Option (Option DecimalScan)
  | [], _, s => some (some s)
  | chr :: chars, charNum, s =>
    let next := s.validateChar strip chr charNum
    if next.state = .invalid then some none
    else
      let next := next.saveLocation s.state (firstDigit + charNum)
      if next.state = .exponent then
        match processValue T (fun x => some (T.wrap x)) (next.exponentVal = 0) next.exponentVal (digit chr)
            next.exponentPositive with
        | none => none
        | some (false, _) => some none
        | some (true, newVal) => decimalLoop chars (charNum + 1) { next with exponentVal := newVal }
      else decimalLoop chars (charNum + 1) next

end Code

/-- What `validate_and_exponent` returns. -/
structure Validated where
  positive : Bool
  decimalLocation : Int
  firstDigit : ℕ
  deriving DecidableEq, Repr

/-- `validate_and_exponent` from the first digit on. -/
def validateFrom (T : IntType) (strip : Bool) (row : List Byte) (positive : Bool) (firstDigit : ℕ) :
    Option (Option Validated) :=
  if firstDigit = row.length then some none
  else
    match decimalLoop T strip firstDigit (row.drop firstDigit) 0 ⟨.digits, -1, true, row.length, 0⟩ with
    | none => none
    | some none => some none
    | some (some s) =>
      let decimalLocation :=
        if s.decimalLocation < 0 then (s.lastDigit : Int) - firstDigit else s.decimalLocation
      -- an `int`
      some (some ⟨positive, MachineInt.int32 (decimalLocation + s.exponentVal), firstDigit⟩)

/-- `validate_and_exponent`, of a row and the bytes behind it. There is no result where a byte is read that
is behind both. -/
def validateAndExponent (T : IntType) (strip : Bool) (row behind : List Byte) : Option (Option Validated) :=
  if row.isEmpty then some none
  else
    let chars := if strip then row.dropWhile isWhitespace else row
    let i := row.length - chars.length
    -- `chars[i]`, also where `i` is the length of the row
    match (chars ++ behind).head? with
    | none => none
    | some sign =>
      validateFrom T strip row (decide (sign ≠ chr '-'))
        (if sign = chr '-' ∨ sign = chr '+' then i + 1 else i)

/-! ### What the scan accepts -/

/-- A text of digits only. -/
def IsDigits (ds : List Byte) : Prop := ∀ c ∈ ds, isDigit c = true

instance (ds : List Byte) : Decidable (IsDigits ds) := inferInstanceAs (Decidable (∀ c ∈ ds, _))

/-- White space, if the row is stripped. -/
def Blanks (strip : Bool) (spaces : List Byte) : Prop := ∀ c ∈ spaces, strip = true ∧ isWhitespace c = true

/-- A sign, or none. -/
def IsSign (sign : List Byte) : Prop := sign = [] ∨ sign = [chr '+'] ∨ sign = [chr '-']

/-- An exponent, whose digits may be missing. -/
@[ext] structure ExponentText where
  marker : Byte
  sign : List Byte
  digits : List Byte
  isMarker : marker = chr 'e' ∨ marker = chr 'E'
  isSign : IsSign sign
  isDigits : IsDigits digits

namespace ExponentText

def text (e : ExponentText) : List Byte := e.marker :: (e.sign ++ e.digits)

def val (e : ExponentText) : Int :=
  signedNat (decide (e.sign ≠ [chr '-'])) (readDigits 10 (e.digits.map digit))

/-- Only the `e`. -/
def Bare (e : ExponentText) : Prop := e.sign = [] ∧ e.digits = []

end ExponentText

/-- What may be behind the digits, from the character `n` on, and the exponent: white space, but not in the
place of all digits, or an exponent that fits, with white space behind an `e`. -/
inductive TailText (T : IntType) (strip : Bool) (n : ℕ) : List Byte → Int → Prop
  | spaces {spaces : List Byte} (h : Blanks strip spaces) (hn : spaces ≠ [] → n ≠ 0) :
    TailText T strip n spaces 0
  | exponent {spaces : List Byte} (e : ExponentText) (h : Blanks strip spaces)
    (hbare : spaces ≠ [] → e.Bare) (hfits : T.Fits e.val) : TailText T strip n (e.text ++ spaces) e.val

/-- The place of the point and the exponent, as they are at the end. -/
def DecimalScan.located (first : ℕ) (s : DecimalScan) : Int × Int :=
  (if s.decimalLocation < 0 then (s.lastDigit : Int) - first else s.decimalLocation, s.exponentVal)

/-- The loop accepts the characters. -/
def Accepts (T : IntType) (strip : Bool) (first : ℕ) (chars : List Byte) (n : ℕ) (s : DecimalScan)
    (out : Int × Int) : Prop :=
  ∃ s', decimalLoop T strip first chars n s = some (some s') ∧ s'.located first = out

section

variable {T : IntType} {strip : Bool} {first n : ℕ} {s : DecimalScan} {c : Byte} {chars : List Byte}
  {out : Int × Int}

/-- At the end of the row. -/
theorem accepts_nil : Accepts T strip first [] n s out ↔ s.located first = out := by
  constructor
  · rintro ⟨s', hs', hout⟩
    obtain rfl : s = s' := Option.some.inj (Option.some.inj hs')
    exact hout
  · intro hout
    exact ⟨s, rfl, hout⟩

/-- An invalid character. -/
theorem not_accepts_cons (h : (s.validateChar strip c n).state = .invalid) :
    ¬Accepts T strip first (c :: chars) n s out := by
  rintro ⟨s', hs', -⟩
  rw [decimalLoop] at hs'
  dsimp only at hs'
  rw [if_pos h] at hs'
  exact absurd hs' (by simp)

/-- A character that is no digit of an exponent. -/
theorem accepts_cons {next : DecimalScan}
    (h : (s.validateChar strip c n).saveLocation s.state (first + n) = next)
    (hinvalid : (s.validateChar strip c n).state ≠ .invalid) (hexponent : next.state ≠ .exponent) :
    Accepts T strip first (c :: chars) n s out ↔ Accepts T strip first chars (n + 1) next out := by
  unfold Accepts
  rw [decimalLoop]
  dsimp only
  rw [if_neg hinvalid, h, if_neg hexponent]

/-- Behind white space there is only white space. -/
theorem accepts_trailing (hs : s.state = .trailingWhitespace) : Accepts T strip first chars n s out ↔
    (∀ c ∈ chars, isWhitespace c = true) ∧ s.located first = out := by
  induction chars generalizing n with
  | nil => simp [accepts_nil]
  | cons c chars ih =>
    have hchar : s.validateChar strip c n =
        if !isWhitespace c then { s with state := .invalid } else s := by
      rw [DecimalScan.validateChar, hs]
    by_cases hc : isWhitespace c = true
    · have hsame : s.validateChar strip c n = s := by
        rw [hchar, hc]
        rfl
      have hnext : (s.validateChar strip c n).saveLocation s.state (first + n) = s := by
        rw [hsame, DecimalScan.saveLocation, if_neg (by simp [hs])]
      rw [accepts_cons hnext (by simp [hsame, hs]) (by simp [hs]), ih]
      simp [hc]
    · refine iff_of_false (not_accepts_cons ?_) ?_
      · rw [hchar, Bool.eq_false_of_not_eq_true hc]
        rfl
      · rintro ⟨h, -⟩
        exact hc (h c (List.mem_cons_self ..))

/-- The exponent goes on with digits, as long as it fits. -/
theorem accepts_exponent (hT : T.signed = true) (hs : s.state = .exponentSign ∨ s.state = .exponent) {k : ℕ}
    (hval : s.exponentVal = signedNat s.exponentPositive k) (hfits : T.Fits s.exponentVal) :
    Accepts T strip first chars n s out ↔ IsDigits chars ∧
      T.Fits (signedNat s.exponentPositive ((chars.map digit).foldl (fun n d => n * 10 + d) k)) ∧
      ((s.located first).1,
        signedNat s.exponentPositive ((chars.map digit).foldl (fun n d => n * 10 + d) k)) = out := by
  induction chars generalizing n s k with
  | nil =>
    rw [accepts_nil, List.map_nil, List.foldl_nil, ← hval]
    constructor
    · intro hout
      exact ⟨by simp [IsDigits], hfits, hout⟩
    · rintro ⟨-, -, hout⟩
      exact hout
  | cons c chars ih =>
    have hchar : s.validateChar strip c n =
        if !isDigit c then { s with state := .invalid } else { s with state := .exponent } := by
      obtain hs | hs := hs <;> rw [DecimalScan.validateChar, hs]
    by_cases hc : isDigit c = true
    · have hnext : s.validateChar strip c n = { s with state := .exponent } := by
        rw [hchar, hc]
        rfl
      have hsave : DecimalScan.saveLocation s.state { s with state := .exponent } (first + n) =
          { s with state := .exponent } := by
        obtain hs | hs := hs <;> rw [DecimalScan.saveLocation, if_neg (by simp [hs])]
      have hlt := digit_lt hc
      obtain ⟨w, hprocess, hw⟩ := @processValue_spec T s.exponentPositive (decide (s.exponentVal = 0))
        s.exponentVal (digit c) (fun h => of_decide_eq_true h)
        (by rw [hval]; exact side_signedNat (fun _ => hT) k) hfits ⟨by omega, by omega⟩
      have happended : appended s.exponentPositive s.exponentVal (digit c) =
          signedNat s.exponentPositive (k * 10 + digit c) := by
        rw [hval, appended_signedNat]
      rw [happended] at hprocess hw
      rw [List.map_cons, List.foldl_cons]
      by_cases hnew : T.Fits (signedNat s.exponentPositive (k * 10 + digit c))
      · -- one more digit
        have hstep : Accepts T strip first (c :: chars) n s out ↔
            Accepts T strip first chars (n + 1)
              { s with state := .exponent, exponentVal := w } out := by
          unfold Accepts
          rw [decimalLoop]
          dsimp only
          rw [hnext, if_neg (by simp), hsave, if_pos rfl]
          dsimp only
          rw [hprocess _ T.wrap_keeps, decide_eq_true hnew]
        have hw' := hw hnew
        rw [hstep, ih (.inr rfl) (k := k * 10 + digit c) hw' (by dsimp only; rwa [hw'])]
        unfold IsDigits
        rw [List.forall_mem_cons]
        simp only [hc, true_and]
        exact Iff.rfl
      · refine iff_of_false ?_ ?_
        · rintro ⟨s', hs', -⟩
          rw [decimalLoop] at hs'
          dsimp only at hs'
          rw [hnext, if_neg (by simp), hsave, if_pos rfl] at hs'
          dsimp only at hs'
          rw [hprocess _ T.wrap_keeps, decide_eq_false hnew] at hs'
          exact absurd hs' (by simp)
        · -- more digits do not make it smaller
          rintro ⟨-, hall, -⟩
          apply hnew
          refine fits_signedNat_of_le ?_ hall
          rw [foldl_eq]
          calc k * 10 + digit c ≤ (k * 10 + digit c) * 10 ^ (chars.map digit).length :=
                Nat.le_mul_of_pos_right _ (by positivity)
            _ ≤ _ := Nat.le_add_right _ _
    · refine iff_of_false (not_accepts_cons ?_) ?_
      · rw [hchar, Bool.eq_false_of_not_eq_true hc]
        rfl
      · rintro ⟨h, -⟩
        exact hc (h c (List.mem_cons_self ..))

/-! ### Behind the marker of an exponent -/

section

variable (hs : s.state = .exponentOrSign) (hval : s.exponentVal = 0) (hpositive : s.exponentPositive = true)

include hs in
theorem validateChar_exponentOrSign (n : ℕ) (c : Byte) : s.validateChar strip c n =
    if c = chr '+' then { s with state := .exponentSign }
    else if c = chr '-' then { s with state := .exponentSign, exponentPositive := false }
    else if strip && isWhitespace c && n ≠ 0 then { s with state := .trailingWhitespace }
    else if !isDigit c then { s with state := .invalid }
    else { s with state := .exponent } := by
  rw [DecimalScan.validateChar, hs]

include hs in
theorem saveLocation_exponentOrSign (next : DecimalScan) (c : ℕ) : next.saveLocation s.state c = next := by
  rw [DecimalScan.saveLocation, if_neg (by simp [hs])]

include hs hval hpositive

/-- A sign, and digits behind it. -/
theorem accepts_sign (hT : T.signed = true) (hc : c = chr '+' ∨ c = chr '-') :
    Accepts T strip first (c :: chars) n s out ↔ IsDigits chars ∧
      T.Fits (signedNat (decide (c ≠ chr '-')) (readDigits 10 (chars.map digit))) ∧
      ((s.located first).1, signedNat (decide (c ≠ chr '-')) (readDigits 10 (chars.map digit))) = out := by
  have hzero : ∀ adding, signedNat adding 0 = 0 := by
    intro adding
    cases adding <;> rfl
  obtain rfl | rfl := hc
  · have hnext : s.validateChar strip (chr '+') n = { s with state := .exponentSign } := by
      rw [validateChar_exponentOrSign hs, if_pos rfl]
    have hsave : (s.validateChar strip (chr '+') n).saveLocation s.state (first + n) =
        { s with state := .exponentSign } := by
      rw [saveLocation_exponentOrSign hs, hnext]
    rw [accepts_cons hsave (by simp [hnext]) (by simp),
      accepts_exponent hT (.inl rfl) (k := 0) (by dsimp only; rw [hval, hzero])
        (by dsimp only; rw [hval]; exact T.fits_zero)]
    dsimp only
    rw [hpositive]
    exact Iff.rfl
  · have hnext : s.validateChar strip (chr '-') n =
        { s with state := .exponentSign, exponentPositive := false } := by
      rw [validateChar_exponentOrSign hs, if_neg (by decide), if_pos rfl]
    have hsave : (s.validateChar strip (chr '-') n).saveLocation s.state (first + n) =
        { s with state := .exponentSign, exponentPositive := false } := by
      rw [saveLocation_exponentOrSign hs, hnext]
    rw [accepts_cons hsave (by simp [hnext]) (by simp),
      accepts_exponent hT (.inl rfl) (k := 0) (by dsimp only; rw [hval, hzero])
        (by dsimp only; rw [hval]; exact T.fits_zero)]
    exact Iff.rfl

/-- Digits. The first of them is read as one behind a sign is. -/
theorem accepts_digit (hT : T.signed = true) (hc : isDigit c = true) :
    Accepts T strip first (c :: chars) n s out ↔ IsDigits (c :: chars) ∧
      T.Fits (signedNat true (readDigits 10 ((c :: chars).map digit))) ∧
      ((s.located first).1, signedNat true (readDigits 10 ((c :: chars).map digit))) = out := by
  have hspace := not_isWhitespace_of_isDigit hc
  have hnext : s.validateChar strip c n = { s with state := .exponent } := by
    have hplus : c ≠ chr '+' := by
      rintro rfl
      exact absurd hc (by decide)
    have hminus : c ≠ chr '-' := by
      rintro rfl
      exact absurd hc (by decide)
    rw [validateChar_exponentOrSign hs, if_neg hplus, if_neg hminus, hspace, hc]
    simp
  have hsame : Accepts T strip first (c :: chars) n s out ↔
      Accepts T strip first (c :: chars) n { s with state := .exponentSign } out := by
    have hsign : DecimalScan.validateChar strip { s with state := .exponentSign } c n =
        { s with state := .exponent } := by
      simp [DecimalScan.validateChar, hc]
    have hsave : DecimalScan.saveLocation .exponentSign { s with state := .exponent } (first + n) =
        { s with state := .exponent } := by
      simp [DecimalScan.saveLocation]
    unfold Accepts
    rw [decimalLoop, decimalLoop]
    dsimp only
    rw [hnext, hsign, saveLocation_exponentOrSign hs, hsave]
  rw [hsame, accepts_exponent hT (.inl rfl) (k := 0) (by dsimp only; rw [hval]; cases s.exponentPositive <;> rfl)
    (by dsimp only; rw [hval]; exact T.fits_zero)]
  dsimp only
  rw [hpositive]
  exact Iff.rfl

omit hval hpositive in
/-- White space behind an `e` without digits. -/
theorem accepts_blank (hn : n ≠ 0) (hstrip : strip = true) (hc : isWhitespace c = true) :
    Accepts T strip first (c :: chars) n s out ↔
      (∀ c ∈ chars, isWhitespace c = true) ∧ s.located first = out := by
  have hnext : s.validateChar strip c n = { s with state := .trailingWhitespace } := by
    have hplus : c ≠ chr '+' := by
      rintro rfl
      exact absurd hc (by decide)
    have hminus : c ≠ chr '-' := by
      rintro rfl
      exact absurd hc (by decide)
    rw [validateChar_exponentOrSign hs, if_neg hplus, if_neg hminus, hstrip, hc]
    simp [hn]
  have hsave : (s.validateChar strip c n).saveLocation s.state (first + n) =
      { s with state := .trailingWhitespace } := by
    rw [saveLocation_exponentOrSign hs, hnext]
  rw [accepts_cons hsave (by simp [hnext]) (by simp)]
  exact accepts_trailing rfl

/-- From a marker on the scan accepts an exponent, and white space if it has neither sign nor digits. -/
theorem accepts_exponentOrSign (hT : T.signed = true) (hn : n ≠ 0) {marker : Byte}
    (hmarker : marker = chr 'e' ∨ marker = chr 'E') :
    Accepts T strip first chars n s out ↔ ∃ (e : ExponentText) (spaces : List Byte),
      marker :: chars = e.text ++ spaces ∧ Blanks strip spaces ∧ (spaces ≠ [] → e.Bare) ∧ T.Fits e.val ∧
        ((s.located first).1, e.val) = out := by
  have hlocated : ((s.located first).1, (0 : Int)) = s.located first := by
    rw [DecimalScan.located, hval]
  constructor
  · intro h
    cases chars with
    | nil =>
      rw [accepts_nil] at h
      exact ⟨⟨marker, [], [], hmarker, .inl rfl, by simp [IsDigits]⟩, [], rfl, by simp [Blanks], by simp,
        T.fits_zero, hlocated.trans h⟩
    | cons c chars =>
      -- the four branches of the source: a sign, a digit, white space, and anything else
      by_cases hsign : c = chr '+' ∨ c = chr '-'
      · obtain ⟨hds, hfits, hout⟩ := (accepts_sign hs hval hpositive hT hsign).1 h
        have hc : [c] ≠ [chr '-'] ↔ c ≠ chr '-' := by simp
        refine ⟨⟨marker, [c], chars, hmarker, ?_, hds⟩, [], ?_, by simp [Blanks], by simp, ?_, ?_⟩
        · obtain rfl | rfl := hsign
          · exact .inr (.inl rfl)
          · exact .inr (.inr rfl)
        · simp [ExponentText.text]
        · unfold ExponentText.val
          simpa only [hc] using hfits
        · unfold ExponentText.val
          simpa only [hc] using hout
      by_cases hdigit : isDigit c = true
      · obtain ⟨hds, hfits, hout⟩ := (accepts_digit hs hval hpositive hT hdigit).1 h
        exact ⟨⟨marker, [], c :: chars, hmarker, .inl rfl, hds⟩, [], by simp [ExponentText.text],
          by simp [Blanks], by simp, hfits, hout⟩
      by_cases hspace : strip = true ∧ isWhitespace c = true
      · obtain ⟨hspaces, hout⟩ := (accepts_blank hs hn hspace.1 hspace.2).1 h
        refine ⟨⟨marker, [], [], hmarker, .inl rfl, by simp [IsDigits]⟩, c :: chars, rfl, ?_,
          fun _ => ⟨rfl, rfl⟩, T.fits_zero, hlocated.trans hout⟩
        intro c' hc'
        obtain rfl | hmem := List.mem_cons.1 hc'
        · exact hspace
        · exact ⟨hspace.1, hspaces c' hmem⟩
      · refine absurd h (not_accepts_cons ?_)
        obtain ⟨hplus, hminus⟩ := not_or.1 hsign
        rw [validateChar_exponentOrSign hs, if_neg hplus, if_neg hminus, if_neg, if_pos]
        · simpa using hdigit
        · simp only [Bool.and_eq_true, decide_eq_true_eq]
          exact fun h => hspace h.1
  · rintro ⟨⟨marker', sign, ds, hmarker', hsign, hds⟩, spaces, htext, hspaces, hbare, hfits, hout⟩
    have hchars : chars = sign ++ (ds ++ spaces) := by
      have htail : chars = (sign ++ ds) ++ spaces := (List.cons.inj htext).2
      rwa [List.append_assoc] at htail
    -- behind a sign or a digit there is no white space
    have hno : sign ≠ [] ∨ ds ≠ [] → spaces = [] := by
      intro hsome
      by_contra hne
      obtain ⟨hsign, hds⟩ := hbare hne
      obtain h | h := hsome
      · exact h hsign
      · exact h hds
    rw [hchars]
    by_cases hnil : sign = []
    · subst hnil
      cases ds with
      | nil =>
        cases spaces with
        | nil => exact accepts_nil.2 (hlocated.symm.trans hout)
        | cons c spaces =>
          obtain ⟨hstrip, hc⟩ := hspaces c (List.mem_cons_self ..)
          refine (accepts_blank hs hn hstrip hc).2 ⟨fun c hc => ?_, hlocated.symm.trans hout⟩
          exact (hspaces c (List.mem_cons_of_mem _ hc)).2
      | cons c ds =>
        obtain rfl := hno (.inr (by simp))
        rw [List.append_nil]
        exact (accepts_digit hs hval hpositive hT (hds c (List.mem_cons_self ..))).2 ⟨hds, hfits, hout⟩
    · obtain rfl := hno (.inl hnil)
      rw [List.append_nil]
      obtain rfl | rfl | rfl := hsign
      · exact absurd rfl hnil
      · exact (accepts_sign hs hval hpositive hT (.inl rfl)).2 ⟨hds, hfits, hout⟩
      · exact (accepts_sign hs hval hpositive hT (.inr rfl)).2 ⟨hds, hfits, hout⟩

end

/-! ### Behind the digits -/

/-- The place of the point, where the digits end with the character `n`. -/
def DecimalScan.pointAt (s : DecimalScan) (n : ℕ) : Int :=
  if s.decimalLocation < 0 then n else s.decimalLocation

section

variable (hs : s.state = .digits ∨ s.state = .decimalPoint)

include hs

theorem validateChar_digits (n : ℕ) (c : Byte) : s.validateChar strip c n =
    if !isDigit c then
      if c = chr '.' ∧ s.decimalLocation = -1 then { s with state := .decimalPoint, decimalLocation := n }
      else if c = chr 'e' ∨ c = chr 'E' then { s with state := .exponentOrSign }
      else if strip && isWhitespace c && n ≠ 0 then { s with state := .trailingWhitespace }
      else { s with state := .invalid }
    else { s with state := .digits } := by
  obtain hs | hs := hs <;> rw [DecimalScan.validateChar, hs]

/-- Where the digits end, their end is saved, unless there was a point. -/
theorem saveLocation_digits {next : ProcessingState} (hnext : next ≠ .digits ∧ next ≠ .decimalPoint)
    (hpoint : s.decimalLocation < 0 → s.state = .digits) : ∃ s' : DecimalScan,
      DecimalScan.saveLocation s.state { s with state := next } (first + n) = s' ∧ s'.state = next ∧
        s'.exponentVal = s.exponentVal ∧ s'.exponentPositive = s.exponentPositive ∧
        s'.located first = (s.pointAt n, s.exponentVal) := by
  refine ⟨_, rfl, ?_, ?_, ?_, ?_⟩
  · unfold DecimalScan.saveLocation
    split_ifs <;> rfl
  · unfold DecimalScan.saveLocation
    split_ifs <;> rfl
  · unfold DecimalScan.saveLocation
    split_ifs <;> rfl
  · unfold DecimalScan.saveLocation DecimalScan.pointAt
    obtain hs | hs := hs
    · rw [if_pos ⟨hs, hnext⟩]
      simp [DecimalScan.located]
    · have hdl : ¬s.decimalLocation < 0 := by
        intro hlt
        rw [hpoint hlt] at hs
        exact absurd hs (by simp)
      rw [if_neg (by simp [hs]), if_neg hdl]
      simp [DecimalScan.located, hdl]

theorem accepts_tail (hT : T.signed = true) (hval : s.exponentVal = 0) (hpositive : s.exponentPositive = true)
    (hpoint : s.decimalLocation < 0 → s.state = .digits)
    (hlast : s.decimalLocation < 0 → s.lastDigit = first + n + chars.length)
    (hdigit : ∀ c ∈ chars.head?, isDigit c = false)
    (hdot : ∀ c ∈ chars.head?, ¬(c = chr '.' ∧ s.decimalLocation = -1)) :
    Accepts T strip first chars n s out ↔
      ∃ v, TailText T strip n chars v ∧ (s.pointAt n, v) = out := by
  cases chars with
  | nil =>
    have hlocated : s.located first = (s.pointAt n, 0) := by
      unfold DecimalScan.located DecimalScan.pointAt
      rw [hval]
      split_ifs with hlt
      · rw [hlast hlt]
        simp
      · rfl
    rw [accepts_nil, hlocated]
    constructor
    · intro hout
      exact ⟨0, .spaces (by simp [Blanks]) (by simp), hout⟩
    · rintro ⟨v, htail, hout⟩
      generalize hnil : ([] : List Byte) = text at htail
      cases htail with
      | spaces => exact hout
      | exponent e => exact absurd hnil (by simp [ExponentText.text])
  | cons c chars =>
    have hchar := @validateChar_digits strip s hs n c
    rw [hdigit c rfl, Bool.not_false, if_pos rfl, if_neg (hdot c rfl)] at hchar
    by_cases hmarker : c = chr 'e' ∨ c = chr 'E'
    -- an exponent, which the scan reads from its marker on
    · rw [if_pos hmarker] at hchar
      obtain ⟨s', hsave, hstate, hval', hpositive', hlocated⟩ :=
        @saveLocation_digits first n s hs .exponentOrSign (by simp) hpoint
      have hstep : (s.validateChar strip c n).saveLocation s.state (first + n) = s' := by
        rw [hchar, hsave]
      rw [accepts_cons hstep (by simp [hchar]) (by simp [hstate]),
        accepts_exponentOrSign hstate (hval'.trans hval) (hpositive'.trans hpositive) hT (by omega) hmarker,
        hlocated]
      constructor
      · rintro ⟨e, spaces, htext, hspaces, hbare, hfits, hout⟩
        rw [htext]
        exact ⟨_, .exponent e hspaces hbare hfits, hout⟩
      · rintro ⟨v, htail, hout⟩
        generalize htext : c :: chars = text at htail
        cases htail with
        | spaces hspaces =>
          rw [← htext] at hspaces
          have hspace := (hspaces c (List.mem_cons_self ..)).2
          obtain rfl | rfl := hmarker
          · exact absurd hspace (by decide)
          · exact absurd hspace (by decide)
        | exponent e hspaces hbare hfits => exact ⟨e, _, rfl, hspaces, hbare, hfits, hout⟩
    -- no exponent: only white space can follow, and only behind a character of the number
    · rw [if_neg hmarker] at hchar
      have hno : ∀ v, TailText T strip n (c :: chars) v ↔
          (∀ c' ∈ c :: chars, strip = true ∧ isWhitespace c' = true) ∧ n ≠ 0 ∧ v = 0 := by
        intro v
        constructor
        · intro htail
          generalize htext : c :: chars = text at htail
          cases htail with
          | spaces h hn => exact ⟨h, hn (by simp [← htext]), rfl⟩
          | exponent e =>
            obtain rfl : c = e.marker := (List.cons.inj htext).1
            exact absurd e.isMarker hmarker
        · rintro ⟨h, hn, rfl⟩
          exact .spaces h fun _ => hn
      simp only [hno]
      by_cases hspace : (strip && isWhitespace c && decide (n ≠ 0)) = true
      · rw [if_pos hspace] at hchar
        obtain ⟨⟨hstrip, hc⟩, hn⟩ : (strip = true ∧ isWhitespace c = true) ∧ n ≠ 0 := by simpa using hspace
        obtain ⟨s', hsave, hstate, -, -, hlocated⟩ :=
          @saveLocation_digits first n s hs .trailingWhitespace (by simp) hpoint
        have hstep : (s.validateChar strip c n).saveLocation s.state (first + n) = s' := by
          rw [hchar, hsave]
        rw [accepts_cons hstep (by simp [hchar]) (by simp [hstate]), accepts_trailing hstate, hlocated, hval]
        constructor
        · rintro ⟨hspaces, hout⟩
          refine ⟨0, ⟨fun c' hc' => ⟨hstrip, ?_⟩, hn, rfl⟩, hout⟩
          obtain rfl | hmem := List.mem_cons.1 hc'
          · exact hc
          · exact hspaces c' hmem
        · rintro ⟨v, ⟨hspaces, -, rfl⟩, hout⟩
          exact ⟨fun c' hc' => (hspaces c' (List.mem_cons_of_mem _ hc')).2, hout⟩
      · rw [if_neg hspace] at hchar
        refine iff_of_false (not_accepts_cons (by rw [hchar])) ?_
        rintro ⟨v, ⟨hspaces, hn, -⟩, -⟩
        obtain ⟨hstrip, hc⟩ := hspaces c (List.mem_cons_self ..)
        exact hspace (by simp [hstrip, hc, hn])

/-- One more digit of the number. -/
theorem accepts_number (hc : isDigit c = true) : Accepts T strip first (c :: chars) n s out ↔
    Accepts T strip first chars (n + 1) { s with state := .digits } out := by
  have hchar : s.validateChar strip c n = { s with state := .digits } := by
    rw [validateChar_digits hs, hc]
    rfl
  have hsave : (s.validateChar strip c n).saveLocation s.state (first + n) =
      { s with state := .digits } := by
    rw [hchar, DecimalScan.saveLocation, if_neg (by simp)]
  exact accepts_cons hsave (by simp [hchar]) (by simp)

end

/-- A point and digits, or nothing. -/
def pointText : Option (List Byte) → List Byte
  | none => []
  | some fs => chr '.' :: fs

/-- What is behind the digits does not begin with a digit or a point. -/
theorem TailText.head {v : Int} (h : TailText T strip n chars v) (hc : c ∈ chars.head?) :
    isDigit c = false ∧ c ≠ chr '.' := by
  cases h with
  | spaces hspaces =>
    have hspace := (hspaces c (List.mem_of_mem_head? hc)).2
    constructor
    · rw [← Bool.not_eq_true]
      intro hdigit
      rw [not_isWhitespace_of_isDigit hdigit] at hspace
      exact absurd hspace (by simp)
    · rintro rfl
      exact absurd hspace (by decide)
  | exponent e =>
    obtain rfl : e.marker = c := Option.some.inj hc
    have hmarker := e.isMarker
    generalize e.marker = marker at hmarker
    obtain rfl | rfl := hmarker <;> exact ⟨by decide, by decide⟩

/-- Behind the point. -/
theorem accepts_fraction (hT : T.signed = true) (hs : s.state = .digits ∨ s.state = .decimalPoint)
    (hval : s.exponentVal = 0) (hpositive : s.exponentPositive = true) (hpoint : 0 ≤ s.decimalLocation) :
    Accepts T strip first chars n s out ↔ ∃ ds tail v, chars = ds ++ tail ∧ IsDigits ds ∧
      TailText T strip (n + ds.length) tail v ∧ (s.decimalLocation, v) = out := by
  induction chars generalizing n s with
  | nil =>
    rw [accepts_tail hs hT hval hpositive (by omega) (by omega) (by simp) (by simp),
      DecimalScan.pointAt, if_neg (by omega)]
    constructor
    · rintro ⟨v, htail, hout⟩
      exact ⟨[], [], v, rfl, by simp [IsDigits], htail, hout⟩
    · rintro ⟨ds, tail, v, hnil, -, htail, hout⟩
      obtain ⟨rfl, rfl⟩ := List.append_eq_nil_iff.1 hnil.symm
      exact ⟨v, htail, hout⟩
  | cons c chars ih =>
    by_cases hc : isDigit c = true
    -- a digit of the fraction, and the rest by induction
    · have hmore := @ih (n + 1) { s with state := .digits } (.inl rfl) hval hpositive hpoint
      dsimp only at hmore
      rw [accepts_number hs hc, hmore]
      constructor
      · rintro ⟨ds, tail, v, rfl, hds, htail, hout⟩
        refine ⟨c :: ds, tail, v, rfl, ?_, ?_, hout⟩
        · exact List.forall_mem_cons.2 ⟨hc, hds⟩
        · rwa [List.length_cons, ← add_assoc, add_right_comm]
      · rintro ⟨ds, tail, v, hchars, hds, htail, hout⟩
        cases ds with
        | nil =>
          obtain rfl : tail = c :: chars := hchars.symm
          exact absurd hc (by simp [(htail.head rfl).1])
        | cons c' ds =>
          obtain ⟨rfl, rfl⟩ := List.cons.inj hchars
          refine ⟨ds, tail, v, rfl, fun c hc => hds c (List.mem_cons_of_mem _ hc), ?_, hout⟩
          rwa [List.length_cons, ← add_assoc, add_right_comm] at htail
    · rw [accepts_tail hs hT hval hpositive (by omega) (by omega)
          (fun c' hc' => by obtain rfl := Option.some.inj hc'; simpa using hc) (fun _ _ h => by omega),
        DecimalScan.pointAt, if_neg (by omega)]
      constructor
      · rintro ⟨v, htail, hout⟩
        exact ⟨[], c :: chars, v, rfl, by simp [IsDigits], htail, hout⟩
      · rintro ⟨ds, tail, v, hchars, hds, htail, hout⟩
        cases ds with
        | nil =>
          obtain rfl : tail = c :: chars := hchars.symm
          exact ⟨v, htail, hout⟩
        | cons c' ds =>
          obtain ⟨rfl, rfl⟩ := List.cons.inj hchars
          exact absurd (hds _ (List.mem_cons_self ..)) hc

/-- Before the point. -/
theorem accepts_whole (hT : T.signed = true) (hs : s.state = .digits) (hval : s.exponentVal = 0)
    (hpositive : s.exponentPositive = true) (hpoint : s.decimalLocation = -1)
    (hlast : s.lastDigit = first + n + chars.length) :
    Accepts T strip first chars n s out ↔ ∃ ds frac tail v, chars = ds ++ (pointText frac ++ tail) ∧
      IsDigits ds ∧ (∀ fs ∈ frac, IsDigits fs) ∧
      TailText T strip (n + ds.length + (pointText frac).length) tail v ∧ ((n : Int) + ds.length, v) = out := by
  have hpointAt : ∀ n, s.pointAt n = n := by
    intro n
    rw [DecimalScan.pointAt, if_pos (by omega)]
  induction chars generalizing n s with
  | nil =>
    rw [accepts_tail (.inl hs) hT hval hpositive (fun _ => hs) (fun _ => hlast) (by simp) (by simp), hpointAt]
    constructor
    · rintro ⟨v, htail, hout⟩
      exact ⟨[], none, [], v, rfl, by simp [IsDigits], by simp, htail, by simpa using hout⟩
    · rintro ⟨ds, frac, tail, v, hnil, -, -, htail, hout⟩
      obtain ⟨rfl, hrest⟩ := List.append_eq_nil_iff.1 hnil.symm
      obtain ⟨hfrac, rfl⟩ := List.append_eq_nil_iff.1 hrest
      rw [hfrac] at htail
      exact ⟨v, htail, by simpa using hout⟩
  | cons c chars ih =>
    by_cases hc : isDigit c = true
    -- a digit of the whole part, and the rest by induction
    · have hnext : ∀ m : ℕ, DecimalScan.pointAt { s with state := .digits } m = m := hpointAt
      rw [List.length_cons] at hlast
      have hend : s.lastDigit = first + (n + 1) + chars.length := by omega
      refine (accepts_number (.inl hs) hc).trans
        ((@ih (n + 1) { s with state := .digits } rfl hval hpositive hpoint hend hnext).trans ?_)
      constructor
      · rintro ⟨ds, frac, tail, v, rfl, hds, hfrac, htail, hout⟩
        refine ⟨c :: ds, frac, tail, v, rfl, List.forall_mem_cons.2 ⟨hc, hds⟩, hfrac, ?_, ?_⟩
        · rwa [List.length_cons, ← add_assoc, add_right_comm n]
        · rw [← hout, List.length_cons]
          push_cast
          rw [add_right_comm, add_assoc]
      · rintro ⟨ds, frac, tail, v, hchars, hds, hfrac, htail, hout⟩
        cases ds with
        | nil =>
          -- a digit begins neither a point nor a tail
          exfalso
          cases frac with
          | none =>
            rw [show tail = c :: chars from hchars.symm] at htail
            exact absurd hc (by simp [(htail.head rfl).1])
          | some fs =>
            obtain rfl : c = chr '.' := (List.cons.inj hchars).1
            exact absurd hc (by decide)
        | cons c' ds =>
          obtain ⟨rfl, rfl⟩ := List.cons.inj hchars
          refine ⟨ds, frac, tail, v, rfl, fun c hc => hds c (List.mem_cons_of_mem _ hc), hfrac, ?_, ?_⟩
          · rwa [List.length_cons, ← add_assoc, add_right_comm n] at htail
          · rw [← hout, List.length_cons]
            push_cast
            rw [add_right_comm, add_assoc]
    by_cases hdot : c = chr '.'
    · -- the point
      subst hdot
      have hchar : s.validateChar strip (chr '.') n =
          { s with state := .decimalPoint, decimalLocation := n } := by
        rw [validateChar_digits (.inl hs), not_isDigit_point, Bool.not_false, if_pos rfl, if_pos ⟨rfl, hpoint⟩]
      have hsave : (s.validateChar strip (chr '.') n).saveLocation s.state (first + n) =
          { s with state := .decimalPoint, decimalLocation := n } := by
        rw [hchar, DecimalScan.saveLocation, if_neg (by simp)]
      rw [accepts_cons hsave (by simp [hchar]) (by simp),
        accepts_fraction (s := { s with state := .decimalPoint, decimalLocation := n }) hT (.inr rfl) hval
          hpositive (by dsimp only; omega)]
      dsimp only
      constructor
      · rintro ⟨fs, tail, v, rfl, hfs, htail, hout⟩
        refine ⟨[], some fs, tail, v, rfl, by simp [IsDigits], ?_, ?_, by simpa using hout⟩
        · intro fs' hfs'
          obtain rfl := Option.some.inj hfs'
          exact hfs
        · have hlen : n + 0 + (fs.length + 1) = n + 1 + fs.length := by omega
          show TailText T strip (n + 0 + (fs.length + 1)) tail v
          rwa [hlen]
      · rintro ⟨ds, frac, tail, v, hchars, hds, hfrac, htail, hout⟩
        cases ds with
        | nil =>
          cases frac with
          | none =>
            rw [show tail = chr '.' :: chars from hchars.symm] at htail
            exact absurd rfl (htail.head rfl).2
          | some fs =>
            have hlen : n + 0 + (fs.length + 1) = n + 1 + fs.length := by omega
            obtain rfl : chars = fs ++ tail := (List.cons.inj hchars).2
            refine ⟨fs, tail, v, rfl, hfrac fs rfl, ?_, by simpa using hout⟩
            rw [← hlen]
            exact htail
        | cons c' ds =>
          obtain ⟨rfl, -⟩ := List.cons.inj hchars
          exact absurd (hds _ (List.mem_cons_self ..)) (by decide)
    · rw [accepts_tail (.inl hs) hT hval hpositive (fun _ => hs) (fun _ => hlast)
        (fun c' hc' => by obtain rfl := Option.some.inj hc'; simpa using hc)
        (fun c' hc' h => by obtain rfl := Option.some.inj hc'; exact hdot h.1), hpointAt]
      constructor
      · rintro ⟨v, htail, hout⟩
        exact ⟨[], none, c :: chars, v, rfl, by simp [IsDigits], by simp, htail, by simpa using hout⟩
      · rintro ⟨ds, frac, tail, v, hchars, hds, hfrac, htail, hout⟩
        cases ds with
        | nil =>
          cases frac with
          | none =>
            rw [show tail = c :: chars from hchars.symm] at htail
            exact ⟨v, htail, by simpa using hout⟩
          | some fs =>
            obtain rfl : c = chr '.' := (List.cons.inj hchars).1
            exact absurd rfl hdot
        | cons c' ds =>
          obtain ⟨rfl, -⟩ := List.cons.inj hchars
          exact absurd (hds _ (List.mem_cons_self ..)) hc

end

example : validateAndExponent DecimalType.int32.integers true (" -12.5e-3".toList.map chr) [] =
    some (some ⟨false, -1, 2⟩) := by decide

end SparkRapids.CastString
