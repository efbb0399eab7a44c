import SparkRapidsJni.CastString.ValidateDecimal

/-!
# `cast_string.cu`: which decimals are read

Of the texts that the scan of decimals accepts, the literals are those where no digits are missing.
`validateAndExponent_spec` says what the scan returns for every row; from it follows for which rows it does
what it should, to accept the literals and to find their values, within the row (`validate_exact_iff`). It
does not for rows of white space, for texts without digits, for white space behind an exponent and for
exponents that do not fit.
-/

namespace SparkRapids.CastString

open Ascii Numerals

/-! ### Decimals -/

/-- A sign, digits, a point with digits and an exponent, where any digits may be missing. -/
@[ext] structure DecimalText where
  sign : List Byte
  whole : List Byte
  frac : Option (List Byte)
  exponent : Option ExponentText
  isSign : IsSign sign
  isDigits : IsDigits whole
  isFrac : ∀ fs ∈ frac, IsDigits fs

/-- The text of an exponent, or nothing. -/
def exponentText : Option ExponentText → List Byte
  | none => []
  | some e => e.text

namespace DecimalText

/-- The digits and the point. -/
def mantissa (s : DecimalText) : List Byte := s.whole ++ pointText s.frac

def text (s : DecimalText) : List Byte := s.sign ++ (s.mantissa ++ exponentText s.exponent)

/-- All digits but those of the exponent. -/
def digits (s : DecimalText) : List Byte := s.whole ++ s.frac.getD []

def exponentVal (s : DecimalText) : Int :=
  match s.exponent with
  | none => 0
  | some e => e.val

/-- The place of the point in the digits. -/
def location (s : DecimalText) : Int := s.whole.length + s.exponentVal

/-- The exact value. -/
def value (s : DecimalText) : ℚ :=
  (if s.sign = [chr '-'] then -1 else 1) * readDigits 10 (s.digits.map digit) *
    10 ^ (s.exponentVal - (s.frac.getD []).length)

/-- A decimal literal: there are digits, also of an exponent. -/
def IsLiteral (s : DecimalText) : Prop := s.digits ≠ [] ∧ ∀ e ∈ s.exponent, e.digits ≠ []

/-- What the scan reads: not nothing, an exponent that fits, and white space only behind a bare `e`. -/
structure Scanned (T : IntType) (blanksBehind : Prop) (s : DecimalText) : Prop where
  nonempty : s.mantissa ≠ [] ∨ s.exponent ≠ none
  fits : T.Fits s.exponentVal
  bare : blanksBehind → ∀ e ∈ s.exponent, e.Bare

/-- What the scan returns, behind some skipped characters. -/
def validated (s : DecimalText) (skipped : ℕ) : Validated :=
  ⟨decide (s.sign ≠ [chr '-']), MachineInt.int32 s.location, skipped + s.sign.length⟩

end DecimalText

/-! ### The scan of a row -/

section

variable {T : IntType} {strip : Bool} {row text : List Byte}

/-- Machine integers always have a result. -/
theorem processValue_wrap (first : Bool) (v d : Int) (adding : Bool) :
    ∃ r, processValue T (fun x => some (T.wrap x)) first v d adding = some r := by
  obtain ⟨overflow, hoverflow⟩ : ∃ overflow, willOverflow T (fun x => some (T.wrap x))
      (if first then v else T.wrap (v * 10)) d adding = some overflow := by
    unfold willOverflow
    split_ifs <;> exact ⟨_, rfl⟩
  unfold processValue
  cases first <;> cases hten : willOverflowTimesTen T v adding <;> cases overflow <;> simp_all

theorem decimalLoop_ne_none (firstDigit : ℕ) (chars : List Byte) (n : ℕ) (s : DecimalScan) :
    decimalLoop T strip firstDigit chars n s ≠ none := by
  induction chars generalizing n s with
  | nil => simp [decimalLoop]
  | cons c chars ih =>
    rw [decimalLoop]
    dsimp only
    split_ifs
    · simp
    · split
      · next h =>
        obtain ⟨r, hr⟩ := @processValue_wrap T _ _ _ _
        exact absurd (hr.symm.trans h) (by simp)
      · simp
      · exact ih _ _
    · exact ih _ _

/-- What is behind the digits, as an exponent and white space. -/
theorem tailText_iff {n : ℕ} {v : Int} : TailText T strip n text v ↔
    ∃ (exponent : Option ExponentText) (spaces : List Byte), text = exponentText exponent ++ spaces ∧
      Blanks strip spaces ∧ (spaces ≠ [] → (∀ e ∈ exponent, e.Bare) ∧ (exponent = none → n ≠ 0)) ∧
      T.Fits (match exponent with | none => 0 | some e => e.val) ∧
      v = match exponent with | none => 0 | some e => e.val := by
  constructor
  · intro h
    cases h with
    | spaces h hn =>
      exact ⟨none, text, rfl, h, fun hne => ⟨by simp, fun _ => hn hne⟩, T.fits_zero, rfl⟩
    | @exponent spaces e h hbare hfits =>
      refine ⟨some e, spaces, rfl, h, fun hne => ⟨fun e' he' => ?_, by simp⟩, hfits, rfl⟩
      obtain rfl := Option.some.inj he'
      exact hbare hne
  · rintro ⟨exponent, spaces, rfl, h, hbehind, hfits, rfl⟩
    cases exponent with
    | none => exact .spaces h fun hne => (hbehind hne).2 rfl
    | some e => exact .exponent e h (fun hne => (hbehind hne).1 e rfl) hfits

/-- The characters behind the sign. -/
theorem loop_body (hT : T.signed = true) {firstDigit : ℕ} {body : List Byte} (hne : body ≠ []) {len : ℕ}
    (hlen : len = firstDigit + body.length) (out : Int × Int) :
    Accepts T strip firstDigit body 0 ⟨.digits, -1, true, len, 0⟩ out ↔
      ∃ (s : DecimalText) (spaces : List Byte), s.sign = [] ∧
        body = s.mantissa ++ exponentText s.exponent ++ spaces ∧ Blanks strip spaces ∧
        s.Scanned T (spaces ≠ []) ∧ ((s.whole.length : Int), s.exponentVal) = out := by
  rw [accepts_whole hT rfl rfl rfl rfl (by dsimp only; omega)]
  constructor
  · rintro ⟨ds, frac, tail, v, hbody, hds, hfrac, htail, hout⟩
    obtain ⟨exponent, spaces, rfl, hspaces, hbehind, hfits, rfl⟩ := tailText_iff.1 htail
    refine ⟨⟨[], ds, frac, exponent, .inl rfl, hds, hfrac⟩, spaces, rfl, ?_, hspaces,
      ⟨?_, hfits, fun h => (hbehind h).1⟩, by rw [← hout, Nat.cast_zero, zero_add]; rfl⟩
    · rw [hbody, DecimalText.mantissa, List.append_assoc, List.append_assoc]
    · -- else there is white space in the place of the digits
      by_contra hempty
      obtain ⟨hmantissa, hexp⟩ := not_or.1 hempty
      rw [not_not] at hmantissa hexp
      obtain ⟨rfl, hpoint⟩ := List.append_eq_nil_iff.1 hmantissa
      dsimp only at hpoint hexp
      subst hexp
      rw [hpoint] at hbody hbehind
      have hspaces : spaces ≠ [] := by
        rintro rfl
        exact hne hbody
      exact (hbehind hspaces).2 rfl rfl
  · rintro ⟨s, spaces, -, hbody, hspaces, hscan, hout⟩
    refine ⟨s.whole, s.frac, exponentText s.exponent ++ spaces, s.exponentVal, ?_, s.isDigits, s.isFrac,
      tailText_iff.2 ⟨s.exponent, spaces, rfl, hspaces, fun h => ⟨hscan.bare h, fun hnone => ?_⟩,
        hscan.fits, rfl⟩, by simpa using hout⟩
    · rw [hbody, DecimalText.mantissa, List.append_assoc, List.append_assoc]
    · have hmantissa := hscan.nonempty.resolve_right (not_not.2 hnone)
      have hlength := List.length_pos_iff.2 hmantissa
      rw [DecimalText.mantissa, List.length_append] at hlength
      omega

/-! ### The sign -/

/-- A character that is no sign. -/
def NotSign (c : Byte) : Prop := c ≠ chr '-' ∧ c ≠ chr '+'

theorem notSign_of_isDigit {c : Byte} (h : isDigit c = true) : NotSign c := by
  constructor
  · rintro rfl
    exact absurd h (by decide)
  · rintro rfl
    exact absurd h (by decide)

theorem exists_sign (chars : List Byte) : ∃ sign body, chars = sign ++ body ∧ IsSign sign ∧
    (sign = [] → ∀ c ∈ body.head?, NotSign c) := by
  cases chars with
  | nil => exact ⟨[], [], rfl, .inl rfl, by simp⟩
  | cons c chars =>
    by_cases hplus : c = chr '+'
    · exact ⟨[chr '+'], chars, by rw [hplus]; rfl, .inr (.inl rfl), by simp⟩
    by_cases hminus : c = chr '-'
    · exact ⟨[chr '-'], chars, by rw [hminus]; rfl, .inr (.inr rfl), by simp⟩
    · refine ⟨[], c :: chars, rfl, .inl rfl, fun _ c' hc' => ?_⟩
      obtain rfl := Option.some.inj hc'
      exact ⟨hminus, hplus⟩

/-- A text begins with one sign only. -/
theorem sign_unique {sign sign' body body' : List Byte} (h : IsSign sign) (h' : IsSign sign')
    (hbody : sign = [] → ∀ c ∈ body.head?, NotSign c) (hbody' : sign' = [] → ∀ c ∈ body'.head?, NotSign c)
    (heq : sign ++ body = sign' ++ body') : sign = sign' ∧ body = body' := by
  have hfirst : ∀ {c : Byte} {x y : List Byte}, c = chr '+' ∨ c = chr '-' →
      (∀ c ∈ x.head?, NotSign c) → x ≠ c :: y := by
    rintro c x y hc hx rfl
    obtain ⟨hminus, hplus⟩ := hx c rfl
    obtain rfl | rfl := hc
    · exact hplus rfl
    · exact hminus rfl
  obtain rfl | rfl | rfl := h <;> obtain rfl | rfl | rfl := h'
  · exact ⟨rfl, heq⟩
  · exact absurd heq (hfirst (.inl rfl) (hbody rfl))
  · exact absurd heq (hfirst (.inr rfl) (hbody rfl))
  · exact absurd heq.symm (hfirst (.inl rfl) (hbody' rfl))
  · exact ⟨rfl, (List.cons.inj heq).2⟩
  · exact absurd (List.cons.inj heq).1 (by decide)
  · exact absurd heq.symm (hfirst (.inr rfl) (hbody' rfl))
  · exact absurd (List.cons.inj heq).1 (by decide)
  · exact ⟨rfl, (List.cons.inj heq).2⟩

/-- No sign is behind the one of a decimal. -/
theorem DecimalText.head_notSign (s : DecimalText) {spaces : List Byte} (hspaces : Blanks strip spaces) :
    ∀ c ∈ (s.mantissa ++ exponentText s.exponent ++ spaces).head?, NotSign c := by
  have hmarker : ∀ e : ExponentText, NotSign e.marker := by
    intro e
    have h := e.isMarker
    generalize e.marker = marker at h
    obtain rfl | rfl := h <;> exact ⟨by decide, by decide⟩
  intro c hc
  rw [mantissa] at hc
  -- the first character: a digit, the point, the marker or a space
  cases hwhole : s.whole with
  | cons d ds =>
    have hdigit := s.isDigits d (by rw [hwhole]; exact List.mem_cons_self ..)
    rw [hwhole] at hc
    obtain rfl : d = c := Option.some.inj hc
    exact notSign_of_isDigit hdigit
  | nil =>
    rw [hwhole] at hc
    cases hfrac : s.frac with
    | some fs =>
      rw [hfrac] at hc
      obtain rfl : chr '.' = c := Option.some.inj hc
      exact ⟨by decide, by decide⟩
    | none =>
      rw [hfrac] at hc
      cases hexp : s.exponent with
      | some e =>
        rw [hexp] at hc
        obtain rfl : e.marker = c := Option.some.inj hc
        exact hmarker e
      | none =>
        rw [hexp] at hc
        have hspace := (hspaces c (List.mem_of_mem_head? hc)).2
        constructor
        · rintro rfl
          exact absurd hspace (by decide)
        · rintro rfl
          exact absurd hspace (by decide)

/-! ### The scan, for all rows -/

/-- A decimal with another sign. -/
def DecimalText.withSign (s : DecimalText) {sign : List Byte} (h : IsSign sign) : DecimalText :=
  { s with sign := sign, isSign := h }

/-- The row is what is skipped, the sign and what is behind it. -/
theorem validateAndExponent_eq {sign body : List Byte} (hchars : trimStart strip row = sign ++ body)
    (hne : trimStart strip row ≠ []) (hsign : IsSign sign) (hbody : sign = [] → ∀ c ∈ body.head?, NotSign c)
    (behind : List Byte) : validateAndExponent T strip row behind =
      validateFrom T strip row (decide (sign ≠ [chr '-']))
        (row.length - (trimStart strip row).length + sign.length) := by
  have hempty : row.isEmpty = false := by
    rw [List.isEmpty_eq_false_iff]
    rintro rfl
    exact hne (by cases strip <;> rfl)
  obtain ⟨c, chars, hcons⟩ := List.exists_cons_of_ne_nil hne
  have hfirst : (trimStart strip row ++ behind).head? = some c := by
    rw [hcons]
    rfl
  have htrim : (if strip = true then row.dropWhile isWhitespace else row) = trimStart strip row := rfl
  unfold validateAndExponent
  rw [hempty]
  dsimp only
  rw [htrim, hfirst]
  rw [hcons] at hchars
  obtain rfl | rfl | rfl := hsign
  · obtain rfl : c :: chars = body := hchars
    obtain ⟨hminus, hplus⟩ := hbody rfl c rfl
    simp [hminus, hplus]
  · obtain rfl := (List.cons.inj hchars).1
    rfl
  · obtain rfl := (List.cons.inj hchars).1
    rfl

/-- The scan from the first digit on. -/
theorem validateFrom_spec (hT : T.signed = true) {leading sign body : List Byte}
    (hrow : row = leading ++ (sign ++ body)) (positive : Bool) :
    ∃ result, validateFrom T strip row positive (leading.length + sign.length) = some result ∧
      ∀ r, result = some r ↔ ∃ (s : DecimalText) (spaces : List Byte), s.sign = [] ∧
        body = s.mantissa ++ exponentText s.exponent ++ spaces ∧ Blanks strip spaces ∧
        s.Scanned T (spaces ≠ []) ∧
        r = ⟨positive, MachineInt.int32 s.location, leading.length + sign.length⟩ := by
  have hlen : row.length = leading.length + sign.length + body.length := by
    rw [hrow, List.length_append, List.length_append, add_assoc]
  have hdrop : row.drop (leading.length + sign.length) = body := by
    rw [hrow, ← List.append_assoc, ← List.length_append]
    exact List.drop_left
  unfold validateFrom
  rw [hdrop]
  by_cases hnil : body = []
  · refine ⟨none, if_pos (by rw [hlen, hnil]; rfl), fun r => iff_of_false (by simp) ?_⟩
    rintro ⟨s, spaces, -, hbody, -, hscan, -⟩
    obtain ⟨hbody, -⟩ := List.append_eq_nil_iff.1 (hbody.symm.trans hnil)
    obtain ⟨hmantissa, hexp⟩ := List.append_eq_nil_iff.1 hbody
    -- a literal without mantissa and exponent is not scanned
    obtain h | h := hscan.nonempty
    · exact h hmantissa
    · cases he : s.exponent with
      | none => exact h he
      | some e => rw [he] at hexp; exact absurd hexp (by simp [exponentText, ExponentText.text])
  · have hlength := List.length_pos_iff.2 hnil
    rw [if_neg (by omega)]
    have hbody := @loop_body T strip hT (leading.length + sign.length) body hnil row.length hlen
    cases hloop : decimalLoop T strip (leading.length + sign.length) body 0
        ⟨.digits, -1, true, row.length, 0⟩ with
    | none => exact absurd hloop (decimalLoop_ne_none _ _ _ _)
    | some last =>
      cases last with
      | none =>
        refine ⟨none, rfl, fun r => iff_of_false (by simp) ?_⟩
        rintro ⟨s, spaces, hsign, htext, hspaces, hscan, -⟩
        obtain ⟨s', hs', -⟩ := (hbody _).2 ⟨s, spaces, hsign, htext, hspaces, hscan, rfl⟩
        exact absurd (hloop.symm.trans hs') (by simp)
      | some last =>
        -- the loop ends in one state only
        have haccepts : ∀ out, Accepts T strip (leading.length + sign.length) body 0
            ⟨.digits, -1, true, row.length, 0⟩ out ↔
              last.located (leading.length + sign.length) = out := by
          intro out
          constructor
          · rintro ⟨s', hs', hout⟩
            obtain rfl : last = s' := Option.some.inj (Option.some.inj (hloop.symm.trans hs'))
            exact hout
          · intro hout
            exact ⟨last, hloop, hout⟩
        refine ⟨_, rfl, fun r => ?_⟩
        rw [Option.some.injEq]
        constructor
        · rintro rfl
          obtain ⟨s, spaces, hsign, htext, hspaces, hscan, hout⟩ := (hbody _).1 ((haccepts _).2 rfl)
          refine ⟨s, spaces, hsign, htext, hspaces, hscan, ?_⟩
          obtain ⟨hlocation, hval⟩ := Prod.mk.inj hout
          rw [DecimalText.location, hlocation, hval]
        · rintro ⟨s, spaces, hsign, htext, hspaces, hscan, rfl⟩
          have hout := (haccepts _).1 ((hbody _).2 ⟨s, spaces, hsign, htext, hspaces, hscan, rfl⟩)
          obtain ⟨hlocation, hval⟩ := Prod.mk.inj hout
          rw [DecimalText.location, ← hlocation, ← hval]

/-- The white space in front that the scan skips. -/
theorem exists_leading (strip : Bool) (row : List Byte) : ∃ leading, row = leading ++ trimStart strip row ∧
    row.length - (trimStart strip row).length = leading.length := by
  obtain ⟨leading, hrow⟩ : ∃ leading, row = leading ++ trimStart strip row := by
    cases strip with
    | false => exact ⟨[], rfl⟩
    | true => exact ⟨row.takeWhile isWhitespace, List.takeWhile_append_dropWhile.symm⟩
  have hlen := congrArg List.length hrow
  rw [List.length_append] at hlen
  exact ⟨leading, hrow, by omega⟩

/-- What the scan returns for a row that is not white space only. It does not read behind the row. -/
theorem validateAndExponent_spec (hT : T.signed = true) (hne : trimStart strip row ≠ []) :
    ∃ result, (∀ behind, validateAndExponent T strip row behind = some result) ∧
      ∀ r, result = some r ↔ ∃ (s : DecimalText) (spaces : List Byte),
        trimStart strip row = s.text ++ spaces ∧ Blanks strip spaces ∧ s.Scanned T (spaces ≠ []) ∧
          r = s.validated (row.length - (trimStart strip row).length) := by
  obtain ⟨leading, hrow, hskipped⟩ := exists_leading strip row
  obtain ⟨sign, body, hchars, hsign, hbody⟩ := exists_sign (trimStart strip row)
  have hkernel := @validateAndExponent_eq T strip row sign body hchars hne hsign hbody
  rw [hskipped] at hkernel ⊢
  obtain ⟨result, hresult, hiff⟩ := @validateFrom_spec T strip row hT leading sign body
    (by rw [← hchars]; exact hrow) (decide (sign ≠ [chr '-']))
  refine ⟨result, fun behind => (hkernel behind).trans hresult, fun r => (hiff r).trans ?_⟩
  constructor
  · rintro ⟨s, spaces, -, htext, hspaces, hscan, rfl⟩
    refine ⟨s.withSign hsign, spaces, ?_, hspaces, ⟨hscan.nonempty, hscan.fits, hscan.bare⟩, rfl⟩
    have hsame : (s.withSign hsign).text = sign ++ (s.mantissa ++ exponentText s.exponent) := rfl
    rw [hchars, htext, hsame]
    simp only [List.append_assoc]
  · rintro ⟨s, spaces, htext, hspaces, hscan, rfl⟩
    have hparts : sign ++ body = s.sign ++ (s.mantissa ++ exponentText s.exponent ++ spaces) := by
      rw [← hchars, htext, DecimalText.text, List.append_assoc]
    obtain ⟨rfl, rfl⟩ := sign_unique hsign s.isSign hbody (fun _ => s.head_notSign hspaces) hparts
    exact ⟨s.withSign (.inl rfl), spaces, rfl, rfl, hspaces,
      ⟨hscan.nonempty, hscan.fits, hscan.bare⟩, rfl⟩

/-! ### Texts are read in one way -/

theorem exponentText_head {exponent : Option ExponentText} {spaces : List Byte}
    (hspaces : Blanks strip spaces) :
    ∀ c ∈ (exponentText exponent ++ spaces).head?, isDigit c = false ∧ c ≠ chr '.' := by
  intro c hc
  cases exponent with
  | none => exact (TailText.spaces (T := DecimalType.int32.integers) (n := 1) hspaces fun _ => by decide).head hc
  | some e =>
    obtain rfl : e.marker = c := Option.some.inj hc
    have hmarker := e.isMarker
    generalize e.marker = marker at hmarker
    obtain rfl | rfl := hmarker <;> exact ⟨by decide, by decide⟩

theorem digits_unique {ds ds' rest rest' : List Byte} (h : IsDigits ds) (h' : IsDigits ds')
    (hrest : ∀ c ∈ rest.head?, isDigit c = false) (hrest' : ∀ c ∈ rest'.head?, isDigit c = false)
    (heq : ds ++ rest = ds' ++ rest') : ds = ds' ∧ rest = rest' := by
  obtain ⟨htake, hdrop⟩ := takeWhile_digits h hrest
  obtain ⟨htake', hdrop'⟩ := takeWhile_digits h' hrest'
  rw [heq] at htake hdrop
  exact ⟨htake.symm.trans htake', hdrop.symm.trans hdrop'⟩

theorem ExponentText.text_injective {e e' : ExponentText} (h : e.text = e'.text) : e = e' := by
  obtain ⟨hmarker, hbody⟩ := List.cons.inj h
  have hhead : ∀ e : ExponentText, ∀ c ∈ e.digits.head?, NotSign c :=
    fun e c hc => notSign_of_isDigit (e.isDigits c (List.mem_of_mem_head? hc))
  obtain ⟨hsign, hdigits⟩ := sign_unique e.isSign e'.isSign (fun _ => hhead e) (fun _ => hhead e') hbody
  exact ExponentText.ext hmarker hsign hdigits

theorem exponentText_injective {exponent exponent' : Option ExponentText}
    (h : exponentText exponent = exponentText exponent') : exponent = exponent' := by
  cases exponent with
  | none =>
    cases exponent' with
    | none => rfl
    | some e' => exact absurd h (by simp [exponentText, ExponentText.text])
  | some e =>
    cases exponent' with
    | none => exact absurd h (by simp [exponentText, ExponentText.text])
    | some e' => rw [ExponentText.text_injective h]

theorem DecimalText.text_injective {s s' : DecimalText} (h : s.text = s'.text) : s = s' := by
  have hhead : ∀ s : DecimalText, ∀ c ∈ (s.mantissa ++ exponentText s.exponent).head?, NotSign c := by
    intro s c hc
    exact @DecimalText.head_notSign false s [] (by simp [Blanks]) c (by rwa [List.append_nil])
  obtain ⟨hsign, hbody⟩ := sign_unique s.isSign s'.isSign (fun _ => hhead s) (fun _ => hhead s') h
  -- what is behind the digits begins with no digit, so the digits are the same
  have hexp : ∀ s : DecimalText, ∀ c ∈ (exponentText s.exponent).head?,
      isDigit c = false ∧ c ≠ chr '.' := by
    intro s c hc
    exact @exponentText_head false s.exponent [] (by simp [Blanks]) c (by rwa [List.append_nil])
  have hpoint : ∀ s : DecimalText, ∀ c ∈ (pointText s.frac ++ exponentText s.exponent).head?,
      isDigit c = false := by
    intro s c hc
    cases hfrac : s.frac with
    | none =>
      rw [hfrac] at hc
      exact (hexp s c hc).1
    | some fs =>
      rw [hfrac] at hc
      obtain rfl : chr '.' = c := Option.some.inj hc
      decide
  rw [mantissa, mantissa, List.append_assoc, List.append_assoc] at hbody
  obtain ⟨hwhole, hrest⟩ := digits_unique s.isDigits s'.isDigits (hpoint s) (hpoint s') hbody
  have hfrac : s.frac = s'.frac ∧ s.exponent = s'.exponent := by
    cases hf : s.frac with
    | none =>
      rw [hf] at hrest
      cases hf' : s'.frac with
      | none =>
        rw [hf'] at hrest
        exact ⟨rfl, exponentText_injective hrest⟩
      | some fs' =>
        rw [hf'] at hrest
        have hdot := hexp s (chr '.') (by rw [show exponentText s.exponent = _ from hrest]; rfl)
        exact absurd rfl hdot.2
    | some fs =>
      rw [hf] at hrest
      cases hf' : s'.frac with
      | none =>
        rw [hf'] at hrest
        have hdot := hexp s' (chr '.') (by rw [show exponentText s'.exponent = _ from hrest.symm]; rfl)
        exact absurd rfl hdot.2
      | some fs' =>
        rw [hf'] at hrest
        obtain ⟨rfl, hexponents⟩ := digits_unique (s.isFrac fs hf) (s'.isFrac fs' hf')
          (fun c hc => (hexp s c hc).1) (fun c hc => (hexp s' c hc).1) (List.cons.inj hrest).2
        exact ⟨rfl, exponentText_injective hexponents⟩
  exact DecimalText.ext hsign hwhole hfrac.1 hfrac.2

end

/-! ### Values -/

/-- The digits that a text begins with, without the point. -/
def digitsFrom (chars : List Byte) : List Byte :=
  (chars.takeWhile fun c => isDigit c || c = chr '.').filter isDigit

/-- The fraction `0.d1d2...` -/
def fraction (ds : List Byte) : ℚ := readDigits 10 (ds.map digit) / 10 ^ ds.length

/-- The location is the one of the decimal, and with the digits from the first one on it makes its value. -/
structure Validated.Denotes (r : Validated) (row : List Byte) (s : DecimalText) : Prop where
  location_eq : r.decimalLocation = s.location
  value_eq : s.value = (if r.positive then 1 else -1) * fraction (digitsFrom (row.drop r.firstDigit)) *
    10 ^ r.decimalLocation

section

variable {T : IntType} {strip : Bool} {row text : List Byte} {s : DecimalText}

theorem digitsFrom_eq (s : DecimalText) {rest : List Byte}
    (hrest : ∀ c ∈ rest.head?, isDigit c = false ∧ c ≠ chr '.') :
    digitsFrom (s.mantissa ++ rest) = s.digits := by
  have hmantissa : ∀ c ∈ s.mantissa, (isDigit c || decide (c = chr '.')) = true := by
    intro c hc
    rw [DecimalText.mantissa, List.mem_append] at hc
    obtain hc | hc := hc
    · rw [s.isDigits c hc]
      rfl
    · cases hfrac : s.frac with
      | none => rw [hfrac] at hc; exact absurd hc (by simp [pointText])
      | some fs =>
        rw [hfrac] at hc
        obtain rfl | hc := List.mem_cons.1 hc
        · rfl
        · rw [s.isFrac fs hfrac c hc]
          rfl
  have hnone : rest.takeWhile (fun c => isDigit c || decide (c = chr '.')) = [] := by
    cases rest with
    | nil => rfl
    | cons c rest =>
      obtain ⟨hdigit, hpoint⟩ := hrest c rfl
      exact List.takeWhile_cons_of_neg (by simp [hdigit, hpoint])
  have hself : ∀ ds, IsDigits ds → ds.filter isDigit = ds := fun ds hds => List.filter_eq_self.2 hds
  rw [digitsFrom, List.takeWhile_append_of_pos hmantissa, hnone, List.append_nil, DecimalText.mantissa,
    List.filter_append, hself _ s.isDigits, DecimalText.digits]
  cases hfrac : s.frac with
  | none => rfl
  | some fs =>
    rw [pointText, List.filter_cons_of_neg (by decide), hself fs (s.isFrac fs hfrac)]
    rfl

/-- The value, from the digits and the place of the point in them. -/
theorem DecimalText.value_eq (s : DecimalText) :
    s.value = (if s.sign = [chr '-'] then -1 else 1) * fraction s.digits * 10 ^ s.location := by
  have hten : (10 : ℚ) ≠ 0 := by norm_num
  have hlen : s.digits.length = s.whole.length + (s.frac.getD []).length := by
    rw [digits, List.length_append]
  rw [value, fraction, location, hlen]
  rw [zpow_sub₀ hten, zpow_add₀ hten, pow_add, zpow_natCast, zpow_natCast]
  field_simp

theorem denotes_validated {spaces : List Byte} (htext : trimStart strip row = s.text ++ spaces)
    (hspaces : Blanks strip spaces) (hlocation : -2147483648 ≤ s.location ∧ s.location ≤ 2147483647) :
    (s.validated (row.length - (trimStart strip row).length)).Denotes row s := by
  have hsame : MachineInt.int32 s.location = s.location :=
    MachineInt.int32_of_range hlocation.1 (by omega)
  refine ⟨hsame, ?_⟩
  obtain ⟨leading, hrow, hskipped⟩ := exists_leading strip row
  have hdrop : row.drop (leading.length + s.sign.length) =
      s.mantissa ++ (exponentText s.exponent ++ spaces) := by
    rw [hrow, htext, DecimalText.text, List.append_assoc, List.append_assoc, ← List.append_assoc leading,
      ← List.length_append]
    exact List.drop_left
  unfold DecimalText.validated
  dsimp only
  rw [hskipped, hdrop, digitsFrom_eq s (exponentText_head hspaces), hsame, s.value_eq]
  simp

/-! ### Which rows are handled -/

/-- The scan does what it should: it reads no byte behind the row, accepts the literals and finds the values
that they have. -/
def ValidateExact (T : IntType) (strip : Bool) (row : List Byte) : Prop :=
  ∃ result, (∀ behind, validateAndExponent T strip row behind = some result) ∧
    (result.isSome = true ↔ ∃ s : DecimalText, s.IsLiteral ∧ stripped strip row = s.text) ∧
    ∀ r ∈ result, ∀ s : DecimalText, s.IsLiteral → stripped strip row = s.text → r.Denotes row s

/-- There is more than white space to be stripped; a literal has no white space behind an exponent, and its
exponent and location fit; and of the texts whose digits are missing it is one that the scan does not read. -/
structure Handled (T : IntType) (strip : Bool) (row : List Byte) : Prop where
  not_blank : ¬(strip = true ∧ row ≠ [] ∧ ∀ c ∈ row, isWhitespace c = true)
  literal (s : DecimalText) (htext : stripped strip row = s.text) (h : s.IsLiteral) :
    (trimStart strip row ≠ s.text → s.exponent = none) ∧ T.Fits s.exponentVal ∧
      -2147483648 ≤ s.location ∧ s.location ≤ 2147483647
  missing (s : DecimalText) (htext : stripped strip row = s.text) (h : ¬s.IsLiteral) :
    ¬s.Scanned T (trimStart strip row ≠ s.text)

/-- There is no white space in a decimal. -/
theorem DecimalText.not_isWhitespace (s : DecimalText) : ∀ c ∈ s.text, isWhitespace c = false := by
  have hsigns : ∀ sign, IsSign sign → ∀ c ∈ sign, isWhitespace c = false := by
    rintro sign (rfl | rfl | rfl) c hc
    · exact absurd hc (by simp)
    · obtain rfl := List.mem_singleton.1 hc
      decide
    · obtain rfl := List.mem_singleton.1 hc
      decide
  have hdigits : ∀ ds, IsDigits ds → ∀ c ∈ ds, isWhitespace c = false :=
    fun ds hds c hc => not_isWhitespace_of_isDigit (hds c hc)
  intro c hc
  rw [text, mantissa, List.mem_append, List.mem_append, List.mem_append] at hc
  obtain hc | (hc | hc) | hc := hc
  · exact hsigns _ s.isSign c hc
  · exact hdigits _ s.isDigits c hc
  · cases hfrac : s.frac with
    | none => rw [hfrac] at hc; exact absurd hc (by simp [pointText])
    | some fs =>
      rw [hfrac] at hc
      obtain rfl | hc := List.mem_cons.1 hc
      · exact not_isWhitespace_point
      · exact hdigits _ (s.isFrac fs hfrac) c hc
  · cases hexp : s.exponent with
    | none => rw [hexp] at hc; exact absurd hc (by simp [exponentText])
    | some e =>
      rw [hexp] at hc
      obtain rfl | hc := List.mem_cons.1 hc
      · have hmarker := e.isMarker
        generalize e.marker = marker at hmarker
        obtain rfl | rfl := hmarker <;> decide
      · obtain hc | hc := List.mem_append.1 hc
        · exact hsigns _ e.isSign c hc
        · exact hdigits _ e.isDigits c hc

/-- A decimal does not end with white space. -/
theorem DecimalText.getLast_text (s : DecimalText) (h : s.text ≠ []) :
    isWhitespace (s.text.getLast h) = false :=
  s.not_isWhitespace _ (List.getLast_mem h)

/-- A decimal and white space behind it are the decimal, if they are stripped. -/
theorem stripped_eq_iff : stripped strip row = s.text ↔
    ∃ spaces, trimStart strip row = s.text ++ spaces ∧ Blanks strip spaces := by
  constructor
  · intro h
    obtain ⟨spaces, hsplit, hspaces⟩ := exists_trimEnd strip (trimStart strip row)
    exact ⟨spaces, by rw [← h]; exact hsplit, hspaces⟩
  · rintro ⟨spaces, hsplit, hspaces⟩
    rw [stripped, hsplit]
    exact trimEnd_append hspaces fun _ h => s.getLast_text h

/-- What the scan returns for a row that is stripped to a decimal. -/
theorem validateAndExponent_stripped (hT : T.signed = true) (hne : trimStart strip row ≠ []) :
    ∃ result, (∀ behind, validateAndExponent T strip row behind = some result) ∧
      ∀ r, result = some r ↔ ∃ s : DecimalText, stripped strip row = s.text ∧
        s.Scanned T (trimStart strip row ≠ s.text) ∧
          r = s.validated (row.length - (trimStart strip row).length) := by
  obtain ⟨result, hresult, hiff⟩ := @validateAndExponent_spec T strip row hT hne
  have hbehind : ∀ {s : DecimalText} {spaces}, trimStart strip row = s.text ++ spaces →
      (spaces ≠ [] ↔ trimStart strip row ≠ s.text) := by
    intro s spaces htext
    rw [htext]
    simp
  refine ⟨result, hresult, fun r => (hiff r).trans ?_⟩
  constructor
  · rintro ⟨s, spaces, htext, hspaces, hscan, hr⟩
    rw [hbehind htext] at hscan
    exact ⟨s, stripped_eq_iff.2 ⟨spaces, htext, hspaces⟩, hscan, hr⟩
  · rintro ⟨s, htext, hscan, hr⟩
    obtain ⟨spaces, htext, hspaces⟩ := stripped_eq_iff.1 htext
    rw [← hbehind htext] at hscan
    exact ⟨s, spaces, htext, hspaces, hscan, hr⟩

theorem DecimalText.IsLiteral.mantissa_ne_nil (h : s.IsLiteral) : s.mantissa ≠ [] := by
  intro hnil
  apply h.1
  obtain ⟨hwhole, hpoint⟩ := List.append_eq_nil_iff.1 hnil
  cases hfrac : s.frac with
  | none => rw [digits, hwhole, hfrac]; rfl
  | some fs => rw [hfrac] at hpoint; exact absurd hpoint (by simp [pointText])

theorem DecimalText.IsLiteral.scanned (h : s.IsLiteral)
    (hbehind : trimStart strip row ≠ s.text → s.exponent = none) (hfits : T.Fits s.exponentVal) :
    s.Scanned T (trimStart strip row ≠ s.text) := by
  refine ⟨.inl h.mantissa_ne_nil, hfits, fun hne e he => ?_⟩
  rw [hbehind hne] at he
  exact absurd he (by simp)

/-- Nothing is no decimal that is read. -/
theorem DecimalText.text_ne_nil (h : s.mantissa ≠ [] ∨ s.exponent ≠ none) : s.text ≠ [] := by
  intro hnil
  obtain ⟨-, hbody⟩ := List.append_eq_nil_iff.1 hnil
  obtain ⟨hmantissa, hexp⟩ := List.append_eq_nil_iff.1 hbody
  obtain h | h := h
  · exact h hmantissa
  · cases he : s.exponent with
    | none => exact h he
    | some e => rw [he] at hexp; exact absurd hexp (by simp [exponentText, ExponentText.text])

/-- Rows of which nothing is left: the empty one, and those of white space, where the scan reads behind the
row. -/
theorem exact_iff_of_nil (hnil : trimStart strip row = []) :
    ValidateExact T strip row ↔ Handled T strip row := by
  have hstripped : stripped strip row = [] := by
    rw [stripped, hnil]
    cases strip <;> rfl
  by_cases hrow : row = []
  · subst hrow
    refine iff_of_true ⟨none, fun _ => rfl, iff_of_false (by simp) ?_, by simp⟩ ⟨?_, ?_, ?_⟩
    · rintro ⟨s, hs, htext⟩
      exact DecimalText.text_ne_nil (.inl hs.mantissa_ne_nil) (htext.symm.trans hstripped)
    · rintro ⟨-, hne, -⟩
      exact hne rfl
    · intro s htext hs
      exact absurd (htext.symm.trans hstripped) (DecimalText.text_ne_nil (.inl hs.mantissa_ne_nil))
    · intro s htext _ hscan
      exact DecimalText.text_ne_nil hscan.nonempty (htext.symm.trans hstripped)
  · cases strip with
    | false => exact absurd hnil hrow
    | true =>
      have hblank : ∀ c ∈ row, isWhitespace c = true := List.dropWhile_eq_nil_iff.1 hnil
      refine iff_of_false ?_ fun h => h.not_blank ⟨rfl, hrow, hblank⟩
      rintro ⟨result, hresult, -⟩
      have hread : validateAndExponent T true row [] = none := by
        have hempty : row.isEmpty = false := by simpa using hrow
        have hchars : row.dropWhile isWhitespace = [] := hnil
        unfold validateAndExponent
        rw [hempty, if_pos rfl, hchars]
        rfl
      exact absurd (hread.symm.trans (hresult [])) (by simp)

/-- Rows of which something is left. -/
theorem exact_iff_of_ne_nil (hT : T.signed = true) (hne : trimStart strip row ≠ []) :
    ValidateExact T strip row ↔ Handled T strip row := by
  obtain ⟨result, hresult, hiff⟩ := @validateAndExponent_stripped T strip row hT hne
  constructor
  · rintro ⟨result', hresult', hliteral, hdenotes⟩
    obtain rfl : result = result' := Option.some.inj ((hresult []).symm.trans (hresult' []))
    refine ⟨?_, fun s htext hs => ?_, fun s htext hs hscan => ?_⟩
    · rintro ⟨rfl, -, hblank⟩
      exact hne (List.dropWhile_eq_nil_iff.2 hblank)
    · obtain ⟨r, hr⟩ := Option.isSome_iff_exists.1 (hliteral.2 ⟨s, hs, htext⟩)
      obtain ⟨s', htext', hscan, hvalidated⟩ := (hiff r).1 hr
      obtain rfl := DecimalText.text_injective (htext.symm.trans htext')
      have hlocation := (hdenotes r hr s hs htext).location_eq
      rw [hvalidated] at hlocation
      have hsame : MachineInt.int32 s.location = s.location := hlocation
      have hle := Int.le_bmod (x := s.location) (m := 2 ^ 32) (by decide)
      have hlt := Int.bmod_lt (x := s.location) (m := 2 ^ 32) (by decide)
      rw [MachineInt.int32] at hsame
      rw [hsame] at hle hlt
      refine ⟨fun hbehind => ?_, hscan.fits, by omega, by omega⟩
      -- an exponent with digits is not bare
      by_contra hsome
      obtain ⟨e, he⟩ := Option.ne_none_iff_exists'.1 hsome
      exact hs.2 e he (hscan.bare hbehind e he).2
    · obtain ⟨s', hs', htext'⟩ := hliteral.1 (Option.isSome_iff_exists.2
        ⟨_, (hiff _).2 ⟨s, htext, hscan, rfl⟩⟩)
      obtain rfl := DecimalText.text_injective (htext.symm.trans htext')
      exact hs hs'
  · intro h
    refine ⟨result, hresult, ⟨fun hsome => ?_, ?_⟩, fun r hr s hs htext => ?_⟩
    · obtain ⟨r, hr⟩ := Option.isSome_iff_exists.1 hsome
      obtain ⟨s, htext, hscan, -⟩ := (hiff r).1 hr
      by_cases hs : s.IsLiteral
      · exact ⟨s, hs, htext⟩
      · exact absurd hscan (h.missing s htext hs)
    · rintro ⟨s, hs, htext⟩
      obtain ⟨hbehind, hfits, -⟩ := h.literal s htext hs
      exact Option.isSome_iff_exists.2 ⟨_, (hiff _).2 ⟨s, htext, hs.scanned hbehind hfits, rfl⟩⟩
    · obtain ⟨hbehind, hfits, hlocation⟩ := h.literal s htext hs
      have hs' := (hiff _).2 ⟨s, htext, hs.scanned hbehind hfits, rfl⟩
      obtain rfl := Option.some.inj (hr.symm.trans hs')
      obtain ⟨spaces, hsplit, hspaces⟩ := stripped_eq_iff.1 htext
      exact denotes_validated hsplit hspaces hlocation

end

/-- **Which decimals the scan handles.** It accepts the literals only, finds their exact values and does not
read behind the row, for every row but those of white space, literals with white space behind an exponent or
with an exponent or a location that does not fit, and texts without digits that it reads all the same. -/
theorem validate_exact_iff (T : DecimalType) (strip : Bool) (row : List Byte) :
    ValidateExact T.integers strip row ↔ Handled T.integers strip row := by
  have hT : T.integers.signed = true := by cases T <;> rfl
  by_cases hnil : trimStart strip row = []
  · exact exact_iff_of_nil hnil
  · exact exact_iff_of_ne_nil hT hnil

/-- A point alone is accepted, a space behind an exponent is not, the place of a point wraps around, and a row
of a space is read behind its end. -/
theorem not_validateExact : ¬ValidateExact DecimalType.int32.integers false (".".toList.map chr) ∧
    ¬ValidateExact DecimalType.int32.integers true ("1e5 ".toList.map chr) ∧
    ¬ValidateExact DecimalType.int32.integers false ("1e2147483647".toList.map chr) ∧
    ¬ValidateExact DecimalType.int32.integers true (" ".toList.map chr) := by
  refine ⟨?_, ?_, ?_, ?_⟩
  · rintro ⟨result, hresult, hliteral, -⟩
    have hrun : validateAndExponent DecimalType.int32.integers false (".".toList.map chr) [] =
        some (some ⟨true, 0, 0⟩) := by decide
    obtain rfl := Option.some.inj (hrun.symm.trans (hresult []))
    obtain ⟨s, hs, htext⟩ := hliteral.1 rfl
    have hpoint : s = ⟨[], [], some [], none, .inl rfl, by simp [IsDigits], by simp [IsDigits]⟩ :=
      DecimalText.text_injective htext.symm
    subst hpoint
    exact hs.1 rfl
  · rintro ⟨result, hresult, hliteral, -⟩
    have hrun : validateAndExponent DecimalType.int32.integers true ("1e5 ".toList.map chr) [] =
        some none := by decide
    obtain rfl := Option.some.inj (hrun.symm.trans (hresult []))
    have hsome := hliteral.2 ⟨⟨[], [chr '1'], none, some ⟨chr 'e', [], [chr '5'], .inl rfl, .inl rfl,
      by decide⟩, .inl rfl, by decide, by simp⟩, ⟨by decide, by simp⟩,
      by decide⟩
    exact absurd hsome (by decide)
  · rintro ⟨result, hresult, -, hdenotes⟩
    have hrun : validateAndExponent DecimalType.int32.integers false ("1e2147483647".toList.map chr) [] =
        some (some ⟨true, -2147483648, 0⟩) := by decide
    obtain rfl := Option.some.inj (hrun.symm.trans (hresult []))
    have hlocation := (hdenotes _ rfl ⟨[], [chr '1'], none, some ⟨chr 'e', [], "2147483647".toList.map chr,
      .inl rfl, .inl rfl, by decide⟩, .inl rfl, by decide, by simp⟩ ⟨by decide, by simp⟩
      (by decide)).location_eq
    exact absurd hlocation (by decide)
  · rintro ⟨result, hresult, -⟩
    have hrun : validateAndExponent DecimalType.int32.integers true (" ".toList.map chr) [] = none := by
      decide
    exact absurd (hrun.symm.trans (hresult [])) (by simp)

end SparkRapids.CastString
