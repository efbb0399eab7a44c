import SparkRapidsJni.CastString.DecimalRounding

/-!
# `cast_string.cu`: which literals become their decimals

For a literal, `string_to_decimal_kernel` should give its value in units of the scale, rounded half away from
zero, if that has no more digits than the precision (`DecimalText.decimal`). It does iff `DecimalText.Computed`
holds (`stringToDecimal_exact_iff`): a zero is null if its exponent is large, and where rounding adds a digit to
a value below one, its place is not accounted for.
-/

namespace SparkRapids.CastString

open Ascii MachineInt Numerals DecimalText

/-! ### The scan of a literal -/

section

variable {T : IntType} {s : DecimalText} {strip : Bool} {p scale : ℕ}

theorem trimStart_text (s : DecimalText) (strip : Bool) : trimStart strip s.text = s.text := by
  cases strip with
  | false => rfl
  | true =>
    show s.text.dropWhile isWhitespace = s.text
    cases htext : s.text with
    | nil => rfl
    | cons c rest =>
      have hc := s.not_isWhitespace c (by rw [htext]; exact List.mem_cons_self ..)
      exact List.dropWhile_cons_of_neg (by rw [hc]; exact Bool.false_ne_true)

/-- What the scan returns for a literal. -/
theorem validateAndExponent_literal (hT : T.signed = true) (hs : s.IsLiteral) (behind : List Byte) :
    validateAndExponent T strip s.text behind =
      some (if T.Fits s.exponentVal then some (s.validated 0) else none) := by
  have htrim := trimStart_text s strip
  have hne : trimStart strip s.text ≠ [] := by
    rw [htrim]
    exact text_ne_nil (.inl hs.mantissa_ne_nil)
  have hstripped : stripped strip s.text = s.text :=
    stripped_eq_iff.2 ⟨[], by rw [htrim, List.append_nil], by simp [Blanks]⟩
  obtain ⟨result, hresult, hiff⟩ := @validateAndExponent_stripped T strip s.text hT hne
  rw [htrim, Nat.sub_self] at hiff
  rw [hresult]
  congr 1
  by_cases hfits : T.Fits s.exponentVal
  · rw [if_pos hfits, hiff]
    have hscanned := @DecimalText.IsLiteral.scanned T strip s.text s hs (fun h => absurd htrim h) hfits
    rw [htrim] at hscanned
    exact ⟨s, hstripped, hscanned, rfl⟩
  · rw [if_neg hfits, Option.eq_none_iff_forall_ne_some]
    intro r hr
    obtain ⟨s', htext, hscanned, -⟩ := (hiff r).1 hr
    obtain rfl := text_injective (hstripped.symm.trans htext)
    exact hfits hscanned.fits

theorem exponentText_marker (exponent : Option ExponentText) :
    ∀ c ∈ (exponentText exponent).head?, c = chr 'e' ∨ c = chr 'E' := by
  intro c hc
  cases exponent with
  | none => exact absurd hc (by simp [exponentText])
  | some e =>
    obtain rfl : e.marker = c := Option.some.inj hc
    exact e.isMarker

theorem isDigits_digits (s : DecimalText) : IsDigits s.digits := by
  intro c hc
  rcases List.mem_append.1 hc with hc | hc
  · exact s.isDigits c hc
  · cases hfrac : s.frac with
    | none =>
      rw [hfrac] at hc
      exact absurd hc List.not_mem_nil
    | some fs =>
      rw [hfrac] at hc
      exact s.isFrac fs hfrac c hc

/-- What the kernel does with a literal, from its digits. -/
theorem kernel_literal (hT : T.signed = true) (hs : s.IsLiteral)
    (hlocation : -2147483648 ≤ s.location ∧ s.location < 2147483647) (behind : List Byte) :
    stringToDecimalKernel T p (-scale) strip s.text behind =
      some (if T.Fits s.exponentVal then
        fromDigits T (decide (s.sign ≠ [chr '-'])) p scale s.digits (exponentText s.exponent) s.location
        else none) := by
  have hsame : int32 s.location = s.location := int32_of_range hlocation.1 (by omega)
  have hdrop : s.text.drop (0 + s.sign.length) = s.mantissa ++ exponentText s.exponent := by
    rw [Nat.zero_add, text]
    exact List.drop_left
  unfold stringToDecimalKernel
  rw [validateAndExponent_literal hT hs, Option.map_some]
  congr 1
  by_cases hfits : T.Fits s.exponentVal
  · rw [if_pos hfits, if_pos hfits]
    show decimalFrom T p (-scale) (s.text.drop (0 + s.sign.length)) _ (int32 s.location) = _
    rw [hdrop, hsame]
    exact decimalFrom_eq (isDigits_digits s) rfl (exponentText_marker s.exponent) s.location
  · rw [if_neg hfits, if_neg hfits]
    rfl

/-! ### The types of the precisions -/

/-- The type of a precision has its values. -/
theorem fits_of_decimalTypeOf {T : DecimalType} (hT : decimalTypeOf p = some T) (positive : Bool) :
    T.integers.Fits (signedNat positive (10 ^ p)) := by
  have hlimit {q : ℕ} (hp : p ≤ q) (hq : T.integers.Fits (signedNat positive (10 ^ q))) :
      T.integers.Fits (signedNat positive (10 ^ p)) :=
    fits_signedNat_of_le (Nat.pow_le_pow_right (by decide) hp) hq
  unfold decimalTypeOf at hT
  split_ifs at hT with h9 h18 h38
  · obtain rfl := Option.some.inj hT
    exact hlimit h9 (by cases positive <;> decide)
  · obtain rfl := Option.some.inj hT
    exact hlimit h18 (by cases positive <;> decide)
  · obtain rfl := Option.some.inj hT
    exact hlimit h38 (by cases positive <;> decide)

theorem signed_integers (T : DecimalType) : T.integers.signed = true := by cases T <;> rfl

/-- The digits of the literal in front of its exponent are fewer than the row has characters. -/
theorem length_digits_le (s : DecimalText) : s.digits.length + (exponentText s.exponent).length ≤ s.text.length := by
  unfold text mantissa digits
  simp only [List.length_append]
  cases s.frac with
  | none =>
    simp only [Option.getD_none, pointText, List.length_nil]
    omega
  | some fs =>
    simp only [Option.getD_some, pointText, List.length_cons]
    omega

/-- An exponent that does not fit makes a value that is too small, if the place of the point does not wrap
around. -/
theorem tiny_of_not_fits {T : DecimalType} (hT : decimalTypeOf p = some T) (hscale : scale ≤ p)
    (hlen : s.text.length < 2147483648)
    (hlocation : -2147483648 ≤ s.location ∧ s.location < 2147483647) (hfits : ¬T.integers.Fits s.exponentVal) :
    s.location + scale < 0 := by
  have hrow := length_digits_le s
  have hwhole : s.whole.length ≤ s.digits.length := by
    rw [digits, List.length_append]
    omega
  have hval : s.location = s.whole.length + s.exponentVal := rfl
  have hmin : T.integers.min ≤ -2147483648 := by cases T <;> decide
  have hmax : 2147483647 ≤ T.integers.max := by cases T <;> decide
  have hlow : s.exponentVal < T.integers.min := by
    by_contra hge
    exact hfits ⟨not_lt.1 hge, by omega⟩
  -- an exponent of ten digits leaves less room for the others
  have hexponent : 11 ≤ (exponentText s.exponent).length := by
    cases he : s.exponent with
    | none =>
      have hzero : s.exponentVal = 0 := by rw [exponentVal, he]
      omega
    | some e =>
      have heval : s.exponentVal = e.val := by rw [exponentVal, he]
      have hall : ∀ d ∈ e.digits.map digit, d < 10 := by
        intro d hd
        obtain ⟨c, hc, rfl⟩ := List.mem_map.1 hd
        exact digit_lt (e.isDigits c hc)
      have hnumber := readDigits_lt hall
      have hlarge : 2147483648 < readDigits 10 (e.digits.map digit) := by
        rw [heval, ExponentText.val, signedNat] at hlow
        split_ifs at hlow <;> omega
      have hdigits : 10 ≤ e.digits.length := by
        by_contra hlt
        rw [List.length_map] at hnumber
        have hpow : 10 ^ e.digits.length ≤ 10 ^ 9 := Nat.pow_le_pow_right (by decide) (by omega)
        omega
      simp only [exponentText, ExponentText.text, List.length_cons, List.length_append]
      omega
  unfold decimalTypeOf at hT
  split_ifs at hT with h9 h18 h38
  · omega
  · obtain rfl := Option.some.inj hT
    have hmin' : DecimalType.int64.integers.min = -9223372036854775808 := by decide
    omega
  · obtain rfl := Option.some.inj hT
    have hmin' : DecimalType.int128.integers.min = -170141183460469231731687303715884105728 := by decide
    omega

/-! ### Where rounding adds a digit -/

section

variable {kept rest : List Byte} {c : Byte} (hsplit : s.digits = kept ++ c :: rest)

include hsplit

theorem figures_split : s.figures = kept.map digit ++ digit c :: rest.map digit := by
  rw [figures, hsplit, List.map_append, List.map_cons]

/-- The digits that are kept are zeros and nines. -/
theorem kept_of_carries (hcarries : March.Carries (readDigits 10 (kept.map digit))) :
    ∃ n, readDigits 10 (kept.map digit) + 1 = 10 ^ (n + 1) ∧
      leadingZeros s.figures + (n + 1) = kept.length ∧
      kept.map digit = List.replicate (leadingZeros s.figures) 0 ++ List.replicate (n + 1) 9 := by
  obtain ⟨hne, n, hn⟩ := hcarries
  have hall : ∀ d ∈ kept.map digit, d < 10 := by
    intro d hd
    refine figures_lt s d ?_
    rw [figures_split hsplit]
    exact List.mem_append_left _ hd
  have hle : n ≤ (kept.map digit).length := by
    have hlt := readDigits_lt hall
    exact (Nat.pow_le_pow_iff_right (by decide : 1 < 10)).1 (by omega)
  cases n with
  | zero => exact absurd hn (by omega)
  | succ n =>
    have hkept := (readDigits_add_one_eq_iff (by decide) hall hle).1 hn
    rw [List.length_map] at hle hkept
    have hzeros : leadingZeros s.figures = kept.length - (n + 1) := by
      rw [figures_split hsplit, hkept, List.append_assoc, leadingZeros_replicate, List.replicate_succ,
        List.cons_append, leadingZeros_cons, if_neg (by decide), Nat.add_zero]
    refine ⟨n, hn, by omega, ?_⟩
    rw [hzeros]
    exact hkept

theorem carries_iff (hkept : (kept.length : Int) = s.location + scale) :
    s.Carries scale ↔ 5 ≤ digit c ∧ March.Carries (readDigits 10 (kept.map digit)) := by
  constructor
  · rintro ⟨n, d, rest', hfigures, hlen, hd⟩
    have hsame : kept.map digit ++ digit c :: rest.map digit =
        (List.replicate (leadingZeros s.figures) 0 ++ List.replicate (n + 1) 9) ++ d :: rest' := by
      rw [← figures_split hsplit, List.append_assoc]
      exact hfigures
    have hlengths : (kept.map digit).length =
        (List.replicate (leadingZeros s.figures) 0 ++ List.replicate (n + 1) 9).length := by
      rw [List.length_map, List.length_append, List.length_replicate, List.length_replicate]
      omega
    obtain ⟨hdigits, hrest⟩ := List.append_inj hsame hlengths
    rw [hdigits, readDigits_replicate_zero]
    have hmax : readDigits 10 (List.replicate (n + 1) 9) + 1 = 10 ^ (n + 1) :=
      readDigits_replicate_max (by decide) (n + 1)
    rw [pow_succ] at hmax
    have hpos : 0 < 10 ^ n := by positivity
    refine ⟨by rw [(List.cons.inj hrest).1]; exact hd, by omega, n + 1, ?_⟩
    rw [pow_succ]
    exact hmax
  · rintro ⟨hd, hcarries⟩
    obtain ⟨n, -, hlen, hdigits⟩ := kept_of_carries hsplit hcarries
    refine ⟨n, digit c, rest.map digit, ?_, by rw [hlen]; exact hkept, hd⟩
    rw [← List.append_assoc, ← hdigits]
    exact figures_split hsplit

end

/-- Some digits are not kept. -/
theorem DecimalText.Carries.lt_length (h : s.Carries scale) : s.location + scale < s.figures.length := by
  obtain ⟨n, d, rest, hfigures, hlen, -⟩ := h
  have hlengths := congrArg List.length hfigures
  simp only [List.length_append, List.length_replicate, List.length_cons] at hlengths
  omega

theorem DecimalText.Carries.pos (h : s.Carries scale) : 0 < s.location + scale := by
  obtain ⟨n, d, rest, -, hlen, -⟩ := h
  omega

/-! ### The results -/

section

variable {tail : List Byte} (h : Setting T p scale s.digits tail s.location)

include h

/-- A value that has another digit after rounding. -/
theorem carried_eq_iff {kept rest : List Byte} {c : Byte} (hsplit : s.digits = kept ++ c :: rest)
    (hkept : (kept.length : Int) = s.location + scale)
    (hfew : s.location - leadingZeros s.figures ≤ (p : Int) - scale)
    (hlast : 0 ≤ s.location + scale ∧ s.location + scale < 2147483648) (hc : 5 ≤ digit c)
    (hcarries : March.Carries (readDigits 10 (kept.map digit))) :
    fromDigits T (decide (s.sign ≠ [chr '-'])) p scale s.digits tail s.location = s.decimal p scale ↔
      (0 ≤ s.location → s.location < leadingZeros s.figures → scale < p) ∧ (s.location < 0 → scale = p) := by
  have hscale := h.scale_le
  obtain ⟨n, hnumber, hzeros, -⟩ := kept_of_carries hsplit hcarries
  have hround := round_at (figures_split hsplit) (by rw [List.length_map]; exact hkept)
  rw [if_pos (by omega), hnumber] at hround
  have hkernel := @Setting.rounds_carried T (decide (s.sign ≠ [chr '-'])) p scale s.digits tail kept rest s.location c h
    hfew hlast hsplit hkept hc hcarries
  rw [hnumber] at hkernel
  rw [hkernel, decimal_eq hround]
  have hlt : 10 ^ (n + 1) < 10 ^ p ↔ n + 1 < p := Nat.pow_lt_pow_iff_right (by decide)
  show (if (p : Int) - scale < s.location + 1 - min (leadingZeros s.figures) s.location.toNat then none else _) = _ ↔ _
  rcases lt_or_ge s.location 0 with hneg | hnonneg
  · rw [if_neg (by omega), if_pos (hlt.2 (by omega))]
    by_cases hp : scale < p
    · -- a zero too many
      rw [if_pos ⟨hneg, hp⟩]
      refine iff_of_false ?_ fun h => absurd (h.2 hneg) hp.ne
      have hfits : T.Fits (signedNat (decide (s.sign ≠ [chr '-'])) (10 ^ (n + 1))) :=
        fits_signedNat_of_le (Nat.pow_le_pow_right (by decide) (by omega)) (h.fits _)
      rw [padZeros_eq h.signed 1 hfits]
      intro heq
      split_ifs at heq
      have hten : (10 : ℕ) ^ (n + 1) * 10 ^ 1 = 10 ^ (n + 1) := by
        have hsigned := Option.some.inj heq
        unfold signedNat at hsigned
        split_ifs at hsigned
        · exact_mod_cast hsigned
        · exact_mod_cast neg_injective hsigned
      have hpos : 0 < 10 ^ (n + 1) := by positivity
      omega
    · rw [if_neg fun h => hp h.2]
      exact iff_of_true rfl ⟨fun h => absurd h (not_le.2 hneg), fun _ => by omega⟩
  · have hpad : ¬(s.location < 0 ∧ scale < p) := fun h => absurd h.1 (not_lt.2 hnonneg)
    rw [if_neg hpad]
    rcases lt_or_ge s.location (leadingZeros s.figures) with hbefore | hbehind
    · -- the digit is not before the point
      rw [if_pos (hlt.2 (by omega))]
      by_cases hp : scale < p
      · rw [if_neg (by omega)]
        exact iff_of_true rfl ⟨fun _ _ => hp, fun h => absurd h (not_lt.2 hnonneg)⟩
      · rw [if_pos (by omega)]
        exact iff_of_false (by simp) fun h => hp (h.1 hnonneg hbefore)
    · refine iff_of_true ?_ ⟨fun _ h => absurd h (not_lt.2 hbehind), fun h => absurd h (not_lt.2 hnonneg)⟩
      by_cases hlt' : n + 1 < p
      · rw [if_neg (by omega), if_pos (hlt.2 hlt')]
        rfl
      · rw [if_pos (by omega), if_neg fun h => hlt' (hlt.1 h)]

/-- For which digits the kernel gives the decimal. -/
theorem fromDigits_eq_iff (hfits : T.Fits s.exponentVal) :
    fromDigits T (decide (s.sign ≠ [chr '-'])) p scale s.digits tail s.location = s.decimal p scale ↔
      s.Computed p scale T := by
  have hscale := h.scale_le
  have hlen := h.length
  have hfigures : s.figures.length = s.digits.length := List.length_map ..
  have hzeros : leadingZeros s.figures ≤ s.digits.length := leadingZeros_le_length s.digits
  by_cases hwrap : 2147483648 ≤ s.location + scale
  · rw [h.wraps hwrap]
    constructor
    · intro hnone
      refine ⟨hfits, fun _ => hnone.symm, fun hzero => ?_, fun hcarries => ?_, fun hcarries => ?_⟩
      · rw [decimal_zero hzero] at hnone
        exact absurd hnone (by simp)
      · have hlt := hcarries.lt_length
        omega
      · have hlt := hcarries.lt_length
        omega
    · intro hcomputed
      exact (hcomputed.last hwrap).symm
  by_cases hfew : s.location - leadingZeros s.figures ≤ (p : Int) - scale
  swap
  · rw [h.tooLarge (not_le.1 hfew)]
    by_cases hzero : leadingZeros s.figures = s.figures.length
    · refine iff_of_false ?_ fun hcomputed => ?_
      · rw [decimal_zero hzero]
        simp
      · have hle := hcomputed.zero hzero
        omega
    · have hnone : s.decimal p scale = none :=
        decimal_tooLarge (by omega) (not_le.1 hfew)
      refine iff_of_true hnone.symm ⟨hfits, fun h => absurd h hwrap, fun h => absurd h hzero, ?_, ?_⟩
      · intro _ _ hlt
        omega
      · intro _ hneg
        omega
  -- the cases of the kernel are those of the digits that are kept
  have hzero : leadingZeros s.figures = s.figures.length → s.location - s.figures.length ≤ (p : Int) - scale := by
    intro hzero
    rw [← hzero]
    exact hfew
  by_cases htiny : s.location + scale < 0
  · rw [h.tiny htiny, decimal_eq (round_tiny htiny), if_pos (by positivity), signedNat_zero]
    refine iff_of_true rfl ⟨hfits, fun h => absurd h hwrap, hzero, fun hcarries => ?_, fun hcarries => ?_⟩
    · exact absurd hcarries.pos (by omega)
    · exact absurd hcarries.pos (by omega)
  have hlast : 0 ≤ s.location + scale ∧ s.location + scale < 2147483648 := ⟨by omega, by omega⟩
  by_cases hall : (s.digits.length : Int) ≤ s.location + scale
  · have hbound := h.readDigits_lt hfew le_rfl (s.location + scale - s.digits.length).toNat (by omega)
    rw [List.take_length] at hbound
    rw [h.whole hfew hlast hall, decimal_eq (round_whole (by rw [hfigures]; exact hall)),
      hfigures]
    refine iff_of_true (if_pos hbound).symm
      ⟨hfits, fun h => absurd h hwrap, hzero, fun hcarries => ?_, fun hcarries => ?_⟩
    · exact absurd hcarries.lt_length (by omega)
    · exact absurd hcarries.lt_length (by omega)
  -- the digit behind the last one that is kept
  obtain ⟨k, hk⟩ : ∃ k : ℕ, (k : Int) = s.location + scale := ⟨_, Int.toNat_of_nonneg hlast.1⟩
  have hlt : k < s.digits.length := by omega
  obtain ⟨kept, c, rest, hsplit, hkept⟩ : ∃ kept c rest, s.digits = kept ++ c :: rest ∧ kept.length = k := by
    refine ⟨s.digits.take k, s.digits[k], s.digits.drop (k + 1), ?_, ?_⟩
    · rw [List.getElem_cons_drop, List.take_append_drop]
    · rw [List.length_take]
      omega
  rw [← hkept] at hk
  have hround := round_at (figures_split hsplit) (by rw [List.length_map]; exact hk)
  have hbound := h.readDigits_kept_lt hfew hsplit hk
  have hcarries := carries_iff hsplit hk
  have hcomputed (hnot : ¬s.Carries scale) : s.Computed p scale T :=
    ⟨hfits, fun h => absurd h hwrap, hzero, fun h => absurd h hnot, fun h => absurd h hnot⟩
  by_cases hc : 5 ≤ digit c
  · by_cases hcarry : March.Carries (readDigits 10 (kept.map digit))
    · rw [carried_eq_iff h hsplit hk hfew hlast hc hcarry]
      have hyes := hcarries.2 ⟨hc, hcarry⟩
      constructor
      · rintro ⟨hbefore, hbehind⟩
        exact ⟨hfits, fun h => absurd h hwrap, hzero, fun _ => hbefore, fun _ => hbehind⟩
      · intro hcomputed
        exact ⟨hcomputed.carriesBefore hyes, hcomputed.carriesBehind hyes⟩
    · have hnot : readDigits 10 (kept.map digit) + 1 ≠ 10 ^ p := by
        intro heq
        refine hcarry ⟨?_, p, heq⟩
        rintro hz
        rw [hz] at heq
        have hpow := Nat.pow_le_pow_right (by decide : 0 < 10) (Nat.succ_le_of_lt h.pos)
        omega
      rw [if_pos (by omega)] at hround
      rw [h.rounds_up hfew hlast hsplit hk hc hcarry, decimal_eq hround, if_pos (by omega)]
      exact iff_of_true rfl (hcomputed fun h => hcarry (hcarries.1 h).2)
  · rw [if_neg (by omega), Nat.add_zero] at hround
    rw [h.rounds_down hfew hlast hsplit hk (by omega), decimal_eq hround, if_pos hbound]
    exact iff_of_true rfl (hcomputed fun h => hc (hcarries.1 h).1)

end

/-- The kernel stores the decimal of a literal, or null if it has none, whatever is behind the row. -/
def ExactCast (T : IntType) (p scale : ℕ) (strip : Bool) (s : DecimalText) : Prop :=
  ∀ behind, stringToDecimalKernel T p (-scale) strip s.text behind = some (s.decimal p scale)

/-- **String to decimal is exact iff the literal is `Computed`.** The kernel of every precision and scale stores
the value of a literal in units of the scale, rounded half away from zero, if it has no more digits than the
precision, and null otherwise, as long as the place of the point does not wrap around. -/
theorem stringToDecimal_exact_iff {T : DecimalType} (hT : decimalTypeOf p = some T) (hpos : 0 < p)
    (hscale : scale ≤ p) (strip : Bool) (hs : s.IsLiteral) (hlen : s.text.length < 2147483648)
    (hlocation : -2147483648 ≤ s.location ∧ s.location < 2147483647) :
    ExactCast T.integers p scale strip s ↔ s.Computed p scale T.integers := by
  have hkernel := @kernel_literal T.integers s strip p scale (signed_integers T) hs hlocation
  unfold ExactCast
  by_cases hfits : T.integers.Fits s.exponentVal
  · have hdigits := length_digits_le s
    have hle : p ≤ 38 := by
      unfold decimalTypeOf at hT
      split_ifs at hT with h9 h18 h38
      · omega
      · omega
      · exact h38
    have h : Setting T.integers p scale s.digits (exponentText s.exponent) s.location :=
      ⟨signed_integers T, hpos, hle, hscale, fits_of_decimalTypeOf hT, isDigits_digits s,
        exponentText_marker s.exponent, hlocation, by omega⟩
    rw [← fromDigits_eq_iff h hfits]
    constructor
    · intro hexact
      have heq := (hkernel []).symm.trans (hexact [])
      rw [if_pos hfits] at heq
      exact Option.some.inj heq
    · intro heq behind
      rw [hkernel behind, if_pos hfits, heq]
  · -- the exponent is not read, and the value is zero
    have hzero : s.decimal p scale = some 0 := by
      rw [decimal_eq (round_tiny (tiny_of_not_fits hT hscale hlen hlocation hfits)),
        if_pos (by positivity), signedNat_zero]
    refine iff_of_false ?_ fun h => hfits h.fits
    intro hexact
    have heq := (hkernel []).symm.trans (hexact [])
    rw [if_neg hfits, hzero] at heq
    exact absurd (Option.some.inj heq) (by simp)

/-- `-2.5` -/
theorem stringToDecimal_exact_negative :
    ExactCast DecimalType.int32.integers 3 0 true
        ⟨[chr '-'], [chr '2'], some [chr '5'], none, .inr (.inr rfl), by decide, by decide⟩ ↔
      DecimalText.Computed ⟨[chr '-'], [chr '2'], some [chr '5'], none, .inr (.inr rfl), by decide, by decide⟩ 3 0
        DecimalType.int32.integers :=
  stringToDecimal_exact_iff rfl (by decide) (by decide) true ⟨by decide, by simp⟩ (by decide) (by decide)

/-- `99e-4` of the precision 5 and the scale 3 gets a zero too many, `0.099` of the precision and the scale 2 is
null, and so is `0e50`. -/
theorem not_exactCast :
    ¬ExactCast DecimalType.int32.integers 5 3 true
      ⟨[], [chr '9', chr '9'], none, some ⟨chr 'e', [chr '-'], [chr '4'], .inl rfl, .inr (.inr rfl), by decide⟩,
        .inl rfl, by decide, by simp⟩ ∧
    ¬ExactCast DecimalType.int32.integers 2 2 true
      ⟨[], [chr '0'], some [chr '0', chr '9', chr '9'], none, .inl rfl, by decide, by decide⟩ ∧
    ¬ExactCast DecimalType.int32.integers 5 0 true
      ⟨[], [chr '0'], none, some ⟨chr 'e', [], [chr '5', chr '0'], .inl rfl, .inl rfl, by decide⟩, .inl rfl,
        by decide, by simp⟩ := by
  refine ⟨?_, ?_, ?_⟩
  · intro h
    have hrun : stringToDecimalKernel DecimalType.int32.integers (5 : ℕ) (-(3 : ℕ)) true
        ("99e-4".toList.map chr) [] = some (some 100) := by decide
    have heq := Option.some.inj (hrun.symm.trans (h []))
    rw [decimal_eq (@round_at _ 3 [9] [] 9 rfl rfl)] at heq
    exact absurd heq (by decide)
  · intro h
    have hrun : stringToDecimalKernel DecimalType.int32.integers (2 : ℕ) (-(2 : ℕ)) true
        ("0.099".toList.map chr) [] = some none := by decide
    have heq := Option.some.inj (hrun.symm.trans (h []))
    rw [decimal_eq (@round_at _ 2 [0, 0, 9] [] 9 rfl rfl)] at heq
    exact absurd heq (by decide)
  · intro h
    have hrun : stringToDecimalKernel DecimalType.int32.integers (5 : ℕ) (-(0 : ℕ)) true
        ("0e50".toList.map chr) [] = some none := by decide
    have heq := Option.some.inj (hrun.symm.trans (h []))
    rw [decimal_zero rfl] at heq
    exact absurd heq (by simp)

end

end SparkRapids.CastString
