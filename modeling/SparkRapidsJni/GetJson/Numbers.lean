import SparkRapidsJni.GetJson.Grammar

/-!
# Scanning numbers

The scan of a number takes its parts one after the other, each as long as possible, and so accepts
the numbers of the grammar (`parseNumber_iff`).
-/

namespace SparkRapids.GetJson

/-- The text does not start with a digit. -/
def NoDigit (chars : List Byte) : Prop := ∀ c ∈ chars.head?, ¬isDigit c

theorem countP_isDigit {ds : List Byte} (h : ∀ d ∈ ds, isDigit d) : ds.countP isDigit = ds.length :=
  List.countP_eq_length.2 h

namespace NumberScan

variable {s s' : NumberScan} {rest : List Byte}

/-- The scan behind a part of a number. -/
def behind (s : NumberScan) (part rest : List Byte) (isFloat : Bool) : NumberScan where
  chars := rest
  isFloat := s.isFloat || isFloat
  numberDigitsLength := s.numberDigitsLength + part.countP isDigit

theorem takeWhile_append {ds : List Byte} (hds : ∀ d ∈ ds, isDigit d) (hrest : NoDigit rest) :
    (ds ++ rest).takeWhile isDigit = ds := by
  rw [List.takeWhile_append_of_pos hds]
  cases rest with
  | nil => exact List.append_nil _
  | cons c rest => rw [List.takeWhile_cons_of_neg (hrest c rfl), List.append_nil]

theorem dropWhile_append {ds : List Byte} (hds : ∀ d ∈ ds, isDigit d) (hrest : NoDigit rest) :
    (ds ++ rest).dropWhile isDigit = rest := by
  rw [List.dropWhile_append_of_pos hds]
  cases rest with
  | nil => rfl
  | cons c rest => rw [List.dropWhile_cons_of_neg (hrest c rfl)]

theorem skipZeroOrMoreDigits_append {ds : List Byte} (hs : s.chars = ds ++ rest)
    (hds : ∀ d ∈ ds, isDigit d) (hrest : NoDigit rest) :
    s.skipZeroOrMoreDigits = s.behind ds rest false := by
  unfold skipZeroOrMoreDigits behind
  rw [hs, takeWhile_append hds hrest, dropWhile_append hds hrest, countP_isDigit hds, Bool.or_false]

theorem noDigit_dropWhile (chars : List Byte) : NoDigit (chars.dropWhile isDigit) := by
  intro c hc
  have hnot := List.head?_dropWhile_not isDigit chars
  rw [Option.mem_def.1 hc] at hnot
  rwa [Bool.not_eq_true]

theorem exists_digits (s : NumberScan) : ∃ ds, (∀ d ∈ ds, isDigit d) ∧
    NoDigit s.skipZeroOrMoreDigits.chars ∧ s.chars = ds ++ s.skipZeroOrMoreDigits.chars ∧
    s.skipZeroOrMoreDigits = s.behind ds s.skipZeroOrMoreDigits.chars false := by
  have hds : ∀ d ∈ s.chars.takeWhile isDigit, isDigit d :=
    fun d hd => List.mem_takeWhile_imp hd
  have hchars : s.chars = s.chars.takeWhile isDigit ++ s.skipZeroOrMoreDigits.chars :=
    List.takeWhile_append_dropWhile.symm
  exact ⟨_, hds, noDigit_dropWhile _, hchars,
    skipZeroOrMoreDigits_append hchars hds (noDigit_dropWhile _)⟩

theorem trySkipOneOrMoreDigits_iff : s.trySkipOneOrMoreDigits = some s' ↔
    ∃ ds, IsDigits ds ∧ NoDigit s'.chars ∧ s.chars = ds ++ s'.chars ∧
      s' = s.behind ds s'.chars false := by
  constructor
  · intro h
    unfold trySkipOneOrMoreDigits at h
    split at h
    · exact absurd h (by simp)
    · next c chars hs =>
      split at h
      · next hc =>
        obtain rfl := Option.some.inj h
        obtain ⟨ds, hds, hno, hchars, heq⟩ :=
          exists_digits { s with chars, numberDigitsLength := s.numberDigitsLength + 1 }
        refine ⟨c :: ds, ⟨by simp, List.forall_mem_cons.2 ⟨hc, hds⟩⟩, hno, ?_, ?_⟩
        · rw [hs]
          exact congrArg (c :: ·) hchars
        · rw [heq]
          unfold behind
          rw [List.countP_cons_of_pos hc]
          simp only [mk.injEq, true_and]
          omega
      · exact absurd h (by simp)
  · rintro ⟨ds, ⟨hne, hds⟩, hno, hchars, heq⟩
    obtain _ | ⟨d, ds⟩ := ds
    · exact absurd rfl hne
    · obtain ⟨hd, hds⟩ := List.forall_mem_cons.1 hds
      unfold trySkipOneOrMoreDigits
      rw [hchars, List.cons_append]
      dsimp only
      rw [if_pos hd, heq]
      refine congrArg some ?_
      rw [skipZeroOrMoreDigits_append rfl hds hno]
      unfold behind
      rw [List.countP_cons_of_pos hd]
      simp only [mk.injEq, true_and]
      omega

/-- Behind a fraction no digit follows; without one, no point does. -/
theorem trySkipFraction_iff (hno : NoDigit s.chars) : s.trySkipFraction = some s' ↔
    ∃ frac, IsFraction frac ∧ NoDigit s'.chars ∧ s.chars = frac ++ s'.chars ∧
      (frac = [] → ∀ c ∈ s'.chars.head?, c ≠ chr '.') ∧
      s' = s.behind frac s'.chars (decide (frac ≠ [])) := by
  constructor
  · intro h
    unfold trySkipFraction at h
    split at h
    · next hs =>
      obtain rfl := Option.some.inj h
      refine ⟨[], .none, hno, rfl, fun _ c hc => ?_, ?_⟩
      · rw [hs] at hc
        exact absurd hc (by simp)
      · simp [behind]
    · next c chars hs =>
      split at h
      · next hc =>
        subst hc
        obtain ⟨ds, hds, hno', hchars, heq⟩ := trySkipOneOrMoreDigits_iff.1 h
        refine ⟨chr '.' :: ds, .some hds, hno', ?_, fun hnil => absurd hnil (by simp), ?_⟩
        · rw [hs]
          exact congrArg (chr '.' :: ·) hchars
        · rw [heq]
          unfold behind
          rw [List.countP_cons_of_neg (by decide)]
          simp
      · next hc =>
        obtain rfl := Option.some.inj h
        refine ⟨[], .none, hno, rfl, fun _ c' hc' => ?_, ?_⟩
        · rw [hs] at hc'
          obtain rfl := Option.some.inj hc'
          exact hc
        · simp [behind]
  · rintro ⟨frac, hfrac, hno', hchars, hdot, heq⟩
    cases hfrac with
    | none =>
      -- an empty fraction leaves the scan where it is
      have hself : s = s' := by
        rw [heq, behind, show s'.chars = s.chars from hchars.symm]
        simp
      subst hself
      unfold trySkipFraction
      split
      · rfl
      · next c chars hs =>
        exact if_neg (hdot rfl c (by rw [hs]; rfl))
    | some hds =>
      unfold trySkipFraction
      rw [hchars, List.cons_append]
      dsimp only
      rw [if_pos rfl]
      refine trySkipOneOrMoreDigits_iff.2 ⟨_, hds, hno', rfl, heq.trans ?_⟩
      unfold behind
      rw [List.countP_cons_of_neg (by decide)]
      simp

theorem behind_append {part part' rest' : List Byte} {b b' : Bool} :
    (s.behind part rest b).behind part' rest' b' = s.behind (part ++ part') rest' (b || b') := by
  unfold behind
  rw [List.countP_append, Bool.or_assoc, Nat.add_assoc]

theorem tryParseExp_iff : s.tryParseExp = some s' ↔
    ∃ sign ds, (sign = [] ∨ sign = [chr '+'] ∨ sign = [chr '-']) ∧ IsDigits ds ∧
      NoDigit s'.chars ∧ s.chars = sign ++ ds ++ s'.chars ∧
      s' = s.behind (sign ++ ds) s'.chars false := by
  constructor
  · intro h
    unfold tryParseExp at h
    have hnone (h : s.trySkipOneOrMoreDigits = some s') : ∃ sign ds,
        (sign = [] ∨ sign = [chr '+'] ∨ sign = [chr '-']) ∧ IsDigits ds ∧ NoDigit s'.chars ∧
        s.chars = sign ++ ds ++ s'.chars ∧ s' = s.behind (sign ++ ds) s'.chars false := by
      obtain ⟨ds, hds, hno, hchars, heq⟩ := trySkipOneOrMoreDigits_iff.1 h
      exact ⟨[], ds, Or.inl rfl, hds, hno, hchars, heq⟩
    split at h
    · exact hnone h
    · next c chars hs =>
      split at h
      · next hc =>
        obtain ⟨ds, hds, hno, hchars, heq⟩ := trySkipOneOrMoreDigits_iff.1 h
        refine ⟨[c], ds, ?_, hds, hno, ?_, ?_⟩
        · rcases hc with rfl | rfl
          · exact Or.inr (Or.inl rfl)
          · exact Or.inr (Or.inr rfl)
        · rw [hs]
          exact congrArg (c :: ·) hchars
        · have hdigit : ¬isDigit c := by
            rcases hc with rfl | rfl
            · decide
            · decide
          rw [heq]
          unfold behind
          rw [List.singleton_append, List.countP_cons_of_neg hdigit]
      · exact hnone h
  · rintro ⟨sign, ds, hsign, hds, hno, hchars, heq⟩
    unfold tryParseExp
    have hsigned (c : Byte) (hc : c = chr '+' ∨ c = chr '-') (hdigit : ¬isDigit c)
        (hsign : sign = [c]) : (if c = chr '+' ∨ c = chr '-' then
          trySkipOneOrMoreDigits { s with chars := ds ++ s'.chars } else
          s.trySkipOneOrMoreDigits) = some s' := by
      rw [if_pos hc]
      refine trySkipOneOrMoreDigits_iff.2 ⟨ds, hds, hno, rfl, heq.trans ?_⟩
      unfold behind
      rw [hsign, List.singleton_append, List.countP_cons_of_neg hdigit]
    rcases hsign with rfl | rfl | rfl
    · -- a digit is no sign
      have hskip := trySkipOneOrMoreDigits_iff.2 ⟨ds, hds, hno, hchars, heq⟩
      split
      · exact hskip
      · next c chars hs =>
        obtain _ | ⟨d, ds⟩ := ds
        · exact absurd rfl hds.1
        · obtain ⟨rfl, -⟩ := List.cons.inj (hs.symm.trans hchars)
          have hd := hds.2 c (List.mem_cons_self ..)
          rw [if_neg ?_]
          · exact hskip
          · rintro (rfl | rfl)
            · exact absurd hd (by decide)
            · exact absurd hd (by decide)
    · rw [hchars]
      exact hsigned _ (Or.inl rfl) (by decide) rfl
    · rw [hchars]
      exact hsigned _ (Or.inr rfl) (by decide) rfl

/-- Behind an exponent no digit follows; without one, no `e` does. -/
theorem trySkipExp_iff : s.trySkipExp = some s' ↔
    ∃ exp, IsExponent exp ∧ (exp ≠ [] → NoDigit s'.chars) ∧
      s.chars = exp ++ s'.chars ∧
      (exp = [] → ∀ c ∈ s'.chars.head?, c ≠ chr 'e' ∧ c ≠ chr 'E') ∧
      s' = s.behind exp s'.chars (decide (exp ≠ [])) := by
  constructor
  · intro h
    unfold trySkipExp at h
    split at h
    · next hs =>
      obtain rfl := Option.some.inj h
      refine ⟨[], .none, fun hne => absurd rfl hne, rfl, fun _ c hc => ?_, ?_⟩
      · rw [hs] at hc
        exact absurd hc (by simp)
      · simp [behind]
    -- a marker begins an exponent, any other character ends the number
    · next c chars hs =>
      split at h
      · next hc =>
        obtain ⟨sign, ds, hsign, hds, hno, hchars, heq⟩ := tryParseExp_iff.1 h
        refine ⟨c :: (sign ++ ds), .some hc hsign hds, fun _ => hno, ?_,
          fun hnil => absurd hnil (by simp), ?_⟩
        · rw [hs]
          exact congrArg (c :: ·) hchars
        · have hdigit : ¬isDigit c := by
            rcases hc with rfl | rfl
            · decide
            · decide
          rw [heq]
          unfold behind
          rw [List.countP_cons_of_neg hdigit]
          simp
      · next hc =>
        obtain rfl := Option.some.inj h
        refine ⟨[], .none, fun hne => absurd rfl hne, rfl, fun _ c' hc' => ?_, ?_⟩
        · rw [hs] at hc'
          obtain rfl := Option.some.inj hc'
          exact not_or.1 hc
        · simp [behind]
  · rintro ⟨exp, hexp, hno, hchars, hend, heq⟩
    cases hexp with
    | none =>
      have hself : s = s' := by
        rw [heq, behind, show s'.chars = s.chars from hchars.symm]
        simp
      subst hself
      unfold trySkipExp
      split
      · rfl
      · next c chars hs =>
        exact if_neg (not_or.2 (hend rfl c (by rw [hs]; rfl)))
    | @some e sign ds he hsign hds =>
      have hdigit : ¬isDigit e := by
        rcases he with rfl | rfl
        · decide
        · decide
      unfold trySkipExp
      rw [hchars, List.cons_append]
      dsimp only
      rw [if_pos he]
      refine tryParseExp_iff.2 ⟨sign, ds, hsign, hds, hno (by simp), rfl, heq.trans ?_⟩
      unfold behind
      rw [List.countP_cons_of_neg hdigit]
      simp

theorem IsExponent.noDigit {exp : List Byte} (h : IsExponent exp) (hne : exp ≠ []) :
    NoDigit (exp ++ rest) := by
  cases h with
  | none => exact absurd rfl hne
  | some he =>
    intro c hc
    obtain rfl := Option.some.inj hc
    rcases he with rfl | rfl
    · decide
    · decide

theorem noDigit_behind {frac exp : List Byte} (hfrac : IsFraction frac)
    (hexponent : IsExponent exp) (hrest : NoDigit rest) :
    NoDigit (exp ++ rest) ∧ NoDigit (frac ++ (exp ++ rest)) := by
  have hexp : NoDigit (exp ++ rest) := by
    by_cases hne : exp = []
    · rw [hne]
      exact hrest
    · exact IsExponent.noDigit hexponent hne
  refine ⟨hexp, ?_⟩
  cases hfrac with
  | none => exact hexp
  | some hds =>
    intro c hc
    obtain rfl := Option.some.inj hc
    decide

theorem parseNumberFromFraction_iff (hno : NoDigit s.chars) :
    s.parseNumberFromFraction = some s' ↔
      ∃ frac exp, IsFraction frac ∧ IsExponent exp ∧
        EndsNumber frac exp s'.chars ∧ s.chars = frac ++ exp ++ s'.chars ∧
        s' = s.behind (frac ++ exp) s'.chars
          (decide (frac ≠ [] ∨ exp ≠ [])) := by
  have hflag (frac exp : List Byte) : (decide (frac ≠ []) || decide (exp ≠ [])) =
      decide (frac ≠ [] ∨ exp ≠ []) := (Bool.decide_or _ _).symm
  unfold parseNumberFromFraction
  rw [Option.bind_eq_some_iff]
  constructor
  · rintro ⟨s1, h1, h2⟩
    obtain ⟨frac, hfrac, hno1, hchars1, hdot, heq1⟩ := (trySkipFraction_iff hno).1 h1
    obtain ⟨exp, hexp, hno2, hchars2, hend, heq2⟩ := trySkipExp_iff.1 h2
    refine ⟨frac, exp, hfrac, hexp, ⟨?_, ?_, hend⟩, ?_, ?_⟩
    · by_cases hne : exp = []
      · rw [hne, List.nil_append] at hchars2
        rw [← hchars2]
        exact hno1
      · exact hno2 hne
    · rintro hnil rfl
      rw [List.nil_append] at hchars2
      rw [← hchars2]
      exact hdot hnil
    · rw [hchars1, hchars2, List.append_assoc]
    · rw [heq2, heq1, behind_append, hflag]
      rfl
  · rintro ⟨frac, exp, hfrac, hexp, hend, hchars, heq⟩
    -- a fraction ends where the exponent or the rest begins
    obtain ⟨hno1, -⟩ := noDigit_behind hfrac hexp hend.digit
    refine ⟨s.behind frac (exp ++ s'.chars) (decide (frac ≠ [])), ?_, ?_⟩
    · refine (trySkipFraction_iff hno).2 ⟨frac, hfrac, hno1, ?_, ?_, rfl⟩
      · rw [hchars, List.append_assoc]
        rfl
      · intro hnil
        show ∀ c ∈ (exp ++ s'.chars).head?, c ≠ chr '.'
        cases hexp with
        | none => exact hend.fraction hnil rfl
        | some he =>
          intro c hc
          obtain rfl := Option.some.inj hc
          rcases he with rfl | rfl
          · decide
          · decide
    · refine trySkipExp_iff.2 ⟨exp, hexp, fun _ => hend.digit, rfl, hend.exponent, ?_⟩
      rw [behind_append, hflag]
      exact heq

/-- The integer part makes the scan start, with the rest of the number behind it. -/
theorem tryUnsignedNumber_of_isInt {int chars : List Byte} (hint : IsInt int) (hno : NoDigit chars) :
    tryUnsignedNumber (int ++ chars) = parseNumberFromFraction
      { chars, isFloat := false, numberDigitsLength := int.countP isDigit } := by
  cases hint with
  | zero =>
    unfold tryUnsignedNumber
    rw [List.singleton_append]
    dsimp only
    rw [if_neg (by decide), if_pos rfl]
    have hone : [chr '0'].countP isDigit = 1 := by decide
    rw [hone]
    cases chars with
    | nil => rfl
    | cons next chars => exact if_neg (hno next rfl)
  | @digits d ds hd hds =>
    have hdigit : isDigit d := by
      have hle : chr '0' ≤ d := BitVec.le_trans (by decide) hd.1
      simp [isDigit, hle, hd.2]
    unfold tryUnsignedNumber
    rw [List.cons_append]
    dsimp only
    rw [if_pos (by simp [hd.1, hd.2]), skipZeroOrMoreDigits_append rfl hds hno]
    unfold behind
    rw [List.countP_cons_of_pos hdigit, Bool.or_false, Nat.add_comm]

/-- The unsigned numbers of the grammar are scanned. -/
theorem tryUnsignedNumber_iff {chars : List Byte} : tryUnsignedNumber chars = some s ↔
    ∃ int frac exp, IsInt int ∧ IsFraction frac ∧ IsExponent exp ∧
      EndsNumber frac exp s.chars ∧ chars = int ++ frac ++ exp ++ s.chars ∧
      s.isFloat = decide (frac ≠ [] ∨ exp ≠ []) ∧
      s.numberDigitsLength = (int ++ frac ++ exp).countP isDigit := by
  constructor
  · intro h
    -- behind the integer part
    have hpart : ∃ int chars', IsInt int ∧ NoDigit chars' ∧ chars = int ++ chars' := by
      unfold tryUnsignedNumber at h
      split at h
      · exact absurd h (by simp)
      · next c chars =>
        split at h
        · next hc =>
          rw [Bool.and_eq_true, decide_eq_true_eq, decide_eq_true_eq] at hc
          obtain ⟨ds, hds, hno, hchars, -⟩ :=
            exists_digits { chars, isFloat := false, numberDigitsLength := 1 }
          exact ⟨c :: ds, _, .digits hc hds, hno, congrArg (c :: ·) hchars⟩
        · split at h
          · next hc =>
            subst hc
            refine ⟨[chr '0'], chars, .zero, ?_, rfl⟩
            split at h
            · exact fun c hc => absurd hc (by simp)
            · next next _ =>
              split at h
              · exact absurd h (by simp)
              · next hdigit =>
                intro c hc
                obtain rfl := Option.some.inj hc
                exact hdigit
          · exact absurd h (by simp)
    obtain ⟨int, chars', hint, hno, rfl⟩ := hpart
    rw [tryUnsignedNumber_of_isInt hint hno] at h
    obtain ⟨frac, exp, hfrac, hexp, hend, hchars, heq⟩ :=
      (parseNumberFromFraction_iff hno).1 h
    refine ⟨int, frac, exp, hint, hfrac, hexp, hend, ?_, ?_, ?_⟩
    · rw [show chars' = _ from hchars]
      simp only [List.append_assoc]
    · rw [heq]
      exact Bool.false_or _
    · rw [heq, List.append_assoc, List.countP_append]
      rfl
  · rintro ⟨int, frac, exp, hint, hfrac, hexp, hend, rfl, hfloat, hdigits⟩
    obtain ⟨-, hno⟩ := noDigit_behind hfrac hexp hend.digit
    rw [List.append_assoc, List.append_assoc, tryUnsignedNumber_of_isInt hint hno]
    refine (parseNumberFromFraction_iff hno).2 ⟨frac, exp, hfrac, hexp, hend, ?_, ?_⟩
    · exact (List.append_assoc _ _ _).symm
    · obtain ⟨chars, isFloat, digits⟩ := s
      obtain rfl : isFloat = _ := hfloat
      obtain rfl : digits = _ := hdigits
      unfold behind
      rw [List.append_assoc, List.countP_append]
      simp only [Bool.false_or]

end NumberScan

theorem checkMaxNumLen_iff {n : Nat} : checkMaxNumLen n ↔ n ≤ maxNumLen := by
  unfold checkMaxNumLen maxNumLen
  simp

theorem IsInt.ne_minus {int : List Byte} (h : IsInt int) : ∃ c ds, int = c :: ds ∧ c ≠ chr '-' := by
  cases h with
  | zero => exact ⟨_, _, rfl, by decide⟩
  | digits hd =>
    refine ⟨_, _, rfl, ?_⟩
    rintro rfl
    exact absurd hd (by decide)

namespace JsonParser

variable {p : JsonParser} {isFloat : Bool} {text rest : List Byte}

theorem skipMinus_minus (chars : List Byte) : skipMinus (chr '-' :: chars) = chars := by
  rw [skipMinus, if_pos rfl]

/-- The token of a number. -/
def numberToken (isFloat : Bool) : JsonToken :=
  if isFloat then .valueNumberFloat else .valueNumberInt

/-- A number of the grammar is parsed. -/
theorem parseNumber_of_isNumber (h : IsNumber isFloat text rest) (hp : p.chars = text ++ rest) :
    p.parseNumberAndSetCurrent = { p with chars := rest, currentToken := numberToken isFloat } := by
  obtain ⟨hsign, hint, hfrac, hexp, hend, hlen⟩ := h
  next sign int frac exp =>
  obtain ⟨c, ds, hc, hminus⟩ := hint.ne_minus
  have hscan : NumberScan.tryUnsignedNumber (int ++ frac ++ exp ++ rest) = some
      { chars := rest, isFloat := decide (frac ≠ [] ∨ exp ≠ [])
        numberDigitsLength := (int ++ frac ++ exp).countP isDigit } :=
    NumberScan.tryUnsignedNumber_iff.2
      ⟨int, frac, exp, hint, hfrac, hexp, hend, rfl, rfl, rfl⟩
  have hunsigned : skipMinus p.chars = int ++ frac ++ exp ++ rest := by
    rw [hp]
    rcases hsign with rfl | rfl
    · rw [hc]
      exact if_neg hminus
    · exact skipMinus_minus _
  unfold parseNumberAndSetCurrent
  rw [hunsigned, hscan]
  exact if_pos (checkMaxNumLen_iff.2 hlen)

/-- What is parsed as a number is one. -/
theorem parseNumber_cases (p : JsonParser) : p.parseNumberAndSetCurrent = p.setCurrentError ∨
    ∃ isFloat text rest, IsNumber isFloat text rest ∧ p.chars = text ++ rest := by
  unfold parseNumberAndSetCurrent
  split
  · next s hscan =>
    split
    · next hlen =>
      right
      obtain ⟨int, frac, exp, hint, hfrac, hexp, hend, hchars, -, hdigits⟩ :=
        NumberScan.tryUnsignedNumber_iff.1 hscan
      rw [checkMaxNumLen_iff, hdigits] at hlen
      have hnumber (sign : List Byte) (hsign : sign = [] ∨ sign = [chr '-'])
          (hp : p.chars = sign ++ (int ++ frac ++ exp ++ s.chars)) :
          ∃ isFloat text rest, IsNumber isFloat text rest ∧ p.chars = text ++ rest := by
        refine ⟨_, _, _, .mk hsign hint hfrac hexp hend hlen, hp.trans ?_⟩
        exact (List.append_assoc _ _ _).symm
      unfold skipMinus at hchars
      split at hchars
      · next hnil =>
        obtain ⟨c, ds, rfl, -⟩ := hint.ne_minus
        exact absurd hchars (by simp)
      · next c chars hp =>
        split at hchars
        · next hc =>
          subst hc
          exact hnumber [chr '-'] (Or.inr rfl) (by rw [hp, hchars]; rfl)
        · exact hnumber [] (Or.inl rfl) (by rw [hp, hchars]; rfl)
    · exact Or.inl rfl
  · exact Or.inl rfl

end JsonParser

end SparkRapids.GetJson
