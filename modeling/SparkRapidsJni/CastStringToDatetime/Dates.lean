import SparkRapidsJni.CastStringToDatetime.Text
import SparkRapidsJni.TimeZone.CivilDays

/-!
# `cast_string_to_datetime.cu`: strings to dates

`parse_date` accepts the texts of `DateText`, the formats that the header of the cast lists
(`parseDate_eq_some_iff`). With the arithmetic of civil days the cast is exact: a row is valid iff its
trimmed text denotes a Gregorian date whose day fits into 32 bits, and that day is stored
(`parseStringToDate_exact`).
-/

namespace SparkRapids.CastStringToDatetime

open Ascii Calendar CivilDays MachineInt

/-! ### The functions of the source -/

/-- `date_segments` -/
structure DateSegments where
  year : Int
  month : Int
  day : Int
  deriving DecidableEq, Repr

/-- The constructor of `date_segments`: 1970-01-01 -/
def DateSegments.default : DateSegments := ⟨1970, 1, 1⟩

/-- `is_valid_date` -/
def DateSegments.isValidDate (d : DateSegments) : Bool := isValidDateForDate d.year d.month d.day

/-- `to_epoch_day` -/
def DateSegments.toEpochDay (d : DateSegments) : Int := CivilDays.toEpochDay d.year d.month d.day

/-- `parse_char`, of a character that is not behind the end -/
def parseChar (c : Byte) : List Byte → Option (List Byte)
  | [] => none
  | b :: rest => if b = c then some rest else none

/-- `parse_date_time_separator`, of a character that is not behind the end -/
def parseDateTimeSeparator : List Byte → Bool
  | [] => false
  | c :: _ => c = chr ' ' || c = chr 'T'

/-- `parse_date` behind the month -/
def parseDay (d : DateSegments) (chars : List Byte) : Option DateSegments :=
  if chars.isEmpty then some d
  else do
    let chars ← parseChar (chr '-') chars
    let (day, chars) ← parseInt 1 2 chars
    let d := { d with day := day }
    if chars.isEmpty then some d
    -- what is behind the separator is ignored
    else if parseDateTimeSeparator chars then some d else none

/-- `parse_date` behind the year -/
def parseMonth (d : DateSegments) (chars : List Byte) : Option DateSegments :=
  if chars.isEmpty then some d
  else do
    let chars ← parseChar (chr '-') chars
    let (month, chars) ← parseInt 1 2 chars
    parseDay { d with month := month } chars

/-- The sign of `parse_date`, and the characters behind it. -/
def parseSign (chars : List Byte) : Bool × List Byte :=
  match chars with
  | [] => (false, [])
  | c :: rest => if c = chr '-' ∨ c = chr '+' then (decide (c = chr '-'), rest) else (false, chars)

/-- `parse_date` -/
def parseDate (text : List Byte) : Option DateSegments :=
  let chars := trimAll text
  if chars.isEmpty then none
  else
    let (negativeYearSign, chars) := parseSign chars
    match parseInt 4 7 chars with
    | none => none
    | some (year, chars) =>
      parseMonth { DateSegments.default with year := if negativeYearSign then -(year : Int) else year } chars

/-- `parse_string_to_date_fn`, of a row: its validity, and what is stored. -/
def parseStringToDate (row : Option (List Byte)) : Bool × Option Int :=
  match row with
  | none => (false, none)
  | some text =>
    match parseDate text with
    | none => (false, none)
    | some d =>
      if !d.isValidDate then (false, none)
      else
        let days := d.toEpochDay
        (-2147483648 ≤ days && days ≤ 2147483647, some (int32 days))

/-! ### The formats -/

/-- `[+-]yyyy*` -/
inductive YearText : List Byte → Int → Prop
  | unsigned {ds : List Byte} (h : IsNumber 4 7 ds) : YearText ds (number ds)
  | plus {ds : List Byte} (h : IsNumber 4 7 ds) : YearText (chr '+' :: ds) (number ds)
  | minus {ds : List Byte} (h : IsNumber 4 7 ds) : YearText (chr '-' :: ds) (-(number ds : Int))

/-- What is behind the day: nothing, or a separator and anything. -/
def IsRest (rest : List Byte) : Prop := rest = [] ∨ ∃ c anything, rest = c :: anything ∧
  (c = chr ' ' ∨ c = chr 'T')

/-- The texts of the formats, and the dates that they write. -/
inductive DateText : List Byte → DateSegments → Prop
  | year {ys : List Byte} {y : Int} (hy : YearText ys y) : DateText ys ⟨y, 1, 1⟩
  | month {ys ms : List Byte} {y : Int} (hy : YearText ys y) (hm : IsNumber 1 2 ms) :
    DateText (ys ++ chr '-' :: ms) ⟨y, number ms, 1⟩
  | day {ys ms ds rest : List Byte} {y : Int} (hy : YearText ys y) (hm : IsNumber 1 2 ms)
    (hd : IsNumber 1 2 ds) (hrest : IsRest rest) :
    DateText (ys ++ chr '-' :: (ms ++ chr '-' :: (ds ++ rest))) ⟨y, number ms, number ds⟩

/-! ### The parser accepts the formats -/

variable {chars rest text : List Byte} {d : DateSegments}

theorem parseChar_eq_some_iff {c : Byte} : parseChar c chars = some rest ↔ chars = c :: rest := by
  cases chars with
  | nil => simp [parseChar]
  | cons b bs => simp [parseChar]

theorem noDigit_dash (rest : List Byte) : NoDigit (chr '-' :: rest) := noDigit_cons (by decide)

theorem noDigit_rest (h : IsRest rest) : NoDigit rest := by
  obtain rfl | ⟨c, anything, rfl, rfl | rfl⟩ := h
  · exact noDigit_nil
  · exact noDigit_cons (by decide)
  · exact noDigit_cons (by decide)

theorem isRest_iff : IsRest rest ↔ rest.isEmpty = true ∨ parseDateTimeSeparator rest = true := by
  unfold IsRest
  cases rest with
  | nil => simp
  | cons c rest => simp [parseDateTimeSeparator]

/-- Behind the month: nothing, or a day. -/
theorem parseDay_eq_some_iff {d' : DateSegments} : parseDay d chars = some d' ↔
    chars = [] ∧ d' = d ∨ ∃ ds rest, chars = chr '-' :: (ds ++ rest) ∧ IsNumber 1 2 ds ∧ IsRest rest ∧
      d' = { d with day := number ds } := by
  unfold parseDay
  cases chars with
  | nil =>
    rw [List.isEmpty_nil, if_pos rfl, Option.some.injEq]
    simp only [true_and, List.nil_eq, reduceCtorEq, false_and, exists_false, or_false]
    exact eq_comm
  | cons b bs =>
    rw [if_neg (by simp)]
    constructor
    · intro h
      obtain ⟨chars, hchar, h⟩ := Option.bind_eq_some_iff.1 h
      obtain ⟨⟨day, rest⟩, hday, h⟩ := Option.bind_eq_some_iff.1 h
      obtain ⟨ds, rfl, hds, -, rfl⟩ := parseInt_eq_some_iff.1 hday
      rw [parseChar_eq_some_iff] at hchar
      dsimp only at h
      -- the parser checks the rest as `IsRest` says
      have hrest : IsRest rest := by
        rw [isRest_iff]
        split_ifs at h with hempty hseparator
        · exact .inl hempty
        · exact .inr hseparator
      have hsame : d' = { d with day := (number ds : Int) } := by
        split_ifs at h
        · exact (Option.some.inj h).symm
        · exact (Option.some.inj h).symm
      exact .inr ⟨ds, rest, hchar, hds, hrest, hsame⟩
    · rintro (⟨hnil, -⟩ | ⟨ds, rest, hchars, hds, hrest, rfl⟩)
      · exact absurd hnil (by simp)
      · rw [parseChar_eq_some_iff.2 hchars]
        show (parseInt 1 2 (ds ++ rest)).bind _ = _
        rw [parseInt_append hds (noDigit_rest hrest)]
        show (if rest.isEmpty then _ else _) = _
        rw [isRest_iff] at hrest
        split_ifs with hempty hseparator
        · rfl
        · rfl
        · exact absurd hrest (by simp [hempty, hseparator])

/-- Behind the year: nothing, or a month and what is behind it. -/
theorem parseMonth_eq_some_iff {d' : DateSegments} : parseMonth d chars = some d' ↔
    chars = [] ∧ d' = d ∨ ∃ ms rest, chars = chr '-' :: (ms ++ rest) ∧ IsNumber 1 2 ms ∧
      parseDay { d with month := number ms } rest = some d' := by
  unfold parseMonth
  cases chars with
  | nil =>
    rw [List.isEmpty_nil, if_pos rfl, Option.some.injEq]
    simp only [true_and, List.nil_eq, reduceCtorEq, false_and, exists_false, or_false]
    exact eq_comm
  | cons b bs =>
    rw [if_neg (by simp)]
    constructor
    · intro h
      obtain ⟨chars, hchar, h⟩ := Option.bind_eq_some_iff.1 h
      obtain ⟨⟨month, rest⟩, hmonth, h⟩ := Option.bind_eq_some_iff.1 h
      obtain ⟨ms, rfl, hms, -, rfl⟩ := parseInt_eq_some_iff.1 hmonth
      rw [parseChar_eq_some_iff] at hchar
      exact .inr ⟨ms, rest, hchar, hms, h⟩
    · rintro (⟨hnil, -⟩ | ⟨ms, rest, hchars, hms, hday⟩)
      · exact absurd hnil (by simp)
      · have hrest : NoDigit rest := by
          obtain ⟨rfl, -⟩ | ⟨ds, rest, rfl, -⟩ := parseDay_eq_some_iff.1 hday
          · exact noDigit_nil
          · exact noDigit_dash _
        rw [parseChar_eq_some_iff.2 hchars]
        show (parseInt 1 2 (ms ++ rest)).bind _ = _
        rw [parseInt_append hms hrest]
        exact hday

/-- A number does not begin with a sign. -/
theorem head_not_sign {minDigits maxDigits : ℕ} {ds : List Byte} (h : IsNumber minDigits maxDigits ds)
    (hpos : 0 < minDigits) {c : Byte} (hc : c = chr '-' ∨ c = chr '+') : (ds ++ rest).head? ≠ some c := by
  have hle := h.le_length
  cases ds with
  | nil => exact absurd hle (by simp; omega)
  | cons b ds =>
    intro hhead
    obtain rfl : b = c := Option.some.inj hhead
    have hdigit := h.digits b (List.mem_cons_self ..)
    obtain rfl | rfl := hc
    · exact absurd hdigit (by decide)
    · exact absurd hdigit (by decide)

/-- The sign of a year is read. -/
theorem YearText.parseSign_append {ys : List Byte} {y : Int} (h : YearText ys y) :
    ∃ negative ds, (∀ rest, parseSign (ys ++ rest) = (negative, ds ++ rest)) ∧ IsNumber 4 7 ds ∧
      y = if negative then -(number ds : Int) else number ds := by
  cases h with
  | unsigned h =>
    refine ⟨false, ys, fun rest => ?_, h, rfl⟩
    have hminus := @head_not_sign rest 4 7 ys h (by decide) (chr '-') (.inl rfl)
    have hplus := @head_not_sign rest 4 7 ys h (by decide) (chr '+') (.inr rfl)
    unfold parseSign
    cases hchars : ys ++ rest with
    | nil => rfl
    | cons c cs =>
      rw [hchars] at hminus hplus
      dsimp only
      rw [if_neg]
      rintro (rfl | rfl)
      · exact hminus rfl
      · exact hplus rfl
  | @plus ds h => exact ⟨false, ds, fun rest => rfl, h, rfl⟩
  | @minus ds h => exact ⟨true, ds, fun rest => rfl, h, rfl⟩

/-- A sign and a number are a year. -/
theorem exists_yearText {ds : List Byte} {negative : Bool}
    (hsign : parseSign chars = (negative, ds ++ rest)) (hds : IsNumber 4 7 ds) :
    ∃ ys, chars = ys ++ rest ∧ YearText ys (if negative then -(number ds : Int) else number ds) := by
  unfold parseSign at hsign
  cases chars with
  | nil =>
    have hnil : ds = [] := (List.append_eq_nil_iff.1 (Prod.mk.inj hsign).2.symm).1
    exact absurd hds.le_length (by simp [hnil])
  | cons c cs =>
    dsimp only at hsign
    split_ifs at hsign with hc
    · obtain ⟨rfl, rfl⟩ := Prod.mk.inj hsign
      obtain rfl | rfl := hc
      · exact ⟨_, rfl, .minus hds⟩
      · exact ⟨_, rfl, .plus hds⟩
    · obtain ⟨rfl, hchars⟩ := Prod.mk.inj hsign
      exact ⟨ds, hchars, .unsigned hds⟩

/-- The year, and what is behind it. -/
theorem parseDate_eq_some_iff_year : parseDate text = some d ↔
    ∃ ys y rest, trimAll text = ys ++ rest ∧ YearText ys y ∧
      parseMonth { DateSegments.default with year := y } rest = some d := by
  unfold parseDate
  generalize trimAll text = chars
  dsimp only
  constructor
  · intro h
    have hempty : ¬(chars.isEmpty = true) := by
      intro hempty
      rw [if_pos hempty] at h
      exact absurd h (by simp)
    rw [if_neg hempty] at h
    cases hsign : parseSign chars with
    | mk negative tail =>
      rw [hsign] at h
      dsimp only at h
      cases hyear : parseInt 4 7 tail with
      | none => rw [hyear] at h; exact absurd h (by simp)
      | some r =>
        obtain ⟨year, rest⟩ := r
        rw [hyear] at h
        obtain ⟨ds, rfl, hds, -, rfl⟩ := parseInt_eq_some_iff.1 hyear
        obtain ⟨ys, hchars, hy⟩ := exists_yearText hsign hds
        exact ⟨ys, _, rest, hchars, hy, h⟩
  · rintro ⟨ys, y, rest, rfl, hy, hmonth⟩
    -- what is behind the year begins with no digit
    have hrest : NoDigit rest := by
      obtain ⟨rfl, -⟩ | ⟨ms, rest, rfl, -⟩ := parseMonth_eq_some_iff.1 hmonth
      · exact noDigit_nil
      · exact noDigit_dash _
    obtain ⟨negative, ds, hsign, hds, rfl⟩ := hy.parseSign_append
    have hne : ¬((ys ++ rest).isEmpty = true) := by
      intro hempty
      rw [List.isEmpty_iff] at hempty
      have hnil := hsign rest
      rw [hempty] at hnil
      have hlen := congrArg (fun r => r.2.length) hnil
      have hle := hds.le_length
      simp [parseSign] at hlen
      omega
    rw [if_neg hne, hsign, parseInt_append hds hrest]
    exact hmonth

/-- `parse_date` accepts the formats, and reads the date that is written. -/
theorem parseDate_eq_some_iff : parseDate text = some d ↔ DateText (trimAll text) d := by
  rw [parseDate_eq_some_iff_year]
  constructor
  · rintro ⟨ys, y, rest, htext, hy, hmonth⟩
    rw [htext]
    obtain ⟨rfl, rfl⟩ | ⟨ms, rest, rfl, hms, hday⟩ := parseMonth_eq_some_iff.1 hmonth
    · rw [List.append_nil]
      exact .year hy
    obtain ⟨rfl, rfl⟩ | ⟨ds, rest, rfl, hds, hrest, rfl⟩ := parseDay_eq_some_iff.1 hday
    · rw [List.append_nil]
      exact .month hy hms
    · exact .day hy hms hds hrest
  · intro h
    generalize trimAll text = chars at h
    cases h with
    | year hy =>
      refine ⟨_, _, [], (List.append_nil _).symm, hy, ?_⟩
      exact parseMonth_eq_some_iff.2 (.inl ⟨rfl, rfl⟩)
    | @month ys ms y hy hm =>
      refine ⟨_, _, _, rfl, hy, ?_⟩
      refine parseMonth_eq_some_iff.2 (.inr ⟨ms, [], by rw [List.append_nil], hm, ?_⟩)
      exact parseDay_eq_some_iff.2 (.inl ⟨rfl, rfl⟩)
    | @day ys ms ds rest y hy hm hd hrest =>
      refine ⟨_, _, _, rfl, hy, ?_⟩
      refine parseMonth_eq_some_iff.2 (.inr ⟨ms, _, rfl, hm, ?_⟩)
      exact parseDay_eq_some_iff.2 (.inr ⟨ds, rest, rfl, hd, hrest, rfl⟩)

/-! ### Rows -/

/-- A text, without the white space at its ends, is a date in one of the formats. -/
def Denotes (text : List Byte) (d : Date) : Prop := DateText (trimAll text) ⟨d.year, d.month, d.day⟩

/-- Years have up to seven digits. -/
theorem YearText.bounds {ys : List Byte} {y : Int} (h : YearText ys y) :
    -10000000 ≤ y ∧ y ≤ 10000000 := by
  have hlt : ∀ ds, IsNumber 4 7 ds → number ds < 10000000 := fun ds hds => number_lt hds
  cases h with
  | unsigned h =>
    have hn := hlt _ h
    omega
  | plus h =>
    have hn := hlt _ h
    omega
  | minus h =>
    have hn := hlt _ h
    omega

theorem DateText.year_bounds (h : DateText text d) : -10000000 ≤ d.year ∧ d.year ≤ 10000000 := by
  cases h with
  | year hy => exact hy.bounds
  | month hy => exact hy.bounds
  | day hy => exact hy.bounds

/-- What a row is parsed to, where its text is a date. -/
theorem parseStringToDate_of_denotes {d : Date} (h : Denotes text d) (hd : gregorian.Valid d) :
    parseStringToDate (some text) =
      (decide (-2147483648 ≤ gregorian.number d) && decide (gregorian.number d ≤ 2147483647),
        some (int32 (gregorian.number d))) := by
  have hyear := DateText.year_bounds h
  have hvalid : DateSegments.isValidDate ⟨d.year, d.month, d.day⟩ = true :=
    isDate_iff.2 ⟨d, rfl, hd, hyear⟩
  have hdays : DateSegments.toEpochDay ⟨d.year, d.month, d.day⟩ = gregorian.number d :=
    toEpochDay_eq hd hyear
  unfold parseStringToDate
  dsimp only
  rw [parseDate_eq_some_iff.2 h]
  dsimp only
  rw [hvalid, hdays]
  rfl

/-- The text of a valid row is a date. -/
theorem exists_denotes (h : (parseStringToDate (some text)).1 = true) :
    ∃ d, Denotes text d ∧ gregorian.Valid d := by
  unfold parseStringToDate at h
  dsimp only at h
  cases hparse : parseDate text with
  | none => rw [hparse] at h; exact absurd h (by simp)
  | some s =>
    rw [hparse] at h
    dsimp only at h
    cases hvalid : s.isValidDate with
    | false => rw [hvalid] at h; exact absurd h (by simp)
    | true =>
      have hdate : IsDate (s.year, s.month, s.day) := hvalid
      obtain ⟨d, hfields, hd, -⟩ := isDate_iff.1 hdate
      have hs : s = ⟨d.year, d.month, d.day⟩ := by
        unfold ofDate at hfields
        obtain ⟨year, month, day⟩ := s
        simpa [eq_comm] using hfields
      rw [parseDate_eq_some_iff, hs] at hparse
      exact ⟨d, hparse, hd⟩

/-- **The cast of strings to dates is exact**, and days and dates are in bijection. A row is valid iff its
trimmed text is a Gregorian date in one of the formats whose day has 32 bits; then that day is stored. Every
day of 32 bits has its date; the days are numbered in order, without gaps. -/
theorem parseStringToDate_exact :
    (∀ text, ((parseStringToDate (some text)).1 = true ↔ ∃ d, Denotes text d ∧ gregorian.Valid d ∧
        -2147483648 ≤ gregorian.number d ∧ gregorian.number d ≤ 2147483647) ∧
      ∀ d, Denotes text d → gregorian.Valid d → -2147483648 ≤ gregorian.number d →
        gregorian.number d ≤ 2147483647 → (parseStringToDate (some text)).2 = some (gregorian.number d)) ∧
    (∀ epochDay, -2147483648 ≤ epochDay → epochDay ≤ 2147483647 →
      ∃ d, toDate epochDay = ofDate d ∧ gregorian.Valid d ∧ IsDate (ofDate d) ∧
        dayOf (ofDate d) = epochDay) ∧
    (∀ d, gregorian.Valid d → -10000000 ≤ d.year → d.year ≤ 10000000 → -2147483648 ≤ dayOf (ofDate d) →
      dayOf (ofDate d) ≤ 2147483647 → toDate (dayOf (ofDate d)) = ofDate d) ∧
    ∀ d d', gregorian.Valid d → gregorian.Valid d' → -10000000 ≤ d.year → d'.year ≤ 10000000 → d < d' →
      dayOf (ofDate d) < dayOf (ofDate d') ∧
      ((∀ c, gregorian.Valid c → ¬(d < c ∧ c < d')) → dayOf (ofDate d') = dayOf (ofDate d) + 1) := by
  refine ⟨fun text => ⟨?_, ?_⟩, ?_, ?_, ?_⟩
  · constructor
    · intro h
      obtain ⟨d, hdenotes, hd⟩ := exists_denotes h
      rw [parseStringToDate_of_denotes hdenotes hd] at h
      exact ⟨d, hdenotes, hd, by simpa using h⟩
    · rintro ⟨d, hdenotes, hd, hle, hge⟩
      rw [parseStringToDate_of_denotes hdenotes hd]
      simp [hle, hge]
  · intro d hdenotes hd hle hge
    rw [parseStringToDate_of_denotes hdenotes hd, int32_of_range hle (by omega)]
  · intro epochDay hle hge
    obtain ⟨hdate, hday⟩ := dayOf_toDate ⟨hle, hge⟩
    have hfields := toDate_eq ⟨hle, hge⟩
    rw [hfields] at hdate hday
    exact ⟨_, hfields, (gregorianDate_spec epochDay).1, hdate, hday⟩
  · intro d hd hyear hyear' hle hge
    exact toDate_dayOf hd ⟨hyear, hyear'⟩ ⟨hle, hge⟩
  · intro d d' hd hd' hyear hyear' hlt
    have hyears : d.year ≤ d'.year := by
      rw [Date.lt_iff] at hlt
      omega
    refine ⟨dayOf_lt hd ⟨hyear, by omega⟩ hd' ⟨by omega, hyear'⟩ hlt, fun hnext => ?_⟩
    exact dayOf_next hd ⟨hyear, by omega⟩ hd' ⟨by omega, hyear'⟩ hlt hnext

/-- The last day. -/
example : parseStringToDate (some (" +5881580-7-11Tx".toList.map chr)) = (true, some 2147483647) := by decide

example : parseStringToDate (some ("5881580-07-12".toList.map chr)) = (false, some (-2147483648)) := by decide

end SparkRapids.CastStringToDatetime
