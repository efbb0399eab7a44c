import SparkRapidsJni.CastStringToDatetime.Dates
import SparkRapidsJni.CastStringToDatetime.TimestampText

/-!
# What is reported for a timestamp

`TimestampText` is a whole text, with white space around it and a sign in front of the year. Its timestamp
tells what `parse_timestamp_string` does with it (`Timestamp.outcome`, `parseTimestampString_iff`), and so
the result is the timestamp as it is written (`Timestamp.IsReported`), but for the offsets that Spark 3.2.0
reads in segments of its own: the sign of such an offset is kept as 1 or 0, where the comment of the source
has 1 or -1, and a third part of it is written behind the segments (`staysAndReports_iff`).
-/

namespace SparkRapids.CastStringToDatetime

open Ascii Numerals CivilDays MachineInt TimeZone Calendar

/-! ### Timestamps -/

/-- The end of the text in the string, without the white space behind it. -/
def endOf (text : List Byte) : ℕ := (text.takeWhile isWhitespace).length + (trimAll text).length

/-- `match_issue_52351` -/
def matchesIssue (v : SparkVersion) (text : List Byte) : Bool :=
  v.isSpark400OrLaterOrDb143OrLater && 0 < (text.takeWhile isWhitespace).length

/-- A timestamp as it is written, with the sign of its year. -/
inductive TimestampText (v : SparkVersion) (text : List Byte) : Timestamp → Prop
  | unsigned {t : Timestamp}
    (h : UnsignedText v (endOf text) false (matchesIssue v text) (trimAll text) t) : TimestampText v text t
  | signed {c : Byte} {rest : List Byte} {t : Timestamp} (hc : c = chr '-' ∨ c = chr '+')
    (htext : trimAll text = c :: rest)
    (h : UnsignedText v (endOf text) true (matchesIssue v text) rest t) :
    TimestampText v text { t with year := t.year * if c = chr '-' then -1 else 1 }

/-- The time zone that is written. -/
def WrittenZone.timeZone : WrittenZone → TimeZone
  | .notSpecified => .default
  | .zone tz => tz
  | .legacy negative h m s =>
    makeFixedTz ((if negative then -1 else 1) * (h * 3600 + m * 60 + s.getD 0 : ℕ))

namespace Timestamp

variable (t : Timestamp)

def date : Date := ⟨t.year, t.month, t.day⟩

/-- A Gregorian date of the range of years, and a time of the day. -/
structure IsValid : Prop where
  date : gregorian.Valid t.date
  year : |t.year| ≤ 300000
  hour : t.clock.hour < 24
  minute : t.clock.minute < 60
  second : t.clock.second < 60
  microseconds : t.clock.microseconds < 1000000

/-- The seconds since 1970-01-01 00:00:00. -/
def seconds : Int :=
  gregorian.number t.date * 86400 + t.clock.hour * 3600 + t.clock.minute * 60 + t.clock.second

/-- A result is the timestamp as it is written. -/
structure IsReported (r : Parsed) : Prop where
  valid : t.IsValid
  seconds : r.seconds = t.seconds
  microseconds : r.microseconds = t.clock.microseconds
  tz : r.tz = t.clock.zone.timeZone
  offset : |r.tz.fixedOffset| ≤ 18 * 3600
  justTime : r.justTime = t.justTime

end Timestamp

/-- The parser reads in the string, writes in the segments, and reports the fields that are written. -/
structure StaysAndReports (v : SparkVersion) (text : List Byte) : Prop where
  reads : parseTimestampString v text ≠ .error .readsOutside
  writes : parseTimestampString v text ≠ .error .writesOutside
  reports : ∀ r, parseTimestampString v text = .ok r → ∃ t, TimestampText v text t ∧ t.IsReported r

/-- An offset right behind the time, for Spark 3.2.0, has no third part, and is not below zero if the
timestamp is valid. -/
def OffsetIsKept (v : SparkVersion) (text : List Byte) : Prop :=
  ∀ t negative h m s, TimestampText v text t → t.clock.zone = .legacy negative h m s →
    s = none ∧ (negative = true → t.IsValid → m ≤ 59 → h * 3600 + m * 60 ≤ 18 * 3600 →
      h * 3600 + m * 60 = 0)

/-! ### The end of the parser -/

variable {v : SparkVersion} {text rest : List Byte} {endPos : ℕ} {yearSign issue : Bool} {t : Timestamp}
  {r : Parsed}

theorem isValidTimestamp_iff : isValidTimestamp t.year t.month t.day t.clock.hour t.clock.minute
    t.clock.second t.clock.microseconds = true ↔ t.IsValid := by
  unfold isValidTimestamp isValidDateForTimestamp isValidTime
  rw [Bool.and_eq_true]
  simp only [Bool.and_eq_true, decide_eq_true_eq]
  constructor
  · rintro ⟨hdate, ⟨⟨⟨-, hhour⟩, -, hminute⟩, -, hsecond⟩, -, hmicro⟩
    split_ifs at hdate with hyear
    obtain ⟨d, hd, hfields⟩ := isValidMonthDay_iff.1 hdate
    have hdt : d = t.date := by
      unfold ofDate at hfields
      simp only [Prod.mk.injEq] at hfields
      ext
      · exact hfields.1
      · exact_mod_cast hfields.2.1
      · exact_mod_cast hfields.2.2
    rw [hdt] at hd
    have hle : |t.year| ≤ 300000 := abs_le.2 ⟨by omega, by omega⟩
    refine ⟨hd, hle, ?_, ?_, ?_, ?_⟩
    · exact_mod_cast hhour
    · exact_mod_cast hminute
    · exact_mod_cast hsecond
    · exact_mod_cast hmicro
  · intro h
    have hyear := abs_le.1 h.year
    have hhour := h.hour
    have hminute := h.minute
    have hsecond := h.second
    have hmicro := h.microseconds
    rw [if_neg (by omega)]
    exact ⟨isValidMonthDay_iff.2 ⟨t.date, h.date, rfl⟩, by omega⟩

theorem toEpochSeconds_eq (h : t.IsValid) : toEpochSeconds t.year t.month t.day t.clock.hour
    t.clock.minute t.clock.second = t.seconds := by
  have hyear := abs_le.1 h.year
  have hdays : toEpochDay t.date.year t.date.month t.date.day = gregorian.number t.date :=
    toEpochDay_eq h.date ⟨by show _ ≤ t.year; omega, by show t.year ≤ _; omega⟩
  unfold toEpochSeconds Timestamp.seconds
  rw [← hdays]
  show _ = toEpochDay t.year t.month t.day * 86400 + _ + _ + _
  ring

/-- What the parser makes of a zone. It has the sign of an offset in segments of its own as 1 or 0. -/
def WrittenZone.kept : WrittenZone → Except Stop TimeZone
  | .notSpecified => .ok .default
  | .zone tz => .ok tz
  | .legacy negative h m none =>
    if h > 18 ∨ m > 59 ∨ h * 3600 + m * 60 > 18 * 3600 then .error .invalid
    else .ok (makeFixedTz ((if negative then 0 else 1) * (h * 3600 + m * 60 : ℕ)))
  | .legacy _ _ _ (some _) => .error .writesOutside

/-- What the parser does with a text that writes a timestamp. -/
def Timestamp.outcome (t : Timestamp) : Except Stop Parsed :=
  t.clock.zone.kept.bind fun tz =>
    if !isValidTimestamp t.year t.month t.day t.clock.hour t.clock.minute t.clock.second
        t.clock.microseconds || tz.type = .invalidTz then .error .invalid
    else .ok ⟨tz, toEpochSeconds t.year t.month t.day t.clock.hour t.clock.minute t.clock.second,
      t.clock.microseconds, t.justTime⟩

/-- The time zone at the end of the parser, where the segments of an offset are natural numbers. -/
theorem timeZone_legacy {f : Fields} {neg : Bool} {h m : ℕ} (hsign : f.hasSignTzForSpark320 = true)
    (hvalue : f.tzSignForSpark320 = if neg then 0 else 1) (h7 : f.segments 7 = h)
    (h8 : f.segments 8 = m) : f.timeZone = (WrittenZone.legacy neg h m none).kept := by
  unfold Fields.timeZone WrittenZone.kept
  dsimp only
  rw [if_pos hsign, h7, h8, hvalue]
  by_cases hrange : h > 18 ∨ m > 59 ∨ h * 3600 + m * 60 > 18 * 3600
  · rw [if_pos hrange, if_pos (by omega)]
  · rw [if_neg hrange, if_neg (by omega)]
    push_cast
    rfl

theorem fields_finish (t : Timestamp) (sign : Int) :
    (t.fields.bind fun f => f.finish sign) = { t with year := t.year * sign }.outcome := by
  obtain ⟨y, m, d, ⟨h, mi, s, us, z⟩, j⟩ := t
  cases z with
  | notSpecified => rfl
  | zone tz => rfl
  | legacy neg oh om os =>
    cases os with
    | some os => rfl
    | none =>
      show Fields.finish _ sign = _
      unfold Fields.finish
      rw [@timeZone_legacy _ neg oh om rfl rfl rfl rfl]
      unfold Timestamp.outcome
      dsimp only
      cases (WrittenZone.legacy neg oh om none).kept with
      | error e => rfl
      | ok tz => rfl

theorem ok_ne_error {α : Type} {a : α} {e : Stop} : (Except.ok a : Except Stop α) ≠ .error e := nofun

theorem fields_ne_invalid (t : Timestamp) : t.fields ≠ .error .invalid := by
  obtain ⟨y, m, d, ⟨h, mi, s, us, z⟩, j⟩ := t
  intro hfields
  cases z with
  | notSpecified => exact absurd hfields ok_ne_error
  | zone tz => exact absurd hfields ok_ne_error
  | legacy neg oh om os =>
    cases os with
    | none => exact absurd hfields ok_ne_error
    | some os => exact absurd (Except.error.inj hfields) (by decide)

/-! ### The text with its sign -/

/-- A text without a sign begins with a digit or with `T`. -/
theorem UnsignedText.head (h : UnsignedText v endPos yearSign issue text t) {c : Byte}
    (hc : c = chr '-' ∨ c = chr '+') : text.head? ≠ some c := by
  cases h with
  | year hy =>
    rw [← List.append_nil text]
    exact head_not_sign hy (by decide) hc
  | month hy => exact head_not_sign hy (by decide) hc
  | day hy => exact head_not_sign hy (by decide) hc
  | clock hy => exact head_not_sign hy (by decide) hc
  | time =>
    intro hhead
    obtain rfl : chr 'T' = c := Option.some.inj hhead
    exact absurd hc (by decide)
  | bare _ hh => exact head_not_sign hh (by decide) hc

theorem parse_unsigned (h : ∀ c, c = chr '-' ∨ c = chr '+' → (trimAll text).head? ≠ some c) :
    parseTimestampString v text =
      (ParseState.first.scan v (endOf text) false (matchesIssue v text) (!false) (trimAll text)).bind
        fun f => f.finish 1 := by
  unfold parseTimestampString endOf matchesIssue
  generalize (text.takeWhile isWhitespace).length = pos
  generalize trimAll text = chars at *
  cases chars with
  | nil => rfl
  | cons c rest =>
    have hc : ¬(c = chr '-' ∨ c = chr '+') := fun hc => h c hc rfl
    dsimp only
    rw [if_neg hc, Bool.not_false]
    cases ParseState.scan v _ false _ true (c :: rest) ParseState.first with
    | error e => rfl
    | ok f => rfl

theorem parse_signed {c : Byte} (hc : c = chr '-' ∨ c = chr '+') (htext : trimAll text = c :: rest) :
    parseTimestampString v text =
      (ParseState.first.scan v (endOf text) true (matchesIssue v text) (!true) rest).bind
        fun f => f.finish (if c = chr '-' then -1 else 1) := by
  unfold parseTimestampString endOf matchesIssue
  rw [htext]
  dsimp only
  rw [if_pos hc, Bool.not_true]
  cases ParseState.scan v _ true _ false rest ParseState.first with
  | error e => rfl
  | ok f => rfl

theorem scan_finish_iff {p : Except Stop Parsed} (hp : p ≠ .error .invalid) (sign : Int) :
    (ParseState.first.scan v endPos yearSign issue (!yearSign) text).bind (fun f => f.finish sign) = p ↔
      ∃ t, UnsignedText v endPos yearSign issue text t ∧
        p = { t with year := t.year * sign }.outcome := by
  constructor
  · intro h
    by_cases hscan : ParseState.first.scan v endPos yearSign issue (!yearSign) text = .error .invalid
    · rw [hscan] at h
      exact absurd h.symm hp
    · obtain ⟨t, ht, hfields⟩ := (scan_iff hscan).1 rfl
      rw [hfields, fields_finish] at h
      exact ⟨t, ht, h.symm⟩
  · rintro ⟨t, ht, rfl⟩
    rw [(scan_iff (fields_ne_invalid t)).2 ⟨t, ht, rfl⟩, fields_finish]

/-- What the parser does with a text, it does with the timestamp that the text writes. -/
theorem parseTimestampString_iff {p : Except Stop Parsed} (hp : p ≠ .error .invalid) :
    parseTimestampString v text = p ↔ ∃ t, TimestampText v text t ∧ p = t.outcome := by
  have hone (t : Timestamp) : { t with year := t.year * 1 } = t := by rw [mul_one]
  constructor
  · intro h
    by_cases hsign : ∀ c, c = chr '-' ∨ c = chr '+' → (trimAll text).head? ≠ some c
    · rw [parse_unsigned hsign, scan_finish_iff hp] at h
      obtain ⟨t, ht, rfl⟩ := h
      exact ⟨t, .unsigned ht, by rw [hone]⟩
    · push Not at hsign
      obtain ⟨c, hc, hhead⟩ := hsign
      obtain ⟨rest, htext⟩ := List.head?_eq_some_iff.1 hhead
      rw [parse_signed hc htext, scan_finish_iff hp] at h
      obtain ⟨t, ht, rfl⟩ := h
      exact ⟨_, .signed hc htext ht, rfl⟩
  · rintro ⟨t, ht, rfl⟩
    cases ht with
    | unsigned ht =>
      rw [parse_unsigned fun c hc => ht.head hc, scan_finish_iff hp]
      exact ⟨t, ht, by rw [hone]⟩
    | signed hc htext ht =>
      rw [parse_signed hc htext, scan_finish_iff hp]
      exact ⟨_, ht, rfl⟩

/-! ### The zones of a text -/

/-- A zone with a name, or with an offset of at most 18 hours. -/
def WrittenZone.InRange (z : WrittenZone) : Prop := ∀ tz, z = .zone tz → |tz.fixedOffset| ≤ 18 * 3600

theorem ZonePart.inRange {z : WrittenZone} (h : ZonePart v endPos text z) : z.InRange := by
  intro tz hz
  cases h with
  | none => exact WrittenZone.noConfusion hz
  | zone hc hsign htz =>
    obtain rfl := WrittenZone.zone.inj hz
    exact htz.abs_le.1
  | legacy => exact WrittenZone.noConfusion hz

theorem FractionPart.inRange {us : ℕ} {z : WrittenZone} (h : FractionPart v endPos text us z) :
    z.InRange := by
  cases h with
  | none hz => exact hz.inRange
  | fraction _ hz => exact hz.inRange

theorem MinutePart.inRange {m s us : ℕ} {z : WrittenZone} (h : MinutePart v endPos text m s us z) :
    z.InRange := by
  cases h with
  | minute => exact fun tz hz => WrittenZone.noConfusion hz
  | second _ _ htail => exact htail.inRange

theorem ClockText.inRange {c : Clock} (h : ClockText v endPos text c) : c.zone.InRange := by
  cases h with
  | hour => exact fun tz hz => WrittenZone.noConfusion hz
  | minute _ hm => exact hm.inRange

theorem UnsignedText.inRange (h : UnsignedText v endPos yearSign issue text t) :
    t.clock.zone.InRange := by
  cases h with
  | year => exact fun tz hz => WrittenZone.noConfusion hz
  | month => exact fun tz hz => WrittenZone.noConfusion hz
  | day => exact fun tz hz => WrittenZone.noConfusion hz
  | clock _ _ _ _ hc => exact hc.inRange
  | time _ _ hc => exact hc.inRange
  | bare _ _ hm => exact hm.inRange

theorem TimestampText.inRange (h : TimestampText v text t) : t.clock.zone.InRange := by
  cases h with
  | unsigned h => exact h.inRange
  | signed _ _ h => exact h.inRange

/-- An offset in segments of its own is told by the segments. -/
theorem legacy_of_fields {t t' : Timestamp} (hfields : t.fields = t'.fields) {neg : Bool} {h m : ℕ}
    (hz : t.clock.zone = .legacy neg h m none) : t'.clock.zone = .legacy neg h m none := by
  obtain ⟨y, mo, d, ⟨ho, mi, s, us, z⟩, j⟩ := t
  obtain ⟨y', mo', d', ⟨ho', mi', s', us', z'⟩, j'⟩ := t'
  obtain rfl : z = _ := hz
  cases z' with
  | notSpecified =>
    have hsign := congrArg Fields.hasSignTzForSpark320 (Except.ok.inj hfields)
    exact absurd hsign (by show ¬(true = false); decide)
  | zone tz =>
    have hsign := congrArg Fields.hasSignTzForSpark320 (Except.ok.inj hfields)
    exact absurd hsign (by show ¬(true = false); decide)
  | legacy negative' h' m' os =>
    cases os with
    | some os => exact absurd hfields ok_ne_error
    | none =>
      have hok := Except.ok.inj hfields
      have hvalue : (if neg then (0 : Int) else 1) = if negative' then 0 else 1 :=
        congrArg Fields.tzSignForSpark320 hok
      have h7 : (h : Int) = h' := congrArg (fun f => f.segments 7) hok
      have h8 : (m : Int) = m' := congrArg (fun f => f.segments 8) hok
      have hnegative : neg = negative' := by
        cases neg <;> cases negative' <;> simp at hvalue ⊢
      rw [hnegative, Int.ofNat.inj h7, Int.ofNat.inj h8]

/-- Two readings of a text have the same offset in segments of its own. -/
theorem TimestampText.legacy_unique {t' : Timestamp} (ht : TimestampText v text t)
    (ht' : TimestampText v text t') {neg : Bool} {h m : ℕ}
    (hz : t.clock.zone = .legacy neg h m none) : t'.clock.zone = .legacy neg h m none := by
  have hscan {text : List Byte} {endPos : ℕ} {yearSign issue : Bool} {t t' : Timestamp}
      (ht : UnsignedText v endPos yearSign issue text t)
      (ht' : UnsignedText v endPos yearSign issue text t') : t.fields = t'.fields :=
    ((scan_iff (fields_ne_invalid t)).2 ⟨t, ht, rfl⟩).symm.trans
      ((scan_iff (fields_ne_invalid t')).2 ⟨t', ht', rfl⟩)
  cases ht with
  | unsigned ht =>
    cases ht' with
    | unsigned ht' => exact legacy_of_fields (hscan ht ht') hz
    | signed hc htext => exact absurd (by rw [htext]; rfl) (ht.head hc)
  | signed hc htext ht =>
    cases ht' with
    | unsigned ht' => exact absurd (by rw [htext]; rfl) (ht'.head hc)
    | signed hc' htext' ht' =>
      obtain ⟨rfl, rfl⟩ := List.cons.inj (htext.symm.trans htext')
      exact legacy_of_fields (hscan ht ht') hz

/-! ### The results -/

theorem kept_ne_readsOutside (z : WrittenZone) : z.kept ≠ .error .readsOutside := by
  intro h
  cases z with
  | notSpecified => exact absurd h ok_ne_error
  | zone tz => exact absurd h ok_ne_error
  | legacy neg oh om os =>
    cases os with
    | some os => exact absurd (Except.error.inj h) (by decide)
    | none =>
      unfold WrittenZone.kept at h
      dsimp only at h
      split_ifs at h
      exact absurd (Except.error.inj h) (by decide)

/-- Only a third part of an offset is written outside. -/
theorem legacy_of_kept {z : WrittenZone} (h : z.kept = .error .writesOutside) :
    ∃ neg oh om os, z = .legacy neg oh om (some os) := by
  cases z with
  | notSpecified => exact absurd h ok_ne_error
  | zone tz => exact absurd h ok_ne_error
  | legacy neg oh om os =>
    cases os with
    | some os => exact ⟨neg, oh, om, os, rfl⟩
    | none =>
      unfold WrittenZone.kept at h
      dsimp only at h
      split_ifs at h
      exact absurd (Except.error.inj h) (by decide)

/-- The checks at the end of the parser do not read or write. -/
theorem outcome_eq_error {e : Stop} (he : e ≠ .invalid) (h : t.outcome = .error e) :
    t.clock.zone.kept = .error e := by
  unfold Timestamp.outcome at h
  cases hkept : t.clock.zone.kept with
  | error e' =>
    rw [hkept] at h
    exact congrArg Except.error (Except.error.inj h)
  | ok tz =>
    rw [hkept] at h
    dsimp only [Except.bind] at h
    split_ifs at h
    exact absurd (Except.error.inj h).symm he

theorem outcome_eq_ok (h : t.outcome = .ok r) : ∃ tz, t.clock.zone.kept = .ok tz ∧ t.IsValid ∧
    r = ⟨tz, t.seconds, t.clock.microseconds, t.justTime⟩ := by
  unfold Timestamp.outcome at h
  cases hkept : t.clock.zone.kept with
  | error e =>
    rw [hkept] at h
    exact absurd h.symm ok_ne_error
  | ok tz =>
    rw [hkept] at h
    dsimp only [Except.bind] at h
    split_ifs at h with hinvalid
    have hvalid : t.IsValid := by
      rw [← isValidTimestamp_iff]
      by_contra hfalse
      exact hinvalid (by simp [hfalse])
    rw [toEpochSeconds_eq hvalid] at h
    exact ⟨tz, rfl, hvalid, (Except.ok.inj h).symm⟩

/-- A valid timestamp is reported, with the time zone that the parser makes of its zone. -/
theorem outcome_of_valid {tz : TimeZone} (hkept : t.clock.zone.kept = .ok tz) (hvalid : t.IsValid)
    (htype : tz.type ≠ .invalidTz) :
    t.outcome = .ok ⟨tz, t.seconds, t.clock.microseconds, t.justTime⟩ := by
  unfold Timestamp.outcome
  rw [hkept, isValidTimestamp_iff.2 hvalid, toEpochSeconds_eq hvalid]
  exact if_neg (by simp [htype])

/-- What is reported of the zone, but for the offsets that are not kept. -/
theorem timeZone_of_kept {z : WrittenZone} {tz : TimeZone} (h : z.kept = .ok tz) (hrange : z.InRange)
    (hsign : ∀ oh om, z = .legacy true oh om none → om ≤ 59 → oh * 3600 + om * 60 ≤ 18 * 3600 →
      oh * 3600 + om * 60 = 0) : tz = z.timeZone ∧ |tz.fixedOffset| ≤ 18 * 3600 := by
  cases z with
  | notSpecified =>
    obtain rfl := Except.ok.inj h
    exact ⟨rfl, by decide⟩
  | zone tz' =>
    obtain rfl := Except.ok.inj h
    exact ⟨rfl, hrange _ rfl⟩
  | legacy neg oh om os =>
    cases os with
    | some os => exact absurd h.symm ok_ne_error
    | none =>
      unfold WrittenZone.kept at h
      dsimp only at h
      by_cases hinvalid : oh > 18 ∨ om > 59 ∨ oh * 3600 + om * 60 > 18 * 3600
      · rw [if_pos hinvalid] at h
        exact absurd h.symm ok_ne_error
      rw [if_neg hinvalid] at h
      obtain rfl := Except.ok.inj h
      have hle : ((oh * 3600 + om * 60 : ℕ) : Int) ≤ 18 * 3600 := by omega
      cases neg with
      | false =>
        refine ⟨?_, ?_⟩
        · unfold WrittenZone.timeZone
          dsimp only
          rw [Option.getD_none, Nat.add_zero]
          rfl
        · show |1 * ((oh * 3600 + om * 60 : ℕ) : Int)| ≤ _
          rw [one_mul, Nat.abs_cast]
          exact hle
      | true =>
        -- the sign is lost, and so there has to be nothing that it would change
        have hzero := hsign oh om rfl (by omega) (by omega)
        refine ⟨?_, ?_⟩
        · unfold WrittenZone.timeZone
          dsimp only
          rw [Option.getD_none, Nat.add_zero, hzero]
          rfl
        · show |0 * ((oh * 3600 + om * 60 : ℕ) : Int)| ≤ _
          rw [zero_mul, abs_zero]
          decide

/-- **The timestamp parser stays in bounds and reports the written fields**, iff the offset is kept: for every
text and every version, it reads in the text and writes in the segments, and what it returns is the timestamp
that is written, except where Spark 3.2.0 reads an offset right behind the time that has a third part, or is
below zero in a timestamp that is valid. -/
theorem staysAndReports_iff (v : SparkVersion) (text : List Byte) :
    StaysAndReports v text ↔ OffsetIsKept v text := by
  constructor
  · intro hstays t neg oh om os ht hz
    cases os with
    | some os =>
      -- the third part is written behind the segments
      have hkept : t.outcome = .error .writesOutside := by
        unfold Timestamp.outcome
        rw [hz]
        rfl
      exact absurd ((parseTimestampString_iff (by decide)).2 ⟨t, ht, hkept.symm⟩) hstays.writes
    | none =>
      refine ⟨rfl, ?_⟩
      rintro rfl hvalid hminute hle
      have hkept : t.clock.zone.kept = .ok (makeFixedTz (0 * (oh * 3600 + om * 60 : ℕ))) := by
        rw [hz]
        exact if_neg (by omega)
      have hok := outcome_of_valid hkept hvalid (by show TzType.fixedTz ≠ _; decide)
      have hparse := (parseTimestampString_iff (hok ▸ ok_ne_error)).2 ⟨t, ht, rfl⟩
      obtain ⟨t', ht', hreported⟩ := hstays.reports _ (hparse.trans hok)
      have htz := congrArg fixedOffset hreported.tz
      rw [ht.legacy_unique ht' hz] at htz
      have hzero : (0 : Int) * (oh * 3600 + om * 60 : ℕ) = -1 * (oh * 3600 + om * 60 + 0 : ℕ) := htz
      omega
  · intro hkept
    refine ⟨?_, ?_, ?_⟩
    · intro hparse
      obtain ⟨t, -, hout⟩ := (parseTimestampString_iff (by decide)).1 hparse
      exact kept_ne_readsOutside _ (outcome_eq_error (by decide) hout.symm)
    · intro hparse
      obtain ⟨t, ht, hout⟩ := (parseTimestampString_iff (by decide)).1 hparse
      obtain ⟨neg, oh, om, os, hz⟩ := legacy_of_kept (outcome_eq_error (by decide) hout.symm)
      exact absurd (hkept t _ _ _ _ ht hz).1 (by simp)
    · intro r hparse
      obtain ⟨t, ht, hout⟩ := (parseTimestampString_iff ok_ne_error).1 hparse
      obtain ⟨tz, htz, hvalid, rfl⟩ := outcome_eq_ok hout.symm
      obtain ⟨heq, hle⟩ := timeZone_of_kept htz ht.inRange fun oh om hz =>
        (hkept t _ _ _ _ ht hz).2 rfl hvalid
      exact ⟨t, ht, hvalid, rfl, rfl, heq, hle, rfl⟩

/-- Spark 3.2.0 writes the third part of an offset behind the segments. -/
theorem writesOutside_seconds : ¬∀ v text, StaysAndReports v text := by
  intro h
  have hparse : parseTimestampString ⟨true, false⟩ ("0:0:0+1:2:3".toList.map chr) =
      .error .writesOutside := by decide
  exact (h _ _).writes hparse

/-- Without a fault the fields are those of the text, with a sign that stands behind the zone's name. -/
example : parseTimestampString ⟨true, false⟩ ("2020-1-2T3:4:5.6 UTC-07:08".toList.map chr) =
    .ok ⟨makeFixedTz (-25680), 1577934245, 600000, false⟩ := by decide +kernel

/-- The sign of an offset below zero is lost. -/
example : parseTimestampString ⟨true, false⟩ ("2020-1-2T3:4:5-07:08".toList.map chr) =
    .ok ⟨makeFixedTz 0, 1577934245, 0, false⟩ := by decide +kernel

end SparkRapids.CastStringToDatetime
