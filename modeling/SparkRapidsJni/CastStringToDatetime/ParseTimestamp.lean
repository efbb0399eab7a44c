import SparkRapidsJni.CastStringToDatetime.TimeZones
import SparkRapidsJni.TimeZone.CivilDays

/-!
# `cast_string_to_datetime.cu`: strings to timestamps

`parse_timestamp_string` goes through a string with a counter of the segment that it is in: the year, the
month, and so on up to the microseconds, and behind them two segments for the hour and the minute of an
offset, which only Spark 3.2.0 has. A character that is no digit ends a segment.

`TimestampText` are the formats, with the fields that a text writes. Whatever the run of the parser gives
for a text, up to the checks at its end, it gives for the fields of the text (`scan_iff`).
-/

namespace SparkRapids.CastStringToDatetime

open Ascii Numerals CivilDays MachineInt TimeZone

/-! ### The functions of the source -/

/-- The flags for the version of Spark. -/
structure SparkVersion where
  isSpark320 : Bool
  isSpark400OrLaterOrDb143OrLater : Bool
  deriving DecidableEq, Repr

/-- `is_valid_digits` -/
def isValidDigits (segment digits : ℕ) : Bool :=
  segment = 6 || (segment = 0 && 4 ≤ digits && digits ≤ 6) || (segment = 7 && digits ≤ 2) ||
    (segment ≠ 0 && segment ≠ 6 && segment ≠ 7 && 0 < digits && digits ≤ 2)

/-- `segments_len` -/
def segmentsLen : ℕ := 9

/-- What `parse_timestamp_string` reads off the string. -/
structure Fields where
  segments : ℕ → Int
  hasSignTzForSpark320 : Bool
  /-- Not initialized, and only read if there is a sign. -/
  tzSignForSpark320 : Int
  tz : TimeZone
  justTime : Bool

/-- The initial values: 1970-01-01 00:00:00, without a time zone. -/
def Fields.initial : Fields where
  segments k := ([1970, 1, 1] : List Int).getD k 0
  hasSignTzForSpark320 := false
  tzSignForSpark320 := 0
  tz := .default
  justTime := false

/-- `segments[k] = v` -/
def Fields.set (f : Fields) (k : ℕ) (v : Int) : Fields :=
  { f with segments := Function.update f.segments k v }

/-- The variables of the loop of `parse_timestamp_string`. -/
structure ParseState extends Fields where
  i : ℕ
  currentSegmentValue : Int
  currentSegmentDigits : ℕ
  digitsMilli : ℕ

namespace ParseState

/-- The check of a segment at its end, and its value in `segments`. -/
def storeSegment (s : ParseState) : Except Stop ParseState :=
  if !isValidDigits s.i s.currentSegmentDigits then .error .invalid
  else if s.i < segmentsLen then
    .ok { s with toFields := s.toFields.set s.i s.currentSegmentValue }
  else .error .writesOutside

/-- The end of a segment within the string. -/
def nextSegment (s : ParseState) : Except Stop ParseState :=
  s.storeSegment.map fun s =>
    { s with currentSegmentValue := 0, currentSegmentDigits := 0, i := s.i + 1 }

/-- A digit. More than 6 digits of the microseconds are truncated. -/
def readDigit (s : ParseState) (c : Byte) : ParseState :=
  { s with
    digitsMilli := if s.i = 6 then s.digitsMilli + 1 else s.digitsMilli
    currentSegmentValue :=
      if s.i ≠ 6 ∨ s.currentSegmentDigits < 6 then int32 (s.currentSegmentValue * 10 + digit c)
      else s.currentSegmentValue
    currentSegmentDigits := s.currentSegmentDigits + 1 }

/-- `if (i == 6 && '.' != b) { i += 1; }` -/
def skipMicroseconds (s : ParseState) (b : Byte) : ParseState :=
  if s.i = 6 ∧ b ≠ chr '.' then { s with i := s.i + 1 } else s

variable (v : SparkVersion) (endPos : ℕ)

/-- The character behind the seconds or behind the microseconds, and whether the loop ends. -/
def endTime (b : Byte) (rest : List Byte) (s : ParseState) : Except Stop (ParseState × Bool) :=
  if v.isSpark320 ∧ (b = chr '-' ∨ b = chr '+') then
    s.nextSegment.map fun s =>
      ({ s with
        hasSignTzForSpark320 := true
        tzSignForSpark320 := if b = chr '+' then 1 else 0 }.skipMicroseconds b, false)
  else if b = chr '.' ∧ s.i = 5 then s.nextSegment.map fun s => (s, false)
  else
    match s.nextSegment with
    | .error e => .error e
    | .ok s =>
      -- parse timezone
      match parseFromTz v.isSpark320 endPos (b :: rest) with
      | .error e => .error e
      | .ok tz =>
        if tz.type = .invalidTz then .error .invalid
        else .ok ({ s with tz }.skipMicroseconds b, true)

/-- A character that is no digit, and whether the loop ends with it. -/
def separator (yearSign matchIssue52351 atStart : Bool) (b : Byte) (rest : List Byte)
    (s : ParseState) : Except Stop (ParseState × Bool) :=
  if atStart ∧ b = chr 'T' ∧ !matchIssue52351 then .ok ({ s with justTime := true, i := s.i + 3 }, false)
  else if s.i < 2 then
    if b = chr '-' then s.nextSegment.map fun s => (s, false)
    else if s.i = 0 ∧ b = chr ':' ∧ !yearSign then
      -- the segment is the hour, and `i = 4`
      { s with justTime := true, i := 3 }.nextSegment.map fun s => (s, false)
    else .error .invalid
  else if s.i = 2 then
    if b = chr ' ' ∨ b = chr 'T' then s.nextSegment.map fun s => (s, false) else .error .invalid
  else if s.i = 3 ∨ s.i = 4 then
    if b = chr ':' then s.nextSegment.map fun s => (s, false) else .error .invalid
  else if s.i = 5 ∨ s.i = 6 then s.endTime v endPos b rest
  else if s.i < segmentsLen ∧ (b = chr ':' ∨ b = chr ' ') then s.nextSegment.map fun s => (s, false)
  else .error .invalid

/-- The loop of `parse_timestamp_string`. It is at the start of the string if `j == 0`. -/
def parseLoop (yearSign matchIssue52351 : Bool) :
    (atStart : Bool) → List Byte → ParseState → Except Stop ParseState
  | _, [], s => .ok s
  | atStart, c :: rest, s =>
    if isDigit c then parseLoop yearSign matchIssue52351 false rest (s.readDigit c)
    else
      match s.separator v endPos yearSign matchIssue52351 atStart c rest with
      | .error e => .error e
      | .ok (s, true) => .ok s
      | .ok (s, false) => parseLoop yearSign matchIssue52351 false rest s

/-- The loop that pads the microseconds with zeros. -/
def padMicroseconds (s : ParseState) : Fields :=
  s.toFields.set 6 ((· * 10)^[6 - s.digitsMilli] (s.segments 6))

/-- The loop, with the end of the last segment. -/
def scan (yearSign matchIssue52351 atStart : Bool) (chars : List Byte) (s : ParseState) :
    Except Stop Fields :=
  match s.parseLoop v endPos yearSign matchIssue52351 atStart chars with
  | .error e => .error e
  | .ok s => s.storeSegment.map padMicroseconds

/-- The variables before the loop. -/
def first : ParseState :=
  { Fields.initial with i := 0, currentSegmentValue := 0, currentSegmentDigits := 0, digitsMilli := 0 }

end ParseState

/-- `is_valid_time` -/
def isValidTime (hour minute second microseconds : Int) : Bool :=
  (0 ≤ hour && hour < 24) && (0 ≤ minute && minute < 60) && (0 ≤ second && second < 60) &&
    (0 ≤ microseconds && microseconds < 1000000)

/-- `is_valid_timestamp` -/
def isValidTimestamp (year month day hour minute second microseconds : Int) : Bool :=
  isValidDateForTimestamp year month day && isValidTime hour minute second microseconds

/-- `to_epoch_seconds` -/
def toEpochSeconds (year month day hour minute second : Int) : Int :=
  toEpochDay year month day * 24 * 3600 + hour * 3600 + minute * 60 + second

/-- What `parse_timestamp_string` sets if it returns `SUCCESS`. -/
structure Parsed where
  tz : TimeZone
  seconds : Int
  microseconds : Int
  justTime : Bool
  deriving DecidableEq, Repr

namespace Fields

/-- The time zone: for Spark 3.2.0, the sign is not included in the offset. -/
def timeZone (f : Fields) : Except Stop TimeZone :=
  if f.hasSignTzForSpark320 then
    let hour := f.segments 7
    let minute := f.segments 8
    if hour > 18 ∨ minute > 59 ∨ hour * 3600 + minute * 60 > 18 * 3600 then .error .invalid
    else .ok (makeFixedTz (f.tzSignForSpark320 * (hour * 3600 + minute * 60)))
  else .ok f.tz

/-- The end of `parse_timestamp_string`. -/
def finish (f : Fields) (yearSign : Int) : Except Stop Parsed :=
  match f.timeZone with
  | .error e => .error e
  | .ok tz =>
    let year := f.segments 0 * yearSign
    if !isValidTimestamp year (f.segments 1) (f.segments 2) (f.segments 3) (f.segments 4) (f.segments 5)
        (f.segments 6) || tz.type = .invalidTz then .error .invalid
    else
      .ok {
        tz := tz
        seconds :=
          toEpochSeconds year (f.segments 1) (f.segments 2) (f.segments 3) (f.segments 4) (f.segments 5)
        microseconds := f.segments 6
        justTime := f.justTime }

end Fields

/-- `parse_timestamp_string`, where `SUCCESS` is a result. -/
def parseTimestampString (v : SparkVersion) (text : List Byte) : Except Stop Parsed :=
  let pos := (text.takeWhile isWhitespace).length
  let chars := trimAll text
  let endPos := pos + chars.length
  let matchIssue52351 := v.isSpark400OrLaterOrDb143OrLater && 0 < pos
  match chars with
  | [] => .error .invalid
  | c :: rest =>
    if c = chr '-' ∨ c = chr '+' then
      match ParseState.first.scan v endPos true matchIssue52351 false rest with
      | .error e => .error e
      | .ok f => f.finish (if c = chr '-' then -1 else 1)
    else
      match ParseState.first.scan v endPos false matchIssue52351 true (c :: rest) with
      | .error e => .error e
      | .ok f => f.finish 1

end SparkRapids.CastStringToDatetime
