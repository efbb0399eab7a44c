import SparkRapidsJni.CastStringToDatetime.Text
import SparkRapidsJni.TimeZone.DateTimeUtils

/-!
# `cast_string_to_datetime.cu`: time zones at the end of a timestamp

`parse_from_tz` reads what is behind the time: an offset, with or without the name of UTC before it, such
a name, or anything else, which is taken for the name of a region. `ZoneText` are the texts and what they
stand for. The parser accepts them, and reads nothing behind the text (`parseTz_spec`, `ZoneText.parse`).

Every `ptr[pos]` of the source is a read here that stops the parser if there is no character left. That is
stricter than the range of the string, as the white space at its end is not there any more either.
-/

namespace SparkRapids.CastStringToDatetime

open Ascii Numerals

/-! ### The functions of the source -/

/-- Why a parser stops: it returns `INVALID`, or accesses something out of range. -/
inductive Stop
  | invalid
  | readsOutside
  | writesOutside
  deriving DecidableEq, Repr

/-- `time_zone` -/
structure TimeZone where
  type : TzType
  fixedOffset : Int
  tzPosInString : ℕ
  tzEndPosInString : ℕ
  deriving DecidableEq, Repr

namespace TimeZone

/-- The constructor of `time_zone` -/
def default : TimeZone := ⟨.notSpecified, 0, 0, 0⟩

/-- `make_fixed_tz` -/
def makeFixedTz (offset : Int) : TimeZone := ⟨.fixedTz, offset, 0, 0⟩

/-- `make_invalid_tz` -/
def makeInvalidTz : TimeZone := ⟨.invalidTz, 0, 0, 0⟩

/-- `make_other_tz` -/
def makeOtherTz (tzPos tzEndPos : ℕ) : TimeZone := ⟨.otherTz, 0, tzPos, tzEndPos⟩

end TimeZone

open TimeZone

/-- The loop of `parse_digits`: the number of digits, their value and the characters behind them. -/
def parseDigitsLoop (maxDigits : ℕ) : List Byte → ℕ → ℕ → ℕ × ℕ × List Byte
  | [], digits, v => (digits, v, [])
  | c :: chars, digits, v =>
    if isDigit c then
      if digits + 1 = maxDigits then (digits + 1, v * 10 + digit c, chars)
      else parseDigitsLoop maxDigits chars (digits + 1) (v * 10 + digit c)
    else (digits, v, c :: chars)

/-- `parse_digits` -/
def parseDigits (maxDigits : ℕ) (chars : List Byte) : ℕ × ℕ × List Byte :=
  parseDigitsLoop maxDigits chars 0 0

/-- `try_parse_char` -/
def tryParseChar (c : Byte) : List Byte → Except Stop (Bool × List Byte)
  | [] => .error .readsOutside
  | b :: chars => .ok (if b = c then (true, chars) else (false, b :: chars))

/-- `try_parse_sign`: the sign, if there is one -/
def tryParseSign : List Byte → Except Stop (Option Int × List Byte)
  | [] => .error .readsOutside
  | c :: chars =>
    .ok (if c = chr '+' ∨ c = chr '-' then (some (if c = chr '+' then 1 else -1), chars)
      else (none, c :: chars))

/-- The minute and the second of an offset, with their numbers of digits. -/
structure MinuteSecond where
  minute : ℕ
  mDigits : ℕ
  second : ℕ
  sDigits : ℕ

/-- `parse_tz_from_sign` behind `[+-]h[h]:`, or nothing if the offset is invalid -/
def parseWithColon (isSpark320 : Bool) (chars : List Byte) : Except Stop (Option MinuteSecond) :=
  match parseDigits 2 chars with
  | (mDigits, minute, chars) =>
    if mDigits = 0 ∨ isSpark320 ∧ mDigits = 1 then .ok none
    else if chars = [] then .ok (some ⟨minute, mDigits, 0, 0⟩)
    else
      match tryParseChar (chr ':') chars with
      | .error e => .error e
      | .ok (false, _) => .ok none
      | .ok (true, chars) =>
        match parseDigits 2 chars with
        | (sDigits, second, chars) =>
          if sDigits = 2 ∧ chars = [] then .ok (some ⟨minute, mDigits, second, sDigits⟩) else .ok none

/-- `parse_tz_from_sign` behind `[+-]h[h]` without a colon: `mm` or `mmss` -/
def parseWithoutColon (hDigits : ℕ) (chars : List Byte) : Option MinuteSecond :=
  if hDigits ≠ 2 then none
  else
    match parseDigits 2 chars with
    | (mDigits, minute, chars) =>
      match parseDigits 2 chars with
      | (sDigits, second, chars) =>
        if ¬(mDigits = 2 ∨ mDigits = 0) ∨ ¬(sDigits = 2 ∨ sDigits = 0) then none
        else if chars ≠ [] then none
        else some ⟨minute, mDigits, second, sDigits⟩

/-- `parse_tz_from_sign` behind the hour -/
def parseAfterHour (isSpark320 : Bool) (hDigits : ℕ) (chars : List Byte) :
    Except Stop (Option MinuteSecond) :=
  if chars = [] then .ok (some ⟨0, 0, 0, 0⟩)
  else
    match tryParseChar (chr ':') chars with
    | .error e => .error e
    | .ok (true, chars) => parseWithColon isSpark320 chars
    | .ok (false, chars) => .ok (parseWithoutColon hDigits chars)

/-- The checks at the end of `parse_tz_from_sign`. -/
def checkOffset (sign : Int) (hour : ℕ) (ms : MinuteSecond) : TimeZone :=
  if hour > 18 ∨ ms.minute > 59 ∨ ms.second > 59 then makeInvalidTz
  else if hour * 3600 + ms.minute * 60 + ms.second > 18 * 3600 then makeInvalidTz
  -- special invalid case: [+-]h[h]:m:ss
  else if ms.sDigits > 0 ∧ ms.mDigits ≠ 2 then makeInvalidTz
  else makeFixedTz (sign * (hour * 3600 + ms.minute * 60 + ms.second : ℕ))

/-- `parse_tz_from_sign` -/
def parseTzFromSign (isSpark320 : Bool) (sign : Int) (chars : List Byte) : Except Stop TimeZone :=
  match parseDigits 2 chars with
  | (hDigits, hour, chars) =>
    if hDigits = 0 then .ok makeInvalidTz
    else
      (parseAfterHour isSpark320 hDigits chars).map fun ms =>
        match ms with
        | none => makeInvalidTz
        | some ms => checkOffset sign hour ms

/-- An offset behind the name of UTC, or else another zone. -/
def tryParseSignedTz (isSpark320 : Bool) (other : TimeZone) (chars : List Byte) : Except Stop TimeZone :=
  match tryParseSign chars with
  | .error e => .error e
  | .ok (some sign, chars) => parseTzFromSign isSpark320 sign chars
  | .ok (none, _) => .ok other

/-- `try_parse_UT_tz`, behind the `U`. The zone ends at `endPos`. -/
def tryParseUTTz (isSpark320 : Bool) (endPos : ℕ) (chars : List Byte) : Except Stop TimeZone :=
  let other := makeOtherTz (endPos - chars.length - 1) endPos
  if chars = [] then .ok makeInvalidTz
  else
    match tryParseChar (chr 'T') chars with
    | .error e => .error e
    | .ok (false, _) => .ok other
    | .ok (true, chars) =>
      if chars = [] then .ok (makeFixedTz 0)
      else
        match tryParseChar (chr 'C') chars with
        | .error e => .error e
        | .ok (true, chars) =>
          if chars = [] then .ok (makeFixedTz 0) else tryParseSignedTz isSpark320 other chars
        | .ok (false, chars) => tryParseSignedTz isSpark320 other chars

/-- `try_parse_GMT_tz` behind `GMT` -/
def tryParseAfterGMT (isSpark320 : Bool) (other : TimeZone) (chars : List Byte) : Except Stop TimeZone :=
  if chars = [] then .ok (makeFixedTz 0)
  else
    match tryParseSign chars with
    | .error e => .error e
    | .ok (some sign, chars) => parseTzFromSign isSpark320 sign chars
    | .ok (none, chars) =>
      match tryParseChar (chr '0') chars with
      | .error e => .error e
      | .ok (zero, chars) => .ok (if zero ∧ chars = [] then makeFixedTz 0 else other)

/-- `try_parse_GMT_tz`, behind the `G` -/
def tryParseGMTTz (isSpark320 : Bool) (endPos : ℕ) (chars : List Byte) : Except Stop TimeZone :=
  let other := makeOtherTz (endPos - chars.length - 1) endPos
  match chars with
  | m :: t :: chars =>
    if m = chr 'M' ∧ t = chr 'T' then tryParseAfterGMT isSpark320 other chars else .ok other
  | _ => .ok other

/-- `parse_tz` -/
def parseTz (isSpark320 : Bool) (endPos : ℕ) (chars : List Byte) : Except Stop TimeZone :=
  match chars with
  | [] => .ok makeInvalidTz
  | first :: chars =>
    if chars = [] ∧ first = chr 'Z' then .ok (makeFixedTz 0)
    else if chr 'U' = first then tryParseUTTz isSpark320 endPos chars
    else if chr 'G' = first then tryParseGMTTz isSpark320 endPos chars
    else if chr '+' = first ∨ chr '-' = first then
      parseTzFromSign isSpark320 (if first = chr '+' then 1 else -1) chars
    else .ok (makeOtherTz (endPos - chars.length - 1) endPos)

/-- `parse_from_tz` -/
def parseFromTz (isSpark320 : Bool) (endPos : ℕ) (chars : List Byte) : Except Stop TimeZone :=
  parseTz isSpark320 endPos (chars.dropWhile isWhitespace)

/-! ### Time zones as they are written -/

/-- `hh:mm:ss` in the forms that are allowed, without its sign. -/
inductive OffsetText (isSpark320 : Bool) : List Byte → ℕ → ℕ → ℕ → Prop
  | hours {hs : List Byte} (hh : IsNumber 1 2 hs) : OffsetText isSpark320 hs (number hs) 0 0
  | minutes {hs ms : List Byte} (hh : IsNumber 1 2 hs) (hm : IsNumber (if isSpark320 then 2 else 1) 2 ms) :
    OffsetText isSpark320 (hs ++ chr ':' :: ms) (number hs) (number ms) 0
  | seconds {hs ms ss : List Byte} (hh : IsNumber 1 2 hs) (hm : IsNumber 2 2 ms) (hs' : IsNumber 2 2 ss) :
    OffsetText isSpark320 (hs ++ chr ':' :: (ms ++ chr ':' :: ss)) (number hs) (number ms) (number ss)
  | hhmm {hs ms : List Byte} (hh : IsNumber 2 2 hs) (hm : IsNumber 2 2 ms) :
    OffsetText isSpark320 (hs ++ ms) (number hs) (number ms) 0
  | hhmmss {hs ms ss : List Byte} (hh : IsNumber 2 2 hs) (hm : IsNumber 2 2 ms) (hs' : IsNumber 2 2 ss) :
    OffsetText isSpark320 (hs ++ (ms ++ ss)) (number hs) (number ms) (number ss)

/-- A time that is at most 18 hours. -/
structure IsOffset (h m s : ℕ) : Prop where
  minute : m ≤ 59
  second : s ≤ 59
  le : h * 3600 + m * 60 + s ≤ 18 * 3600

/-- A sign and its value. -/
inductive SignText : Byte → Int → Prop
  | plus : SignText (chr '+') 1
  | minus : SignText (chr '-') (-1)

/-- What may stand before the sign of an offset. -/
def signedNames : List (List Byte) :=
  [[], [chr 'U', chr 'T'], [chr 'U', chr 'T', chr 'C'], [chr 'G', chr 'M', chr 'T']]

/-- The names of UTC without an offset. -/
def utcNames : List (List Byte) :=
  [[chr 'Z'], [chr 'U', chr 'T'], [chr 'U', chr 'T', chr 'C'], [chr 'G', chr 'M', chr 'T'],
    [chr 'G', chr 'M', chr 'T', chr '0']]

/-- A zone that is no name of UTC, and has no sign behind one of the names. -/
structure IsOther (zone : List Byte) : Prop where
  utc : zone ∉ utcNames
  signed : ∀ name ∈ signedNames, ∀ c sign os, SignText c sign → zone ≠ name ++ c :: os

/-- The text of a zone that ends at `endPos`, and what it stands for. -/
inductive ZoneText (isSpark320 : Bool) (endPos : ℕ) : List Byte → TimeZone → Prop
  | offset {name os : List Byte} {c : Byte} {sign : Int} {h m s : ℕ} (hname : name ∈ signedNames)
    (hc : SignText c sign) (ho : OffsetText isSpark320 os h m s) (hrange : IsOffset h m s) :
    ZoneText isSpark320 endPos (name ++ c :: os) (makeFixedTz (sign * (h * 3600 + m * 60 + s : ℕ)))
  | utc {zone : List Byte} (h : zone ∈ utcNames) : ZoneText isSpark320 endPos zone (makeFixedTz 0)
  | other {zone : List Byte} (h : IsOther zone) (hne : zone ≠ []) (hU : zone ≠ [chr 'U']) :
    ZoneText isSpark320 endPos zone (makeOtherTz (endPos - zone.length) endPos)

/-! ### Offsets -/

variable {is320 : Bool} {endPos : ℕ} {chars rest ds : List Byte} {maxDigits : ℕ}

theorem parseDigitsLoop_append (hds : ∀ c ∈ ds, isDigit c = true) (digits v : ℕ)
    (hle : digits + ds.length ≤ maxDigits)
    (hend : (ds ≠ [] ∧ digits + ds.length = maxDigits) ∨ NoDigit rest) :
    parseDigitsLoop maxDigits (ds ++ rest) digits v =
      (digits + ds.length, (ds.map digit).foldl (fun n d => n * 10 + d) v, rest) := by
  induction ds generalizing digits v with
  | nil =>
    have hrest : NoDigit rest := hend.resolve_left fun h => h.1 rfl
    cases rest with
    | nil => rfl
    | cons c rest =>
      have hc := hrest c rfl
      rw [List.nil_append, parseDigitsLoop, if_neg (by simp [hc])]
      rfl
  | cons c ds ih =>
    have hc := hds c (List.mem_cons_self ..)
    have hds' : ∀ c ∈ ds, isDigit c = true := fun c hc => hds c (List.mem_cons_of_mem _ hc)
    rw [List.length_cons] at hle hend
    have hlen : digits + 1 + ds.length = digits + (ds.length + 1) := by omega
    rw [List.cons_append, parseDigitsLoop, if_pos hc, List.length_cons]
    by_cases hlast : digits + 1 = maxDigits
    · have hnil : ds = [] := List.length_eq_zero_iff.1 (by omega)
      rw [if_pos hlast, hnil]
      rfl
    · rw [if_neg hlast, ih hds' _ _ (by omega), hlen]
      · rfl
      · refine hend.imp_left fun h => ⟨?_, by omega⟩
        rintro rfl
        exact hlast (by simpa using h.2)

/-- `parse_digits` reads a number of up to two digits: all of them, or the first two. -/
theorem parseDigits_append (h : IsNumber 0 2 ds) (hend : ds.length = 2 ∨ NoDigit rest) :
    parseDigits 2 (ds ++ rest) = (ds.length, number ds, rest) := by
  unfold parseDigits
  rw [parseDigitsLoop_append h.digits 0 0 (by simpa using h.length_le), Nat.zero_add]
  · rfl
  · refine hend.imp_left fun h' => ⟨?_, by simpa using h'⟩
    rintro rfl
    exact absurd h' (by decide)

theorem exists_parseDigits (chars : List Byte) : ∃ ds rest, chars = ds ++ rest ∧ IsNumber 0 2 ds ∧
    (ds.length = 2 ∨ NoDigit rest) ∧ parseDigits 2 chars = (ds.length, number ds, rest) := by
  obtain ⟨ds, rest, hchars, hds, hend⟩ : ∃ ds rest, chars = ds ++ rest ∧ IsNumber 0 2 ds ∧
      (ds.length = 2 ∨ NoDigit rest) := by
    rcases chars with _ | ⟨a, chars⟩
    · exact ⟨[], [], rfl, ⟨by simp, by simp, by simp⟩, .inr noDigit_nil⟩
    cases ha : isDigit a with
    | false => exact ⟨[], a :: chars, rfl, ⟨by simp, by simp, by simp⟩, .inr (noDigit_cons ha)⟩
    | true =>
      rcases chars with _ | ⟨b, chars⟩
      · exact ⟨[a], [], rfl, ⟨by simpa using ha, by simp, by simp⟩, .inr noDigit_nil⟩
      cases hb : isDigit b with
      | false => exact ⟨[a], b :: chars, rfl, ⟨by simpa using ha, by simp, by simp⟩, .inr (noDigit_cons hb)⟩
      | true => exact ⟨[a, b], chars, rfl, ⟨by simp [ha, hb], by simp, by simp⟩, .inl rfl⟩
  refine ⟨ds, rest, hchars, hds, hend, ?_⟩
  rw [hchars]
  exact parseDigits_append hds hend

/-- The minute of an offset may have one digit, but not for Spark 3.2.0. -/
def minMinuteDigits (isSpark320 : Bool) : ℕ := if isSpark320 then 2 else 1

theorem IsNumber.mono {lo lo' hi : ℕ} (h : IsNumber lo hi ds) (hle : lo' ≤ lo) : IsNumber lo' hi ds :=
  ⟨h.digits, hle.trans h.le_length, h.length_le⟩

theorem IsNumber.length_eq_two (h : IsNumber 2 2 ds) : ds.length = 2 :=
  le_antisymm h.length_le h.le_length

theorem isNumber_minute (h : IsNumber 0 2 ds) (hds : ¬(ds.length = 0 ∨ is320 ∧ ds.length = 1)) :
    IsNumber (minMinuteDigits is320) 2 ds := by
  obtain ⟨hzero, hone⟩ := not_or.1 hds
  refine ⟨h.digits, ?_, h.length_le⟩
  unfold minMinuteDigits
  cases is320 with
  | false => exact Nat.pos_of_ne_zero hzero
  | true =>
    have hone : ds.length ≠ 1 := fun h' => hone ⟨rfl, h'⟩
    show 2 ≤ ds.length
    omega

theorem minute_digits (h : IsNumber (minMinuteDigits is320) 2 ds) :
    ¬(ds.length = 0 ∨ is320 ∧ ds.length = 1) := by
  have hle := h.le_length
  unfold minMinuteDigits at hle
  rintro (hzero | ⟨hspark, hone⟩)
  · rw [hzero] at hle
    split_ifs at hle
    · exact absurd hle (by decide)
    · exact absurd hle (by decide)
  · rw [if_pos hspark, hone] at hle
    exact absurd hle (by decide)

theorem noDigit_colon (chars : List Byte) : NoDigit (chr ':' :: chars) := noDigit_cons (by decide)

/-- What `parse_tz_from_sign` reads behind the colon behind the hour. -/
inductive ColonText (isSpark320 : Bool) : List Byte → MinuteSecond → Prop
  | minute {ms : List Byte} (hm : IsNumber (minMinuteDigits isSpark320) 2 ms) :
    ColonText isSpark320 ms ⟨number ms, ms.length, 0, 0⟩
  | second {ms ss : List Byte} (hm : IsNumber (minMinuteDigits isSpark320) 2 ms) (hs : IsNumber 2 2 ss) :
    ColonText isSpark320 (ms ++ chr ':' :: ss) ⟨number ms, ms.length, number ss, 2⟩

theorem parseWithColon_spec (is320 : Bool) (chars : List Byte) : ∃ r, parseWithColon is320 chars = .ok r ∧
    ∀ ms, r = some ms → ColonText is320 chars ms := by
  obtain ⟨ds, rest, rfl, hds, -, hparse⟩ := exists_parseDigits chars
  unfold parseWithColon
  rw [hparse]
  dsimp only
  by_cases hdigits : ds.length = 0 ∨ is320 ∧ ds.length = 1
  · rw [if_pos hdigits]
    exact ⟨none, rfl, fun ms h => absurd h (by simp)⟩
  have hm := isNumber_minute hds hdigits
  rw [if_neg hdigits]
  cases rest with
  | nil =>
    rw [if_pos rfl, List.append_nil]
    refine ⟨_, rfl, fun ms h => ?_⟩
    obtain rfl := Option.some.inj h
    exact .minute hm
  | cons b rest =>
    rw [if_neg (by simp), tryParseChar]
    by_cases hb : b = chr ':'
    · obtain ⟨ss, rest', rfl, hss, -, hparse'⟩ := exists_parseDigits rest
      rw [if_pos hb]
      dsimp only
      rw [hparse']
      dsimp only
      split_ifs with hend
      · refine ⟨_, rfl, fun ms h => ?_⟩
        obtain rfl := Option.some.inj h
        rw [hb, hend.2, hend.1, List.append_nil]
        exact .second hm ⟨hss.digits, hend.1.ge, hss.length_le⟩
      · exact ⟨none, rfl, fun ms h => absurd h (by simp)⟩
    · rw [if_neg hb]
      exact ⟨none, rfl, fun ms h => absurd h (by simp)⟩

theorem ColonText.parse {ms : MinuteSecond} (h : ColonText is320 chars ms) :
    parseWithColon is320 chars = .ok (some ms) := by
  unfold parseWithColon
  cases h with
  | minute hm =>
    have hparse := parseDigits_append (hm.mono (Nat.zero_le _)) (.inr noDigit_nil)
    rw [List.append_nil] at hparse
    rw [hparse]
    dsimp only
    rw [if_neg (minute_digits hm), if_pos rfl]
  | @second ms ss hm hs =>
    have hparse := parseDigits_append (hs.mono (Nat.zero_le _)) (.inr noDigit_nil)
    rw [List.append_nil] at hparse
    rw [parseDigits_append (hm.mono (Nat.zero_le _)) (.inr (noDigit_colon ss))]
    dsimp only
    rw [if_neg (minute_digits hm), if_neg (by simp), tryParseChar, if_pos rfl]
    dsimp only
    rw [hparse]
    dsimp only
    rw [hs.length_eq_two, if_pos ⟨rfl, rfl⟩]

/-- What `parse_tz_from_sign` reads behind an hour without a colon. -/
inductive PlainText : List Byte → MinuteSecond → Prop
  | mm {ms : List Byte} (hm : IsNumber 2 2 ms) : PlainText ms ⟨number ms, 2, 0, 0⟩
  | mmss {ms ss : List Byte} (hm : IsNumber 2 2 ms) (hs : IsNumber 2 2 ss) :
    PlainText (ms ++ ss) ⟨number ms, 2, number ss, 2⟩

theorem isNumber_two (h : IsNumber 0 2 ds) (hlen : ds.length = 2) : IsNumber 2 2 ds :=
  ⟨h.digits, hlen.ge, h.length_le⟩

theorem parseWithoutColon_sound {hDigits : ℕ} {ms : MinuteSecond} (hne : chars ≠ [])
    (h : parseWithoutColon hDigits chars = some ms) : hDigits = 2 ∧ PlainText chars ms := by
  obtain ⟨ds, rest, rfl, hds, hend, hparse⟩ := exists_parseDigits chars
  obtain ⟨ss, rest', rfl, hss, hend', hparse'⟩ := exists_parseDigits rest
  unfold parseWithoutColon at h
  rw [hparse] at h
  dsimp only at h
  rw [hparse'] at h
  dsimp only at h
  split_ifs at h with hhour hdigits hrest
  obtain ⟨hm, hs⟩ := not_or.1 hdigits
  have hm := not_not.1 hm
  have hs := not_not.1 hs
  obtain rfl : rest' = [] := not_not.1 hrest
  obtain rfl := Option.some.inj h
  refine ⟨not_not.1 hhour, ?_⟩
  rw [List.append_nil] at hne ⊢
  have hlen : ds.length = 2 := by
    rcases hm with hm | hm
    · exact hm
    · -- without a digit nothing is read, and there is something left
      obtain rfl := List.length_eq_zero_iff.1 hm
      have hnone := hend.resolve_left (by simp)
      rw [List.append_nil] at hnone
      cases ss with
      | nil => exact absurd rfl hne
      | cons c ss =>
        have hc := hnone c rfl
        rw [hss.digits c (List.mem_cons_self ..)] at hc
        exact absurd hc (by decide)
  rw [hlen]
  rcases hs with hs | hs
  · rw [hs]
    exact .mmss (isNumber_two hds hlen) (isNumber_two hss hs)
  · obtain rfl := List.length_eq_zero_iff.1 hs
    rw [List.append_nil]
    exact .mm (isNumber_two hds hlen)

theorem PlainText.parse {ms : MinuteSecond} (h : PlainText chars ms) :
    parseWithoutColon 2 chars = some ms := by
  have hnil : parseDigits 2 [] = (0, 0, []) := rfl
  unfold parseWithoutColon
  rw [if_neg (by simp)]
  cases h with
  | mm hm =>
    have hparse := parseDigits_append (hm.mono (Nat.zero_le 2)) (.inr noDigit_nil)
    rw [List.append_nil] at hparse
    rw [hparse]
    dsimp only
    rw [hnil, hm.length_eq_two]
    rfl
  | @mmss ms ss hm hs =>
    have hparse := parseDigits_append (hs.mono (Nat.zero_le 2)) (.inr noDigit_nil)
    rw [List.append_nil] at hparse
    rw [parseDigits_append (hm.mono (Nat.zero_le 2)) (.inl hm.length_eq_two)]
    dsimp only
    rw [hparse, hm.length_eq_two, hs.length_eq_two]
    rfl

theorem PlainText.head {ms : MinuteSecond} (h : PlainText chars ms) :
    ∃ c rest, chars = c :: rest ∧ c ≠ chr ':' := by
  have hdigit {ds rest : List Byte} (hds : IsNumber 2 2 ds) :
      ∃ c rest', ds ++ rest = c :: rest' ∧ c ≠ chr ':' := by
    cases ds with
    | nil => exact absurd hds.le_length (by decide)
    | cons c ds =>
      refine ⟨c, ds ++ rest, rfl, ?_⟩
      rintro rfl
      exact absurd (hds.digits _ (List.mem_cons_self ..)) (by decide)
  cases h with
  | mm hm =>
    rw [← List.append_nil chars]
    exact hdigit hm
  | mmss hm hs => exact hdigit hm

theorem checkOffset_spec (sign : Int) (hour : ℕ) (ms : MinuteSecond) :
    checkOffset sign hour ms = makeInvalidTz ∨ IsOffset hour ms.minute ms.second ∧
      (ms.sDigits = 0 ∨ ms.mDigits = 2) ∧
      checkOffset sign hour ms = makeFixedTz (sign * (hour * 3600 + ms.minute * 60 + ms.second : ℕ)) := by
  unfold checkOffset
  split_ifs with hfields hle hspecial
  · exact .inl rfl
  · exact .inl rfl
  · exact .inl rfl
  · exact .inr ⟨⟨by omega, by omega, by omega⟩, by omega, rfl⟩

theorem IsOffset.check {hour : ℕ} (ms : MinuteSecond) (h : IsOffset hour ms.minute ms.second)
    (hspecial : ms.sDigits = 0 ∨ ms.mDigits = 2) (sign : Int) :
    checkOffset sign hour ms = makeFixedTz (sign * (hour * 3600 + ms.minute * 60 + ms.second : ℕ)) := by
  obtain ⟨hminute, hsecond, hle⟩ := h
  unfold checkOffset
  rw [if_neg (by omega), if_neg (by omega), if_neg (by omega)]

/-- An offset is read, or the zone is invalid; nothing is read behind the text. -/
theorem parseTzFromSign_spec (is320 : Bool) (sign : Int) (chars : List Byte) :
    ∃ tz, parseTzFromSign is320 sign chars = .ok tz ∧ (tz = makeInvalidTz ∨
      ∃ h m s, OffsetText is320 chars h m s ∧ IsOffset h m s ∧
        tz = makeFixedTz (sign * (h * 3600 + m * 60 + s : ℕ))) := by
  obtain ⟨hs, rest, rfl, hds, hend, hparse⟩ := exists_parseDigits chars
  unfold parseTzFromSign
  rw [hparse]
  dsimp only
  by_cases hzero : hs.length = 0
  · rw [if_pos hzero]
    exact ⟨_, rfl, .inl rfl⟩
  have hh : IsNumber 1 2 hs := ⟨hds.digits, Nat.pos_of_ne_zero hzero, hds.length_le⟩
  rw [if_neg hzero]
  unfold parseAfterHour
  cases rest with
  | nil =>
    rw [if_pos rfl, List.append_nil]
    refine ⟨_, rfl, ?_⟩
    rcases checkOffset_spec sign (number hs) ⟨0, 0, 0, 0⟩ with hinvalid | ⟨hoffset, -, hcheck⟩
    · exact .inl hinvalid
    · exact .inr ⟨_, _, _, .hours hh, hoffset, hcheck⟩
  | cons b rest =>
    rw [if_neg (by simp), tryParseChar]
    by_cases hb : b = chr ':'
    · obtain ⟨r, hr, htext⟩ := parseWithColon_spec is320 rest
      rw [if_pos hb]
      dsimp only
      rw [hr, hb]
      cases r with
      | none => exact ⟨_, rfl, .inl rfl⟩
      | some ms =>
        refine ⟨_, rfl, ?_⟩
        rcases checkOffset_spec sign (number hs) ms with hinvalid | ⟨hoffset, hspecial, hcheck⟩
        · exact .inl hinvalid
        · refine .inr ⟨_, _, _, ?_, hoffset, hcheck⟩
          cases htext ms rfl with
          | minute hm => exact .minutes hh hm
          | second hm hs' =>
            -- in front of seconds, the minutes have two digits
            have hlen := hspecial.resolve_left (by simp)
            exact .seconds hh ⟨hm.digits, hlen.ge, hm.length_le⟩ hs'
    · rw [if_neg hb]
      dsimp only
      cases hr : parseWithoutColon hs.length (b :: rest) with
      | none => exact ⟨_, rfl, .inl rfl⟩
      | some ms =>
        refine ⟨_, rfl, ?_⟩
        obtain ⟨hlen, htext⟩ := parseWithoutColon_sound (by simp) hr
        have hh := isNumber_two hds hlen
        rcases checkOffset_spec sign (number hs) ms with hinvalid | ⟨hoffset, -, hcheck⟩
        · exact .inl hinvalid
        · refine .inr ⟨_, _, _, ?_, hoffset, hcheck⟩
          generalize b :: rest = text at htext
          cases htext with
          | mm hm => exact .hhmm hh hm
          | mmss hm hs' => exact .hhmmss hh hm hs'

theorem OffsetText.parse {h m s : ℕ} (htext : OffsetText is320 chars h m s) (hoffset : IsOffset h m s)
    (sign : Int) : parseTzFromSign is320 sign chars =
      .ok (makeFixedTz (sign * (h * 3600 + m * 60 + s : ℕ))) := by
  -- the digits of the hour are read, up to the colon or the first two
  have hhour {hs rest : List Byte} {lo : ℕ} (hlo : 0 < lo) (hh : IsNumber lo 2 hs)
      (hend : hs.length = 2 ∨ NoDigit rest) : parseTzFromSign is320 sign (hs ++ rest) =
        (parseAfterHour is320 hs.length rest).map fun ms =>
          match ms with
          | none => makeInvalidTz
          | some ms => checkOffset sign (number hs) ms := by
    have hle := hh.le_length
    unfold parseTzFromSign
    rw [parseDigits_append (hh.mono (Nat.zero_le _)) hend]
    dsimp only
    rw [if_neg (by omega)]
  have hcolon {hDigits : ℕ} {rest : List Byte} {ms : MinuteSecond} (hms : ColonText is320 rest ms) :
      parseAfterHour is320 hDigits (chr ':' :: rest) = .ok (some ms) := by
    unfold parseAfterHour
    rw [if_neg (by simp), tryParseChar, if_pos rfl]
    exact hms.parse
  have hplain {rest : List Byte} {ms : MinuteSecond} (hms : PlainText rest ms) :
      parseAfterHour is320 2 rest = .ok (some ms) := by
    obtain ⟨c, cs, rfl, hc⟩ := hms.head
    unfold parseAfterHour
    rw [if_neg (by simp), tryParseChar, if_neg hc]
    dsimp only
    rw [hms.parse]
  cases htext with
  | hours hh =>
    have heq := hhour Nat.one_pos hh (.inr noDigit_nil)
    rw [List.append_nil] at heq
    rw [heq]
    exact congrArg Except.ok (IsOffset.check ⟨0, 0, 0, 0⟩ hoffset (.inl rfl) sign)
  | @minutes hs ms hh hm =>
    rw [hhour Nat.one_pos hh (.inr (noDigit_colon ms)), hcolon (.minute hm)]
    exact congrArg Except.ok
      (IsOffset.check ⟨number ms, ms.length, 0, 0⟩ hoffset (.inl rfl) sign)
  | @seconds hs ms ss hh hm hs' =>
    have hm' : IsNumber (minMinuteDigits is320) 2 ms := by
      apply hm.mono
      unfold minMinuteDigits
      split_ifs
      · exact le_rfl
      · exact one_le_two
    rw [hhour Nat.one_pos hh (.inr (noDigit_colon _)), hcolon (.second hm' hs')]
    exact congrArg Except.ok (IsOffset.check ⟨number ms, ms.length, number ss, 2⟩ hoffset
      (.inr hm.length_eq_two) sign)
  | @hhmm hs ms hh hm =>
    rw [hhour Nat.two_pos hh (.inl hh.length_eq_two), hh.length_eq_two, hplain (.mm hm)]
    exact congrArg Except.ok (IsOffset.check ⟨number ms, 2, 0, 0⟩ hoffset (.inl rfl) sign)
  | @hhmmss hs ms ss hh hm hs' =>
    rw [hhour Nat.two_pos hh (.inl hh.length_eq_two), hh.length_eq_two, hplain (.mmss hm hs')]
    exact congrArg Except.ok (IsOffset.check ⟨number ms, 2, number ss, 2⟩ hoffset (.inr rfl) sign)

/-! ### Zones -/

theorem SignText.mem {c : Byte} {sign : Int} (h : SignText c sign) : c = chr '+' ∨ c = chr '-' := by
  cases h with
  | plus => exact .inl rfl
  | minus => exact .inr rfl

theorem signText_of_mem {c : Byte} (h : c = chr '+' ∨ c = chr '-') :
    SignText c (if c = chr '+' then 1 else -1) := by
  rcases h with rfl | rfl
  · exact .plus
  · exact .minus

theorem SignText.tryParseSign {c : Byte} {sign : Int} (h : SignText c sign) (chars : List Byte) :
    tryParseSign (c :: chars) = .ok (some sign, chars) := by
  cases h with
  | plus => rfl
  | minus => rfl

/-- Every zone with a sign behind one of the names is read as an offset. -/
theorem parseTz_signed {name : List Byte} (hname : name ∈ signedNames) {c : Byte} {sign : Int}
    (hc : SignText c sign) (os : List Byte) :
    parseTz is320 endPos (name ++ c :: os) = parseTzFromSign is320 sign os := by
  have hsigned (other : TimeZone) :
      tryParseSignedTz is320 other (c :: os) = parseTzFromSign is320 sign os := by
    unfold tryParseSignedTz
    rw [hc.tryParseSign]
  simp only [signedNames, List.mem_cons, List.not_mem_nil, or_false] at hname
  rcases hname with rfl | rfl | rfl | rfl
  · have hZ : ¬(os = [] ∧ c = chr 'Z') := by
      rintro ⟨-, rfl⟩
      exact absurd hc.mem (by decide)
    rw [List.nil_append, parseTz, if_neg hZ]
    cases hc with
    | plus => rfl
    | minus => rfl
  · show tryParseUTTz is320 endPos (chr 'T' :: c :: os) = _
    rw [← hsigned (makeOtherTz (endPos - (chr 'T' :: c :: os).length - 1) endPos)]
    cases hc with
    | plus => rfl
    | minus => rfl
  · exact hsigned _
  · show tryParseAfterGMT is320 _ (c :: os) = _
    unfold tryParseAfterGMT
    rw [if_neg (by simp), hc.tryParseSign]

theorem isOther_signed {zone : List Byte} (h : IsOther zone) (name : List Byte) {rest : List Byte}
    (hname : name ∈ signedNames) (hzone : zone = name ++ rest) {c : Byte} (hc : c ∈ rest.head?) :
    ¬(c = chr '+' ∨ c = chr '-') := by
  intro hsign
  cases rest with
  | nil => exact absurd hc (by simp)
  | cons b rest =>
    obtain rfl : b = c := Option.some.inj hc
    exact h.signed name hname b _ rest (signText_of_mem hsign) hzone

theorem tryParseSign_other {c : Byte} (h : ¬(c = chr '+' ∨ c = chr '-')) (chars : List Byte) :
    tryParseSign (c :: chars) = .ok (none, c :: chars) :=
  congrArg Except.ok (if_neg h)

/-- Any other zone is handed on. -/
theorem parseTz_other {zone : List Byte} (h : IsOther zone) (hne : zone ≠ []) (hU : zone ≠ [chr 'U']) :
    parseTz is320 endPos zone = .ok (makeOtherTz (endPos - zone.length) endPos) := by
  have hnames (name : List Byte) (hname : name ∈ utcNames) : zone ≠ name := by
    rintro rfl
    exact h.utc hname
  have hsigned {other : TimeZone} {b : Byte} (name : List Byte) {rest : List Byte} (hname : name ∈ signedNames)
      (hzone : zone = name ++ b :: rest) :
      tryParseSignedTz is320 other (b :: rest) = .ok other := by
    unfold tryParseSignedTz
    rw [tryParseSign_other (isOther_signed h name hname hzone rfl)]
  -- the parser compares letter by letter: where it goes on, the zone begins with a name
  cases zone with
  | nil => exact absurd rfl hne
  | cons first chars =>
    have hsub : endPos - (first :: chars).length = endPos - chars.length - 1 := by
      rw [List.length_cons, Nat.sub_sub]
    rw [hsub, parseTz]
    have hZ : ¬(chars = [] ∧ first = chr 'Z') := by
      rintro ⟨rfl, rfl⟩
      exact hnames [chr 'Z'] (by decide) rfl
    rw [if_neg hZ]
    by_cases hfirst : chr 'U' = first
    · rw [if_pos hfirst, tryParseUTTz]
      subst hfirst
      rcases chars with _ | ⟨b, chars⟩
      · exact absurd rfl hU
      rw [if_neg (by simp), tryParseChar]
      by_cases hT : b = chr 'T'
      · rw [if_pos hT]
        subst hT
        dsimp only
        rcases chars with _ | ⟨b, chars⟩
        · exact absurd rfl (hnames [chr 'U', chr 'T'] (by decide))
        rw [if_neg (by simp), tryParseChar]
        by_cases hC : b = chr 'C'
        · rw [if_pos hC]
          subst hC
          dsimp only
          rcases chars with _ | ⟨b, chars⟩
          · exact absurd rfl (hnames [chr 'U', chr 'T', chr 'C'] (by decide))
          rw [if_neg (by simp)]
          exact hsigned [chr 'U', chr 'T', chr 'C'] (by decide) rfl
        · rw [if_neg hC]
          exact hsigned [chr 'U', chr 'T'] (by decide) rfl
      · rw [if_neg hT]
    rw [if_neg hfirst]
    by_cases hG : chr 'G' = first
    · rw [if_pos hG]
      unfold tryParseGMTTz
      subst hG
      rcases chars with _ | ⟨m, _ | ⟨t, chars⟩⟩
      · rfl
      · rfl
      dsimp only
      by_cases hMT : m = chr 'M' ∧ t = chr 'T'
      · rw [if_pos hMT]
        obtain ⟨rfl, rfl⟩ := hMT
        unfold tryParseAfterGMT
        rcases chars with _ | ⟨b, chars⟩
        · exact absurd rfl (hnames [chr 'G', chr 'M', chr 'T'] (by decide))
        -- behind `GMT`, a sign would begin an offset
        have hb : ¬(b = chr '+' ∨ b = chr '-') :=
          isOther_signed h [chr 'G', chr 'M', chr 'T'] (by decide) rfl rfl
        rw [if_neg (by simp), tryParseSign_other hb]
        dsimp only
        rw [tryParseChar]
        by_cases hzero : b = chr '0'
        · subst hzero
          rw [if_pos rfl]
          dsimp only
          rw [if_neg]
          rintro ⟨-, rfl⟩
          exact hnames [chr 'G', chr 'M', chr 'T', chr '0'] (by decide) rfl
        · rw [if_neg hzero]
          rfl
      · rw [if_neg hMT]
    rw [if_neg hG, if_neg]
    -- and without a name in front, too
    intro hsign
    exact isOther_signed h [] (by decide) rfl rfl (hsign.imp Eq.symm Eq.symm)

theorem parseTz_utc {zone : List Byte} (h : zone ∈ utcNames) :
    parseTz is320 endPos zone = .ok (makeFixedTz 0) := by
  simp only [utcNames, List.mem_cons, List.not_mem_nil, or_false] at h
  rcases h with rfl | rfl | rfl | rfl | rfl
  all_goals rfl

/-- A zone is read, or it is invalid; nothing is read behind the text. -/
theorem parseTz_spec (is320 : Bool) (endPos : ℕ) (zone : List Byte) :
    ∃ tz, parseTz is320 endPos zone = .ok tz ∧
      (tz = makeInvalidTz ∨ ZoneText is320 endPos zone tz) := by
  by_cases hne : zone = []
  · rw [hne]
    exact ⟨_, rfl, .inl rfl⟩
  by_cases hU : zone = [chr 'U']
  · rw [hU]
    exact ⟨_, rfl, .inl rfl⟩
  by_cases hutc : zone ∈ utcNames
  · exact ⟨_, parseTz_utc hutc, .inr (.utc hutc)⟩
  by_cases hsigned : ∃ name ∈ signedNames, ∃ c sign os, SignText c sign ∧ zone = name ++ c :: os
  · obtain ⟨name, hname, c, sign, os, hc, rfl⟩ := hsigned
    obtain ⟨tz, hparse, htz⟩ := parseTzFromSign_spec is320 sign os
    refine ⟨tz, (parseTz_signed hname hc os).trans hparse, htz.imp_right ?_⟩
    rintro ⟨h, m, s, htext, hoffset, rfl⟩
    exact .offset hname hc htext hoffset
  · have hother : IsOther zone :=
      ⟨hutc, fun name hname c sign os hc hzone => hsigned ⟨name, hname, c, sign, os, hc, hzone⟩⟩
    exact ⟨_, parseTz_other hother hne hU, .inr (.other hother hne hU)⟩

theorem ZoneText.parse {zone : List Byte} {tz : TimeZone} (h : ZoneText is320 endPos zone tz) :
    parseTz is320 endPos zone = .ok tz := by
  cases h with
  | offset hname hc htext hoffset => exact (parseTz_signed hname hc _).trans (htext.parse hoffset _)
  | utc hutc => exact parseTz_utc hutc
  | other hother hne hU => exact parseTz_other hother hne hU

theorem SignText.abs_le {c : Byte} {sign : Int} (h : SignText c sign) {n : ℕ} (hn : n ≤ 18 * 3600) :
    |sign * n| ≤ 18 * 3600 := by
  cases h with
  | plus =>
    rw [one_mul, Nat.abs_cast]
    exact_mod_cast hn
  | minus =>
    rw [neg_one_mul, abs_neg, Nat.abs_cast]
    exact_mod_cast hn

/-- No zone is off by more than 18 hours, and none that is read is invalid. -/
theorem ZoneText.abs_le {zone : List Byte} {tz : TimeZone} (h : ZoneText is320 endPos zone tz) :
    |tz.fixedOffset| ≤ 18 * 3600 ∧ tz.type ≠ .invalidTz := by
  cases h with
  | offset hname hc htext hoffset =>
    exact ⟨hc.abs_le hoffset.le, by show TzType.fixedTz ≠ _; decide⟩
  | utc h => exact ⟨by decide, by decide⟩
  | other => exact ⟨by show |(0 : Int)| ≤ _; decide, by show TzType.otherTz ≠ _; decide⟩

end SparkRapids.CastStringToDatetime
