import SparkRapidsJni.Lib.Ascii

/-!
# Strings of the JSON parser

A quoted string is scanned in two ways: `try_parse_string` looks for its end and compares the
characters with a field name, `write_string` writes its content, unescaped or escaped again. Both
share the code that skips an escape sequence. The arguments that this code has by reference are the
fields of a `StringScan`, and the output that it writes, or only counts if the destination is
`nullptr`, is a list.
-/

namespace SparkRapids.GetJson

/-! ### Characters -/

export Ascii (chr isDigit)

/-- The double quote. -/
def dquote : Byte := 0x22

/-- The single quote. -/
def squote : Byte := 0x27

/-- The backslash. -/
def backslash : Byte := 0x5C

/-- `is_hex_digit` -/
def isHexDigit (c : Byte) : Bool :=
  (chr '0' ≤ c && c ≤ chr '9') || (chr 'A' ≤ c && c ≤ chr 'F') || (chr 'a' ≤ c && c ≤ chr 'f')

/-- `is_whitespace` -/
def isWhitespace (c : Byte) : Bool := c = 0x20 || c = 0x09 || c = 0x0A || c = 0x0D

/-- A control character, in `[0, 32)`; a byte from 128 on is none, whether `char` is signed or
not. -/
def isControl (c : Byte) : Bool := c < 32

/-- `hex_value` -/
def hexValue (c : Byte) : Nat :=
  if chr '0' ≤ c && c ≤ chr '9' then (c - chr '0').toNat
  else if chr 'a' ≤ c && c ≤ chr 'f' then (c - chr 'a').toNat + 10
  else if chr 'A' ≤ c && c ≤ chr 'F' then (c - chr 'A').toNat + 10
  else 0

/-- `to_hex_char` -/
def toHexChar (v : Nat) : Byte :=
  if v < 10 then chr '0' + BitVec.ofNat 8 v else chr 'A' + BitVec.ofNat 8 (v - 10)

/-! ### UTF-8 -/

/-- `bytes_in_char_utf8` -/
def bytesInCharUtf8 (character : BitVec 32) : Nat :=
  1 + (if character &&& 0x0000FF00 = 0 then 0 else 1) +
    (if character &&& 0x00FF0000 = 0 then 0 else 1) +
    (if character &&& 0xFF000000 = 0 then 0 else 1)

/-- `codepoint_to_utf8`: the bytes of the character in one word. -/
def codepointToUtf8 (unchr : BitVec 32) : BitVec 32 :=
  if unchr < 0x00000080 then unchr
  else if unchr < 0x00000800 then
    ((unchr <<< 2) &&& 0x1F00) ||| (unchr &&& 0x3F) ||| 0x0000C080
  else if unchr < 0x00010000 then
    ((unchr <<< 4) &&& 0x0F0000) ||| ((unchr <<< 2) &&& 0x003F00) ||| (unchr &&& 0x3F) |||
      0x00E08080
  else if unchr < 0x00110000 then
    ((unchr <<< 6) &&& 0x07000000) ||| ((unchr <<< 4) &&& 0x003F0000) |||
      ((unchr <<< 2) &&& 0x00003F00) ||| (unchr &&& 0x3F) ||| 0xF0808080
  else 0

/-- The loop of `from_char_utf8`: the lowest byte comes last. -/
@[grind] def charBytes : Nat → BitVec 32 → List Byte → List Byte
  | 0, _, str => str
  | n + 1, character, str => charBytes n (character >>> 8) (character.setWidth 8 :: str)

/-- `from_char_utf8` -/
def fromCharUtf8 (character : BitVec 32) : List Byte :=
  charBytes (bytesInCharUtf8 character) character []

/-- The bytes of a code point, as `try_skip_unicode` writes them. -/
def utf8 (codePoint : Nat) : List Byte := fromCharUtf8 (codepointToUtf8 (BitVec.ofNat 32 codePoint))

/-! ### Escape sequences -/

/-- `escape_style` -/
inductive EscapeStyle
  | unescaped
  | escaped
  deriving DecidableEq, Repr

/-- `escape_char`, of a control character. -/
def escapeChar (c : Byte) : List Byte :=
  if c = 8 then [backslash, chr 'b']
  else if c = 9 then [backslash, chr 't']
  else if c = 10 then [backslash, chr 'n']
  else if c = 12 then [backslash, chr 'f']
  else if c = 13 then [backslash, chr 'r']
  else [backslash, chr 'u', chr '0', chr '0', if 16 ≤ c then chr '1' else chr '0',
    toHexChar (c.toNat % 16)]

/-- What the functions that scan a string have by reference. -/
structure StringScan where
  /-- The rest of the string. -/
  str : List Byte
  /-- The rest of the field name to compare with, `none` for a null range. -/
  toMatch : Option (List Byte)
  /-- What has been written to the destination; its length is `output_size_bytes`. -/
  out : List Byte
  matched : Bool
  deriving DecidableEq, Repr

/-- `try_match_char` -/
def tryMatchChar (reader : Option (List Byte)) (c : Byte) : Bool × Option (List Byte) :=
  match reader with
  | none => (true, none)
  | some [] => (false, some [])
  | some (d :: rest) => if d = c then (true, some rest) else (false, some (d :: rest))

namespace StringScan

/-- `matched_field_name = matched_field_name && try_match_char(to_match, c)` -/
def matchChar (s : StringScan) (c : Byte) : StringScan :=
  if s.matched then
    let (matched, toMatch) := tryMatchChar s.toMatch c
    { s with matched, toMatch }
  else s

/-- The end of `try_skip_unicode`: the bytes of the character are compared if there is a name. -/
@[grind] def matchBytes : List Byte → StringScan → StringScan
  | [], s => s
  | b :: bs, s => matchBytes bs (s.matchChar b)

end StringScan

/-- The first loop of `try_skip_unicode`: `n` more digits of a code point. -/
@[grind] def readHex : Nat → List Byte → Nat → Option (Nat × List Byte)
  | 0, str, codePoint => some (codePoint, str)
  | _ + 1, [], _ => none
  | n + 1, c :: str, codePoint =>
    if isHexDigit c then readHex n str (codePoint * 16 + hexValue c) else none

/-- A high surrogate is combined with a low one behind it. -/
def combineSurrogates (codePoint : Nat) (str : List Byte) : Nat × List Byte :=
  if 0xD800 ≤ codePoint ∧ codePoint ≤ 0xDBFF then
    match str with
    | b :: u :: h1 :: h2 :: h3 :: h4 :: rest =>
      if b = backslash ∧ u = chr 'u' ∧ isHexDigit h1 ∧ isHexDigit h2 ∧ isHexDigit h3 ∧
          isHexDigit h4 then
        let lowSurrogate := ((hexValue h1 * 16 + hexValue h2) * 16 + hexValue h3) * 16 + hexValue h4
        if 0xDC00 ≤ lowSurrogate ∧ lowSurrogate ≤ 0xDFFF then
          (0x10000 + (codePoint - 0xD800) * 2 ^ 10 + (lowSurrogate - 0xDC00), rest)
        else (codePoint, str)
      else (codePoint, str)
    | _ => (codePoint, str)
  else (codePoint, str)

/-- `try_skip_unicode` -/
def trySkipUnicode (s : StringScan) : Option StringScan :=
  match readHex 4 s.str 0 with
  | none => none
  | some (codePoint, str) =>
    let (codePoint, str) := combineSurrogates codePoint str
    let bytes := utf8 codePoint
    some (StringScan.matchBytes bytes { s with str, out := s.out ++ bytes })

/-- The cases of `try_skip_escape_part` but for `u`: the character that the one behind the backslash
stands for, and what is written for it in the style `ESCAPED`. -/
def simpleEscape (c : Byte) : Option (Byte × List Byte) :=
  if c = dquote then some (dquote, [backslash, dquote])
  else if c = squote then some (squote, [squote])
  else if c = backslash then some (backslash, [backslash, backslash])
  else if c = chr '/' then some (chr '/', [chr '/'])
  else if c = chr 'b' then some (0x08, [backslash, chr 'b'])
  else if c = chr 'f' then some (0x0C, [backslash, chr 'f'])
  else if c = chr 'n' then some (0x0A, [backslash, chr 'n'])
  else if c = chr 'r' then some (0x0D, [backslash, chr 'r'])
  else if c = chr 't' then some (0x09, [backslash, chr 't'])
  else none

/-- `try_skip_escape_part`, behind the backslash -/
def trySkipEscapePart (wStyle : EscapeStyle) (s : StringScan) : Option StringScan :=
  match s.str with
  | [] => none
  | c :: str =>
    match simpleEscape c with
    | some (content, escaped) =>
      let written := if wStyle = .escaped then escaped else [content]
      some ({ s with str, out := s.out ++ written }.matchChar content)
    | none => if c = chr 'u' then trySkipUnicode { s with str } else none

/-! ### A skipped sequence is not empty -/

section Lengths

variable {s s' : StringScan} {str rest : List Byte} {n codePoint codePoint' : Nat}

@[simp] theorem StringScan.matchChar_str (s : StringScan) (c : Byte) :
    (s.matchChar c).str = s.str := by
  unfold StringScan.matchChar
  split_ifs
  · rfl
  · rfl

@[simp] theorem StringScan.matchChar_out (s : StringScan) (c : Byte) :
    (s.matchChar c).out = s.out := by
  unfold StringScan.matchChar
  split_ifs
  · rfl
  · rfl

@[simp] theorem StringScan.matchBytes_str (bs : List Byte) (s : StringScan) :
    (StringScan.matchBytes bs s).str = s.str := by
  induction bs generalizing s with
  | nil => rfl
  | cons b bs ih =>
    rw [StringScan.matchBytes, ih, StringScan.matchChar_str]

@[simp] theorem StringScan.matchBytes_out (bs : List Byte) (s : StringScan) :
    (StringScan.matchBytes bs s).out = s.out := by
  induction bs generalizing s with
  | nil => rfl
  | cons b bs ih =>
    rw [StringScan.matchBytes, ih, StringScan.matchChar_out]

theorem length_of_readHex (h : readHex n str codePoint = some (codePoint', rest)) :
    rest.length + n = str.length := by
  induction n generalizing str codePoint with
  | zero =>
    obtain ⟨-, rfl⟩ := Prod.mk.inj (Option.some.inj h)
    rfl
  | succ n ih =>
    cases str with
    | nil => exact absurd h (by simp [readHex])
    | cons c str =>
      unfold readHex at h
      split at h
      · have hlen := ih h
        rw [List.length_cons]
        omega
      · exact absurd h (by simp)

theorem length_combineSurrogates (codePoint : Nat) (str : List Byte) :
    (combineSurrogates codePoint str).2.length ≤ str.length := by
  unfold combineSurrogates
  split
  · split
    · split
      · dsimp only
        split
        · simp only [List.length_cons]
          omega
        · exact le_rfl
      · exact le_rfl
    · exact le_rfl
  · exact le_rfl

theorem length_of_trySkipUnicode (h : trySkipUnicode s = some s') :
    s'.str.length ≤ s.str.length := by
  unfold trySkipUnicode at h
  split at h
  · exact absurd h (by simp)
  · next codePoint str hread =>
    obtain rfl := Option.some.inj h
    have hlen := length_of_readHex hread
    have hle := length_combineSurrogates codePoint str
    rw [StringScan.matchBytes_str]
    show (combineSurrogates codePoint str).2.length ≤ _
    omega

/-- The rest of a string gets shorter. -/
theorem length_of_trySkipEscapePart {wStyle : EscapeStyle}
    (h : trySkipEscapePart wStyle s = some s') : s'.str.length < s.str.length := by
  unfold trySkipEscapePart at h
  split at h
  · exact absurd h (by simp)
  · next c str hstr =>
    rw [hstr, List.length_cons]
    split at h
    · obtain rfl := Option.some.inj h
      rw [StringScan.matchChar_str]
      exact Nat.lt_succ_self _
    · split at h
      · have hle := length_of_trySkipUnicode h
        exact Nat.lt_succ_of_le hle
      · exact absurd h (by simp)

end Lengths

/-! ### Quoted strings -/

/-- The loop of `try_parse_string`: whether the field name matches, and the text behind the string. -/
def parseString (quoteChar : Byte) (s : StringScan) : Option (Bool × List Byte) :=
  match _ : s.str with
  | [] => none
  | c :: str =>
    if c = quoteChar then
      -- path 1: match closing quote char
      some (s.matched && (s.toMatch = none || s.toMatch = some []), str)
    else if isControl c then
      -- path 2: unescaped control char
      parseString quoteChar (({ s with str }).matchChar c)
    else if c = backslash then
      -- path 3: escape path
      match _ : trySkipEscapePart .unescaped { s with str } with
      | none => none
      | some s' => parseString quoteChar s'
    else
      -- path 4: safe code point; control characters do not get here
      parseString quoteChar (({ s with str }).matchChar c)
termination_by s.str.length
decreasing_by
  · simp_all
  · have hlt := length_of_trySkipEscapePart (by assumption)
    simp_all
    omega
  · simp_all

/-- `try_parse_string` -/
@[grind] def tryParseString (str : List Byte) (toMatch : Option (List Byte)) : Option (Bool × List Byte) :=
  match str with
  | [] => none
  | quoteChar :: str =>
    parseString quoteChar { str, toMatch, out := [], matched := toMatch.isSome }

/-- The loop of `write_string`. -/
def writeContent (quoteChar : Byte) (wStyle : EscapeStyle) (s : StringScan) : List Byte :=
  match _ : s.str with
  | [] => s.out
  | c :: str =>
    if c = quoteChar then s.out ++ if wStyle = .escaped then [dquote] else []
    else if isControl c then
      let written := if wStyle = .escaped then escapeChar c else [c]
      writeContent quoteChar wStyle { s with str, out := s.out ++ written }
    else if c = backslash then
      match _ : trySkipEscapePart wStyle { s with str } with
      | none => s.out
      | some s' => writeContent quoteChar wStyle s'
    else
      let written := if c = dquote ∧ wStyle = .escaped then [backslash, c] else [c]
      writeContent quoteChar wStyle { s with str, out := s.out ++ written }
termination_by s.str.length
decreasing_by
  · simp_all
  · have hlt := length_of_trySkipEscapePart (by assumption)
    simp_all
    omega
  · simp_all

/-- `write_string` -/
def writeString (str : List Byte) (wStyle : EscapeStyle) : List Byte :=
  match str with
  | [] => []
  | quoteChar :: str =>
    writeContent quoteChar wStyle
      { str, toMatch := none, out := if wStyle = .escaped then [dquote] else [], matched := false }

end SparkRapids.GetJson
