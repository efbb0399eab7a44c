import SparkRapidsJni.GetJson.Copy
import SparkRapidsJni.Lib.Reading

/-!
# `json_parser`, by the positions it reads

Here the parser is a program that reads the memory of the row at positions, `chars[pos]`, and checks
for the end of the row where the source does. So it is what it is after an error, too, and where it
reads behind the end of the row. The start of each call of `parse_next_token_and_set_current` is a step
of the program.

Every part of the parser but `parse_first_token_in_value_and_set_current` reads inside of the row only
(`Reads`), whatever the memory has. The functions of the characters that are no reads are those of the
parser of a list of characters.
-/

namespace SparkRapids.GetJson

open JsonParser (getBitValue setBitValue)

/-- `json_parser`, but for `chars`. -/
structure RowParser where
  currPos : ℕ
  contextStack : BitVec 64
  stackSize : ℕ
  currentTokenStartPos : ℕ
  numberTokenLen : ℕ
  currentToken : JsonToken
  maxDepthExceeded : Bool
  deriving DecidableEq, Repr

/-- A program that reads the memory of a row, and calls `parse_next_token_and_set_current`. -/
abbrev Read (α : Type) : Type := Reading Byte RowParser α

namespace RowParser

/-- The constructor. The fields that it does not initialize are set before they are read. -/
def make : RowParser where
  currPos := 0
  contextStack := 0
  stackSize := 0
  currentTokenStartPos := 0
  numberTokenLen := 0
  currentToken := .init
  maxDepthExceeded := false

/-- `chars[pos]` -/
def readChar (pos : ℕ) : Read Byte := .read pos fun c => pure c

/-- The program reads inside of the row only. -/
abbrev Reads {α : Type} (size : ℕ) (post : α → Prop) (r : Read α) : Prop := r.Ok (· < size) post

/-- A character is read behind a check for the end of the row. -/
theorem Reads.readChar {α : Type} {size pos : ℕ} {post : α → Prop} {f : Byte → Read α}
    (hpos : pos < size) (h : ∀ c, Reads size post (f c)) :
    Reads size post (RowParser.readChar pos >>= f) := .read hpos h

/-- The position does not go back, and not behind the end of the row. -/
structure Forward (size pos pos' : ℕ) : Prop where
  le : pos ≤ pos'
  le_size : pos ≤ size → pos' ≤ size

theorem Forward.refl (size pos : ℕ) : Forward size pos pos := ⟨Nat.le_refl pos, fun h => h⟩

theorem Forward.trans {size a b c : ℕ} (h : Forward size a b) (h' : Forward size b c) :
    Forward size a c := ⟨Nat.le_trans h.le h'.le, fun ha => h'.le_size (h.le_size ha)⟩

/-- A character was there. -/
theorem Forward.next {size pos pos' : ℕ} (hpos : pos < size) (h : Forward size (pos + 1) pos') :
    Forward size pos pos' := ⟨Nat.le_of_succ_le h.le, fun _ => h.le_size hpos⟩

section Chars

variable (size : ℕ)

/-- `skip_whitespaces`: the position behind them. -/
def skipWhitespaces (pos : ℕ) : Read ℕ :=
  if _ : pos < size then do
    let c ← readChar pos
    if isWhitespace c then skipWhitespaces (pos + 1) else pure pos
  else pure pos
termination_by size - pos

theorem reads_skipWhitespaces (pos : ℕ) :
    Reads size (Forward size pos) (skipWhitespaces size pos) := by
  induction hn : size - pos generalizing pos with
  | zero =>
    rw [skipWhitespaces, dif_neg (by omega)]
    exact .done (.refl size pos)
  | succ n ih =>
    rw [skipWhitespaces, dif_pos (by omega)]
    refine .readChar (by omega) fun c => ?_
    split_ifs
    · exact (ih (pos + 1) (by omega)).imp fun _ h => h.next (by omega)
    · exact .done (.refl size pos)

/-- `try_skip` -/
def trySkip (pos : ℕ) (expected : Byte) : Read (Bool × ℕ) :=
  if pos < size then do
    let c ← readChar pos
    if c = expected then pure (true, pos + 1) else pure (false, pos)
  else pure (false, pos)

theorem reads_trySkip (pos : ℕ) (expected : Byte) :
    Reads size (fun q => Forward size pos q.2) (trySkip size pos expected) := by
  unfold trySkip
  split_ifs with hpos
  · refine .readChar hpos fun c => ?_
    split_ifs
    · exact .done (.next hpos (.refl size (pos + 1)))
    · exact .done (.refl size pos)
  · exact .done (.refl size pos)

end Chars

/-! ### Strings -/

/-- A `char_range_reader` of the rest of the row, and the one of the field name to compare with. -/
structure StringReader where
  pos : ℕ
  toMatch : Option (List Byte)
  matched : Bool

namespace StringReader

/-- `matched_field_name = matched_field_name && try_match_char(to_match, c)` -/
def matchChar (s : StringReader) (c : Byte) : StringReader :=
  if s.matched then
    let (matched, toMatch) := tryMatchChar s.toMatch c
    { s with matched, toMatch }
  else s

/-- The end of `try_skip_unicode`. -/
def matchBytes : List Byte → StringReader → StringReader
  | [], s => s
  | b :: bs, s => matchBytes bs (s.matchChar b)

@[simp] theorem matchChar_pos (s : StringReader) (c : Byte) : (s.matchChar c).pos = s.pos := by
  unfold matchChar
  split_ifs
  · rfl
  · rfl

@[simp] theorem matchBytes_pos (bs : List Byte) (s : StringReader) :
    (matchBytes bs s).pos = s.pos := by
  induction bs generalizing s with
  | nil => rfl
  | cons b bs ih => rw [matchBytes, ih, matchChar_pos]

end StringReader

section Strings

variable (size : ℕ)

/-- The first loop of `try_skip_unicode`: the code point, and the position behind its digits. -/
def readHex : ℕ → ℕ → ℕ → Read (Option (ℕ × ℕ))
  | 0, pos, codePoint => pure (some (codePoint, pos))
  | n + 1, pos, codePoint =>
    if size ≤ pos then pure none
    else do
      let c ← readChar pos
      if isHexDigit c then readHex n (pos + 1) (codePoint * 16 + hexValue c) else pure none

/-- `is_hex_digit`, of `n` characters one after the other. -/
def areHexDigits : ℕ → ℕ → Read Bool
  | 0, _ => pure true
  | n + 1, pos => do
    let c ← readChar pos
    if isHexDigit c then areHexDigits n (pos + 1) else pure false

/-- The loop for `low_surrogate`. -/
def readLowSurrogate : ℕ → ℕ → ℕ → Read ℕ
  | 0, _, lowSurrogate => pure lowSurrogate
  | n + 1, pos, lowSurrogate => do
    let c ← readChar pos
    readLowSurrogate n (pos + 1) (lowSurrogate * 16 + hexValue c)

/-- A high surrogate is combined with a low one behind it: we need to peek ahead 6 characters. -/
def combineSurrogates (codePoint pos : ℕ) : Read (ℕ × ℕ) :=
  if (0xD800 ≤ codePoint ∧ codePoint ≤ 0xDBFF) ∧ 6 ≤ size - pos then do
    let b ← readChar pos
    if b = backslash then do
      let u ← readChar (pos + 1)
      if u = chr 'u' then do
        let hex ← areHexDigits 4 (pos + 2)
        if hex then do
          let lowSurrogate ← readLowSurrogate 4 (pos + 2) 0
          if 0xDC00 ≤ lowSurrogate ∧ lowSurrogate ≤ 0xDFFF then
            pure (0x10000 + (codePoint - 0xD800) * 2 ^ 10 + (lowSurrogate - 0xDC00), pos + 6)
          else pure (codePoint, pos)
        else pure (codePoint, pos)
      else pure (codePoint, pos)
    else pure (codePoint, pos)
  else pure (codePoint, pos)

/-- `try_skip_unicode` -/
def trySkipUnicode (s : StringReader) : Read (Option StringReader) := do
  match ← readHex size 4 s.pos 0 with
  | none => pure none
  | some (codePoint, pos) =>
    let combined ← combineSurrogates size codePoint pos
    pure (some (StringReader.matchBytes (utf8 combined.1) { s with pos := combined.2 }))

/-- `try_skip_escape_part`, behind the backslash -/
def trySkipEscapePart (s : StringReader) : Read (Option StringReader) :=
  if size ≤ s.pos then pure none
  else do
    let c ← readChar s.pos
    match simpleEscape c with
    | some (content, _) => pure (some ({ s with pos := s.pos + 1 }.matchChar content))
    | none =>
      if c = chr 'u' then trySkipUnicode size { s with pos := s.pos + 1 } else pure none

variable {size}

theorem reads_readHex (n pos codePoint : ℕ) : Reads size
    (fun q => ∀ codePoint' pos', q = some (codePoint', pos') → Forward size pos pos')
    (readHex size n pos codePoint) := by
  induction n generalizing pos codePoint with
  | zero =>
    refine .done fun codePoint' pos' h => ?_
    obtain ⟨-, rfl⟩ := Prod.mk.inj (Option.some.inj h)
    exact .refl size pos
  | succ n ih =>
    unfold readHex
    split_ifs with hpos
    · exact .done fun _ _ h => absurd h (by simp)
    · refine .readChar (by omega) fun c => ?_
      split_ifs
      · refine (ih (pos + 1) _).imp fun q hq codePoint' pos' h => ?_
        exact (hq codePoint' pos' h).next (by omega)
      · exact .done fun _ _ h => absurd h (by simp)

theorem reads_areHexDigits (n pos : ℕ) (h : pos + n ≤ size) :
    Reads size (fun _ => True) (areHexDigits n pos) := by
  induction n generalizing pos with
  | zero => exact .done trivial
  | succ n ih =>
    refine .readChar (by omega) fun c => ?_
    split_ifs
    · exact ih (pos + 1) (by omega)
    · exact .done trivial

theorem reads_readLowSurrogate (n pos lowSurrogate : ℕ) (h : pos + n ≤ size) :
    Reads size (fun _ => True) (readLowSurrogate n pos lowSurrogate) := by
  induction n generalizing pos lowSurrogate with
  | zero => exact .done trivial
  | succ n ih => exact .readChar (by omega) fun c => ih (pos + 1) _ (by omega)

theorem reads_combineSurrogates (codePoint pos : ℕ) :
    Reads size (fun q => Forward size pos q.2) (combineSurrogates size codePoint pos) := by
  have hstay : Forward size pos pos := .refl size pos
  unfold combineSurrogates
  split_ifs with hpeek
  · refine .readChar (by omega) fun b => ?_
    split_ifs
    · refine .readChar (by omega) fun u => ?_
      split_ifs
      · refine (reads_areHexDigits 4 (pos + 2) (by omega)).bind fun hex _ => ?_
        split_ifs
        · refine (reads_readLowSurrogate 4 (pos + 2) 0 (by omega)).bind fun lowSurrogate _ => ?_
          split_ifs
          · exact .done ⟨by omega, fun _ => by omega⟩
          · exact .done hstay
        · exact .done hstay
      · exact .done hstay
    · exact .done hstay
  · exact .done hstay

theorem reads_trySkipUnicode (s : StringReader) : Reads size
    (fun q => ∀ s', q = some s' → Forward size s.pos s'.pos) (trySkipUnicode size s) := by
  refine (reads_readHex 4 s.pos 0).bind fun q hq => ?_
  cases q with
  | none => exact .done fun _ h => absurd h (by simp)
  | some read =>
    refine (reads_combineSurrogates read.1 read.2).bind fun combined hcombined => .done fun s' h => ?_
    obtain rfl := Option.some.inj h
    rw [StringReader.matchBytes_pos]
    exact (hq read.1 read.2 rfl).trans hcombined

/-- What is skipped has a character, and is inside of the row. -/
theorem reads_trySkipEscapePart (s : StringReader) : Reads size
    (fun q => ∀ s', q = some s' → s.pos < size ∧ Forward size (s.pos + 1) s'.pos)
    (trySkipEscapePart size s) := by
  unfold trySkipEscapePart
  split_ifs with hpos
  · exact .done fun _ h => absurd h (by simp)
  · refine .readChar (by omega) fun c => ?_
    split
    · refine .done fun s' h => ?_
      obtain rfl := Option.some.inj h
      rw [StringReader.matchChar_pos]
      exact ⟨by omega, .refl size _⟩
    · split_ifs
      · refine (reads_trySkipUnicode _).imp fun q hq s' h => ⟨by omega, ?_⟩
        exact hq s' h
      · exact .done fun _ h => absurd h (by simp)

variable (size)

/-- The loop of `try_parse_string`: whether the field name matches, and the end of the string. -/
def parseString (quoteChar : Byte) (s : StringReader) : Read (Option (Bool × ℕ)) :=
  if _ : size ≤ s.pos then pure none
  else do
    let c ← readChar s.pos
    if c = quoteChar then
      -- path 1: match closing quote char
      pure (some (s.matched && (s.toMatch = none || s.toMatch = some []), s.pos + 1))
    else if isControl c then
      -- path 2: unescaped control char
      parseString quoteChar ({ s with pos := s.pos + 1 }.matchChar c)
    else if c = backslash then
      -- path 3: escape path
      let escape ← (trySkipEscapePart size { s with pos := s.pos + 1 }).attach
      match _ : escape.1 with
      | none => pure none
      | some s' => parseString quoteChar s'
    else
      -- path 4: safe code point; control characters do not get here
      parseString quoteChar ({ s with pos := s.pos + 1 }.matchChar c)
termination_by size - s.pos
decreasing_by
  · rw [StringReader.matchChar_pos]
    show size - (s.pos + 1) < size - s.pos
    omega
  · rename_i hmatch
    have hforward := (reads_trySkipEscapePart _).of_returns escape.2 _ hmatch
    have hle := hforward.2.le
    dsimp only at hforward hle
    omega
  · rw [StringReader.matchChar_pos]
    show size - (s.pos + 1) < size - s.pos
    omega

/-- `try_parse_string` -/
def tryParseString (pos : ℕ) (toMatch : Option (List Byte)) : Read (Option (Bool × ℕ)) :=
  if size ≤ pos then pure none
  else do
    let quoteChar ← readChar pos
    parseString size quoteChar ⟨pos + 1, toMatch, toMatch.isSome⟩

variable {size}

theorem reads_parseString (quoteChar : Byte) (s : StringReader) : Reads size
    (fun q => ∀ matched pos, q = some (matched, pos) → s.pos < pos ∧ pos ≤ size)
    (parseString size quoteChar s) := by
  induction hn : size - s.pos using Nat.strong_induction_on generalizing s with
  | _ n ih =>
    -- the rest of the string, from a position that is further on
    have hrest : ∀ s' : StringReader, s.pos < size → Forward size (s.pos + 1) s'.pos → Reads size
        (fun q => ∀ matched pos, q = some (matched, pos) → s.pos < pos ∧ pos ≤ size)
        (parseString size quoteChar s') := by
      intro s' hpos hforward
      have hle := hforward.le
      refine (ih _ (by omega) s' rfl).imp fun q hq matched pos h => ?_
      exact ⟨Nat.lt_trans (by omega) (hq matched pos h).1, (hq matched pos h).2⟩
    rw [parseString]
    split_ifs with hpos
    · exact .done fun _ _ h => absurd h (by simp)
    · have hpos := Nat.not_le.1 hpos
      refine .readChar hpos fun c => ?_
      split_ifs
      · refine .done fun matched pos h => ?_
        obtain ⟨-, rfl⟩ := Prod.mk.inj (Option.some.inj h)
        exact ⟨Nat.lt_succ_self _, hpos⟩
      · refine hrest _ hpos ?_
        rw [StringReader.matchChar_pos]
        exact .refl size _
      · refine (reads_trySkipEscapePart _).attach.bind fun escape hescape => ?_
        split
        · exact .done fun _ _ h => absurd h (by simp)
        · next s' hs' =>
          obtain ⟨hbehind, hforward⟩ := hescape s' hs'
          exact hrest s' hpos ⟨Nat.le_trans (Nat.le_succ _) hforward.le, fun _ =>
            hforward.le_size hbehind⟩
      · refine hrest _ hpos ?_
        rw [StringReader.matchChar_pos]
        exact .refl size _

theorem reads_tryParseString (pos : ℕ) (toMatch : Option (List Byte)) : Reads size
    (fun q => ∀ matched pos', q = some (matched, pos') → pos < pos' ∧ pos' ≤ size)
    (tryParseString size pos toMatch) := by
  unfold tryParseString
  split_ifs with hpos
  · exact .done fun _ _ h => absurd h (by simp)
  · refine .readChar (Nat.not_le.1 hpos) fun quoteChar => ?_
    refine (reads_parseString quoteChar _).imp fun q hq matched pos' h => ?_
    obtain ⟨hlt, hle⟩ := hq matched pos' h
    exact ⟨Nat.lt_of_succ_lt hlt, hle⟩

end Strings

/-! ### Numbers -/

/-- A scan of a number: where it is, and what it has by reference. -/
structure NumberReader where
  pos : ℕ
  isFloat : Bool
  numberDigitsLength : ℕ

section Numbers

variable (size : ℕ)

/-- `skip_zero_or_more_digits` -/
def skipZeroOrMoreDigits (s : NumberReader) : Read NumberReader :=
  if _ : s.pos < size then do
    let c ← readChar s.pos
    if isDigit c then
      skipZeroOrMoreDigits
        { s with pos := s.pos + 1, numberDigitsLength := s.numberDigitsLength + 1 }
    else pure s
  else pure s
termination_by size - s.pos

/-- `try_skip_one_or_more_digits` -/
def trySkipOneOrMoreDigits (s : NumberReader) : Read (Bool × NumberReader) :=
  if s.pos < size then do
    let c ← readChar s.pos
    if isDigit c then do
      let s ← skipZeroOrMoreDigits size
        { s with pos := s.pos + 1, numberDigitsLength := s.numberDigitsLength + 1 }
      pure (true, s)
    else pure (false, s)
  else pure (false, s)

/-- `try_parse_exp`. The second comparison of `chars[curr_pos]` reads it again. -/
def tryParseExp (s : NumberReader) : Read (Bool × NumberReader) :=
  if s.pos < size then do
    let c ← readChar s.pos
    if c = chr '+' then trySkipOneOrMoreDigits size { s with pos := s.pos + 1 }
    else do
      let c ← readChar s.pos
      if c = chr '-' then trySkipOneOrMoreDigits size { s with pos := s.pos + 1 }
      else trySkipOneOrMoreDigits size s
  else trySkipOneOrMoreDigits size s

/-- The exponent in `parse_number_from_fraction`. -/
def tryParseExpPart (s : NumberReader) : Read (Bool × NumberReader) :=
  if s.pos < size then do
    let c ← readChar s.pos
    if c = chr 'e' then tryParseExp size { s with pos := s.pos + 1, isFloat := true }
    else do
      let c ← readChar s.pos
      if c = chr 'E' then tryParseExp size { s with pos := s.pos + 1, isFloat := true }
      else pure (true, s)
  else pure (true, s)

/-- `parse_number_from_fraction` -/
def parseNumberFromFraction (s : NumberReader) : Read (Bool × NumberReader) := do
  let point ← trySkip size s.pos (chr '.')
  if point.1 then do
    let fraction ← trySkipOneOrMoreDigits size { s with pos := point.2, isFloat := true }
    if fraction.1 then tryParseExpPart size fraction.2 else pure (false, fraction.2)
  else tryParseExpPart size { s with pos := point.2 }

/-- `try_unsigned_number` -/
def tryUnsignedNumber (s : NumberReader) : Read (Bool × NumberReader) :=
  if s.pos < size then do
    let c ← readChar s.pos
    if chr '1' ≤ c && c ≤ chr '9' then do
      let s ← skipZeroOrMoreDigits size
        { s with pos := s.pos + 1, numberDigitsLength := s.numberDigitsLength + 1 }
      parseNumberFromFraction size s
    else if c = chr '0' then
      let s : NumberReader :=
        { s with pos := s.pos + 1, numberDigitsLength := s.numberDigitsLength + 1 }
      -- check leading zeros
      if s.pos < size then do
        let nextCharAfterZero ← readChar s.pos
        if isDigit nextCharAfterZero then pure (false, s) else parseNumberFromFraction size s
      else parseNumberFromFraction size s
    else pure (false, s)
  else pure (false, s)

variable {size}

theorem reads_skipZeroOrMoreDigits (s : NumberReader) :
    Reads size (fun q => Forward size s.pos q.pos) (skipZeroOrMoreDigits size s) := by
  induction hn : size - s.pos generalizing s with
  | zero =>
    rw [skipZeroOrMoreDigits, dif_neg (by omega)]
    exact .done (.refl size s.pos)
  | succ n ih =>
    rw [skipZeroOrMoreDigits, dif_pos (by omega)]
    refine .readChar (by omega) fun c => ?_
    split_ifs
    · refine (ih _ ?_).imp fun _ h => h.next (by omega)
      show size - (s.pos + 1) = n
      omega
    · exact .done (.refl size s.pos)

theorem reads_trySkipOneOrMoreDigits (s : NumberReader) :
    Reads size (fun q => Forward size s.pos q.2.pos) (trySkipOneOrMoreDigits size s) := by
  unfold trySkipOneOrMoreDigits
  split_ifs with hpos
  · refine .readChar hpos fun c => ?_
    split_ifs
    · refine (reads_skipZeroOrMoreDigits _).bind fun s' h => .done ?_
      exact h.next hpos
    · exact .done (.refl size s.pos)
  · exact .done (.refl size s.pos)

theorem reads_tryParseExp (s : NumberReader) :
    Reads size (fun q => Forward size s.pos q.2.pos) (tryParseExp size s) := by
  unfold tryParseExp
  split_ifs with hpos
  · refine .readChar hpos fun c => ?_
    split_ifs
    · exact (reads_trySkipOneOrMoreDigits _).imp fun _ h => h.next hpos
    · refine .readChar hpos fun c => ?_
      split_ifs
      · exact (reads_trySkipOneOrMoreDigits _).imp fun _ h => h.next hpos
      · exact reads_trySkipOneOrMoreDigits s
  · exact reads_trySkipOneOrMoreDigits s

theorem reads_tryParseExpPart (s : NumberReader) :
    Reads size (fun q => Forward size s.pos q.2.pos) (tryParseExpPart size s) := by
  unfold tryParseExpPart
  split_ifs with hpos
  · refine .readChar hpos fun c => ?_
    split_ifs
    · exact (reads_tryParseExp _).imp fun _ h => h.next hpos
    · refine .readChar hpos fun c => ?_
      split_ifs
      · exact (reads_tryParseExp _).imp fun _ h => h.next hpos
      · exact .done (.refl size s.pos)
  · exact .done (.refl size s.pos)

theorem reads_parseNumberFromFraction (s : NumberReader) :
    Reads size (fun q => Forward size s.pos q.2.pos) (parseNumberFromFraction size s) := by
  refine (reads_trySkip size s.pos _).bind fun point hpoint => ?_
  split_ifs
  · refine (reads_trySkipOneOrMoreDigits _).bind fun fraction hfraction => ?_
    have hforward := hpoint.trans hfraction
    split_ifs
    · exact (reads_tryParseExpPart _).imp fun _ h => hforward.trans h
    · exact .done hforward
  · exact (reads_tryParseExpPart _).imp fun _ h => hpoint.trans h

/-- A number has a digit. -/
theorem reads_tryUnsignedNumber (s : NumberReader) : Reads size
    (fun q => Forward size s.pos q.2.pos ∧ (q.1 = true → s.pos < q.2.pos))
    (tryUnsignedNumber size s) := by
  have hstay : Forward size s.pos s.pos := .refl size s.pos
  have hnone : ∀ pos : ℕ, false = true → s.pos < pos := fun _ h => absurd h (by decide)
  -- what is behind the first digit
  have hbehind : ∀ pos, s.pos < size → Forward size (s.pos + 1) pos →
      Forward size s.pos pos ∧ (∀ found : Bool, found = true → s.pos < pos) :=
    fun pos hpos h => ⟨h.next hpos, fun _ _ => h.le⟩
  unfold tryUnsignedNumber
  split_ifs with hpos
  · refine .readChar hpos fun c => ?_
    split_ifs with hdigit hzero
    · refine (reads_skipZeroOrMoreDigits _).bind fun s' h => ?_
      refine (reads_parseNumberFromFraction s').imp fun q h' => ?_
      obtain ⟨hforward, hlt⟩ := hbehind q.2.pos hpos (h.trans h')
      exact ⟨hforward, hlt q.1⟩
    · have hfraction := (@reads_parseNumberFromFraction size
        { s with pos := s.pos + 1, numberDigitsLength := s.numberDigitsLength + 1 }).imp
          fun q h => And.intro (hbehind q.2.pos hpos h).1 ((hbehind q.2.pos hpos h).2 q.1)
      dsimp only at hfraction ⊢
      split_ifs with hnext
      · refine .readChar hnext fun c => ?_
        split_ifs
        · exact .done ⟨.next hpos (.refl size _), hnone _⟩
        · exact hfraction
      · exact hfraction
    · exact .done ⟨hstay, hnone _⟩
  · exact .done ⟨hstay, hnone _⟩

end Numbers

end RowParser

end SparkRapids.GetJson
