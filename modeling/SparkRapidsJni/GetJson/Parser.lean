import SparkRapidsJni.GetJson.Strings

/-!
# `json_parser`

The parser goes through a text token by token. It keeps the contexts it is inside of, object or
array, as bits of one word, and decides from the context, the token before and the next character
what the next token may be.

The position in the text is the list of the characters from there on. A position behind the end
(`curr_pos` is one larger than the size) only comes about by a character that is read out of the
range, and is not told from the end: the parser compares positions with the size only. After an
error nothing reads the position any more, and it is left where it was.
-/

namespace SparkRapids.GetJson

/-- `MAX_JSON_NESTING_DEPTH` -/
def maxJsonNestingDepth : Nat := 64

/-- `max_num_len` -/
def maxNumLen : Nat := 1000

/-- `json_token` -/
inductive JsonToken
  | init
  | success
  | error
  | startObject
  | endObject
  | startArray
  | endArray
  | fieldName
  | valueString
  | valueNumberInt
  | valueNumberFloat
  | valueTrue
  | valueFalse
  | valueNull
  deriving DecidableEq, Repr

/-- `json_parser` -/
structure JsonParser where
  /-- The characters from `curr_pos` on. -/
  chars : List Byte
  /-- The byte in memory behind the characters: of the next row, or of whatever is there. -/
  beyond : Byte
  /-- Bit `i` says whether the context `i` is an object. -/
  contextStack : BitVec 64
  stackSize : Nat
  /-- The characters from `current_token_start_pos` on. -/
  tokenStart : List Byte
  currentToken : JsonToken
  maxDepthExceeded : Bool
  deriving DecidableEq, Repr

namespace JsonParser

/-- The constructor. The fields that it does not initialize are set before they are read. -/
def make (chars : List Byte) (beyond : Byte) : JsonParser where
  chars := chars
  beyond := beyond
  contextStack := 0
  stackSize := 0
  tokenStart := chars
  currentToken := .init
  maxDepthExceeded := false

/-! ### Contexts -/

/-- `get_bit_value` -/
def getBitValue (number : BitVec 64) (bitIndex : Nat) : Bool :=
  (number.sshiftRight bitIndex) &&& 1 ≠ 0

/-- `set_bit_value` -/
def setBitValue (number : BitVec 64) (bitIndex : Nat) (bitValue : Bool) : BitVec 64 :=
  let mask := (1 : BitVec 64) <<< bitIndex
  if bitValue then number ||| mask else number &&& ~~~mask

/-- `push_context` -/
def pushContext (p : JsonParser) (token : JsonToken) : JsonParser :=
  { p with
    contextStack := setBitValue p.contextStack p.stackSize (decide (token = .startObject))
    stackSize := p.stackSize + 1 }

/-- `try_push_context` -/
def tryPushContext (p : JsonParser) (token : JsonToken) : Option JsonParser :=
  if p.stackSize < maxJsonNestingDepth then some (p.pushContext token) else none

/-- `is_object_context` -/
def isObjectContext (p : JsonParser) : Bool := getBitValue p.contextStack (p.stackSize - 1)

/-- `set_current_error` -/
def setCurrentError (p : JsonParser) : JsonParser := { p with currentToken := .error }

/-- `skip_whitespaces` -/
def skipWhitespaces (p : JsonParser) : JsonParser :=
  { p with chars := p.chars.dropWhile isWhitespace }

/-! ### Strings and literals -/

/-- `parse_string_and_set_current` -/
def parseStringAndSetCurrent (p : JsonParser) : JsonParser :=
  match tryParseString p.chars none with
  | some (_, rest) => { p with chars := rest, currentToken := .valueString }
  | none => p.setCurrentError

/-- `try_skip` for one expected character after the other: the characters behind them -/
def trySkip : List Byte → List Byte → Option (List Byte)
  | [], chars => some chars
  | _ :: _, [] => none
  | e :: expected, c :: chars => if c = e then trySkip expected chars else none

/-- The rest of a literal whose first character has been skipped. -/
def parseLiteral (p : JsonParser) (expected : List Byte) (token : JsonToken) : JsonParser :=
  match trySkip expected p.chars with
  | some rest => { p with chars := rest, currentToken := token }
  | none => p.setCurrentError

/-- `parse_true_and_set_current` -/
def parseTrue (p : JsonParser) : JsonParser :=
  p.parseLiteral [chr 'r', chr 'u', chr 'e'] .valueTrue

/-- `parse_false_and_set_current` -/
def parseFalse (p : JsonParser) : JsonParser :=
  p.parseLiteral [chr 'a', chr 'l', chr 's', chr 'e'] .valueFalse

/-- `parse_null_and_set_current` -/
def parseNull (p : JsonParser) : JsonParser :=
  p.parseLiteral [chr 'u', chr 'l', chr 'l'] .valueNull

end JsonParser

/-! ### Numbers -/

/-- A scan of a number: what is behind the characters scanned so far, whether they make it a
floating-point number, and how many of them are digits. -/
structure NumberScan where
  chars : List Byte
  isFloat : Bool
  numberDigitsLength : Nat
  deriving DecidableEq, Repr

namespace NumberScan

/-- `skip_zero_or_more_digits` -/
def skipZeroOrMoreDigits (s : NumberScan) : NumberScan :=
  { s with
    chars := s.chars.dropWhile isDigit
    numberDigitsLength := s.numberDigitsLength + (s.chars.takeWhile isDigit).length }

/-- `try_skip_one_or_more_digits` -/
def trySkipOneOrMoreDigits (s : NumberScan) : Option NumberScan :=
  match s.chars with
  | [] => none
  | c :: chars =>
    if isDigit c then
      some (skipZeroOrMoreDigits
        { s with chars, numberDigitsLength := s.numberDigitsLength + 1 })
    else none

/-- `try_parse_exp` -/
def tryParseExp (s : NumberScan) : Option NumberScan :=
  match s.chars with
  | [] => s.trySkipOneOrMoreDigits
  | c :: chars =>
    if c = chr '+' ∨ c = chr '-' then trySkipOneOrMoreDigits { s with chars }
    else s.trySkipOneOrMoreDigits

/-- The fraction in `parse_number_from_fraction`. -/
def trySkipFraction (s : NumberScan) : Option NumberScan :=
  match s.chars with
  | [] => some s
  | c :: chars =>
    if c = chr '.' then trySkipOneOrMoreDigits { s with chars, isFloat := true } else some s

/-- The exponent in `parse_number_from_fraction`. -/
def trySkipExp (s : NumberScan) : Option NumberScan :=
  match s.chars with
  | [] => some s
  | c :: chars =>
    if c = chr 'e' ∨ c = chr 'E' then tryParseExp { s with chars, isFloat := true } else some s

/-- `parse_number_from_fraction` -/
def parseNumberFromFraction (s : NumberScan) : Option NumberScan :=
  s.trySkipFraction.bind trySkipExp

/-- `try_unsigned_number` -/
def tryUnsignedNumber (chars : List Byte) : Option NumberScan :=
  match chars with
  | [] => none
  | c :: chars =>
    if chr '1' ≤ c && c ≤ chr '9' then
      parseNumberFromFraction
        (skipZeroOrMoreDigits { chars, isFloat := false, numberDigitsLength := 1 })
    else if c = chr '0' then
      match chars with
      | [] => parseNumberFromFraction { chars, isFloat := false, numberDigitsLength := 1 }
      | next :: _ =>
        -- e.g.: 01 is invalid
        if isDigit next then none
        else parseNumberFromFraction { chars, isFloat := false, numberDigitsLength := 1 }
    else none

end NumberScan

/-- `check_max_num_len` -/
def checkMaxNumLen (numberDigitsLength : Nat) : Bool :=
  maxNumLen ≤ 0 || (0 < maxNumLen && numberDigitsLength ≤ maxNumLen)

namespace JsonParser

/-- `try_skip(curr_pos, '-')` -/
def skipMinus : List Byte → List Byte
  | [] => []
  | c :: chars => if c = chr '-' then chars else c :: chars

/-- `parse_number_and_set_current`. The length of the token is the one of its range. -/
def parseNumberAndSetCurrent (p : JsonParser) : JsonParser :=
  match NumberScan.tryUnsignedNumber (skipMinus p.chars) with
  | some s =>
    if checkMaxNumLen s.numberDigitsLength then
      { p with
        chars := s.chars
        currentToken := if s.isFloat then .valueNumberFloat else .valueNumberInt }
    else p.setCurrentError
  | none => p.setCurrentError

/-! ### Tokens -/

/-- The start of an object or array. -/
def parseStart (p : JsonParser) (token : JsonToken) : JsonParser :=
  match p.tryPushContext token with
  | none => { p with maxDepthExceeded := true }.setCurrentError
  | some p => { p with chars := p.chars.tail, currentToken := token }

/-- `parse_first_token_in_value_and_set_current`. The character is read without a check for the end
of the text behind a comma or a colon. -/
def parseFirstTokenInValue (p : JsonParser) : JsonParser :=
  let p := { p with tokenStart := p.chars }
  let c := p.chars.headD p.beyond
  if c = chr '\x7b' then p.parseStart .startObject
  else if c = chr '[' then p.parseStart .startArray
  else if c = dquote ∨ c = squote then p.parseStringAndSetCurrent
  else if c = chr 't' then { p with chars := p.chars.tail }.parseTrue
  else if c = chr 'f' then { p with chars := p.chars.tail }.parseFalse
  else if c = chr 'n' then { p with chars := p.chars.tail }.parseNull
  else p.parseNumberAndSetCurrent

/-- The parser after a call, and the arguments that the call has by reference. -/
structure NextToken where
  parser : JsonParser
  hasCommaBeforeToken : Bool
  hasColonBeforeToken : Bool
  /-- Only set for a field name. -/
  matchedFieldName : Bool

/-- A token without a separator before it. -/
def plainToken (p : JsonParser) : NextToken where
  parser := p
  hasCommaBeforeToken := false
  hasColonBeforeToken := false
  matchedFieldName := false

/-- `parse_field_name_and_set_current` -/
def parseFieldName (p : JsonParser) (toMatch : Option (List Byte)) : NextToken :=
  match tryParseString p.chars toMatch with
  | some (matched, rest) =>
    { plainToken { p with tokenStart := p.chars, chars := rest, currentToken := .fieldName } with
      matchedFieldName := matched }
  | none => plainToken { p with tokenStart := p.chars }.setCurrentError

/-- The end of an object or array. -/
def closeContext (p : JsonParser) (token : JsonToken) : JsonParser :=
  { p with
    tokenStart := p.chars
    chars := p.chars.tail
    stackSize := p.stackSize - 1
    currentToken := token }

/-- `parse_next_token_and_set_current`, where `c` is the next character. -/
def parseNextTokenAt (p : JsonParser) (c : Byte) (toMatch : Option (List Byte)) : NextToken :=
  if p.stackSize = 0 then
    -- the main root entry point, or the text behind the value is ignored
    if p.currentToken = .init then plainToken p.parseFirstTokenInValue
    else plainToken { p with currentToken := .success }
  else if p.isObjectContext then
    if p.currentToken = .startObject then
      if c = chr '\x7d' then plainToken (p.closeContext .endObject) else p.parseFieldName toMatch
    else if p.currentToken = .fieldName then
      if c = chr ':' then
        { plainToken { p with chars := p.chars.tail }.skipWhitespaces.parseFirstTokenInValue with
          hasColonBeforeToken := true }
      else plainToken p.setCurrentError
    else if c = chr '\x7d' then plainToken (p.closeContext .endObject)
    else if c = chr ',' then
      { { p with chars := p.chars.tail }.skipWhitespaces.parseFieldName toMatch with
        hasCommaBeforeToken := true }
    else plainToken p.setCurrentError
  else if p.currentToken = .startArray then
    if c = chr ']' then plainToken (p.closeContext .endArray)
    else plainToken p.parseFirstTokenInValue
  else if c = chr ',' then
    { plainToken { p with chars := p.chars.tail }.skipWhitespaces.parseFirstTokenInValue with
      hasCommaBeforeToken := true }
  else if c = chr ']' then plainToken (p.closeContext .endArray)
  else plainToken p.setCurrentError

/-- `parse_next_token_and_set_current` -/
def parseNextToken (p : JsonParser) (toMatch : Option (List Byte)) : NextToken :=
  let p := p.skipWhitespaces
  match p.chars with
  | c :: _ => p.parseNextTokenAt c toMatch
  | [] =>
    if p.stackSize = 0 ∧ p.currentToken ≠ .init then plainToken { p with currentToken := .success }
    else plainToken p.setCurrentError

/-- `next_token` -/
def nextToken (p : JsonParser) : JsonParser := (p.parseNextToken none).parser

/-- `current_range` -/
def currentRange (p : JsonParser) : List Byte :=
  p.tokenStart.take (p.tokenStart.length - p.chars.length)

end JsonParser

end SparkRapids.GetJson
