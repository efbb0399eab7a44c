import SparkRapidsJni.GetJson.Tokens

/-!
# Writing and skipping what the parser is at

The methods of `json_parser` that go over more than one token, or write one. What they write, or
only count if the destination is `nullptr`, is a list. The text that `double_normalization` writes
for a floating-point number is a parameter, as neither reading nor writing one is embedded.
-/

namespace SparkRapids.GetJson

/-- `-0` -/
def minusZero : List Byte := [chr '-', chr '0']

/-- An integer is written as it is, but for `-0`. -/
def writeInt (text : List Byte) : List Byte := if text = minusZero then [chr '0'] else text

namespace Token

variable (normalization : List Byte → List Byte)

/-- What `write_unescaped_text` and `write_escaped_text` write for a token. -/
def written (style : EscapeStyle) (t : Token) : List Byte :=
  match t.kind with
  | .valueString => writeString t.text style
  | .valueNumberInt => writeInt t.text
  | .valueNumberFloat => normalization t.text
  | .valueTrue => [chr 't', chr 'r', chr 'u', chr 'e']
  | .valueFalse => [chr 'f', chr 'a', chr 'l', chr 's', chr 'e']
  | .valueNull => [chr 'n', chr 'u', chr 'l', chr 'l']
  | .fieldName => writeString t.text style
  | .startArray => [chr '[']
  | .endArray => [chr ']']
  | .startObject => [chr '\x7b']
  | .endObject => [chr '\x7d']
  | .success | .error | .init => []

end Token

namespace JsonParser

/-- `parse_next_token_with_matching` -/
def parseNextTokenWithMatching (p : JsonParser) (name : List Byte) : JsonParser × Bool :=
  let next := p.parseNextToken (some name)
  (next.parser, next.matchedFieldName)

/-! ### Skipping -/

/-- The loop of `try_skip_children`, with `opened` objects and arrays to close. -/
def skipLoop (opened : Nat) (p : JsonParser) : Bool × JsonParser :=
  if _ : p.nextToken.currentToken.IsFinal then (false, p.nextToken)
  else if p.nextToken.currentToken = .startObject ∨ p.nextToken.currentToken = .startArray then
    skipLoop (opened + 1) p.nextToken
  else if p.nextToken.currentToken = .endObject ∨ p.nextToken.currentToken = .endArray then
    if opened - 1 = 0 then (true, p.nextToken) else skipLoop (opened - 1) p.nextToken
  else skipLoop opened p.nextToken
termination_by p.chars.length
decreasing_by all_goals exact nextToken_lt (by assumption)

/-- `try_skip_children` -/
def trySkipChildren (p : JsonParser) : Bool × JsonParser :=
  if p.currentToken = .error ∨ p.currentToken = .init ∨ p.currentToken = .success then (false, p)
  else if p.currentToken ≠ .startObject ∧ p.currentToken ≠ .startArray then (true, p)
  else p.skipLoop 1

/-! ### Writing -/

variable (normalization : List Byte → List Byte)

/-- `write_unescaped_text` -/
def writeUnescapedText (p : JsonParser) : List Byte := p.token.written normalization .unescaped

/-- `write_escaped_text` -/
def writeEscapedText (p : JsonParser) : List Byte := p.token.written normalization .escaped

/-- A call that writes: whether it succeeds, the parser behind it, and what it has written. If it
does not succeed it returns the length 0 for what it has written. -/
structure Written where
  success : Bool
  parser : JsonParser
  out : List Byte

/-- What the loop of `copy_current_structure` writes for the next token. -/
def NextToken.written (next : NextToken) : List Byte :=
  (if next.hasCommaBeforeToken then [chr ',' ] else []) ++
    ((if next.hasColonBeforeToken then [chr ':'] else []) ++
      next.parser.writeEscapedText normalization)

/-- The loop of `copy_current_structure`. -/
def copyLoop (backupStackSize : Nat) (p : JsonParser) : Written :=
  let next := p.parseNextToken none
  if _ : next.parser.currentToken.IsFinal then
    -- `SUCCESS` is not met before the structure is closed
    ⟨false, next.parser, []⟩
  else if backupStackSize - 1 = next.parser.stackSize then
    ⟨true, next.parser, next.written normalization⟩
  else
    let behind := copyLoop backupStackSize next.parser
    { behind with out := next.written normalization ++ behind.out }
termination_by p.chars.length
decreasing_by exact parseNextToken_lt none (by assumption)

/-- `copy_current_structure` -/
def copyCurrentStructure (p : JsonParser) : Written :=
  match p.currentToken with
  | .init | .error | .success | .fieldName | .endArray | .endObject => ⟨false, p, []⟩
  | .valueNumberInt | .valueNumberFloat | .valueString | .valueTrue | .valueFalse | .valueNull =>
    ⟨true, p, p.writeEscapedText normalization⟩
  | .startArray | .startObject =>
    let behind := p.copyLoop normalization p.stackSize
    { behind with out := p.writeEscapedText normalization ++ behind.out }

end JsonParser

end SparkRapids.GetJson
