import SparkRapidsJni.GetJson.RowParser

/-!
# Where the parser reads

The tokens of the parser that reads a row by positions, and the calls that go over more than one token.
A run is any sequence of calls, also behind an error.

`parse_first_token_in_value_and_set_current` reads a character without a check for the end of the row.
The check was made before the separator in front: where the row ends behind a colon or a comma, and
white space, the character read is behind the row. In a run where that does not happen, all reads are
inside of the row, and what is behind it does not matter (`staysInRow_iff`).
-/

namespace SparkRapids.GetJson

open JsonParser (getBitValue setBitValue)
open Reading

namespace RowParser

/-! ### Tokens -/

/-- `push_context` -/
def pushContext (p : RowParser) (token : JsonToken) : RowParser :=
  { p with
    contextStack := setBitValue p.contextStack p.stackSize (decide (token = .startObject))
    stackSize := p.stackSize + 1 }

/-- `is_object_context` -/
def isObjectContext (p : RowParser) : Bool := getBitValue p.contextStack (p.stackSize - 1)

/-- `set_current_error` -/
def setCurrentError (p : RowParser) : RowParser := { p with currentToken := .error }

/-- The start of an object or array. -/
def parseStart (p : RowParser) (token : JsonToken) : RowParser :=
  if p.stackSize < maxJsonNestingDepth then
    { p.pushContext token with currPos := p.currPos + 1, currentToken := token }
  else { p with maxDepthExceeded := true }.setCurrentError

/-- The end of an object or array. -/
def closeContext (p : RowParser) (token : JsonToken) : RowParser :=
  { p with
    currentTokenStartPos := p.currPos
    currPos := p.currPos + 1
    stackSize := p.stackSize - 1
    currentToken := token }

/-- The parser after a call, and the arguments that the call has by reference. -/
structure NextToken where
  parser : RowParser
  hasCommaBeforeToken : Bool
  hasColonBeforeToken : Bool
  /-- Only set for a field name. -/
  matchedFieldName : Bool

/-- A token without a separator before it. -/
def plainToken (p : RowParser) : NextToken where
  parser := p
  hasCommaBeforeToken := false
  hasColonBeforeToken := false
  matchedFieldName := false

section Tokens

variable (size : ℕ)

/-- `parse_string_and_set_current` -/
def parseStringAndSetCurrent (p : RowParser) : Read RowParser := do
  match ← tryParseString size p.currPos none with
  | some (_, pos) => pure { p with currPos := pos, currentToken := .valueString }
  | none => pure p.setCurrentError

/-- `try_skip` for one expected character after the other -/
def trySkipAll : List Byte → ℕ → Read (Bool × ℕ)
  | [], pos => pure (true, pos)
  | e :: expected, pos => do
    let skipped ← trySkip size pos e
    if skipped.1 then trySkipAll expected skipped.2 else pure skipped

/-- The rest of a literal whose first character has been skipped. -/
def parseLiteral (p : RowParser) (expected : List Byte) (token : JsonToken) : Read RowParser := do
  let skipped ← trySkipAll size expected p.currPos
  let p := { p with currPos := skipped.2 }
  if skipped.1 then pure { p with currentToken := token } else pure p.setCurrentError

/-- `parse_true_and_set_current` -/
def parseTrue (p : RowParser) : Read RowParser :=
  parseLiteral size p [chr 'r', chr 'u', chr 'e'] .valueTrue

/-- `parse_false_and_set_current` -/
def parseFalse (p : RowParser) : Read RowParser :=
  parseLiteral size p [chr 'a', chr 'l', chr 's', chr 'e'] .valueFalse

/-- `parse_null_and_set_current` -/
def parseNull (p : RowParser) : Read RowParser :=
  parseLiteral size p [chr 'u', chr 'l', chr 'l'] .valueNull

/-- `parse_number_and_set_current` -/
def parseNumberAndSetCurrent (p : RowParser) : Read RowParser := do
  let sign ← trySkip size p.currPos (chr '-')
  let number ← tryUnsignedNumber size ⟨sign.2, false, 0⟩
  let p := { p with currPos := number.2.pos }
  if number.1 then
    if checkMaxNumLen number.2.numberDigitsLength then
      pure { p with
        currentToken := if number.2.isFloat then .valueNumberFloat else .valueNumberInt
        numberTokenLen := p.currPos - p.currentTokenStartPos }
    else pure p.setCurrentError
  else pure p.setCurrentError

/-- `parse_first_token_in_value_and_set_current`. The character is read without a check for the end
of the row. -/
def parseFirstTokenInValue (p : RowParser) : Read RowParser := do
  let p := { p with currentTokenStartPos := p.currPos }
  -- already checked eof
  let c ← readChar p.currPos
  if c = chr '\x7b' then pure (p.parseStart .startObject)
  else if c = chr '[' then pure (p.parseStart .startArray)
  else if c = dquote ∨ c = squote then parseStringAndSetCurrent size p
  else if c = chr 't' then parseTrue size { p with currPos := p.currPos + 1 }
  else if c = chr 'f' then parseFalse size { p with currPos := p.currPos + 1 }
  else if c = chr 'n' then parseNull size { p with currPos := p.currPos + 1 }
  else parseNumberAndSetCurrent size p

/-- `parse_field_name_and_set_current` -/
def parseFieldName (p : RowParser) (toMatch : Option (List Byte)) : Read NextToken := do
  let p := { p with currentTokenStartPos := p.currPos }
  match ← tryParseString size p.currPos toMatch with
  | some (matched, pos) =>
    pure { plainToken { p with currPos := pos, currentToken := .fieldName } with
      matchedFieldName := matched }
  | none => pure (plainToken p.setCurrentError)

/-- `parse_next_token_and_set_current`, where `c` is the next character. -/
def parseNextTokenAt (p : RowParser) (c : Byte) (toMatch : Option (List Byte)) : Read NextToken :=
  if p.stackSize = 0 then
    if p.currentToken = .init then do
      -- main root entry point
      let p ← parseFirstTokenInValue size p
      pure (plainToken p)
    else
      -- successfully parsed. Note: ignore the tailing sub-string
      pure (plainToken { p with currentToken := .success })
  else if p.isObjectContext then
    if p.currentToken = .startObject then
      if c = chr '\x7d' then pure (plainToken (p.closeContext .endObject))
      else parseFieldName size p toMatch
    else if p.currentToken = .fieldName then
      if c = chr ':' then do
        -- skip ':' and parse value in key:value pair
        let pos ← skipWhitespaces size (p.currPos + 1)
        let p ← parseFirstTokenInValue size { p with currPos := pos }
        pure { plainToken p with hasColonBeforeToken := true }
      else pure (plainToken p.setCurrentError)
    else if c = chr '\x7d' then pure (plainToken (p.closeContext .endObject))
    else if c = chr ',' then do
      -- parse next key:value pair
      let pos ← skipWhitespaces size (p.currPos + 1)
      let next ← parseFieldName size { p with currPos := pos } toMatch
      pure { next with hasCommaBeforeToken := true }
    else pure (plainToken p.setCurrentError)
  else if p.currentToken = .startArray then
    if c = chr ']' then pure (plainToken (p.closeContext .endArray))
    else do
      -- non-empty array, parse the first value in the array
      let p ← parseFirstTokenInValue size p
      pure (plainToken p)
  else if c = chr ',' then do
    -- skip ',' and parse the next value
    let pos ← skipWhitespaces size (p.currPos + 1)
    let p ← parseFirstTokenInValue size { p with currPos := pos }
    pure { plainToken p with hasCommaBeforeToken := true }
  else if c = chr ']' then pure (plainToken (p.closeContext .endArray))
  else pure (plainToken p.setCurrentError)

/-- The body of `parse_next_token_and_set_current`. -/
def nextTokenBody (p : RowParser) (toMatch : Option (List Byte)) : Read NextToken := do
  let pos ← skipWhitespaces size p.currPos
  let p := { p with currPos := pos }
  if p.currPos < size then do
    let c ← readChar p.currPos
    parseNextTokenAt size p c toMatch
  else if p.stackSize = 0 ∧ p.currentToken ≠ .init then
    -- reach eof; stack is empty; previous token is not INIT
    pure (plainToken { p with currentToken := .success })
  else pure (plainToken p.setCurrentError)

/-- `parse_next_token_and_set_current` -/
def parseNextToken (p : RowParser) (toMatch : Option (List Byte)) : Read NextToken :=
  .step p (nextTokenBody size p toMatch)

/-- `next_token` -/
def nextToken (p : RowParser) : Read RowParser := do
  let next ← parseNextToken size p none
  pure next.parser

/-- `parse_next_token_with_matching` -/
def parseNextTokenWithMatching (p : RowParser) (name : List Byte) : Read (RowParser × Bool) := do
  let next ← parseNextToken size p (some name)
  pure (next.parser, next.matchedFieldName)

end Tokens

/-! ### A token is read -/

/-- The parser is inside of the row, and so are the characters of its token. -/
structure InRow (size : ℕ) (p : RowParser) : Prop where
  currPos_le : p.currPos ≤ size
  start_le : p.currentTokenStartPos ≤ p.currPos
  number_le : p.currentToken = .valueNumberInt ∨ p.currentToken = .valueNumberFloat →
    p.currentTokenStartPos + p.numberTokenLen ≤ size

/-- A value was read from a position on. A value that is no error has a character, and all of it is in
the row if the position is. -/
structure ValueRead (size pos : ℕ) (p : RowParser) : Prop where
  le : pos ≤ p.currPos
  lt : p.currentToken ≠ .error → pos < p.currPos
  inRow : pos < size → p.InRow size

section Values

variable {size : ℕ} {p : RowParser} {access : ℕ → Prop}

theorem valueRead_setCurrentError {pos : ℕ} (hstart : p.currentTokenStartPos = pos)
    (hle : pos ≤ p.currPos) (hsize : pos < size → p.currPos ≤ size) :
    ValueRead size pos p.setCurrentError where
  le := hle
  lt := fun hne => absurd rfl hne
  inRow := by
    intro hpos
    refine ⟨hsize hpos, ?_, fun hnumber => ?_⟩
    · show p.currentTokenStartPos ≤ p.currPos
      omega
    · exact absurd hnumber (by simp [setCurrentError])

theorem valueRead_parseStart {pos : ℕ} (hstart : p.currentTokenStartPos = pos) (hpos : p.currPos = pos)
    {token : JsonToken} (htoken : token = .startObject ∨ token = .startArray) :
    ValueRead size pos (p.parseStart token) := by
  unfold parseStart
  split_ifs
  · refine ⟨?_, fun _ => ?_, fun hlt => ⟨?_, ?_, fun hnumber => ?_⟩⟩
    · show pos ≤ p.currPos + 1
      omega
    · show pos < p.currPos + 1
      omega
    · show p.currPos + 1 ≤ size
      omega
    · show p.currentTokenStartPos ≤ p.currPos + 1
      omega
    · have hnumber : token = .valueNumberInt ∨ token = .valueNumberFloat := hnumber
      rcases htoken with rfl | rfl
      · exact absurd hnumber (by decide)
      · exact absurd hnumber (by decide)
  · refine valueRead_setCurrentError hstart (Nat.le_of_eq hpos.symm) fun hlt => ?_
    show p.currPos ≤ size
    omega

theorem reads_trySkipAll (expected : List Byte) (pos : ℕ) :
    Reads size (fun q => Forward size pos q.2) (trySkipAll size expected pos) := by
  induction expected generalizing pos with
  | nil => exact .done (.refl size pos)
  | cons e expected ih =>
    refine (reads_trySkip size pos e).bind fun skipped hskipped => ?_
    split_ifs
    · exact (ih skipped.2).imp fun _ h => hskipped.trans h
    · exact .done hskipped

/-- A literal, behind its first character. -/
theorem reads_parseLiteral {pos : ℕ} (hstart : p.currentTokenStartPos = pos)
    (hpos : p.currPos = pos + 1) (expected : List Byte) {token : JsonToken}
    (htoken : token ≠ .valueNumberInt ∧ token ≠ .valueNumberFloat) :
    Reads size (ValueRead size pos) (parseLiteral size p expected token) := by
  refine (reads_trySkipAll expected p.currPos).bind fun skipped hskipped => ?_
  have hle := hskipped.le
  have hsize := hskipped.le_size
  dsimp only
  split_ifs
  · refine .done ⟨?_, fun _ => ?_, fun hlt => ⟨hsize (by omega), ?_, fun hnumber => ?_⟩⟩
    · show pos ≤ skipped.2
      omega
    · show pos < skipped.2
      omega
    · show p.currentTokenStartPos ≤ skipped.2
      omega
    · exact absurd hnumber (not_or.2 htoken)
  · refine .done (valueRead_setCurrentError hstart ?_ fun hlt => hsize (by omega))
    show pos ≤ skipped.2
    omega

theorem reads_parseStringAndSetCurrent {pos : ℕ} (hstart : p.currentTokenStartPos = pos)
    (hpos : p.currPos = pos) :
    Reads size (ValueRead size pos) (parseStringAndSetCurrent size p) := by
  refine (reads_tryParseString p.currPos none).bind fun q hq => ?_
  cases q with
  | none =>
    refine .done (valueRead_setCurrentError hstart (Nat.le_of_eq hpos.symm) fun hlt => ?_)
    omega
  | some parsed =>
    obtain ⟨hlt, hle⟩ := hq parsed.1 parsed.2 rfl
    refine .done ⟨?_, fun _ => ?_, fun _ => ⟨hle, ?_, fun hnumber => ?_⟩⟩
    · show pos ≤ parsed.2
      omega
    · show pos < parsed.2
      omega
    · show p.currentTokenStartPos ≤ parsed.2
      omega
    · exact absurd hnumber (by simp)

theorem reads_parseNumberAndSetCurrent {pos : ℕ} (hstart : p.currentTokenStartPos = pos)
    (hpos : p.currPos = pos) :
    Reads size (ValueRead size pos) (parseNumberAndSetCurrent size p) := by
  refine (reads_trySkip size p.currPos _).bind fun sign hsign => ?_
  refine (reads_tryUnsignedNumber _).bind fun number hnumber => ?_
  obtain ⟨hforward, hlt⟩ := hnumber
  have hle := (hsign.trans hforward).le
  have hsize := (hsign.trans hforward).le_size
  have herror : ValueRead size pos { p with currPos := number.2.pos }.setCurrentError := by
    refine valueRead_setCurrentError hstart ?_ fun hlt => hsize (by omega)
    show pos ≤ number.2.pos
    omega
  dsimp only
  by_cases hfound : number.1
  · rw [if_pos hfound]
    have hdigit := hlt hfound
    have hsign := hsign.le
    dsimp only at hdigit
    by_cases hlen : checkMaxNumLen number.2.numberDigitsLength
    · rw [if_pos hlen]
      refine .done ⟨?_, fun _ => ?_, fun hlt => ⟨hsize (by omega), ?_, fun _ => ?_⟩⟩
      · show pos ≤ number.2.pos
        omega
      · show pos < number.2.pos
        omega
      · show p.currentTokenStartPos ≤ number.2.pos
        omega
      · have hsize := hsize (by omega)
        show p.currentTokenStartPos + (number.2.pos - p.currentTokenStartPos) ≤ size
        omega
    · rw [if_neg hlen]
      exact .done herror
  · rw [if_neg hfound]
    exact .done herror

/-- The first character is read wherever it is, the others inside of the row. -/
theorem ok_parseFirstTokenInValue (hsize : ∀ pos < size, access pos) (hpos : access p.currPos) :
    (parseFirstTokenInValue size p).Ok access (ValueRead size p.currPos) := by
  refine .read hpos fun c => ?_
  have hmono : ∀ r : Read RowParser, Reads size (ValueRead size p.currPos) r →
      r.Ok access (ValueRead size p.currPos) := fun r h => h.mono hsize fun _ h => h
  show Reading.Ok access _ (if _ then _ else _)
  split_ifs
  · refine .done (valueRead_parseStart ?_ ?_ (.inl ?_)) <;> rfl
  · refine .done (valueRead_parseStart ?_ ?_ (.inr ?_)) <;> rfl
  · exact hmono _ (reads_parseStringAndSetCurrent (by rfl) (by rfl))
  · exact hmono _ (reads_parseLiteral (by rfl) (by rfl) _ (by decide))
  · exact hmono _ (reads_parseLiteral (by rfl) (by rfl) _ (by decide))
  · exact hmono _ (reads_parseLiteral (by rfl) (by rfl) _ (by decide))
  · exact hmono _ (reads_parseNumberAndSetCurrent (by rfl) (by rfl))

/-- A field name is no value, and there may be none. -/
theorem reads_parseFieldName (toMatch : Option (List Byte)) : Reads size
    (fun next => ValueRead size p.currPos next.parser ∧
      (p.currPos ≤ size → next.parser.InRow size))
    (parseFieldName size p toMatch) := by
  refine (reads_tryParseString p.currPos toMatch).bind fun q hq => ?_
  cases q with
  | none =>
    refine .done ⟨valueRead_setCurrentError rfl (Nat.le_refl _) fun hlt => Nat.le_of_lt hlt, ?_⟩
    refine fun hle => ⟨hle, Nat.le_refl _, fun hnumber => ?_⟩
    exact absurd hnumber (by simp [plainToken, setCurrentError])
  | some parsed =>
    obtain ⟨hlt, hle⟩ := hq parsed.1 parsed.2 rfl
    have hin : InRow size { p with
        currPos := parsed.2, currentTokenStartPos := p.currPos, currentToken := .fieldName } := by
      refine ⟨hle, Nat.le_of_lt hlt, fun hnumber => ?_⟩
      exact absurd hnumber (by simp)
    exact .done ⟨⟨Nat.le_of_lt hlt, fun _ => hlt, fun _ => hin⟩, fun _ => hin⟩

end Values

/-! ### A value behind a separator -/

/-- The separator `c` is taken, and a value has to follow. -/
def TakesSeparator (p : RowParser) (c : Byte) : Prop :=
  p.stackSize ≠ 0 ∧
    (p.isObjectContext = true ∧ p.currentToken = .fieldName ∧ c = chr ':' ∨
      p.isObjectContext = false ∧ p.currentToken ≠ .startArray ∧ c = chr ',')

section Separator

variable {size : ℕ} {p : RowParser} {c : Byte} {access : ℕ → Prop} {toMatch : Option (List Byte)}

/-- What the tokens have in common: a token that does not end the run has characters, and the parser
stays in the row unless a separator was taken. -/
def TokenRead (size : ℕ) (p : RowParser) (c : Byte) (next : NextToken) : Prop :=
  (¬next.parser.currentToken.IsFinal → p.currPos < next.parser.currPos) ∧
    (p.InRow size → ¬p.TakesSeparator c → next.parser.InRow size)

theorem ValueRead.tokenRead {pos : ℕ} {next : NextToken} (h : ValueRead size pos next.parser)
    (hpos : p.currPos ≤ pos) (hsize : ¬p.TakesSeparator c → pos < size) :
    TokenRead size p c next := by
  refine ⟨fun hfinal => ?_, fun _ hseparator => h.inRow (hsize hseparator)⟩
  exact Nat.lt_of_le_of_lt hpos (h.lt fun herror => hfinal (.inr herror))

theorem tokenRead_error {next : NextToken} (h : next.parser = p.setCurrentError) :
    TokenRead size p c next := by
  rw [TokenRead, h]
  refine ⟨fun hfinal => absurd (Or.inr rfl) hfinal, fun hin _ => ⟨hin.currPos_le, hin.start_le, ?_⟩⟩
  exact fun hnumber => absurd hnumber (by simp [setCurrentError])

theorem tokenRead_closeContext {token : JsonToken} {next : NextToken} (hpos : p.currPos < size)
    (h : next.parser = p.closeContext token) (htoken : token = .endObject ∨ token = .endArray) :
    TokenRead size p c next := by
  rw [TokenRead, h]
  refine ⟨fun _ => Nat.lt_succ_self _, fun _ _ => ⟨hpos, Nat.le_succ _, fun hnumber => ?_⟩⟩
  have hnumber : token = .valueNumberInt ∨ token = .valueNumberFloat := hnumber
  rcases htoken with rfl | rfl
  · exact absurd hnumber (by decide)
  · exact absurd hnumber (by decide)

/-- All reads are inside of the row, but for the one behind a separator. -/
theorem ok_parseNextTokenAt (hsize : ∀ pos < size, access pos) (hpos : p.currPos < size)
    (hvalue : p.TakesSeparator c → ∀ pos, access pos) :
    (parseNextTokenAt size p c toMatch).Ok access (TokenRead size p c) := by
  have hfirst : (parseFirstTokenInValue size p >>= fun q => pure (plainToken q)).Ok access
      (TokenRead size p c) := by
    refine (ok_parseFirstTokenInValue hsize (hsize _ hpos)).bind fun q hq => .done ?_
    have hq : ValueRead size p.currPos (plainToken q).parser := hq
    exact hq.tokenRead (Nat.le_refl _) fun _ => hpos
  have hskip := (reads_skipWhitespaces size (p.currPos + 1)).mono hsize fun _ h => h
  -- the value behind a separator
  have hbehind : ∀ f : RowParser → NextToken, (∀ q, (f q).parser = q) → p.TakesSeparator c →
      (skipWhitespaces size (p.currPos + 1) >>= fun pos =>
        parseFirstTokenInValue size { p with currPos := pos } >>= fun q =>
          pure (f q)).Ok access (TokenRead size p c) := by
    intro f hf htakes
    refine hskip.bind fun pos hforward => ?_
    refine (ok_parseFirstTokenInValue hsize (hvalue htakes _)).bind fun q hq => .done ?_
    rw [← hf q] at hq
    exact hq.tokenRead (Nat.le_of_succ_le hforward.le) fun hnot => absurd htakes hnot
  unfold parseNextTokenAt
  split_ifs with hstack hinit hobject hstart hclose hname hcolon hclose hcomma harray hclose hcomma hclose
  · exact hfirst
  · refine .done ⟨fun hfinal => absurd (Or.inl rfl) hfinal, fun hin _ => ⟨hin.currPos_le, hin.start_le, ?_⟩⟩
    exact fun hnumber => absurd hnumber (by simp [plainToken])
  · exact .done (tokenRead_closeContext hpos rfl (.inl rfl))
  · exact (reads_parseFieldName toMatch).mono hsize fun next hnext =>
      hnext.1.tokenRead (Nat.le_refl _) fun _ => hpos
  · exact hbehind (fun q => { plainToken q with hasColonBeforeToken := true }) (fun _ => rfl)
      ⟨hstack, .inl ⟨hobject, hname, hcolon⟩⟩
  · exact .done (tokenRead_error rfl)
  · exact .done (tokenRead_closeContext hpos rfl (.inl rfl))
  · -- a field name behind a comma
    refine hskip.bind fun pos hforward => ?_
    refine ((reads_parseFieldName toMatch).mono hsize fun _ h => h).bind fun next hnext => .done ?_
    refine ⟨fun hfinal => ?_, fun _ _ => hnext.2 (hforward.le_size hpos)⟩
    exact Nat.lt_trans hforward.le (hnext.1.lt fun herror => hfinal (.inr herror))
  · exact .done (tokenRead_error rfl)
  · exact .done (tokenRead_closeContext hpos rfl (.inr rfl))
  · exact hfirst
  · exact hbehind (fun q => { plainToken q with hasCommaBeforeToken := true }) (fun _ => rfl)
      ⟨hstack, .inr ⟨by simpa using hobject, harray, hcomma⟩⟩
  · exact .done (tokenRead_closeContext hpos rfl (.inr rfl))
  · exact .done (tokenRead_error rfl)

/-- A token that does not end the run takes characters of the row. -/
theorem progress_nextTokenBody (size : ℕ) (p : RowParser) (toMatch : Option (List Byte)) :
    (nextTokenBody size p toMatch).Ok (fun _ => True) fun next =>
      ¬next.parser.currentToken.IsFinal → p.currPos < size ∧ p.currPos < next.parser.currPos := by
  refine ((reads_skipWhitespaces size p.currPos).mono (fun _ _ => trivial) fun _ h => h).bind
    fun pos hforward => ?_
  have hle := hforward.le
  dsimp only
  split_ifs with hpos hend
  · refine .read trivial fun c => ?_
    refine (ok_parseNextTokenAt (fun _ _ => trivial) hpos fun _ _ => trivial).imp
      fun next hnext hfinal => ?_
    have hlt := hnext.1 hfinal
    dsimp only at hlt
    exact ⟨Nat.lt_of_le_of_lt hle hpos, Nat.lt_of_le_of_lt hle hlt⟩
  · exact .done fun hfinal => absurd (Or.inl rfl) hfinal
  · exact .done fun hfinal => absurd (Or.inr rfl) hfinal

theorem progress_parseNextToken {next : NextToken} (h : (parseNextToken size p toMatch).Returns next)
    (hfinal : ¬next.parser.currentToken.IsFinal) :
    p.currPos < size ∧ p.currPos < next.parser.currPos :=
  (progress_nextTokenBody size p toMatch).of_returns h hfinal

theorem progress_nextToken {q : RowParser} (h : (nextToken size p).Returns q)
    (hfinal : ¬q.currentToken.IsFinal) : p.currPos < size ∧ p.currPos < q.currPos := by
  have hbody : (nextTokenBody size p none >>= fun next => pure next.parser).Ok (fun _ => True)
      fun q => ¬q.currentToken.IsFinal → p.currPos < size ∧ p.currPos < q.currPos :=
    (progress_nextTokenBody size p none).bind fun _ hnext => .done hnext
  exact hbody.of_returns h hfinal

end Separator

/-! ### Calls that go over more than one token -/

section Calls

variable (size : ℕ)

/-- The loop of `try_skip_children`, with `opened` objects and arrays to close. -/
def skipLoop (opened : ℕ) (p : RowParser) : Read (Bool × RowParser) := do
  let next ← (nextToken size p).attach
  if _ : next.1.currentToken.IsFinal then pure (false, next.1)
  else if next.1.currentToken = .startObject ∨ next.1.currentToken = .startArray then
    skipLoop (opened + 1) next.1
  else if next.1.currentToken = .endObject ∨ next.1.currentToken = .endArray then
    if opened - 1 = 0 then pure (true, next.1) else skipLoop (opened - 1) next.1
  else skipLoop opened next.1
termination_by size - p.currPos
decreasing_by
  all_goals
    have hlt := progress_nextToken next.2 (by assumption)
    omega

/-- `try_skip_children` -/
def trySkipChildren (p : RowParser) : Read (Bool × RowParser) :=
  if p.currentToken = .error ∨ p.currentToken = .init ∨ p.currentToken = .success then pure (false, p)
  else if p.currentToken ≠ .startObject ∧ p.currentToken ≠ .startArray then pure (true, p)
  else skipLoop size 1 p

/-- The characters of a slice of the row. -/
def readRange : ℕ → ℕ → Read (List Byte)
  | _, 0 => pure []
  | pos, n + 1 => do
    let c ← readChar pos
    let text ← readRange (pos + 1) n
    pure (c :: text)

/-- The length of the slice that is read to write a token: the one of `current_range`, or the length of
the number. -/
def textLen (p : RowParser) : ℕ :=
  match p.currentToken with
  | .valueString | .fieldName => p.currPos - p.currentTokenStartPos
  | .valueNumberInt | .valueNumberFloat => p.numberTokenLen
  | _ => 0

variable (normalization : List Byte → List Byte)

/-- `write_escaped_text`. All of the slice is read before it is written. -/
def writeEscapedText (p : RowParser) : Read (List Byte) := do
  let text ← readRange p.currentTokenStartPos p.textLen
  pure (Token.written normalization .escaped ⟨p.currentToken, text⟩)

/-- A call that writes: whether it succeeds, the parser behind it, and what it has written. -/
structure Written where
  success : Bool
  parser : RowParser
  out : List Byte

/-- What the loop of `copy_current_structure` writes before the next token. -/
def NextToken.separators (next : NextToken) : List Byte :=
  (if next.hasCommaBeforeToken then [chr ','] else []) ++
    (if next.hasColonBeforeToken then [chr ':'] else [])

/-- The loop of `copy_current_structure`. -/
def copyLoop (backupStackSize : ℕ) (p : RowParser) : Read Written := do
  let next ← (parseNextToken size p none).attach
  if _ : next.1.parser.currentToken.IsFinal then
    -- `SUCCESS` is not met before the structure is closed
    pure ⟨false, next.1.parser, []⟩
  else
    let text ← writeEscapedText normalization next.1.parser
    let out := next.1.separators ++ text
    if backupStackSize - 1 = next.1.parser.stackSize then pure ⟨true, next.1.parser, out⟩
    else
      let behind ← copyLoop backupStackSize next.1.parser
      pure { behind with out := out ++ behind.out }
termination_by size - p.currPos
decreasing_by
  have hlt := progress_parseNextToken next.2 (by assumption)
  omega

/-- `copy_current_structure` -/
def copyCurrentStructure (p : RowParser) : Read Written :=
  match p.currentToken with
  | .init | .error | .success | .fieldName | .endArray | .endObject => pure ⟨false, p, []⟩
  | .valueNumberInt | .valueNumberFloat | .valueString | .valueTrue | .valueFalse | .valueNull => do
    let text ← writeEscapedText normalization p
    pure ⟨true, p, text⟩
  | .startArray | .startObject => do
    let text ← writeEscapedText normalization p
    let behind ← copyLoop size normalization p.stackSize p
    pure { behind with out := text ++ behind.out }

end Calls

end RowParser

/-! ### Runs -/

open RowParser

/-- A call of the parser. -/
inductive ParserCall
  | nextToken
  | parseNextTokenWithMatching (name : List Byte)
  | trySkipChildren
  | copyCurrentStructure

/-- The parser after a call. -/
def ParserCall.exec (size : ℕ) (normalization : List Byte → List Byte) (p : RowParser) :
    ParserCall → Read RowParser
  | nextToken => RowParser.nextToken size p
  | parseNextTokenWithMatching name => do
    let matched ← RowParser.parseNextTokenWithMatching size p name
    pure matched.1
  | trySkipChildren => do
    let skipped ← RowParser.trySkipChildren size p
    pure skipped.2
  | copyCurrentStructure => do
    let written ← RowParser.copyCurrentStructure size normalization p
    pure written.parser

/-- The parser after each of some calls. -/
def runCalls (size : ℕ) (normalization : List Byte → List Byte) :
    List ParserCall → RowParser → Read (List RowParser)
  | [], _ => pure []
  | call :: calls, p => do
    let q ← call.exec size normalization p
    let later ← runCalls size normalization calls q
    pure (q :: later)

/-- The memory at a row: its bytes, and whatever is behind them. -/
def memoryAt (row : List Byte) (behind : ℕ → Byte) (pos : ℕ) : Byte :=
  row[pos]?.getD (behind (pos - row.length))

/-- A run of the parser over a row. -/
structure ParserRun where
  row : List Byte
  behind : ℕ → Byte
  normalization : List Byte → List Byte
  calls : List ParserCall

namespace ParserRun

variable (run : ParserRun)

def program : Read (List RowParser) := runCalls run.row.length run.normalization run.calls .make

def memory : ℕ → Byte := memoryAt run.row run.behind

/-- What is seen of the run: the tokens, and whether the nesting was too deep. -/
def tokens (behind : ℕ → Byte) : List (JsonToken × Bool) :=
  (run.program.run (memoryAt run.row behind)).map fun p => (p.currentToken, p.maxDepthExceeded)

/-- All characters read are inside of the row, and the tokens do not depend on what is behind it. -/
structure StaysInRow : Prop where
  accesses : ∀ pos ∈ run.program.accesses run.memory, pos < run.row.length
  tokens : ∀ behind, run.tokens behind = run.tokens run.behind

end ParserRun

/-- Behind white space, the row has only the separator in front of a value that the parser takes, and
white space. -/
def Dangles (row : List Byte) (p : RowParser) : Prop :=
  ∃ c behind, (row.drop p.currPos).dropWhile isWhitespace = c :: behind ∧ p.TakesSeparator c ∧
    ∀ b ∈ behind, isWhitespace b

/-! ### A step of a run -/

section Steps

variable {row : List Byte} {behind : ℕ → Byte} {p : RowParser} {toMatch : Option (List Byte)}
  {normalization : List Byte → List Byte}

/-- The program reads inside of the row exactly if no token of it dangles. -/
abbrev ReadsUnlessDangling {α : Type} (row : List Byte) (behind : ℕ → Byte) (post : α → Prop)
    (r : Read α) : Prop :=
  r.Blames (memoryAt row behind) (· < row.length) (Dangles row) post

theorem memoryAt_of_lt {pos : ℕ} (h : pos < row.length) : memoryAt row behind pos = row[pos] := by
  unfold memoryAt
  rw [List.getElem?_eq_getElem h]
  rfl

theorem drop_skipWhitespaces (pos : ℕ) :
    row.drop ((skipWhitespaces row.length pos).run (memoryAt row behind)) =
      (row.drop pos).dropWhile isWhitespace := by
  induction hn : row.length - pos generalizing pos with
  | zero =>
    rw [skipWhitespaces, dif_neg (by omega), run_pure, List.drop_eq_nil_of_le (by omega)]
    rfl
  | succ n ih =>
    have hpos : pos < row.length := by omega
    rw [skipWhitespaces, dif_pos hpos, List.drop_eq_getElem_cons hpos, List.dropWhile_cons]
    show row.drop (run (memoryAt row behind)
      (if isWhitespace (memoryAt row behind pos) then _ else _)) = _
    rw [memoryAt_of_lt hpos]
    split_ifs
    · exact ih (pos + 1) (by omega)
    · exact List.drop_eq_getElem_cons hpos

/-- The value behind a separator is read inside of the row if there is something behind the white
space. -/
theorem separator_reads {f : RowParser → NextToken} (hf : ∀ q, (f q).parser = q) {pos : ℕ}
    (hpos : pos < row.length) {r : Read NextToken}
    (hr : r = skipWhitespaces row.length (pos + 1) >>= fun pos' =>
      parseFirstTokenInValue row.length { p with currPos := pos' } >>= fun q => pure (f q)) :
    ((∀ place ∈ r.accesses (memoryAt row behind), place < row.length) ↔
      ¬∀ b ∈ row.drop (pos + 1), isWhitespace b) ∧
    ((∀ place ∈ r.accesses (memoryAt row behind), place < row.length) →
      (r.run (memoryAt row behind)).parser.InRow row.length) := by
  have hskip := reads_skipWhitespaces row.length (pos + 1)
  have hdrop := @drop_skipWhitespaces row behind (pos + 1)
  have hle := (hskip.run (memoryAt row behind)).le_size hpos
  subst hr
  rw [← List.dropWhile_eq_nil_iff, ← hdrop, List.drop_eq_nil_iff]
  simp only [accesses_bind, accesses_pure, List.append_nil, List.mem_append,
    run_bind, run_pure, hf]
  generalize (skipWhitespaces row.length (pos + 1)).run (memoryAt row behind) = pos' at *
  have hfirst := fun hlt : pos' < row.length =>
    @ok_parseFirstTokenInValue row.length { p with currPos := pos' } (· < row.length)
      (fun _ h => h) hlt
  -- the first character is read there
  have hlt : (∀ place, place ∈ (skipWhitespaces row.length (pos + 1)).accesses (memoryAt row behind) ∨
      place ∈ (parseFirstTokenInValue row.length { p with currPos := pos' }).accesses
        (memoryAt row behind) → place < row.length) → pos' < row.length :=
    fun haccess => haccess pos' (.inr (List.mem_cons_self ..))
  refine ⟨⟨fun haccess => Nat.not_le.2 (hlt haccess), fun hnot place hplace => ?_⟩, fun haccess => ?_⟩
  · rcases hplace with hplace | hplace
    · exact hskip.accesses place hplace
    · exact (hfirst (Nat.not_le.1 hnot)).accesses place hplace
  · exact ((hfirst (hlt haccess)).run (memoryAt row behind)).inRow (hlt haccess)

/-- A separator in front of a value is followed by white space and the value. -/
theorem exists_separator {c : Byte} (size : ℕ) (h : p.TakesSeparator c) :
    ∃ f : RowParser → NextToken, (∀ q, (f q).parser = q) ∧ parseNextTokenAt size p c toMatch =
      (skipWhitespaces size (p.currPos + 1) >>= fun pos =>
        parseFirstTokenInValue size { p with currPos := pos } >>= fun q => pure (f q)) := by
  obtain ⟨hstack, ⟨hobject, hname, rfl⟩ | ⟨hobject, harray, rfl⟩⟩ := h
  · refine ⟨fun q => { plainToken q with hasColonBeforeToken := true }, fun _ => rfl, ?_⟩
    unfold parseNextTokenAt
    rw [if_neg hstack, if_pos hobject, if_neg (by rw [hname]; decide), if_pos hname, if_pos rfl]
  · refine ⟨fun q => { plainToken q with hasCommaBeforeToken := true }, fun _ => rfl, ?_⟩
    unfold parseNextTokenAt
    rw [if_neg hstack, if_neg (by rw [hobject]; decide), if_neg harray, if_pos rfl]

/-- What the parser has in the row does not depend on the white space. -/
theorem RowParser.InRow.skipped {size pos : ℕ} (h : p.InRow size) (hforward : Forward size p.currPos pos) :
    InRow size { p with currPos := pos } :=
  ⟨hforward.le_size h.currPos_le, Nat.le_trans h.start_le hforward.le, h.number_le⟩

section

variable (hin : p.InRow row.length)
include hin

/-- The next character decides whether a value has to follow. -/
theorem parseNextTokenAt_reads (hpos : p.currPos < row.length) (c : Byte) :
    ((∀ place ∈ (parseNextTokenAt row.length p c toMatch).accesses (memoryAt row behind),
      place < row.length) ↔
        ¬(p.TakesSeparator c ∧ ∀ b ∈ row.drop (p.currPos + 1), isWhitespace b)) ∧
    ((∀ place ∈ (parseNextTokenAt row.length p c toMatch).accesses (memoryAt row behind),
      place < row.length) →
      ((parseNextTokenAt row.length p c toMatch).run (memoryAt row behind)).parser.InRow
        row.length) := by
  by_cases htakes : p.TakesSeparator c
  · obtain ⟨f, hf, heq⟩ := @exists_separator p toMatch c row.length htakes
    have hreads := @separator_reads row behind p f hf p.currPos hpos _ heq
    rw [and_iff_right htakes]
    exact hreads
  · have hok := @ok_parseNextTokenAt row.length p c (· < row.length) toMatch (fun _ h => h) hpos
      fun h => absurd h htakes
    refine ⟨⟨fun _ hdangles => htakes hdangles.1, fun _ => hok.accesses⟩, fun _ => ?_⟩
    exact (hok.run (memoryAt row behind)).2 hin htakes

theorem nextTokenBody_reads :
    ((∀ place ∈ (nextTokenBody row.length p toMatch).accesses (memoryAt row behind),
      place < row.length) ↔ ¬Dangles row p) ∧
    ((∀ place ∈ (nextTokenBody row.length p toMatch).accesses (memoryAt row behind),
      place < row.length) →
      ((nextTokenBody row.length p toMatch).run (memoryAt row behind)).parser.InRow row.length) := by
  have hforward := (reads_skipWhitespaces row.length p.currPos).run (memoryAt row behind)
  have hdrop := @drop_skipWhitespaces row behind p.currPos
  have hskip : ∀ place ∈ (skipWhitespaces row.length p.currPos).accesses (memoryAt row behind),
      place < row.length := (reads_skipWhitespaces row.length p.currPos).accesses
  unfold nextTokenBody Dangles
  simp only [accesses_bind, run_bind, List.mem_append]
  generalize (skipWhitespaces row.length p.currPos).run (memoryAt row behind) = pos at *
  have hin' := hin.skipped hforward
  rw [← hdrop]
  by_cases hpos : pos < row.length
  · have hat := @parseNextTokenAt_reads row behind _ toMatch hin' hpos row[pos]
    rw [if_pos hpos, List.drop_eq_getElem_cons hpos]
    -- the character is read inside of the row
    have hread : ∀ place, place ∈ accesses (memoryAt row behind)
        (readChar pos >>= fun c => parseNextTokenAt row.length { p with currPos := pos } c toMatch) ↔
        place = pos ∨ place ∈ (parseNextTokenAt row.length { p with currPos := pos } row[pos]
          toMatch).accesses (memoryAt row behind) := by
      intro place
      rw [← memoryAt_of_lt hpos]
      exact List.mem_cons
    have hrun : run (memoryAt row behind)
        (readChar pos >>= fun c => parseNextTokenAt row.length { p with currPos := pos } c toMatch) =
        (parseNextTokenAt row.length { p with currPos := pos } row[pos] toMatch).run
          (memoryAt row behind) := by
      rw [← memoryAt_of_lt hpos]
      rfl
    have hdangles : (∃ c behind', row[pos] :: row.drop (pos + 1) = c :: behind' ∧
        p.TakesSeparator c ∧ ∀ b ∈ behind', isWhitespace b) ↔
        p.TakesSeparator row[pos] ∧ ∀ b ∈ row.drop (pos + 1), isWhitespace b := by
      constructor
      · rintro ⟨c, behind', heq, h⟩
        obtain ⟨rfl, rfl⟩ := List.cons.inj heq
        exact h
      · exact fun h => ⟨_, _, rfl, h⟩
    rw [hrun, hdangles]
    simp only [hread]
    refine ⟨⟨fun haccess => hat.1.1 fun place hplace => haccess place (.inr (.inr hplace)), ?_⟩, ?_⟩
    · intro hnot place hplace
      rcases hplace with hplace | rfl | hplace
      · exact hskip place hplace
      · exact hpos
      · exact hat.1.2 hnot place hplace
    · exact fun haccess => hat.2 fun place hplace => haccess place (.inr (.inr hplace))
  · rw [if_neg hpos, List.drop_eq_nil_of_le (Nat.not_lt.1 hpos)]
    have hend : ∀ r : Read NextToken, (∃ next, r = pure next ∧ next.parser.InRow row.length) →
        ((∀ place, place ∈ (skipWhitespaces row.length p.currPos).accesses (memoryAt row behind) ∨
          place ∈ r.accesses (memoryAt row behind) → place < row.length) ↔
            ¬∃ c behind', [] = c :: behind' ∧ p.TakesSeparator c ∧ ∀ b ∈ behind', isWhitespace b) ∧
        ((∀ place, place ∈ (skipWhitespaces row.length p.currPos).accesses (memoryAt row behind) ∨
          place ∈ r.accesses (memoryAt row behind) → place < row.length) →
            (r.run (memoryAt row behind)).parser.InRow row.length) := by
      rintro r ⟨next, rfl, hnext⟩
      refine ⟨⟨fun _ hdangles => ?_, fun _ place hplace => ?_⟩, fun _ => hnext⟩
      · obtain ⟨c, behind', heq, -⟩ := hdangles
        exact absurd heq (by simp)
      · exact hskip place (hplace.resolve_right List.not_mem_nil)
    apply hend
    have hplain : ∀ token : JsonToken, token = .success ∨ token = .error →
        InRow row.length { p with currPos := pos, currentToken := token } := by
      intro token htoken
      refine ⟨hin'.currPos_le, hin'.start_le, fun hnumber => ?_⟩
      rcases htoken with rfl | rfl
      · exact absurd hnumber (by simp)
      · exact absurd hnumber (by simp)
    split_ifs
    · exact ⟨_, rfl, hplain .success (.inl rfl)⟩
    · exact ⟨_, rfl, hplain .error (.inr rfl)⟩

theorem parseNextToken_reads : ReadsUnlessDangling row behind
    (fun next => next.parser.InRow row.length ∧ (¬next.parser.currentToken.IsFinal →
      p.currPos < row.length ∧ p.currPos < next.parser.currPos))
    (parseNextToken row.length p toMatch) := by
  have hprogress := progress_nextTokenBody row.length p toMatch
  have hbody := @nextTokenBody_reads row behind p toMatch hin
  constructor
  · -- the step itself is the only one
    show _ ↔ ∀ s ∈ p :: (nextTokenBody row.length p toMatch).steps (memoryAt row behind), _
    rw [hprogress.steps, List.forall_mem_singleton]
    exact hbody.1
  · exact fun haccess => ⟨hbody.2 haccess, hprogress.run (memoryAt row behind)⟩

theorem nextToken_reads : ReadsUnlessDangling row behind
    (fun q => q.InRow row.length ∧ (¬q.currentToken.IsFinal →
      p.currPos < row.length ∧ p.currPos < q.currPos)) (nextToken row.length p) :=
  (parseNextToken_reads hin).bind fun _ hnext => .done hnext

end

/-! ### A run -/

theorem skipLoop_reads (opened : ℕ) (hin : p.InRow row.length) : ReadsUnlessDangling row behind
    (fun q => q.2.InRow row.length) (skipLoop row.length opened p) := by
  induction hn : row.length - p.currPos using Nat.strong_induction_on generalizing opened p with
  | _ n ih =>
    rw [skipLoop]
    refine (nextToken_reads hin).attach.bind fun q hq => ?_
    obtain ⟨hq, hprogress⟩ := hq
    have hloop : ¬q.1.currentToken.IsFinal → ∀ opened, ReadsUnlessDangling row behind
        (fun q => q.2.InRow row.length) (skipLoop row.length opened q.1) := by
      intro hfinal opened
      have hlt := hprogress hfinal
      exact ih _ (by omega) opened hq rfl
    split_ifs with hfinal hstart hend hclosed
    · exact .done hq
    · exact hloop hfinal (opened + 1)
    · exact .done hq
    · exact hloop hfinal (opened - 1)
    · exact hloop hfinal opened

theorem trySkipChildren_reads (hin : p.InRow row.length) : ReadsUnlessDangling row behind
    (fun q => q.2.InRow row.length) (trySkipChildren row.length p) := by
  unfold trySkipChildren
  split_ifs
  · exact .done hin
  · exact .done hin
  · exact skipLoop_reads 1 hin

theorem reads_readRange {size : ℕ} (pos n : ℕ) (h : pos + n ≤ size) :
    Reads size (fun _ => True) (readRange pos n) := by
  induction n generalizing pos with
  | zero => exact .done trivial
  | succ n ih =>
    refine .readChar (by omega) fun c => ?_
    exact (ih (pos + 1) (by omega)).bind fun _ _ => .done trivial

/-- The characters of a token are in the row. -/
theorem writeEscapedText_reads (hin : p.InRow row.length) : ReadsUnlessDangling row behind
    (fun _ => True) (writeEscapedText normalization p) := by
  have hstart := hin.start_le
  have hpos := hin.currPos_le
  have htext : p.currentTokenStartPos + p.textLen ≤ row.length := by
    unfold textLen
    split
    · omega
    · omega
    · next htoken => exact hin.number_le (.inl htoken)
    · next htoken => exact hin.number_le (.inr htoken)
    · omega
  exact ((reads_readRange _ _ htext).bind fun _ _ => .done trivial).blames

theorem copyLoop_reads (backupStackSize : ℕ) (hin : p.InRow row.length) :
    ReadsUnlessDangling row behind (fun w => w.parser.InRow row.length)
      (copyLoop row.length normalization backupStackSize p) := by
  induction hn : row.length - p.currPos using Nat.strong_induction_on generalizing p with
  | _ n ih =>
    rw [copyLoop]
    refine (parseNextToken_reads hin).attach.bind fun next hnext => ?_
    obtain ⟨hnext, hprogress⟩ := hnext
    split_ifs with hfinal hclosed
    · exact .done hnext
    · exact (writeEscapedText_reads hnext).bind fun text _ => .done hnext
    · have hlt := hprogress hfinal
      refine (writeEscapedText_reads hnext).bind fun text _ => ?_
      exact (ih _ (by omega) hnext rfl).bind fun _ h => .done h

theorem copyCurrentStructure_reads (hin : p.InRow row.length) : ReadsUnlessDangling row behind
    (fun w => w.parser.InRow row.length) (copyCurrentStructure row.length normalization p) := by
  unfold copyCurrentStructure
  have hvalue : ReadsUnlessDangling row behind (fun w : Written => w.parser.InRow row.length)
      (writeEscapedText normalization p >>= fun text => pure ⟨true, p, text⟩) :=
    (writeEscapedText_reads hin).bind fun _ _ => .done hin
  have hstructure : ReadsUnlessDangling row behind (fun w : Written => w.parser.InRow row.length)
      (writeEscapedText normalization p >>= fun text =>
        copyLoop row.length normalization p.stackSize p >>= fun behind =>
          pure { behind with out := text ++ behind.out }) := by
    refine (writeEscapedText_reads hin).bind fun text _ => ?_
    exact (copyLoop_reads p.stackSize hin).bind fun _ h => .done h
  cases p.currentToken with
  | init | error | success | fieldName | endArray | endObject => exact .done hin
  | startArray | startObject => exact hstructure
  | _ => exact hvalue

theorem exec_reads (hin : p.InRow row.length) (call : ParserCall) : ReadsUnlessDangling row behind
    (fun q => q.InRow row.length) (call.exec row.length normalization p) := by
  cases call with
  | nextToken => exact (nextToken_reads hin).imp fun _ h => h.1
  | parseNextTokenWithMatching name =>
    refine Reading.Blames.bind ((parseNextToken_reads hin).bind fun next hnext => .done ?_)
      fun matched h => .done h
    exact hnext.1
  | trySkipChildren => exact (trySkipChildren_reads hin).bind fun _ h => .done h
  | copyCurrentStructure => exact (copyCurrentStructure_reads hin).bind fun _ h => .done h

theorem runCalls_reads (hin : p.InRow row.length) (calls : List ParserCall) :
    ReadsUnlessDangling row behind (fun _ => True) (runCalls row.length normalization calls p) := by
  induction calls generalizing p with
  | nil => exact .done trivial
  | cons call calls ih =>
    refine (exec_reads hin call).bind fun q hq => ?_
    exact (ih hq).bind fun _ _ => .done trivial

end Steps

namespace ParserRun

variable (run : ParserRun)

theorem inRow_make (size : ℕ) : make.InRow size :=
  ⟨Nat.zero_le _, Nat.le_refl _, fun hnumber => absurd hnumber (by decide)⟩

/-- What is read inside of the row is the same whatever is behind the row. -/
theorem tokens_of_accesses (h : ∀ pos ∈ run.program.accesses run.memory, pos < run.row.length)
    (behind : ℕ → Byte) : run.tokens behind = run.tokens run.behind := by
  have hsame : ∀ pos ∈ run.program.accesses run.memory,
      memoryAt run.row behind pos = run.memory pos := by
    intro pos hpos
    unfold memory
    rw [memoryAt_of_lt (h pos hpos), memoryAt_of_lt (h pos hpos)]
  unfold tokens
  rw [(run_congr hsame).1]
  rfl

theorem StaysInRow.not_dangles {run : ParserRun} (h : run.StaysInRow) :
    ∀ p ∈ run.program.steps run.memory, ¬Dangles run.row p :=
  (runCalls_reads (inRow_make run.row.length) run.calls).iff.1 h.accesses

/-- A run stays in its row exactly if no call for a token is at a separator in front of a value behind
which the row has only white space. -/
theorem staysInRow_iff :
    run.StaysInRow ↔ ∀ p ∈ run.program.steps run.memory, ¬Dangles run.row p := by
  refine ⟨fun h => h.not_dangles, fun h => ?_⟩
  have haccesses := (runCalls_reads (inRow_make run.row.length) run.calls).iff.2 h
  exact ⟨haccesses, run.tokens_of_accesses haccesses⟩

/-- The text `[[],`, token by token. -/
def openArray : ParserRun where
  row := [chr '[', chr '[', chr ']', chr ',']
  behind _ := chr '1'
  normalization := id
  calls := [.nextToken, .nextToken, .nextToken, .nextToken]

/-- Without white space, the next token is at the position. -/
theorem run_nextToken {row : List Byte} {behind : ℕ → Byte} {p : RowParser}
    (hpos : p.currPos < row.length) (hc : ¬isWhitespace row[p.currPos]) :
    (nextToken row.length p).run (memoryAt row behind) =
      ((parseNextTokenAt row.length p row[p.currPos] none).run (memoryAt row behind)).parser := by
  have hskip : (skipWhitespaces row.length p.currPos).run (memoryAt row behind) = p.currPos := by
    rw [skipWhitespaces, dif_pos hpos]
    show run (memoryAt row behind)
      (if isWhitespace (memoryAt row behind p.currPos) then _ else _) = _
    rw [memoryAt_of_lt hpos, if_neg hc]
    rfl
  unfold nextToken
  rw [run_bind]
  show ((nextTokenBody row.length p none).run (memoryAt row behind)).parser = _
  unfold nextTokenBody
  rw [run_bind, hskip, if_pos hpos, ← @memoryAt_of_lt row behind _ hpos]
  rfl

/-- A call of `next_token` is one step. -/
theorem steps_nextToken (size : ℕ) (normalization : List Byte → List Byte) (calls : List ParserCall)
    (p : RowParser) (memory : ℕ → Byte) :
    (runCalls size normalization (.nextToken :: calls) p).steps memory =
      p :: (runCalls size normalization calls ((nextToken size p).run memory)).steps memory := by
  have hbody : (nextTokenBody size p none).steps memory = [] :=
    (progress_nextTokenBody size p none).steps
  have hstep : (nextToken size p).steps memory = [p] := by
    unfold nextToken
    rw [steps_bind]
    show p :: (nextTokenBody size p none).steps memory ++ [] = [p]
    rw [hbody]
    rfl
  show steps memory (nextToken size p >>= _) = _
  rw [steps_bind, steps_bind, hstep, steps_pure, List.append_nil]
  rfl

/-- The fourth token is read behind the row. -/
theorem not_staysInRow_openArray : ¬openArray.StaysInRow := by
  intro h
  let p1 : RowParser := ⟨1, 0, 1, 0, 0, .startArray, false⟩
  let p2 : RowParser := ⟨2, 0, 2, 1, 0, .startArray, false⟩
  let p3 : RowParser := ⟨3, 0, 1, 2, 0, .endArray, false⟩
  have h1 : (nextToken 4 make).run openArray.memory = p1 :=
    (@run_nextToken openArray.row openArray.behind make (by decide) (by decide)).trans (by decide)
  have h2 : (nextToken 4 p1).run openArray.memory = p2 :=
    (@run_nextToken openArray.row openArray.behind p1 (by decide) (by decide)).trans (by decide)
  have h3 : (nextToken 4 p2).run openArray.memory = p3 :=
    (@run_nextToken openArray.row openArray.behind p2 (by decide) (by decide)).trans (by decide)
  refine h.not_dangles p3 ?_ ⟨chr ',', [], by decide, ⟨by decide, .inr (by decide)⟩, by simp⟩
  show p3 ∈ (runCalls 4 id [.nextToken, .nextToken, .nextToken, .nextToken] make).steps
    openArray.memory
  rw [steps_nextToken, h1, steps_nextToken, h2, steps_nextToken, h3, steps_nextToken]
  simp

end ParserRun

end SparkRapids.GetJson
