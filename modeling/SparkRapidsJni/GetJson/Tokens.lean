import SparkRapidsJni.GetJson.Parser
import SparkRapidsJni.GetJson.StringItems

/-!
# Runs of the parser

A call of `next_token` that does not end the run takes characters from the text (`nextToken_lt`), so
that repeated calls end. `scan` are the calls up to the first `SUCCESS` or `ERROR`.
-/

namespace SparkRapids.GetJson

/-- A token and its text. -/
structure Token where
  kind : JsonToken
  text : List Byte
  deriving DecidableEq, Repr

/-- `SUCCESS` and `ERROR` end a run. -/
def JsonToken.IsFinal (t : JsonToken) : Prop := t = .success ∨ t = .error

instance (t : JsonToken) : Decidable t.IsFinal := inferInstanceAs (Decidable (_ ∨ _))

/-! ### Every token takes characters -/

theorem length_of_parseString {quote : Byte} {s : StringScan} {b : Bool} {rest : List Byte}
    (h : parseString quote s = some (b, rest)) : rest.length < s.str.length := by
  obtain ⟨items, -, hs⟩ := exists_items_of_parseString h
  rw [hs, List.length_append, List.length_cons]
  omega

theorem length_of_tryParseString {str rest : List Byte} {toMatch : Option (List Byte)} {b : Bool}
    (h : tryParseString str toMatch = some (b, rest)) : rest.length < str.length := by
  cases str with
  | nil => exact absurd h (by simp [tryParseString])
  | cons quote str =>
    have hlt := length_of_parseString h
    exact Nat.lt_succ_of_lt hlt

namespace NumberScan

variable {s s' : NumberScan}

theorem length_skipZeroOrMoreDigits (s : NumberScan) :
    s.skipZeroOrMoreDigits.chars.length ≤ s.chars.length :=
  List.length_dropWhile_le _ _

theorem length_of_trySkipOneOrMoreDigits (h : s.trySkipOneOrMoreDigits = some s') :
    s'.chars.length ≤ s.chars.length := by
  unfold trySkipOneOrMoreDigits at h
  split at h
  · exact absurd h (by simp)
  · next c chars hs =>
    split at h
    · obtain rfl := Option.some.inj h
      rw [hs]
      exact (length_skipZeroOrMoreDigits _).trans (Nat.le_succ _)
    · exact absurd h (by simp)

theorem length_of_tryParseExp (h : s.tryParseExp = some s') :
    s'.chars.length ≤ s.chars.length := by
  unfold tryParseExp at h
  split at h
  · exact length_of_trySkipOneOrMoreDigits h
  · next c chars hs =>
    split at h
    · rw [hs]
      exact (length_of_trySkipOneOrMoreDigits h).trans (Nat.le_succ _)
    · exact length_of_trySkipOneOrMoreDigits h

theorem length_of_trySkipFraction (h : s.trySkipFraction = some s') :
    s'.chars.length ≤ s.chars.length := by
  unfold trySkipFraction at h
  split at h
  · obtain rfl := Option.some.inj h
    exact le_rfl
  · next c chars hs =>
    split at h
    · rw [hs]
      exact (length_of_trySkipOneOrMoreDigits h).trans (Nat.le_succ _)
    · obtain rfl := Option.some.inj h
      exact le_rfl

theorem length_of_trySkipExp (h : s.trySkipExp = some s') : s'.chars.length ≤ s.chars.length := by
  unfold trySkipExp at h
  split at h
  · obtain rfl := Option.some.inj h
    exact le_rfl
  · next c chars hs =>
    split at h
    · rw [hs]
      exact (length_of_tryParseExp h).trans (Nat.le_succ _)
    · obtain rfl := Option.some.inj h
      exact le_rfl

theorem length_of_parseNumberFromFraction (h : s.parseNumberFromFraction = some s') :
    s'.chars.length ≤ s.chars.length := by
  obtain ⟨s1, h1, h2⟩ := Option.bind_eq_some_iff.1 h
  exact (length_of_trySkipExp h2).trans (length_of_trySkipFraction h1)

theorem length_of_tryUnsignedNumber {chars : List Byte} (h : tryUnsignedNumber chars = some s) :
    s.chars.length < chars.length := by
  unfold tryUnsignedNumber at h
  split at h
  · exact absurd h (by simp)
  · next c chars =>
    rw [List.length_cons, Nat.lt_succ_iff]
    split at h
    · exact (length_of_parseNumberFromFraction h).trans (length_skipZeroOrMoreDigits _)
    · split at h
      · split at h
        · exact length_of_parseNumberFromFraction h
        · split at h
          · exact absurd h (by simp)
          · exact length_of_parseNumberFromFraction h
      · exact absurd h (by simp)

end NumberScan

namespace JsonParser

variable {p : JsonParser}

theorem length_tail_lt {chars : List Byte} (hne : chars ≠ []) : chars.tail.length < chars.length := by
  rw [List.length_tail]
  exact Nat.sub_lt (List.length_pos_of_ne_nil hne) Nat.one_pos

/-- Nothing is put back, and a token that is no error takes at least one character unless there is
none. -/
structure Takes (p q : JsonParser) : Prop where
  le : q.chars.length ≤ p.chars.length
  lt : p.chars ≠ [] → q.currentToken ≠ .error → q.chars.length < p.chars.length

theorem takes_setCurrentError {p q : JsonParser} (h : q.chars = p.chars) :
    Takes p q.setCurrentError :=
  ⟨by rw [← h]; exact le_rfl, fun _ hne => absurd rfl hne⟩

theorem takes_of_lt {p q : JsonParser} (h : q.chars.length < p.chars.length) : Takes p q :=
  ⟨h.le, fun _ _ => h⟩

theorem length_of_trySkip {expected chars rest : List Byte}
    (h : trySkip expected chars = some rest) : rest.length ≤ chars.length := by
  induction expected generalizing chars with
  | nil =>
    obtain rfl := Option.some.inj h
    exact le_rfl
  | cons e expected ih =>
    cases chars with
    | nil => exact absurd h (by simp [trySkip])
    | cons c chars =>
      unfold trySkip at h
      split at h
      · exact (ih h).trans (Nat.le_succ _)
      · exact absurd h (by simp)

theorem takes_parseLiteral (expected : List Byte) (token : JsonToken) :
    Takes p (parseLiteral { p with tokenStart := p.chars, chars := p.chars.tail } expected token) := by
  have htail : p.chars.tail.length ≤ p.chars.length := by
    rw [List.length_tail]
    exact Nat.sub_le _ _
  unfold parseLiteral
  split
  · next rest hskip =>
    have hle := length_of_trySkip hskip
    refine ⟨hle.trans htail, fun hne _ => hle.trans_lt ?_⟩
    exact length_tail_lt hne
  · exact ⟨htail, fun _ hne => absurd rfl hne⟩

theorem takes_parseStart (token : JsonToken) :
    Takes p (parseStart { p with tokenStart := p.chars } token) := by
  unfold parseStart tryPushContext
  by_cases hdepth : p.stackSize < maxJsonNestingDepth
  · rw [if_pos hdepth]
    refine ⟨?_, fun hne _ => length_tail_lt hne⟩
    show p.chars.tail.length ≤ _
    rw [List.length_tail]
    exact Nat.sub_le _ _
  · rw [if_neg hdepth]
    exact takes_setCurrentError rfl

theorem takes_parseStringAndSetCurrent :
    Takes p (parseStringAndSetCurrent { p with tokenStart := p.chars }) := by
  unfold parseStringAndSetCurrent
  split
  · next h => exact takes_of_lt (length_of_tryParseString h)
  · exact takes_setCurrentError rfl

theorem length_skipMinus (chars : List Byte) : (skipMinus chars).length ≤ chars.length := by
  unfold skipMinus
  split
  · exact le_rfl
  · split
    · exact Nat.le_succ _
    · exact le_rfl

theorem takes_parseNumberAndSetCurrent :
    Takes p (parseNumberAndSetCurrent { p with tokenStart := p.chars }) := by
  unfold parseNumberAndSetCurrent
  split
  · next s h =>
    split
    · have hlt := NumberScan.length_of_tryUnsignedNumber h
      exact takes_of_lt (hlt.trans_le (length_skipMinus _))
    · exact takes_setCurrentError rfl
  · exact takes_setCurrentError rfl

theorem takes_parseFirstTokenInValue (p : JsonParser) : Takes p p.parseFirstTokenInValue := by
  unfold parseFirstTokenInValue
  dsimp only
  split_ifs
  · exact takes_parseStart _
  · exact takes_parseStart _
  · exact takes_parseStringAndSetCurrent
  · exact takes_parseLiteral _ _
  · exact takes_parseLiteral _ _
  · exact takes_parseLiteral _ _
  · exact takes_parseNumberAndSetCurrent

theorem takes_parseFieldName (p : JsonParser) (toMatch : Option (List Byte)) :
    Takes p (p.parseFieldName toMatch).parser := by
  unfold parseFieldName
  split
  · next h => exact takes_of_lt (length_of_tryParseString h)
  · exact takes_setCurrentError rfl

theorem length_skipWhitespaces (p : JsonParser) :
    p.skipWhitespaces.chars.length ≤ p.chars.length :=
  List.length_dropWhile_le _ _

/-- A token behind a separator: the separator has been taken. -/
theorem length_behind {q : JsonParser} (hne : p.chars ≠ [])
    (h : Takes { p with chars := p.chars.tail }.skipWhitespaces q) :
    q.chars.length < p.chars.length :=
  calc q.chars.length
      ≤ { p with chars := p.chars.tail }.skipWhitespaces.chars.length := h.le
    _ ≤ p.chars.tail.length := length_skipWhitespaces _
    _ < p.chars.length := length_tail_lt hne

theorem parseNextTokenAt_lt (c : Byte) (toMatch : Option (List Byte)) (hne : p.chars ≠ [])
    (h : ¬(p.parseNextTokenAt c toMatch).parser.currentToken.IsFinal) :
    (p.parseNextTokenAt c toMatch).parser.chars.length < p.chars.length := by
  have herror : (p.parseNextTokenAt c toMatch).parser.currentToken ≠ .error := fun h' => h (Or.inr h')
  have hclose (t : JsonToken) : (p.closeContext t).chars.length < p.chars.length :=
    length_tail_lt hne
  unfold parseNextTokenAt at h herror ⊢
  split_ifs at h herror ⊢
  · exact (takes_parseFirstTokenInValue p).lt hne herror
  · exact absurd (Or.inl rfl) h
  · exact hclose _
  · exact (takes_parseFieldName p toMatch).lt hne herror
  · exact length_behind hne (takes_parseFirstTokenInValue _)
  · exact absurd rfl herror
  · exact hclose _
  · exact length_behind hne (takes_parseFieldName _ _)
  · exact absurd rfl herror
  · exact hclose _
  · exact (takes_parseFirstTokenInValue p).lt hne herror
  · exact length_behind hne (takes_parseFirstTokenInValue _)
  · exact hclose _
  · exact absurd rfl herror

/-- A call that does not end the run takes characters. -/
theorem parseNextToken_lt (toMatch : Option (List Byte))
    (h : ¬(p.parseNextToken toMatch).parser.currentToken.IsFinal) :
    (p.parseNextToken toMatch).parser.chars.length < p.chars.length := by
  have hskip := length_skipWhitespaces p
  unfold parseNextToken at h ⊢
  dsimp only at h ⊢
  split at h
  · next c rest hchars =>
    exact (parseNextTokenAt_lt c toMatch (by rw [hchars]; simp) h).trans_le hskip
  · split at h
    · exact absurd (Or.inl rfl) h
    · exact absurd (Or.inr rfl) h

theorem nextToken_lt (h : ¬p.nextToken.currentToken.IsFinal) :
    p.nextToken.chars.length < p.chars.length :=
  parseNextToken_lt none h

/-! ### Runs -/

/-- The current token. -/
def token (p : JsonParser) : Token := ⟨p.currentToken, p.currentRange⟩

/-- Calls of `next_token` up to the first `SUCCESS` or `ERROR`: the tokens before it, and which of
them it is. -/
def scan (p : JsonParser) : List Token × JsonToken :=
  if _ : p.nextToken.currentToken.IsFinal then ([], p.nextToken.currentToken)
  else
    let (tokens, final) := scan p.nextToken
    (p.nextToken.token :: tokens, final)
termination_by p.chars.length
decreasing_by exact nextToken_lt (by assumption)

/-- Calls of `next_token` that do not end the run. -/
inductive Steps : JsonParser → List Token → JsonParser → Prop
  | refl (p : JsonParser) : Steps p [] p
  | cons {p q : JsonParser} {tokens : List Token} (h : ¬p.nextToken.currentToken.IsFinal)
      (hsteps : Steps p.nextToken tokens q) : Steps p (p.nextToken.token :: tokens) q

variable {q r : JsonParser} {ts us : List Token}

theorem Steps.trans (h : Steps p ts q) (h' : Steps q us r) : Steps p (ts ++ us) r := by
  induction h with
  | refl => exact h'
  | cons hnot _ ih => exact .cons hnot (ih h')

theorem Steps.single (h : ¬p.nextToken.currentToken.IsFinal) :
    Steps p [p.nextToken.token] p.nextToken :=
  .cons h (.refl _)

theorem scan_of_isFinal (h : p.nextToken.currentToken.IsFinal) :
    p.scan = ([], p.nextToken.currentToken) := by
  rw [scan, dif_pos h]

/-- A run goes on where calls that do not end it lead to. -/
theorem Steps.scan_eq (h : Steps p ts q) : p.scan = (ts ++ q.scan.1, q.scan.2) := by
  induction h with
  | refl => rfl
  | cons hnot _ ih =>
    rw [scan, dif_neg hnot, ih]
    rfl

end JsonParser

end SparkRapids.GetJson
