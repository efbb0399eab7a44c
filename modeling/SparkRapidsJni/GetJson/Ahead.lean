import SparkRapidsJni.GetJson.Copy
import SparkRapidsJni.GetJson.Steps

/-!
# The tokens ahead

Everything that reads from the parser sees the tokens ahead of it, and nothing else about its state:
whether a comma or a colon stands before a token follows from the token and the one before it
(`written_parseNextToken`), and objects and arrays are closed where the tokens say it. So the calls
that skip or copy a structure are calculated on lists of tokens.
-/

namespace SparkRapids.GetJson

namespace JsonToken

/-- The start of an object or array. -/
def IsStart (t : JsonToken) : Prop := t = .startObject ∨ t = .startArray

/-- The end of an object or array. -/
def IsEnd (t : JsonToken) : Prop := t = .endObject ∨ t = .endArray

/-- The values that are neither objects nor arrays. -/
def scalars : List JsonToken :=
  [valueString, valueNumberInt, valueNumberFloat, valueTrue, valueFalse, valueNull]

def IsScalar (t : JsonToken) : Prop := t ∈ scalars

instance (t : JsonToken) : Decidable t.IsStart := inferInstanceAs (Decidable (_ ∨ _))

instance (t : JsonToken) : Decidable t.IsEnd := inferInstanceAs (Decidable (_ ∨ _))

instance (t : JsonToken) : Decidable t.IsScalar := inferInstanceAs (Decidable (_ ∈ _))

theorem IsScalar.not_isStart {t : JsonToken} (h : t.IsScalar) : ¬t.IsStart :=
  (by decide : ∀ t ∈ scalars, ¬t.IsStart) t h

theorem IsScalar.not_isEnd {t : JsonToken} (h : t.IsScalar) : ¬t.IsEnd :=
  (by decide : ∀ t ∈ scalars, ¬t.IsEnd) t h

theorem IsScalar.not_fieldName {t : JsonToken} (h : t.IsScalar) : t ≠ .fieldName :=
  (by decide : ∀ t ∈ scalars, t ≠ .fieldName) t h

theorem IsScalar.not_init {t : JsonToken} (h : t.IsScalar) : t ≠ .init :=
  (by decide : ∀ t ∈ scalars, t ≠ .init) t h

theorem IsScalar.not_isFinal {t : JsonToken} (h : t.IsScalar) : ¬t.IsFinal :=
  (by decide : ∀ t ∈ scalars, ¬t.IsFinal) t h

/-- What stands between two tokens. -/
def separator (prev next : JsonToken) : List Byte :=
  if prev = .fieldName then [chr ':']
  else if prev.IsStart ∨ next.IsEnd then []
  else [chr ',']

end JsonToken

namespace JsonParser

variable {p q : JsonParser} {ts us : List Token} {t : Token}

/-! ### Contexts agree with tokens -/

/-- The current token and the context that the parser is in fit together. -/
structure Consistent (p : JsonParser) : Prop where
  le : p.stackSize ≤ maxJsonNestingDepth
  object : p.currentToken = .startObject ∨ p.currentToken = .fieldName → p.Inside true
  array : p.currentToken = .startArray → p.Inside false

/-- How many contexts there are behind a token. -/
def sizeBehind (n : Nat) (t : JsonToken) : Nat :=
  if t.IsStart then n + 1 else if t.IsEnd then n - 1 else n

theorem Consistent.of_isScalar (hle : p.stackSize ≤ maxJsonNestingDepth)
    (h : p.currentToken.IsScalar) : p.Consistent where
  le := hle
  object h' := by
    rcases h' with h' | h'
    · exact absurd (Or.inl h') h.not_isStart
    · exact absurd h' h.not_fieldName
  array h' := absurd (Or.inr h') h.not_isStart

theorem inside_of_isObjectContext {isObject : Bool} (hpos : 0 < p.stackSize)
    (hle : p.stackSize ≤ maxJsonNestingDepth) (h : p.isObjectContext = isObject) :
    p.Inside isObject where
  pos := hpos
  le := hle
  bit := by
    have hlt : p.stackSize - 1 < 64 := (Nat.sub_lt hpos Nat.one_pos).trans_le hle
    unfold isObjectContext at h
    rwa [getBitValue_eq hlt] at h

/-- The parser `q` is at the first token of a value, which opens a context or is a value of its own,
or at an error. -/
def Begins (p q : JsonParser) : Prop :=
  q.currentToken = .error ∨
    (∃ t, (t = .startObject ∨ t = .startArray) ∧ p.stackSize < maxJsonNestingDepth ∧
      q = p.opened t) ∨
    ∃ t rest, t.IsScalar ∧ q = p.scalar t rest

theorem begins_parseStart {t : JsonToken} (ht : t = .startObject ∨ t = .startArray) :
    Begins p (parseStart { p with tokenStart := p.chars } t) := by
  unfold parseStart tryPushContext
  by_cases hdepth : p.stackSize < maxJsonNestingDepth
  · rw [if_pos hdepth]
    exact Or.inr (Or.inl ⟨t, ht, hdepth, rfl⟩)
  · rw [if_neg hdepth]
    exact Or.inl rfl

theorem begins_parseLiteral {t : JsonToken} (ht : t.IsScalar) (expected : List Byte) :
    Begins p (parseLiteral { p with tokenStart := p.chars, chars := p.chars.tail } expected t) := by
  unfold parseLiteral
  split
  · next rest _ => exact Or.inr (Or.inr ⟨t, rest, ht, rfl⟩)
  · exact Or.inl rfl

theorem begins_parseFirst (p : JsonParser) : Begins p p.parseFirstTokenInValue := by
  unfold parseFirstTokenInValue
  dsimp only
  split_ifs
  · exact begins_parseStart (Or.inl rfl)
  · exact begins_parseStart (Or.inr rfl)
  · unfold parseStringAndSetCurrent
    split
    · next rest _ => exact Or.inr (Or.inr ⟨.valueString, rest, by decide, rfl⟩)
    · exact Or.inl rfl
  · exact begins_parseLiteral (by decide) _
  · exact begins_parseLiteral (by decide) _
  · exact begins_parseLiteral (by decide) _
  · unfold parseNumberAndSetCurrent
    split
    · next s _ =>
      split_ifs with _ hfloat
      · exact Or.inr (Or.inr ⟨.valueNumberFloat, s.chars, by decide, rfl⟩)
      · exact Or.inr (Or.inr ⟨.valueNumberInt, s.chars, by decide, rfl⟩)
      · exact Or.inl rfl
    · exact Or.inl rfl

/-- What holds behind a call of `next_token` that does not end the run, whatever the contexts were
before. -/
structure Advanced (p q : JsonParser) : Prop where
  consistent : q.Consistent
  init : q.currentToken ≠ .init
  stackSize : q.stackSize = sizeBehind p.stackSize q.currentToken

theorem Advanced.of_size {p' : JsonParser} (h : Advanced p' q) (hsize : p'.stackSize = p.stackSize) :
    Advanced p q :=
  ⟨h.consistent, h.init, by rw [← hsize]; exact h.stackSize⟩

theorem Begins.advanced (h : Begins p q) (hle : p.stackSize ≤ maxJsonNestingDepth)
    (hq : q.currentToken ≠ .error) : Advanced p q := by
  rcases h with h | ⟨t, ht, hdepth, rfl⟩ | ⟨t, rest, ht, rfl⟩
  · exact absurd h hq
  · have hin := inside_opened t hdepth
    have hsize : (p.opened t).stackSize = sizeBehind p.stackSize t := by
      rw [sizeBehind, if_pos (show t.IsStart from ht)]
      rfl
    have hinit : t ≠ .init := by
      rcases ht with rfl | rfl
      · decide
      · decide
    refine ⟨⟨hdepth, fun h => ?_, fun h => ?_⟩, hinit, hsize⟩
    · have hobject : t = .startObject := by
        rcases h with h | h
        · exact h
        · exact absurd (show t = .fieldName from h) (by rcases ht with rfl | rfl <;> decide)
      rwa [decide_eq_true hobject] at hin
    · have harray : t ≠ .startObject := by
        rw [show t = .startArray from h]
        decide
      rwa [decide_eq_false harray] at hin
  · refine ⟨.of_isScalar hle ht, ht.not_init, ?_⟩
    show p.stackSize = sizeBehind p.stackSize t
    rw [sizeBehind, if_neg ht.not_isStart, if_neg ht.not_isEnd]

theorem Begins.not_isEnd (h : Begins p q) (hq : q.currentToken ≠ .error) :
    ¬q.currentToken.IsEnd ∧ q.currentToken ≠ .fieldName := by
  rcases h with h | ⟨t, ht, -, rfl⟩ | ⟨t, rest, ht, rfl⟩
  · exact absurd h hq
  · show ¬t.IsEnd ∧ t ≠ .fieldName
    rcases ht with rfl | rfl
    · decide
    · decide
  · exact ⟨ht.not_isEnd, ht.not_fieldName⟩

/-! ### One call -/

theorem tryParseString_rest (str : List Byte) (toMatch : Option (List Byte)) :
    (tryParseString str toMatch).map Prod.snd = (tryParseString str none).map Prod.snd := by
  have hsome {toMatch : Option (List Byte)} (toMatch' : Option (List Byte)) {b : Bool}
      {rest : List Byte} (h : tryParseString str toMatch = some (b, rest)) :
      ∃ b', tryParseString str toMatch' = some (b', rest) := by
    obtain ⟨text, htext, rfl⟩ := exists_isString_of_tryParseString h
    exact tryParseString_of_isString htext rest toMatch'
  rcases hparse : tryParseString str toMatch with _ | ⟨b, rest⟩
  · rcases hparse' : tryParseString str none with _ | ⟨b', rest'⟩
    · rfl
    · obtain ⟨b'', h⟩ := hsome toMatch hparse'
      exact absurd (hparse.symm.trans h) (by simp)
  · obtain ⟨b', h⟩ := hsome none hparse
    rw [h]
    rfl

theorem parser_parseFieldName (p : JsonParser) (toMatch : Option (List Byte)) :
    (p.parseFieldName toMatch).parser = (p.parseFieldName none).parser := by
  have hrest := tryParseString_rest p.chars toMatch
  unfold parseFieldName
  rcases hparse : tryParseString p.chars toMatch with _ | ⟨b, rest⟩
  · rw [hparse] at hrest
    rw [Option.map_eq_none_iff.1 hrest.symm]
  · rw [hparse] at hrest
    obtain ⟨⟨b', rest'⟩, h, hsnd⟩ := Option.map_eq_some_iff.1 hrest.symm
    obtain rfl : rest' = rest := hsnd
    rw [h]

/-- The parser behind a call does not depend on the name to compare with. -/
theorem parser_parseNextToken (p : JsonParser) (toMatch : Option (List Byte)) :
    (p.parseNextToken toMatch).parser = p.nextToken := by
  unfold nextToken parseNextToken
  dsimp only
  split
  · unfold parseNextTokenAt
    split_ifs
    all_goals first | rfl | exact parser_parseFieldName _ _
  · rfl

/-- A call of `parse_next_token_and_set_current` from `p`, with what it tells besides the token. -/
structure Reads (p : JsonParser) (next : NextToken) : Prop where
  advanced : Advanced p next.parser
  comma : next.hasCommaBeforeToken = decide (p.currentToken ≠ .fieldName ∧ ¬p.currentToken.IsStart ∧
    ¬next.parser.currentToken.IsEnd)
  colon : next.hasColonBeforeToken = decide (p.currentToken = .fieldName)

theorem reads_closeContext (hle : p.stackSize ≤ maxJsonNestingDepth) {t : JsonToken} (ht : t.IsEnd)
    (hnot : p.currentToken ≠ .fieldName) : Reads p (plainToken (p.closeContext t)) where
  advanced := by
    have hplain : ¬t.IsStart := by
      rcases ht with rfl | rfl
      · decide
      · decide
    have hinit : t ≠ .init := by
      rcases ht with rfl | rfl
      · decide
      · decide
    refine ⟨⟨(Nat.sub_le _ _).trans hle, fun h => ?_, fun h => ?_⟩, hinit, ?_⟩
    · rcases ht with rfl | rfl
      · exact absurd h (show ¬(JsonToken.endObject = _ ∨ JsonToken.endObject = _) by decide)
      · exact absurd h (show ¬(JsonToken.endArray = _ ∨ JsonToken.endArray = _) by decide)
    · exact absurd (Or.inr h) hplain
    · show p.stackSize - 1 = sizeBehind p.stackSize t
      rw [sizeBehind, if_neg hplain, if_pos ht]
  comma := (decide_eq_false fun h => h.2.2 ht).symm
  colon := (decide_eq_false hnot).symm

theorem advanced_parseFieldName (hin : p.Inside true) (toMatch : Option (List Byte))
    (h : (p.parseFieldName toMatch).parser.currentToken ≠ .error) :
    Advanced p (p.parseFieldName toMatch).parser ∧
      (p.parseFieldName toMatch).parser.currentToken = .fieldName := by
  unfold parseFieldName at h ⊢
  split
  · refine ⟨⟨⟨hin.le, fun _ => ⟨hin.pos, hin.le, hin.bit⟩, fun h => ?_⟩, ?_, rfl⟩, rfl⟩
    · exact absurd h (show JsonToken.fieldName ≠ .startArray by decide)
    · exact (show JsonToken.fieldName ≠ .init by decide)
  · next hnone =>
    rw [hnone] at h
    exact absurd rfl h

theorem Inside.unique (h : p.Inside true) (h' : p.Inside false) : False :=
  Bool.false_ne_true (h'.bit.symm.trans h.bit)

theorem reads_object (h : p.Consistent) (hin : p.Inside true) (c : Byte)
    (toMatch : Option (List Byte))
    (hfinal : ¬(p.parseNextTokenAt c toMatch).parser.currentToken.IsFinal) :
    Reads p (p.parseNextTokenAt c toMatch) := by
  have herror : (p.parseNextTokenAt c toMatch).parser.currentToken ≠ .error :=
    fun h' => hfinal (Or.inr h')
  have harray : p.currentToken ≠ .startArray := fun h' => hin.unique (h.array h')
  rw [parseNextTokenAt_object hin] at hfinal herror ⊢
  -- behind the bracket comes a name or the end, behind a name a colon, behind a value a comma or the end
  by_cases hstart : p.currentToken = .startObject
  · have hnot : p.currentToken ≠ .fieldName := by
      rw [hstart]
      decide
    rw [if_pos hstart] at hfinal herror ⊢
    by_cases hend : c = chr '\x7d'
    · rw [if_pos hend]
      exact reads_closeContext h.le (Or.inl rfl) hnot
    · rw [if_neg hend] at hfinal herror ⊢
      obtain ⟨hadvanced, -⟩ := advanced_parseFieldName hin toMatch herror
      refine ⟨hadvanced, ?_, ?_⟩
      · rw [decide_eq_false fun h' => h'.2.1 (Or.inl hstart)]
        unfold parseFieldName
        split
        · rfl
        · rfl
      · rw [decide_eq_false hnot]
        unfold parseFieldName
        split
        · rfl
        · rfl
  rw [if_neg hstart] at hfinal herror ⊢
  by_cases hname : p.currentToken = .fieldName
  · rw [if_pos hname] at hfinal herror ⊢
    by_cases hcolon : c = chr ':'
    · rw [if_pos hcolon] at hfinal herror ⊢
      have hbegins := begins_parseFirst ({ p with chars := p.chars.tail }).skipWhitespaces
      refine ⟨(hbegins.advanced hin.le herror).of_size rfl, ?_, (decide_eq_true hname).symm⟩
      exact (decide_eq_false fun h' => h'.1 hname).symm
    · rw [if_neg hcolon] at herror
      exact absurd rfl herror
  rw [if_neg hname] at hfinal herror ⊢
  by_cases hend : c = chr '\x7d'
  · rw [if_pos hend]
    exact reads_closeContext h.le (Or.inl rfl) hname
  rw [if_neg hend] at hfinal herror ⊢
  by_cases hcomma : c = chr ','
  · rw [if_pos hcomma] at hfinal herror ⊢
    have hin' : ({ p with chars := p.chars.tail }).skipWhitespaces.Inside true :=
      ⟨hin.pos, hin.le, hin.bit⟩
    obtain ⟨hadvanced, htoken⟩ := advanced_parseFieldName hin' toMatch herror
    refine ⟨hadvanced.of_size rfl, ?_, ?_⟩
    · refine (decide_eq_true ⟨hname, not_or.2 ⟨hstart, harray⟩, ?_⟩).symm
      show ¬(parseFieldName _ toMatch).parser.currentToken.IsEnd
      rw [htoken]
      decide
    · rw [decide_eq_false hname]
      unfold parseFieldName
      dsimp only
      split
      · rfl
      · rfl
  · rw [if_neg hcomma] at herror
    exact absurd rfl herror

theorem reads_array (h : p.Consistent) (hin : p.Inside false) (c : Byte)
    (toMatch : Option (List Byte))
    (hfinal : ¬(p.parseNextTokenAt c toMatch).parser.currentToken.IsFinal) :
    Reads p (p.parseNextTokenAt c toMatch) := by
  have herror : (p.parseNextTokenAt c toMatch).parser.currentToken ≠ .error :=
    fun h' => hfinal (Or.inr h')
  -- inside of an array the token is no field name, so there is one branch less
  have hname : p.currentToken ≠ .fieldName := fun h' => (h.object (Or.inr h')).unique hin
  have hobject : p.currentToken ≠ .startObject := fun h' => (h.object (Or.inl h')).unique hin
  rw [parseNextTokenAt_array hin] at hfinal herror ⊢
  by_cases hstart : p.currentToken = .startArray
  · rw [if_pos hstart] at hfinal herror ⊢
    by_cases hend : c = chr ']'
    · rw [if_pos hend]
      exact reads_closeContext h.le (Or.inr rfl) hname
    · rw [if_neg hend] at hfinal herror ⊢
      refine ⟨(begins_parseFirst p).advanced hin.le herror, ?_, (decide_eq_false hname).symm⟩
      exact (decide_eq_false fun h' => h'.2.1 (Or.inr hstart)).symm
  rw [if_neg hstart] at hfinal herror ⊢
  by_cases hcomma : c = chr ','
  · rw [if_pos hcomma] at hfinal herror ⊢
    have hbegins := begins_parseFirst ({ p with chars := p.chars.tail }).skipWhitespaces
    refine ⟨(hbegins.advanced hin.le herror).of_size rfl, ?_, (decide_eq_false hname).symm⟩
    exact (decide_eq_true ⟨hname, not_or.2 ⟨hobject, hstart⟩, (hbegins.not_isEnd herror).1⟩).symm
  rw [if_neg hcomma] at hfinal herror ⊢
  by_cases hend : c = chr ']'
  · rw [if_pos hend]
    exact reads_closeContext h.le (Or.inr rfl) hname
  · rw [if_neg hend] at herror
    exact absurd rfl herror

/-- Behind the first token, a call that does not end the run is told by the two tokens. -/
theorem reads_parseNextToken (h : p.Consistent) (hinit : p.currentToken ≠ .init)
    (toMatch : Option (List Byte))
    (hfinal : ¬(p.parseNextToken toMatch).parser.currentToken.IsFinal) :
    Reads p (p.parseNextToken toMatch) := by
  have hskip : p.skipWhitespaces.Consistent :=
    ⟨h.le, fun h' => ⟨(h.object h').pos, (h.object h').le, (h.object h').bit⟩,
      fun h' => ⟨(h.array h').pos, (h.array h').le, (h.array h').bit⟩⟩
  unfold parseNextToken at hfinal ⊢
  dsimp only at hfinal ⊢
  split at hfinal
  · next c rest hchars =>
    have hreads : Reads p.skipWhitespaces (p.skipWhitespaces.parseNextTokenAt c toMatch) := by
      by_cases hsize : p.stackSize = 0
      · -- the run has ended
        exfalso
        apply hfinal
        unfold parseNextTokenAt
        rw [if_pos (show p.skipWhitespaces.stackSize = 0 from hsize),
          if_neg (show p.skipWhitespaces.currentToken ≠ .init from hinit)]
        exact Or.inl rfl
      · have hpos : 0 < p.skipWhitespaces.stackSize := Nat.pos_of_ne_zero hsize
        cases hcontext : p.skipWhitespaces.isObjectContext with
        | true =>
          exact reads_object hskip (inside_of_isObjectContext hpos hskip.le hcontext) c toMatch hfinal
        | false =>
          exact reads_array hskip (inside_of_isObjectContext hpos hskip.le hcontext) c toMatch hfinal
    exact ⟨hreads.advanced.of_size rfl, hreads.comma, hreads.colon⟩
  · split_ifs at hfinal
    · exact absurd (Or.inl rfl) hfinal
    · exact absurd (Or.inr rfl) hfinal

/-! ### The tokens ahead -/

/-- The tokens `ts` are ahead of the parser, which is at a token, and `final` is behind them. -/
structure Ahead (p : JsonParser) (ts : List Token) (final : JsonToken) : Prop where
  scan : p.scan = (ts, final)
  consistent : p.Consistent
  init : p.currentToken ≠ .init

variable {final : JsonToken}

section

variable (h : Ahead p (t :: ts) final)
include h

theorem Ahead.not_isFinal : ¬p.nextToken.currentToken.IsFinal := by
  intro hfinal
  have hscan := h.scan
  rw [scan_of_isFinal hfinal] at hscan
  exact absurd (Prod.mk.inj hscan).1.symm (List.cons_ne_nil _ _)

theorem Ahead.reads (toMatch : Option (List Byte)) : Reads p (p.parseNextToken toMatch) := by
  apply reads_parseNextToken h.consistent h.init
  rw [parser_parseNextToken]
  exact h.not_isFinal

theorem Ahead.token : p.nextToken.token = t := by
  have hscan := h.scan
  rw [(Steps.single h.not_isFinal).scan_eq] at hscan
  exact (List.cons.inj (Prod.mk.inj hscan).1).1

theorem Ahead.kind : p.nextToken.currentToken = t.kind := by
  rw [← h.token]
  rfl

theorem Ahead.next : Ahead p.nextToken ts final where
  scan := by
    have hscan := h.scan
    rw [(Steps.single h.not_isFinal).scan_eq] at hscan
    obtain ⟨htokens, hfinal⟩ := Prod.mk.inj hscan
    exact Prod.ext (List.cons.inj htokens).2 hfinal
  consistent := (h.reads none).advanced.consistent
  init := (h.reads none).advanced.init

theorem Ahead.stackSize : p.nextToken.stackSize = sizeBehind p.stackSize t.kind := by
  rw [← h.kind]
  exact (h.reads none).advanced.stackSize

end

variable (normal : List Byte → List Byte)

/-- What the loop of `copy_current_structure` writes for the next token is told by the tokens. -/
theorem Ahead.written (h : Ahead p (t :: ts) final) :
    (p.parseNextToken none).written normal =
      p.currentToken.separator t.kind ++ t.written normal .escaped := by
  have hreads := h.reads none
  have hkind : (p.parseNextToken none).parser.currentToken = t.kind := h.kind
  have htoken : (p.parseNextToken none).parser.token = t := h.token
  unfold NextToken.written writeEscapedText
  rw [htoken, ← List.append_assoc, hreads.comma, hreads.colon, hkind]
  congr 1
  unfold JsonToken.separator
  by_cases hname : p.currentToken = .fieldName
  · rw [if_pos hname, decide_eq_false (fun h' => h'.1 hname), decide_eq_true hname]
    rfl
  rw [if_neg hname, decide_eq_false hname]
  by_cases hnone : p.currentToken.IsStart ∨ t.kind.IsEnd
  · rw [if_pos hnone, decide_eq_false]
    · rfl
    · rintro ⟨-, hstart, hend⟩
      exact hnone.elim hstart hend
  · rw [if_neg hnone, decide_eq_true ⟨hname, not_or.1 hnone⟩]
    rfl

/-! ### Going over closed tokens -/

/-- What is written in front of the rest. -/
def Written.prepend (bs : List Byte) (w : Written) : Written := { w with out := bs ++ w.out }

theorem Ahead.copyLoop (h : Ahead p (t :: ts) final) (n : Nat) : p.copyLoop normal n =
    if n - 1 = p.nextToken.stackSize then
      ⟨true, p.nextToken, p.currentToken.separator t.kind ++ t.written normal .escaped⟩
    else (p.nextToken.copyLoop normal n).prepend
      (p.currentToken.separator t.kind ++ t.written normal .escaped) := by
  rw [JsonParser.copyLoop]
  dsimp only
  rw [dif_neg (show ¬(p.parseNextToken none).parser.currentToken.IsFinal from h.not_isFinal),
    h.written]
  rfl

theorem Ahead.skipLoop (h : Ahead p (t :: ts) final) (n : Nat) : p.skipLoop n =
    if t.kind.IsStart then p.nextToken.skipLoop (n + 1)
    else if t.kind.IsEnd then
      if n - 1 = 0 then (true, p.nextToken) else p.nextToken.skipLoop (n - 1)
    else p.nextToken.skipLoop n := by
  rw [JsonParser.skipLoop, dif_neg h.not_isFinal, h.kind]
  rfl

end JsonParser

/-- The tokens of values and field names, as many as there may be. -/
inductive Closed : List Token → Prop
  | nil : Closed []
  | plain {t : Token} {ts : List Token} (hstart : ¬t.kind.IsStart) (hend : ¬t.kind.IsEnd)
      (hts : Closed ts) : Closed (t :: ts)
  | nested {t e : Token} {us ts : List Token} (hstart : t.kind.IsStart) (hend : e.kind.IsEnd)
      (hus : Closed us) (hts : Closed ts) : Closed (t :: (us ++ e :: ts))

theorem Closed.scalar {t : Token} (h : t.kind.IsScalar) : Closed [t] :=
  .plain h.not_isStart h.not_isEnd .nil

theorem Closed.append {ts us : List Token} (h : Closed ts) (h' : Closed us) : Closed (ts ++ us) := by
  induction h with
  | nil => exact h'
  | plain hstart hend _ ih => exact .plain hstart hend ih
  | nested hstart hend hus _ _ ih =>
    rw [List.cons_append, List.append_assoc]
    exact .nested hstart hend hus ih

/-- The text of tokens behind `prev`, without white space. -/
def joined (normal : List Byte → List Byte) : JsonToken → List Token → List Byte
  | _, [] => []
  | prev, t :: ts =>
    prev.separator t.kind ++ t.written normal .escaped ++ joined normal t.kind ts

/-- The last token of `ts`, or `prev`. -/
def lastKind : JsonToken → List Token → JsonToken
  | prev, [] => prev
  | _, t :: ts => lastKind t.kind ts

theorem joined_append (normal : List Byte → List Byte) (prev : JsonToken)
    (ts us : List Token) : joined normal prev (ts ++ us) =
      joined normal prev ts ++ joined normal (lastKind prev ts) us := by
  induction ts generalizing prev with
  | nil => rfl
  | cons t ts ih => simp only [List.cons_append, joined, ih, lastKind, List.append_assoc]

theorem lastKind_append (prev : JsonToken) (ts us : List Token) :
    lastKind prev (ts ++ us) = lastKind (lastKind prev ts) us := by
  induction ts generalizing prev with
  | nil => rfl
  | cons t ts ih => exact ih t.kind

namespace JsonParser

variable {p q r : JsonParser} {ts us : List Token} {t e : Token} {final : JsonToken}
  (normal : List Byte → List Byte)

/-- The parser goes from `p` over the tokens `us` to `q`, when a loop skips or copies them. -/
structure Passes (p : JsonParser) (us : List Token) (q : JsonParser) : Prop where
  stackSize : q.stackSize = p.stackSize
  currentToken : q.currentToken = lastKind p.currentToken us
  skip : ∀ n, 0 < n → p.skipLoop n = q.skipLoop n
  copy : ∀ n, 0 < n → n ≤ p.stackSize → p.copyLoop normal n =
    (q.copyLoop normal n).prepend (joined normal p.currentToken us)

theorem Passes.refl (p : JsonParser) : Passes normal p [] p :=
  ⟨rfl, rfl, fun _ _ => rfl, fun _ _ _ => rfl⟩

theorem Passes.trans (h : Passes normal p ts q) (h' : Passes normal q us r) :
    Passes normal p (ts ++ us) r where
  stackSize := h'.stackSize.trans h.stackSize
  currentToken := by rw [lastKind_append, ← h.currentToken, h'.currentToken]
  skip n hn := (h.skip n hn).trans (h'.skip n hn)
  copy n hn hle := by
    rw [h.copy n hn hle, h'.copy n hn (h.stackSize ▸ hle), joined_append, ← h.currentToken]
    unfold Written.prepend
    rw [List.append_assoc]

theorem Ahead.passes_plain (h : Ahead p (t :: ts) final) (hstart : ¬t.kind.IsStart)
    (hend : ¬t.kind.IsEnd) : Passes normal p [t] p.nextToken := by
  have hsize : p.nextToken.stackSize = p.stackSize := by
    rw [h.stackSize, sizeBehind, if_neg hstart, if_neg hend]
  refine ⟨hsize, h.kind, fun n hn => ?_, fun n hn hle => ?_⟩
  · rw [h.skipLoop, if_neg hstart, if_neg hend]
  · rw [h.copyLoop, if_neg (by omega), joined, joined, List.append_nil]

/-- Closed tokens are passed. -/
theorem Ahead.passes (hus : Closed us) : ∀ {p : JsonParser} {ts : List Token},
    Ahead p (us ++ ts) final → ∃ q, Passes normal p us q ∧ Ahead q ts final := by
  induction hus with
  | nil => exact fun h => ⟨_, .refl _ _, h⟩
  | plain hstart hend _ ih =>
    intro p ts h
    obtain ⟨q, hpasses, hq⟩ := ih h.next
    exact ⟨q, (h.passes_plain normal hstart hend).trans normal hpasses, hq⟩
  | @nested t e us us' hstart hend _ _ ih ih' =>
    intro p ts h
    rw [List.cons_append, List.append_assoc, List.cons_append] at h
    obtain ⟨q, hpasses, hq⟩ := ih h.next
    obtain ⟨r, hpasses', hr⟩ := ih' hq.next
    have hnot : ¬e.kind.IsStart := by
      intro he
      rcases hend with h | h
      · rw [h] at he
        exact absurd he (by decide)
      · rw [h] at he
        exact absurd he (by decide)
    have hsize : p.nextToken.stackSize = p.stackSize + 1 := by
      rw [h.stackSize, sizeBehind, if_pos hstart]
    have hsize' : q.nextToken.stackSize = p.stackSize := by
      rw [hq.stackSize, sizeBehind, if_neg hnot, if_pos hend, hpasses.stackSize, hsize,
        Nat.add_sub_cancel]
    -- the container as a whole: the size is back where it was
    have hclosed : Passes normal p (t :: us ++ [e]) q.nextToken := by
      refine ⟨hsize', ?_, fun n hn => ?_, fun n hn hle => ?_⟩
      · rw [hq.kind, lastKind_append]
        rfl
      · rw [h.skipLoop, if_pos hstart, hpasses.skip (n + 1) (Nat.succ_pos n), hq.skipLoop,
          if_neg hnot, if_pos hend, Nat.add_sub_cancel, if_neg hn.ne']
      · rw [h.copyLoop, if_neg (by omega), hpasses.copy n hn (by omega), hq.copyLoop,
          if_neg (by omega), List.cons_append, joined, joined_append, joined, joined,
          hpasses.currentToken, h.kind]
        unfold Written.prepend
        simp only [List.append_assoc, List.append_nil]
    refine ⟨r, ?_, hr⟩
    have htrans := hclosed.trans normal hpasses'
    rwa [List.append_assoc] at htrans

end JsonParser

end SparkRapids.GetJson
