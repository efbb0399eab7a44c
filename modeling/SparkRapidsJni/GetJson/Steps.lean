import SparkRapidsJni.GetJson.Numbers

/-!
# Steps of the parser

What a call of `next_token` does in each situation: the contexts it is inside of, the token before
and the next character. The contexts are compared by the bits of the context stack below its size.
-/

namespace SparkRapids.GetJson

namespace JsonParser

/-! ### The context stack -/

theorem getBitValue_eq {number : BitVec 64} {i : Nat} (hi : i < 64) :
    getBitValue number i = number.getLsbD i := by
  have hbit : (number.sshiftRight i).getLsbD 0 = number.getLsbD i := by
    rw [BitVec.getLsbD_sshiftRight]
    simp [hi]
  have hand : (number.sshiftRight i) &&& 1 = BitVec.setWidth 64 (BitVec.ofBool (number.getLsbD i)) := by
    rw [← hbit]
    exact BitVec.and_one_eq_setWidth_ofBool_getLsbD
  unfold getBitValue
  rw [hand]
  cases number.getLsbD i with
  | false => rfl
  | true => rfl

theorem getLsbD_setBitValue {number : BitVec 64} {i j : Nat} {v : Bool} (hi : i < 64) :
    (setBitValue number i v).getLsbD j = if j = i then v else number.getLsbD j := by
  have hmask : ((1 : BitVec 64) <<< i).getLsbD j = decide (j = i) := by
    rw [BitVec.getLsbD_shiftLeft]
    by_cases hj : j = i
    · subst hj
      simp [hi]
    · by_cases hlt : j < i
      · simp [hlt, hj]
      · have hne : j - i ≠ 0 := by omega
        simp [hne, hj]
  unfold setBitValue
  cases v with
  | true =>
    rw [if_pos rfl, BitVec.getLsbD_or, hmask]
    by_cases hj : j = i
    · simp [hj]
    · simp [hj]
  | false =>
    rw [if_neg Bool.false_ne_true, BitVec.getLsbD_and, BitVec.getLsbD_not, hmask]
    by_cases hj : j = i
    · simp [hj]
    · by_cases hlt : j < 64
      · simp [hj, hlt]
      · rw [BitVec.getLsbD_of_ge _ _ (by omega)]
        simp [hj]

/-- The parser is inside of an object, or of an array. -/
structure Inside (p : JsonParser) (isObject : Bool) : Prop where
  pos : 0 < p.stackSize
  le : p.stackSize ≤ maxJsonNestingDepth
  bit : p.contextStack.getLsbD (p.stackSize - 1) = isObject

variable {p q : JsonParser} {isObject : Bool} {rest : List Byte}

theorem Inside.isObjectContext_eq (h : p.Inside isObject) : p.isObjectContext = isObject := by
  have hle : p.stackSize ≤ 64 := h.le
  have hpos := h.pos
  unfold isObjectContext
  rw [getBitValue_eq (by omega), h.bit]

/-- The parser `q` has the same contexts as `p`, as far as there are `n` of them, and nothing else
about it has changed but the position and the token. -/
structure SameBelow (n : Nat) (p q : JsonParser) : Prop where
  stackSize : q.stackSize = n
  contexts : ∀ i < n, q.contextStack.getLsbD i = p.contextStack.getLsbD i
  beyond : q.beyond = p.beyond
  maxDepthExceeded : q.maxDepthExceeded = p.maxDepthExceeded

theorem SameBelow.trans {n m : Nat} {r : JsonParser} (hnm : n ≤ m) (h : SameBelow m p q)
    (h' : SameBelow n q r) : SameBelow n p r where
  stackSize := h'.stackSize
  contexts i hi := (h'.contexts i hi).trans (h.contexts i (hi.trans_le hnm))
  beyond := h'.beyond.trans h.beyond
  maxDepthExceeded := h'.maxDepthExceeded.trans h.maxDepthExceeded

theorem Inside.of_sameBelow (h : p.Inside isObject) (h' : SameBelow p.stackSize p q) :
    q.Inside isObject := by
  have hpos := h.pos
  refine ⟨?_, ?_, ?_⟩
  · rw [h'.stackSize]
    exact hpos
  · rw [h'.stackSize]
    exact h.le
  · rw [h'.stackSize, h'.contexts _ (by omega), h.bit]

/-- The parser `q` is behind a value or a member that ends with its token. -/
structure Behind (n : Nat) (p q : JsonParser) (rest : List Byte) : Prop extends SameBelow n p q where
  chars : q.chars = rest
  token : q.currentToken ≠ .init ∧ q.currentToken ≠ .fieldName ∧ q.currentToken ≠ .startObject ∧
    q.currentToken ≠ .startArray

theorem Behind.of_sameBelow {n m : Nat} {r : JsonParser} (hnm : n ≤ m) (h : SameBelow m p q)
    (h' : Behind n q r rest) : Behind n p r rest :=
  ⟨h.trans hnm h'.toSameBelow, h'.chars, h'.token⟩

theorem Behind.of_withChars {n : Nat} {chars : List Byte} (h : Behind n { p with chars } q rest) :
    Behind n p q rest :=
  ⟨⟨h.stackSize, h.contexts, h.beyond, h.maxDepthExceeded⟩, h.chars, h.token⟩

/-! ### White space -/

theorem dropWhile_whitespaces {ws chars : List Byte} (hws : IsWhitespaces ws)
    (hchars : ∀ c ∈ chars.head?, isWhitespace c = false) :
    (ws ++ chars).dropWhile isWhitespace = chars := by
  rw [List.dropWhile_append_of_pos hws]
  cases chars with
  | nil => rfl
  | cons c chars => rw [List.dropWhile_cons_of_neg (by rw [hchars c rfl]; exact Bool.false_ne_true)]

theorem exists_whitespaces (chars : List Byte) : ∃ ws, IsWhitespaces ws ∧
    chars = ws ++ chars.dropWhile isWhitespace :=
  ⟨chars.takeWhile isWhitespace, fun _ hc => List.mem_takeWhile_imp hc,
    List.takeWhile_append_dropWhile.symm⟩

theorem skipWhitespaces_eq {ws chars : List Byte} (hp : p.chars = ws ++ chars)
    (hws : IsWhitespaces ws) (hchars : ∀ c ∈ chars.head?, isWhitespace c = false) :
    p.skipWhitespaces = { p with chars } := by
  unfold skipWhitespaces
  rw [hp, dropWhile_whitespaces hws hchars]

theorem skipWhitespaces_all (hp : IsWhitespaces p.chars) : p.skipWhitespaces = { p with chars := [] } :=
  skipWhitespaces_eq (List.append_nil _).symm hp fun c hc => absurd hc (by simp)

theorem nextToken_eq {ws t : List Byte} {c : Byte} (hp : p.chars = ws ++ c :: t)
    (hws : IsWhitespaces ws) (hc : isWhitespace c = false) :
    p.nextToken = ({ p with chars := c :: t }.parseNextTokenAt c none).parser := by
  unfold nextToken parseNextToken
  rw [skipWhitespaces_eq hp hws (fun c' hc' => by obtain rfl := Option.some.inj hc'; exact hc)]

theorem nextToken_eof (hp : IsWhitespaces p.chars) (hpos : 0 < p.stackSize) :
    p.nextToken.currentToken = .error := by
  unfold nextToken parseNextToken
  rw [skipWhitespaces_all hp]
  dsimp only
  rw [if_neg (fun h => absurd h.1 hpos.ne')]
  rfl

/-! ### Tokens inside of a context -/

theorem Inside.withChars (h : p.Inside isObject) (chars : List Byte) :
    { p with chars }.Inside isObject :=
  ⟨h.pos, h.le, h.bit⟩

/-- The part of `parse_next_token_and_set_current` for arrays. -/
theorem parseNextTokenAt_array (h : p.Inside false) (c : Byte) (toMatch : Option (List Byte)) :
    p.parseNextTokenAt c toMatch =
      if p.currentToken = .startArray then
        if c = chr ']' then plainToken (p.closeContext .endArray)
        else plainToken p.parseFirstTokenInValue
      else if c = chr ',' then
        { plainToken { p with chars := p.chars.tail }.skipWhitespaces.parseFirstTokenInValue with
          hasCommaBeforeToken := true }
      else if c = chr ']' then plainToken (p.closeContext .endArray)
      else plainToken p.setCurrentError := by
  unfold parseNextTokenAt
  rw [if_neg h.pos.ne', h.isObjectContext_eq, if_neg Bool.false_ne_true]

/-- The part of `parse_next_token_and_set_current` for objects. -/
theorem parseNextTokenAt_object (h : p.Inside true) (c : Byte) (toMatch : Option (List Byte)) :
    p.parseNextTokenAt c toMatch =
      if p.currentToken = .startObject then
        if c = chr '\x7d' then plainToken (p.closeContext .endObject) else p.parseFieldName toMatch
      else if p.currentToken = .fieldName then
        if c = chr ':' then
          { plainToken { p with chars := p.chars.tail }.skipWhitespaces.parseFirstTokenInValue with
            hasColonBeforeToken := true }
        else plainToken p.setCurrentError
      else if c = chr '\x7d' then plainToken (p.closeContext .endObject)
      else if c = chr ',' then
        { { p with chars := p.chars.tail }.skipWhitespaces.parseFieldName toMatch with
          hasCommaBeforeToken := true }
      else plainToken p.setCurrentError := by
  unfold parseNextTokenAt
  rw [if_neg h.pos.ne', h.isObjectContext_eq, if_pos rfl]

/-- The end of a context. -/
theorem behind_closeContext {t : JsonToken} (hp : p.chars = c :: rest)
    (ht : t = .endArray ∨ t = .endObject) :
    Behind (p.stackSize - 1) p (p.closeContext t) rest where
  stackSize := rfl
  contexts _ _ := rfl
  beyond := rfl
  maxDepthExceeded := rfl
  chars := by
    show p.chars.tail = rest
    rw [hp]
    rfl
  token := by
    show t ≠ _ ∧ t ≠ _ ∧ t ≠ _ ∧ t ≠ _
    rcases ht with rfl | rfl
    · decide
    · decide

theorem currentRange_eq {text : List Byte} (h : p.tokenStart = text ++ p.chars) :
    p.currentRange = text := by
  unfold currentRange
  rw [h, List.length_append, Nat.add_sub_cancel, List.take_left]

theorem token_closeContext {t : JsonToken} (hp : p.chars = c :: rest) :
    (p.closeContext t).token = ⟨t, [c]⟩ := by
  have hrange : (p.closeContext t).currentRange = [c] := by
    apply currentRange_eq
    show p.chars = [c] ++ p.chars.tail
    rw [hp]
    rfl
  unfold token
  rw [hrange]
  rfl

/-! ### The first token of a value -/

/-- A token that is a value of its own. -/
def scalar (p : JsonParser) (token : JsonToken) (rest : List Byte) : JsonParser :=
  { p with tokenStart := p.chars, chars := rest, currentToken := token }

theorem tryParseString_of_isString {quotes : Byte → Prop} {text : List Byte}
    (h : IsString quotes text) (rest : List Byte) (toMatch : Option (List Byte)) :
    ∃ b, tryParseString (text ++ rest) toMatch = some (b, rest) := by
  obtain ⟨quote, items, -, hfits, rfl⟩ := h
  refine ⟨_, parseString_items items hfits ?_⟩
  simp

theorem exists_isString_of_tryParseString {str rest : List Byte} {toMatch : Option (List Byte)}
    {b : Bool} (h : tryParseString str toMatch = some (b, rest)) :
    ∃ text, IsString (fun quote => str.head? = some quote) text ∧ str = text ++ rest := by
  cases str with
  | nil => exact absurd h (by simp [tryParseString])
  | cons quote str =>
    obtain ⟨items, hfits, hstr⟩ := exists_items_of_parseString h
    refine ⟨_, ⟨quote, items, rfl, hfits, rfl⟩, ?_⟩
    rw [show str = _ from hstr]
    simp

theorem parseFirst_string {text : List Byte} (h : IsString IsQuote text)
    (hp : p.chars = text ++ rest) : p.parseFirstTokenInValue = p.scalar .valueString rest := by
  obtain ⟨b, hparse⟩ := tryParseString_of_isString h rest none
  obtain ⟨quote, items, hquote, -, rfl⟩ := h
  have hfirst : p.chars.headD p.beyond = quote := by
    rw [hp]
    rfl
  have hquote : quote = dquote ∨ quote = squote := hquote
  have hquote' : quote ≠ chr '\x7b' ∧ quote ≠ chr '[' := by
    rcases hquote with rfl | rfl
    · decide
    · decide
  unfold parseFirstTokenInValue
  dsimp only
  rw [hfirst, if_neg hquote'.1, if_neg hquote'.2, if_pos hquote]
  unfold parseStringAndSetCurrent
  dsimp only
  rw [hp, hparse]
  unfold scalar
  rw [hp]

theorem trySkip_iff {expected chars : List Byte} :
    trySkip expected chars = some rest ↔ chars = expected ++ rest := by
  induction expected generalizing chars with
  | nil =>
    rw [trySkip, Option.some_inj]
    rfl
  | cons e expected ih =>
    cases chars with
    | nil => simp [trySkip]
    | cons c chars =>
      rw [trySkip, List.cons_append, List.cons.injEq, ← ih]
      split_ifs with hc
      · exact (and_iff_right hc).symm
      · exact iff_of_false (by simp) fun h => hc h.1

/-- The literals: their first characters, what is expected behind them, and their tokens. -/
abbrev literals : List (Byte × List Byte × JsonToken) :=
  [(chr 't', [chr 'r', chr 'u', chr 'e'], .valueTrue),
    (chr 'f', [chr 'a', chr 'l', chr 's', chr 'e'], .valueFalse),
    (chr 'n', [chr 'u', chr 'l', chr 'l'], .valueNull)]

theorem parseFirst_literal {c : Byte} {expected : List Byte} {t : JsonToken}
    (hliteral : (c, expected, t) ∈ literals)
    (hp : p.chars.headD p.beyond = c) : p.parseFirstTokenInValue =
      parseLiteral { p with tokenStart := p.chars, chars := p.chars.tail } expected t := by
  unfold parseFirstTokenInValue
  dsimp only
  rw [hp]
  simp only [List.mem_cons, List.not_mem_nil, or_false, Prod.mk.injEq] at hliteral
  rcases hliteral with ⟨rfl, rfl, rfl⟩ | ⟨rfl, rfl, rfl⟩ | ⟨rfl, rfl, rfl⟩
  · rfl
  · rfl
  · rfl

theorem parseFirst_literal_append {c : Byte} {expected : List Byte} {t : JsonToken}
    (hliteral : (c, expected, t) ∈ literals)
    (hp : p.chars = c :: (expected ++ rest)) : p.parseFirstTokenInValue = p.scalar t rest := by
  rw [parseFirst_literal hliteral (by rw [hp]; rfl)]
  unfold parseLiteral
  dsimp only
  rw [trySkip_iff.2 (show p.chars.tail = expected ++ rest by rw [hp]; rfl)]
  rfl

/-- The first characters of all values but numbers. -/
def valueStarts : List Byte :=
  [chr '\x7b', chr '[', dquote, squote, chr 't', chr 'f', chr 'n']

theorem parseFirst_other (hc : p.chars.headD p.beyond ∉ valueStarts) : p.parseFirstTokenInValue =
    parseNumberAndSetCurrent { p with tokenStart := p.chars } := by
  simp only [valueStarts, List.mem_cons, List.not_mem_nil, or_false, not_or] at hc
  obtain ⟨h1, h2, h3, h4, h5, h6, h7⟩ := hc
  unfold parseFirstTokenInValue
  dsimp only
  rw [if_neg h1, if_neg h2, if_neg (not_or.2 ⟨h3, h4⟩), if_neg h5, if_neg h6, if_neg h7]

theorem isNumber_head {isFloat : Bool} {text : List Byte} (h : IsNumber isFloat text rest) :
    ∃ c t, text = c :: t ∧ (c = chr '-' ∨ isDigit c) := by
  obtain ⟨hsign, hint, -, -, -, -⟩ := h
  rcases hsign with rfl | rfl
  · cases hint with
    | zero => exact ⟨_, _, rfl, Or.inr (by decide)⟩
    | digits hd =>
      have hle : chr '0' ≤ _ := BitVec.le_trans (by decide) hd.1
      exact ⟨_, _, rfl, Or.inr (by simp [isDigit, hle, hd.2])⟩
  · exact ⟨_, _, rfl, Or.inl rfl⟩

theorem not_mem_valueStarts {c : Byte} (hc : c = chr '-' ∨ isDigit c) : c ∉ valueStarts := by
  intro hmem
  simp only [valueStarts, List.mem_cons, List.not_mem_nil, or_false] at hmem
  rcases hc with rfl | hc
  · exact absurd hmem (by decide)
  · rcases hmem with rfl | rfl | rfl | rfl | rfl | rfl | rfl <;> exact absurd hc (by decide)

theorem parseFirst_number {isFloat : Bool} {text : List Byte} (h : IsNumber isFloat text rest)
    (hp : p.chars = text ++ rest) :
    p.parseFirstTokenInValue = p.scalar (numberToken isFloat) rest := by
  obtain ⟨c, t, hc, hfirst⟩ := isNumber_head h
  have hhead : p.chars.headD p.beyond = c := by
    rw [hp, hc]
    rfl
  have hparse := parseNumber_of_isNumber (p := { p with tokenStart := p.chars }) h hp
  rw [parseFirst_other (by rw [hhead]; exact not_mem_valueStarts hfirst), hparse]
  rfl

/-- The parser inside of the object or array that starts. -/
def opened (p : JsonParser) (t : JsonToken) : JsonParser :=
  { p.pushContext t with tokenStart := p.chars, chars := p.chars.tail, currentToken := t }

theorem parseFirst_start {c : Byte} {t : JsonToken}
    (hstart : (c, t) = (chr '\x7b', JsonToken.startObject) ∨ (c, t) = (chr '[', .startArray))
    (hp : p.chars.headD p.beyond = c) (hdepth : p.stackSize < maxJsonNestingDepth) :
    p.parseFirstTokenInValue = p.opened t := by
  have hparse : p.parseFirstTokenInValue = parseStart { p with tokenStart := p.chars } t := by
    unfold parseFirstTokenInValue
    dsimp only
    rw [hp]
    rcases hstart with h | h
    · obtain ⟨rfl, rfl⟩ := Prod.mk.inj h
      rfl
    · obtain ⟨rfl, rfl⟩ := Prod.mk.inj h
      rfl
  rw [hparse]
  unfold parseStart tryPushContext
  rw [if_pos hdepth]
  rfl

theorem inside_opened (t : JsonToken) (hdepth : p.stackSize < maxJsonNestingDepth) :
    (p.opened t).Inside (decide (t = .startObject)) where
  pos := Nat.succ_pos _
  le := hdepth
  bit := by
    show (setBitValue p.contextStack p.stackSize _).getLsbD (p.stackSize + 1 - 1) = _
    rw [Nat.add_sub_cancel, getLsbD_setBitValue hdepth, if_pos rfl]

theorem Behind.of_opened {t : JsonToken} (hdepth : p.stackSize < maxJsonNestingDepth)
    (h : Behind p.stackSize (p.opened t) q rest) : Behind p.stackSize p q rest where
  stackSize := h.stackSize
  contexts i hi := by
    rw [h.contexts i hi]
    show (setBitValue p.contextStack p.stackSize _).getLsbD i = _
    rw [getLsbD_setBitValue hdepth, if_neg hi.ne]
  beyond := h.beyond
  maxDepthExceeded := h.maxDepthExceeded
  chars := h.chars
  token := h.token

end JsonParser

end SparkRapids.GetJson
