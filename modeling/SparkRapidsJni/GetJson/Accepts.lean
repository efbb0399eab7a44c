import SparkRapidsJni.GetJson.Reads

/-!
# The parser accepts its grammar

What is not read as an error is a value of the grammar (`value_or_fails`), where field names may
stand between two equal characters of any kind: `parse_field_name_and_set_current` takes its first
character for a quote without a look at it. So the parser accepts the documented grammar on the
texts that are no such value with a field name between other characters than quotes
(`parser_accepts_iff`).
-/

namespace SparkRapids.GetJson

open JsonParser

variable {quotes : Byte → Prop} {v : Json} {vs : List Json} {ms : List (List Byte × Json)}
  {name s rest ws ws' : List Byte} {p q r : JsonParser} {ts us : List Token} {c : Byte}

/-! ### What is read is a value of the grammar -/

/-- The run from the current token on ends in `ERROR`. -/
def Fails (p : JsonParser) : Prop :=
  p.currentToken = .error ∨ ¬p.currentToken.IsFinal ∧ p.scan.2 = .error

theorem Fails.scan (h : Fails p.nextToken) : p.scan.2 = .error := by
  rcases h with h | ⟨hnot, h⟩
  · rw [scan_of_isFinal (Or.inr h)]
    exact h
  · rw [(Steps.single hnot).scan_eq]
    exact h

theorem Fails.of_next (hnot : ¬p.currentToken.IsFinal) (h : Fails p.nextToken) : Fails p :=
  Or.inr ⟨hnot, h.scan⟩

theorem ReadsFrom.fails (h : ReadsFrom p ts q) (h' : Fails q.nextToken) : Fails p := by
  obtain ⟨hnot, us, -, hsteps⟩ := h
  refine Or.inr ⟨hnot, ?_⟩
  rw [hsteps.scan_eq]
  exact h'.scan

theorem JsonParser.Steps.length_le (h : Steps p ts q) : q.chars.length ≤ p.chars.length := by
  induction h with
  | refl => exact le_rfl
  | cons hnot _ ih => exact ih.trans (nextToken_lt hnot).le

theorem ReadsFrom.length_le (h : ReadsFrom p.parseFirstTokenInValue ts q) :
    q.chars.length ≤ p.chars.length := by
  obtain ⟨-, us, -, hsteps⟩ := h
  exact hsteps.length_le.trans (takes_parseFirstTokenInValue p).le

theorem ReadsFrom.length_le_of_fieldName (h : ReadsFrom (p.parseFieldName none).parser ts q) :
    q.chars.length ≤ p.chars.length := by
  obtain ⟨-, us, -, hsteps⟩ := h
  exact hsteps.length_le.trans (takes_parseFieldName p none).le

/-- The quotes that the code takes: the first character behind white space. -/
def AnyQuote (c : Byte) : Prop := isWhitespace c = false

/-- Reading a value fails, or there is one, and its nesting is allowed. -/
def ValueOrFails (p : JsonParser) : Prop :=
  p.stackSize ≤ maxJsonNestingDepth → Fails p.parseFirstTokenInValue ∨
    ∃ v rest, Value AnyQuote v p.chars rest ∧ p.stackSize + v.depth ≤ maxJsonNestingDepth

def ElementsOrFails (p : JsonParser) : Prop :=
  p.Inside false → Fails p.parseFirstTokenInValue ∨
    ∃ vs rest, Elements AnyQuote vs p.chars rest ∧
      p.stackSize + Json.elementsDepth vs ≤ maxJsonNestingDepth

def MemberOrFails (p : JsonParser) : Prop :=
  p.Inside true → (∀ c ∈ p.chars.head?, AnyQuote c) → Fails (p.parseFieldName none).parser ∨
    ∃ name v rest, Member AnyQuote name v p.chars rest ∧
      p.stackSize + v.depth ≤ maxJsonNestingDepth

def MembersOrFails (p : JsonParser) : Prop :=
  p.Inside true → (∀ c ∈ p.chars.head?, AnyQuote c) → Fails (p.parseFieldName none).parser ∨
    ∃ ms rest, Members AnyQuote ms p.chars rest ∧
      p.stackSize + Json.membersDepth ms ≤ maxJsonNestingDepth

/-- Behind white space the text ends, or another character follows. -/
theorem behind_whitespaces (chars : List Byte) : IsWhitespaces chars ∨
    ∃ ws c t, IsWhitespaces ws ∧ isWhitespace c = false ∧ chars = ws ++ c :: t := by
  obtain ⟨ws, hws, hchars⟩ := exists_whitespaces chars
  rcases hdrop : chars.dropWhile isWhitespace with _ | ⟨c, t⟩
  · rw [hdrop, List.append_nil] at hchars
    exact Or.inl (hchars ▸ hws)
  · rw [hdrop] at hchars
    have hnot := List.head?_dropWhile_not isWhitespace chars
    rw [hdrop] at hnot
    exact Or.inr ⟨ws, c, t, hws, hnot, hchars⟩

theorem dropWhile_head (chars : List Byte) :
    ∀ c ∈ (chars.dropWhile isWhitespace).head?, AnyQuote c := by
  intro c hc
  have hnot := List.head?_dropWhile_not isWhitespace chars
  rw [Option.mem_def.1 hc] at hnot
  exact hnot

theorem parseFirst_literal_cases {c : Byte} {expected : List Byte} {t : JsonToken}
    (hliteral : (c, expected, t) ∈ literals)
    (hp : p.chars.headD p.beyond = c) : p.parseFirstTokenInValue.currentToken = .error ∨
      ∃ rest, p.chars = c :: (expected ++ rest) := by
  have hne : expected ≠ [] := by
    rintro rfl
    exact absurd hliteral (by simp)
  rw [parseFirst_literal hliteral hp]
  unfold parseLiteral
  split
  · next rest hskip =>
    right
    have htail : p.chars.tail = expected ++ rest := trySkip_iff.1 hskip
    rcases hchars : p.chars with _ | ⟨d, chars⟩
    · rw [hchars] at htail
      exact absurd (List.append_eq_nil_iff.1 htail.symm).1 hne
    · rw [hchars] at htail hp
      obtain rfl : d = c := hp
      exact ⟨rest, by rw [← htail]; rfl⟩
  · exact Or.inl rfl

theorem parseFirst_string_cases (hp : IsQuote (p.chars.headD p.beyond)) :
    p.parseFirstTokenInValue.currentToken = .error ∨
      ∃ text rest, IsString IsQuote text ∧ p.chars = text ++ rest := by
  have hquote : p.chars.headD p.beyond = dquote ∨ p.chars.headD p.beyond = squote := hp
  have hstart : p.chars.headD p.beyond ≠ chr '\x7b' ∧ p.chars.headD p.beyond ≠ chr '[' := by
    rcases hquote with h | h
    · rw [h]
      decide
    · rw [h]
      decide
  have hparse : p.parseFirstTokenInValue =
      parseStringAndSetCurrent { p with tokenStart := p.chars } := by
    unfold parseFirstTokenInValue
    dsimp only
    rw [if_neg hstart.1, if_neg hstart.2, if_pos hquote]
  rw [hparse]
  unfold parseStringAndSetCurrent
  split
  · next rest h =>
    obtain ⟨text, ⟨quote, items, hhead, hfits, rfl⟩, hchars⟩ := exists_isString_of_tryParseString h
    have hchars : p.chars = quote :: itemsText items ++ [quote] ++ rest := hchars
    rw [hchars] at hp
    exact Or.inr ⟨_, rest, ⟨quote, items, hp, hfits, rfl⟩, hchars⟩
  · exact Or.inl rfl

/-- What the first token of a value can be. -/
theorem parseFirst_cases (p : JsonParser) : p.parseFirstTokenInValue.currentToken = .error ∨
    (∃ v rest, Value AnyQuote v p.chars rest ∧ v.depth = 0) ∨
    ∃ c t, ((c, t) = (chr '\x7b', JsonToken.startObject) ∨ (c, t) = (chr '[', .startArray)) ∧
      p.chars.headD p.beyond = c ∧ p.stackSize < maxJsonNestingDepth := by
  have hstart {c : Byte} {t : JsonToken} (hp : p.chars.headD p.beyond = c)
      (h : (c, t) = (chr '\x7b', JsonToken.startObject) ∨ (c, t) = (chr '[', .startArray))
      (herror : ¬p.stackSize < maxJsonNestingDepth →
        p.parseFirstTokenInValue.currentToken = .error) :
      p.parseFirstTokenInValue.currentToken = .error ∨
      (∃ v rest, Value AnyQuote v p.chars rest ∧ v.depth = 0) ∨
      ∃ c t, ((c, t) = (chr '\x7b', JsonToken.startObject) ∨ (c, t) = (chr '[', .startArray)) ∧
        p.chars.headD p.beyond = c ∧ p.stackSize < maxJsonNestingDepth := by
    by_cases hdepth : p.stackSize < maxJsonNestingDepth
    · exact Or.inr (Or.inr ⟨c, t, h, hp, hdepth⟩)
    · exact Or.inl (herror hdepth)
  have herror (t : JsonToken) (hdepth : ¬p.stackSize < maxJsonNestingDepth) :
      (parseStart { p with tokenStart := p.chars } t).currentToken = .error := by
    unfold parseStart tryPushContext
    rw [if_neg hdepth]
    rfl
  -- one case for each character that a value may start with
  by_cases hmem : p.chars.headD p.beyond ∈ valueStarts
  · simp only [valueStarts, List.mem_cons, List.not_mem_nil, or_false] at hmem
    rcases hmem with hp | hp | hp | hp | hp | hp | hp
    · refine hstart hp (Or.inl rfl) fun hdepth => ?_
      unfold parseFirstTokenInValue
      dsimp only
      rw [hp, if_pos rfl]
      exact herror _ hdepth
    · refine hstart hp (Or.inr rfl) fun hdepth => ?_
      unfold parseFirstTokenInValue
      dsimp only
      rw [hp, if_neg (by decide), if_pos rfl]
      exact herror _ hdepth
    · rcases parseFirst_string_cases (Or.inl hp) with h | ⟨text, rest, htext, hchars⟩
      · exact Or.inl h
      · rw [hchars]
        exact Or.inr (Or.inl ⟨.string text, rest, .string htext, rfl⟩)
    · rcases parseFirst_string_cases (Or.inr hp) with h | ⟨text, rest, htext, hchars⟩
      · exact Or.inl h
      · rw [hchars]
        exact Or.inr (Or.inl ⟨.string text, rest, .string htext, rfl⟩)
    · rcases parseFirst_literal_cases (List.mem_cons_self ..) hp with h | ⟨rest, hchars⟩
      · exact Or.inl h
      · rw [hchars]
        exact Or.inr (Or.inl ⟨.trueValue, rest, .trueValue, rfl⟩)
    · rcases parseFirst_literal_cases (List.mem_cons_of_mem _ (List.mem_cons_self ..)) hp with
        h | ⟨rest, hchars⟩
      · exact Or.inl h
      · rw [hchars]
        exact Or.inr (Or.inl ⟨.falseValue, rest, .falseValue, rfl⟩)
    · rcases parseFirst_literal_cases
          (List.mem_cons_of_mem _ (List.mem_cons_of_mem _ (List.mem_cons_self ..))) hp with
        h | ⟨rest, hchars⟩
      · exact Or.inl h
      · rw [hchars]
        exact Or.inr (Or.inl ⟨.nullValue, rest, .nullValue, rfl⟩)
  · -- everything else has to be a number
    rw [parseFirst_other hmem]
    obtain herror | ⟨isFloat, text, rest, hnumber, hchars⟩ :=
      parseNumber_cases { p with tokenStart := p.chars }
    · rw [herror]
      exact Or.inl rfl
    · have hchars : p.chars = text ++ rest := hchars
      rw [hchars]
      exact Or.inr (Or.inl ⟨_, rest, .number hnumber, rfl⟩)

theorem valueOrFails_array (hp : p.chars = chr '[' :: s) (hdepth : p.stackSize < maxJsonNestingDepth)
    (hE : ∀ q : JsonParser, q.chars.length < p.chars.length → ElementsOrFails q) :
    Fails (p.opened .startArray) ∨ ∃ v rest, Value AnyQuote v p.chars rest ∧
      p.stackSize + v.depth ≤ maxJsonNestingDepth := by
  have hin := inside_opened .startArray hdepth
  have hnot : ¬(p.opened .startArray).currentToken.IsFinal :=
    show ¬JsonToken.startArray.IsFinal by decide
  have hopened : (p.opened .startArray).chars = s := congrArg List.tail hp
  rcases behind_whitespaces s with hws | ⟨ws, c, t, hws, hc, hs⟩
  · exact Or.inl (.of_next hnot (Or.inl (nextToken_eof (by rw [hopened]; exact hws) hin.pos)))
  by_cases hend : c = chr ']'
  · subst hend
    rw [hp, hs]
    exact Or.inr ⟨.array [], t, .emptyArray hws, hdepth⟩
  have hfirst := nextToken_array_first hin rfl (hopened.trans hs) hws ⟨c, t, rfl, hc, hend⟩
  have hlt : (c :: t).length < p.chars.length := by
    simp only [hp, hs, List.length_cons, List.length_append]
    omega
  rcases hE { p.opened .startArray with chars := c :: t } hlt (hin.withChars _) with
    hfails | ⟨vs, rest, hvs, hdepth'⟩
  · rw [← hfirst] at hfails
    exact Or.inl (.of_next hnot hfails)
  · have hdepth' : p.stackSize + 1 + Json.elementsDepth vs ≤ maxJsonNestingDepth := hdepth'
    rw [hp, hs]
    refine Or.inr ⟨.array vs, rest, .array hws hvs, ?_⟩
    rw [Json.depth]
    omega

theorem valueOrFails_object (hp : p.chars = chr '\x7b' :: s)
    (hdepth : p.stackSize < maxJsonNestingDepth)
    (hM : ∀ q : JsonParser, q.chars.length < p.chars.length → MembersOrFails q) :
    Fails (p.opened .startObject) ∨ ∃ v rest, Value AnyQuote v p.chars rest ∧
      p.stackSize + v.depth ≤ maxJsonNestingDepth := by
  have hin := inside_opened .startObject hdepth
  have hnot : ¬(p.opened .startObject).currentToken.IsFinal :=
    show ¬JsonToken.startObject.IsFinal by decide
  have hopened : (p.opened .startObject).chars = s := congrArg List.tail hp
  rcases behind_whitespaces s with hws | ⟨ws, c, t, hws, hc, hs⟩
  · exact Or.inl (.of_next hnot (Or.inl (nextToken_eof (by rw [hopened]; exact hws) hin.pos)))
  by_cases hend : c = chr '\x7d'
  · subst hend
    rw [hp, hs]
    exact Or.inr ⟨.object [], t, .emptyObject hws, hdepth⟩
  have hfirst := nextToken_object_first hin rfl (hopened.trans hs) hws ⟨c, t, rfl, hc, hend⟩
  have hlt : (c :: t).length < p.chars.length := by
    simp only [hp, hs, List.length_cons, List.length_append]
    omega
  have hhead : ∀ c' ∈ (c :: t).head?, AnyQuote c' := by
    intro c' hc'
    obtain rfl := Option.some.inj hc'
    exact hc
  rcases hM { p.opened .startObject with chars := c :: t } hlt (hin.withChars _) hhead with
    hfails | ⟨ms, rest, hms, hdepth'⟩
  · rw [← hfirst] at hfails
    exact Or.inl (.of_next hnot hfails)
  · have hdepth' : p.stackSize + 1 + Json.membersDepth ms ≤ maxJsonNestingDepth := hdepth'
    rw [hp, hs]
    refine Or.inr ⟨.object ms, rest, .object hws (fun h => hend (Option.some.inj h)) hms, ?_⟩
    rw [Json.depth]
    omega

theorem valueOrFails_step
    (hE : ∀ q : JsonParser, q.chars.length < p.chars.length → ElementsOrFails q)
    (hM : ∀ q : JsonParser, q.chars.length < p.chars.length → MembersOrFails q) :
    ValueOrFails p := by
  intro hle
  rcases parseFirst_cases p with herror | ⟨v, rest, hv, hdepth⟩ | ⟨c, t, hstart, hp, hdepth⟩
  · exact Or.inl (Or.inl herror)
  · exact Or.inr ⟨v, rest, hv, by rwa [hdepth, Nat.add_zero]⟩
  · rw [parseFirst_start hstart hp hdepth]
    rcases hchars : p.chars with _ | ⟨d, s⟩
    · -- the character was read behind the end
      have hws : IsWhitespaces (p.opened t).chars := by
        show IsWhitespaces p.chars.tail
        rw [hchars]
        exact fun c hc => absurd hc (by simp)
      have heof := nextToken_eof hws (inside_opened t hdepth).pos
      refine Or.inl (.of_next ?_ (Or.inl heof))
      show ¬t.IsFinal
      rcases hstart with h | h
      · obtain ⟨rfl, rfl⟩ := Prod.mk.inj h
        decide
      · obtain ⟨rfl, rfl⟩ := Prod.mk.inj h
        decide
    · rw [hchars] at hp
      obtain rfl : d = c := hp
      rw [← hchars]
      rcases hstart with h | h
      · obtain ⟨rfl, rfl⟩ := Prod.mk.inj h
        exact valueOrFails_object hchars hdepth hM
      · obtain ⟨rfl, rfl⟩ := Prod.mk.inj h
        exact valueOrFails_array hchars hdepth hE

theorem length_dropWhile_lt {s ws t : List Byte} {c : Byte} {n : ℕ} (hs : s = ws ++ c :: t)
    (hlen : s.length ≤ n) : (t.dropWhile isWhitespace).length < n := by
  have hle := List.length_dropWhile_le isWhitespace t
  rw [hs, List.length_append, List.length_cons] at hlen
  omega

theorem elementsOrFails_step (hV : ValueOrFails p)
    (hE : ∀ q : JsonParser, q.chars.length < p.chars.length → ElementsOrFails q) :
    ElementsOrFails p := by
  intro hin
  rcases hV hin.le with hfails | ⟨v, mid, hv, hdepth⟩
  · exact Or.inl hfails
  obtain ⟨q, hreads, hbehind⟩ := hv.reads (fun _ h => h) p rfl hdepth
  have hin' := hin.of_sameBelow hbehind.toSameBelow
  have hlen := hreads.length_le
  rcases behind_whitespaces q.chars with hws | ⟨ws, c, t, hws, hc, hchars⟩
  · exact Or.inl (hreads.fails (Or.inl (nextToken_eof hws hin'.pos)))
  have hmid : mid = ws ++ c :: t := hbehind.chars.symm.trans hchars
  by_cases hend : c = chr ']'
  · subst hend
    rw [hmid] at hv
    exact Or.inr ⟨[v], t, .last hv hws, by rwa [Json.elementsDepth, Json.elementsDepth, max_zero]⟩
  by_cases hcomma : c = chr ','
  · subst hcomma
    have hnext := nextToken_array_comma hin' hbehind.token.2.2.2 hchars hws
    have hlt := length_dropWhile_lt hchars hlen
    rcases hE { q with chars := t.dropWhile isWhitespace } hlt (hin'.withChars _) with
      hfails | ⟨vs, rest, hvs, hdepth'⟩
    · rw [← hnext] at hfails
      exact Or.inl (hreads.fails hfails)
    · obtain ⟨ws', hws', ht⟩ := exists_whitespaces t
      rw [hmid, ht] at hv
      refine Or.inr ⟨v :: vs, rest, .cons hv hws hws' hvs, ?_⟩
      have hdepth' : q.stackSize + Json.elementsDepth vs ≤ maxJsonNestingDepth := hdepth'
      rw [hbehind.stackSize] at hdepth'
      rw [Json.elementsDepth]
      omega
  · left
    refine hreads.fails (Or.inl ?_)
    rw [nextToken_eq hchars hws hc, parseNextTokenAt_array (hin'.withChars _),
      if_neg hbehind.token.2.2.2, if_neg hcomma, if_neg hend]
    rfl

theorem memberOrFails_step (hV : ∀ q : JsonParser, q.chars.length < p.chars.length → ValueOrFails q) :
    MemberOrFails p := by
  intro hin hhead
  rcases hparse : tryParseString p.chars none with _ | ⟨b, rest1⟩
  · left
    unfold parseFieldName
    rw [hparse]
    exact Or.inl rfl
  obtain ⟨name, ⟨quote, items, hquote, hfits, rfl⟩, hchars⟩ := exists_isString_of_tryParseString hparse
  have hname : IsString AnyQuote (quote :: itemsText items ++ [quote]) :=
    ⟨quote, items, hhead quote hquote, hfits, rfl⟩
  have hlen := length_of_tryParseString hparse
  rw [parseFieldName_of_isString hname hchars none]
  have hnot : ¬(named p rest1).currentToken.IsFinal := show ¬JsonToken.fieldName.IsFinal by decide
  have hin' := inside_named hin rest1
  rcases behind_whitespaces rest1 with hws | ⟨ws, c, t, hws, hc, hrest⟩
  · exact Or.inl (.of_next hnot (Or.inl (nextToken_eof hws hin'.pos)))
  by_cases hcolon : c = chr ':'
  · subst hcolon
    have hnext := nextToken_colon hin' rfl hrest hws
    have hlt := length_dropWhile_lt hrest hlen.le
    rcases hV { named p rest1 with chars := t.dropWhile isWhitespace } hlt hin.le with
      hfails | ⟨v, rest, hv, hdepth⟩
    · rw [← hnext] at hfails
      exact Or.inl (.of_next hnot hfails)
    · obtain ⟨ws', hws', ht⟩ := exists_whitespaces t
      rw [hchars, hrest, ht]
      exact Or.inr ⟨_, v, rest, .mk hname hws hws' hv, hdepth⟩
  · left
    refine .of_next hnot (Or.inl ?_)
    have hstart : ({ named p rest1 with chars := c :: t }).currentToken ≠ .startObject :=
      show JsonToken.fieldName ≠ .startObject by decide
    have hfield : ({ named p rest1 with chars := c :: t }).currentToken = .fieldName := rfl
    rw [nextToken_eq hrest hws hc, parseNextTokenAt_object (hin'.withChars _), if_neg hstart,
      if_pos hfield, if_neg hcolon]
    rfl

theorem membersOrFails_step (hN : MemberOrFails p)
    (hM : ∀ q : JsonParser, q.chars.length < p.chars.length → MembersOrFails q) :
    MembersOrFails p := by
  intro hin hhead
  rcases hN hin hhead with hfails | ⟨name, v, mid, hm, hdepth⟩
  · exact Or.inl hfails
  obtain ⟨q, hreads, hbehind⟩ := hm.reads (Value.reads fun _ h => h) p rfl hin hdepth
  have hin' := hin.of_sameBelow hbehind.toSameBelow
  have hlen := hreads.length_le_of_fieldName
  rcases behind_whitespaces q.chars with hws | ⟨ws, c, t, hws, hc, hchars⟩
  · exact Or.inl (hreads.fails (Or.inl (nextToken_eof hws hin'.pos)))
  have hmid : mid = ws ++ c :: t := hbehind.chars.symm.trans hchars
  -- behind a member: the end, a comma, or a failure
  by_cases hend : c = chr '\x7d'
  · subst hend
    rw [hmid] at hm
    exact Or.inr ⟨[(name, v)], t, .last hm hws,
      by rwa [Json.membersDepth, Json.membersDepth, max_zero]⟩
  by_cases hcomma : c = chr ','
  · subst hcomma
    have hnext := nextToken_object_comma hin' ⟨hbehind.token.2.2.1, hbehind.token.2.1⟩ hchars hws
    have hlt := length_dropWhile_lt hchars hlen
    rcases hM { q with chars := t.dropWhile isWhitespace } hlt (hin'.withChars _)
        (dropWhile_head t) with hfails | ⟨ms, rest, hms, hdepth'⟩
    · rw [← hnext] at hfails
      exact Or.inl (hreads.fails hfails)
    · obtain ⟨ws', hws', ht⟩ := exists_whitespaces t
      rw [hmid, ht] at hm
      refine Or.inr ⟨(name, v) :: ms, rest, .cons hm hws hws' hms, ?_⟩
      have hdepth' : q.stackSize + Json.membersDepth ms ≤ maxJsonNestingDepth := hdepth'
      rw [hbehind.stackSize] at hdepth'
      rw [Json.membersDepth]
      omega
  · left
    refine hreads.fails (Or.inl ?_)
    rw [nextToken_eq hchars hws hc, parseNextTokenAt_object (hin'.withChars _),
      if_neg hbehind.token.2.2.1, if_neg hbehind.token.2.1, if_neg hend, if_neg hcomma]
    rfl

/-- Whatever the text is, reading a value fails or there is one. -/
theorem value_or_fails (p : JsonParser) : ValueOrFails p := by
  have hall (n : Nat) : ∀ p : JsonParser, p.chars.length < n →
      ValueOrFails p ∧ ElementsOrFails p ∧ MembersOrFails p := by
    induction n with
    | zero => exact fun p hp => absurd hp (Nat.not_lt_zero _)
    | succ n ih =>
      intro p hp
      have hle (q : JsonParser) (hq : q.chars.length < p.chars.length) : q.chars.length < n :=
        hq.trans_le (Nat.le_of_lt_succ hp)
      have hV := valueOrFails_step (fun q hq => (ih q (hle q hq)).2.1)
        fun q hq => (ih q (hle q hq)).2.2
      have hE := elementsOrFails_step hV fun q hq => (ih q (hle q hq)).2.1
      have hN := memberOrFails_step fun q hq => (ih q (hle q hq)).1
      exact ⟨hV, hE, membersOrFails_step hN fun q hq => (ih q (hle q hq)).2.2⟩
  exact (hall _ p (Nat.lt_succ_self _)).1

/-! ### From the start of a text to its end -/

theorem nextToken_init (hp : p.chars = ws ++ s) (hinit : p.currentToken = .init)
    (hsize : p.stackSize = 0) (hws : IsWhitespaces ws)
    (hs : ∃ c t, s = c :: t ∧ isWhitespace c = false) :
    p.nextToken = ({ p with chars := s }).parseFirstTokenInValue := by
  obtain ⟨c, t, rfl, hc⟩ := hs
  rw [nextToken_eq hp hws hc]
  unfold parseNextTokenAt
  rw [if_pos hsize, if_pos hinit]
  rfl

theorem nextToken_init_eof (hp : IsWhitespaces p.chars) (hinit : p.currentToken = .init) :
    p.nextToken.currentToken = .error := by
  unfold nextToken parseNextToken
  rw [skipWhitespaces_all hp]
  dsimp only
  rw [if_neg (fun h => h.2 hinit)]
  rfl

/-- Behind the first value the rest of the text is not looked at. -/
theorem nextToken_success (hsize : p.stackSize = 0) (hinit : p.currentToken ≠ .init) :
    p.nextToken.currentToken = .success := by
  unfold nextToken parseNextToken
  dsimp only
  split
  · unfold parseNextTokenAt
    rw [if_pos (show p.skipWhitespaces.stackSize = 0 from hsize),
      if_neg (show p.skipWhitespaces.currentToken ≠ .init from hinit)]
    rfl
  · rw [if_pos (show p.skipWhitespaces.stackSize = 0 ∧ p.skipWhitespaces.currentToken ≠ .init from
      ⟨hsize, hinit⟩)]
    rfl

variable {chars : List Byte}

/-- A value at the start of a text is what the parser reads of it. -/
theorem scan_of_startsWith (hquotes : ∀ c, quotes c → isWhitespace c = false) (beyond : Byte)
    (h : StartsWith quotes v chars) (hdepth : v.depth ≤ maxJsonNestingDepth) :
    (make chars beyond).scan = (v.tokens, .success) := by
  obtain ⟨ws, s, rest, rfl, hws, hv⟩ := h
  obtain ⟨c, t, hs, hc, -⟩ := hv.head_ne
  have hnext := nextToken_init (p := make (ws ++ s) beyond) rfl rfl rfl hws ⟨c, t, hs, hc⟩
  obtain ⟨q, hreads, hbehind⟩ := hv.reads hquotes { make (ws ++ s) beyond with chars := s } rfl
    (show 0 + v.depth ≤ _ by rwa [Nat.zero_add])
  rw [← hnext] at hreads
  have hsuccess := nextToken_success hbehind.stackSize hbehind.token.1
  rw [hreads.steps.scan_eq, scan_of_isFinal (Or.inl hsuccess), hsuccess, List.append_nil]

/-- A text that the parser accepts starts with a value, whose field names may be quoted by any
characters. -/
theorem exists_startsWith_of_scan {beyond : Byte} (h : (make chars beyond).scan.2 = .success) :
    ∃ v, StartsWith AnyQuote v chars ∧ v.depth ≤ maxJsonNestingDepth := by
  have hfails (hf : Fails (make chars beyond).nextToken) : False := by
    rw [hf.scan] at h
    exact absurd h (by decide)
  rcases behind_whitespaces chars with hws | ⟨ws, c, t, hws, hc, hchars⟩
  · exact (hfails (Or.inl (nextToken_init_eof hws rfl))).elim
  have hnext := nextToken_init (p := make chars beyond) hchars rfl rfl hws ⟨c, t, rfl, hc⟩
  rcases value_or_fails { make chars beyond with chars := c :: t } (Nat.zero_le _) with
    hf | ⟨v, rest, hv, hdepth⟩
  · rw [← hnext] at hf
    exact (hfails hf).elim
  · have hdepth : 0 + v.depth ≤ maxJsonNestingDepth := hdepth
    exact ⟨v, ⟨ws, c :: t, rest, hchars, hws, hv⟩, by rwa [Nat.zero_add] at hdepth⟩

theorem isWhitespace_of_isQuote (c : Byte) (hc : IsQuote c) : isWhitespace c = false := by
  rcases hc with rfl | rfl
  · decide
  · decide

/-- The parser accepts the text if it starts with a value of the documented grammar, and only then,
and the tokens are the ones of the value. -/
def AcceptsGrammar (chars : List Byte) (beyond : Byte) : Prop :=
  ((make chars beyond).scan.2 = .success ↔
    ∃ v, StartsWith IsQuote v chars ∧ v.depth ≤ maxJsonNestingDepth) ∧
  ∀ v, StartsWith IsQuote v chars → v.depth ≤ maxJsonNestingDepth →
    (make chars beyond).scan.1 = v.tokens

theorem not_acceptsGrammar {beyond : Byte} (hv : StartsWith AnyQuote v chars)
    (hdepth : v.depth ≤ maxJsonNestingDepth) (hnames : ¬NamesQuoted IsQuote v.tokens) :
    ¬AcceptsGrammar chars beyond := by
  rintro ⟨haccepts, htokens⟩
  have hscan := scan_of_startsWith (fun _ h => h) beyond hv hdepth
  obtain ⟨v', hv', hdepth'⟩ := haccepts.1 (by rw [hscan])
  have heq := htokens v' hv' hdepth'
  rw [hscan] at heq
  obtain ⟨ws, s, rest, -, -, hvalue⟩ := hv'
  have hquoted := hvalue.namesQuoted
  rw [← heq] at hquoted
  exact hnames hquoted

theorem acceptsGrammar_of_namesQuoted {beyond : Byte}
    (h : ∀ v, StartsWith AnyQuote v chars → v.depth ≤ maxJsonNestingDepth →
      NamesQuoted IsQuote v.tokens) : AcceptsGrammar chars beyond := by
  refine ⟨⟨fun hsuccess => ?_, ?_⟩, ?_⟩
  · obtain ⟨v, hv, hdepth⟩ := exists_startsWith_of_scan hsuccess
    have hnames := h v hv hdepth
    obtain ⟨ws, s, rest, hchars, hws, hvalue⟩ := hv
    exact ⟨v, ⟨ws, s, rest, hchars, hws, hvalue.restrict hnames⟩, hdepth⟩
  · rintro ⟨v, hv, hdepth⟩
    rw [scan_of_startsWith isWhitespace_of_isQuote beyond hv hdepth]
  · intro v hv hdepth
    rw [scan_of_startsWith isWhitespace_of_isQuote beyond hv hdepth]

/-- The grammar is accepted, and nothing else, but for the field names: `{xax:null}` is read as
an object with the name `a`. -/
theorem parser_accepts_iff (chars : List Byte) (beyond : Byte) : AcceptsGrammar chars beyond ↔
    ¬∃ v, StartsWith AnyQuote v chars ∧ v.depth ≤ maxJsonNestingDepth ∧
      ¬NamesQuoted IsQuote v.tokens := by
  constructor
  · rintro haccepts ⟨v, hv, hdepth, hnames⟩
    exact not_acceptsGrammar hv hdepth hnames haccepts
  · intro hnone
    apply acceptsGrammar_of_namesQuoted
    intro v hv hdepth
    by_contra hnames
    exact hnone ⟨v, hv, hdepth, hnames⟩

/-- `{xax:null}` -/
def nameBetweenLetters : List Byte :=
  chr '\x7b' :: ([chr 'x', chr 'a', chr 'x'] ++ chr ':' :: (Json.nullText ++ [chr '\x7d']))

theorem nameBetweenLetters_accepted : ¬AcceptsGrammar nameBetweenLetters 0 := by
  have hnil : IsWhitespaces [] := fun c hc => absurd hc (by simp)
  have hname : IsString AnyQuote [chr 'x', chr 'a', chr 'x'] := by
    refine ⟨chr 'x', [.char (chr 'a')], by unfold AnyQuote; decide, ?_, rfl⟩
    intro item hitem
    obtain rfl := List.mem_singleton.1 hitem
    exact ⟨by decide, by decide⟩
  have hmember : Member AnyQuote [chr 'x', chr 'a', chr 'x'] .nullValue
      ([chr 'x', chr 'a', chr 'x'] ++ chr ':' :: (Json.nullText ++ [chr '\x7d'])) [chr '\x7d'] :=
    .mk (s := Json.nullText ++ [chr '\x7d']) hname hnil hnil .nullValue
  have hvalue : Value AnyQuote (.object [([chr 'x', chr 'a', chr 'x'], .nullValue)])
      nameBetweenLetters [] :=
    .object (s := [chr 'x', chr 'a', chr 'x'] ++ chr ':' :: (Json.nullText ++ [chr '\x7d'])) hnil
      (by decide) (.last hmember hnil)
  refine not_acceptsGrammar ⟨[], _, [], rfl, hnil, hvalue⟩ (by decide) ?_
  intro hnames
  have hmem : (⟨.fieldName, [chr 'x', chr 'a', chr 'x']⟩ : Token) ∈
      (Json.object [([chr 'x', chr 'a', chr 'x'], .nullValue)]).tokens := by
    simp [Json.tokens, Json.membersTokens]
  obtain ⟨quote, hquote, hx⟩ := hnames _ hmem rfl
  obtain rfl := Option.some.inj hquote
  exact absurd hx (by unfold IsQuote; decide)

end SparkRapids.GetJson
