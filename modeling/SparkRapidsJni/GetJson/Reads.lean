import SparkRapidsJni.GetJson.Steps

/-!
# Values of the grammar are read

A value of the grammar is read token by token, whatever characters field names are quoted by
(`Value.reads`): the first call of `next_token` goes through its first token, and the calls up to its
end leave the contexts outside of the value as they were.
-/

namespace SparkRapids.GetJson

open JsonParser

variable {quotes : Byte → Prop} {v : Json} {vs : List Json} {ms : List (List Byte × Json)}
  {name s rest ws ws' : List Byte} {p q r : JsonParser} {ts us : List Token} {c : Byte}

/-! ### Runs from the current token on -/

/-- A run whose first token is the current one. -/
def ReadsFrom (p : JsonParser) (ts : List Token) (q : JsonParser) : Prop :=
  ¬p.currentToken.IsFinal ∧ ∃ us, ts = p.token :: us ∧ Steps p us q

theorem ReadsFrom.steps (h : ReadsFrom p.nextToken ts q) : Steps p ts q := by
  obtain ⟨hnot, us, rfl, hsteps⟩ := h
  exact .cons hnot hsteps

theorem ReadsFrom.append (h : ReadsFrom p ts q) (h' : Steps q us r) : ReadsFrom p (ts ++ us) r := by
  obtain ⟨hnot, us', rfl, hsteps⟩ := h
  exact ⟨hnot, us' ++ us, rfl, hsteps.trans h'⟩

theorem ReadsFrom.cons (hnot : ¬p.currentToken.IsFinal) (h : Steps p ts q) :
    ReadsFrom p (p.token :: ts) q :=
  ⟨hnot, ts, rfl, h⟩

/-! ### What values start with -/

theorem Value.head (h : Value quotes v s rest) :
    ∃ c t, s = c :: t ∧ (c ∈ valueStarts ∨ c = chr '-' ∨ isDigit c) := by
  cases h with
  | string htext =>
    obtain ⟨quote, items, hquote, -, rfl⟩ := htext
    refine ⟨quote, _, rfl, Or.inl ?_⟩
    rcases hquote with rfl | rfl
    · decide
    · decide
  | number htext =>
    obtain ⟨c, t, rfl, hc⟩ := isNumber_head htext
    exact ⟨c, _, rfl, Or.inr hc⟩
  | trueValue => exact ⟨_, _, rfl, Or.inl (by decide)⟩
  | falseValue => exact ⟨_, _, rfl, Or.inl (by decide)⟩
  | nullValue => exact ⟨_, _, rfl, Or.inl (by decide)⟩
  | emptyArray => exact ⟨_, _, rfl, Or.inl (by decide)⟩
  | array => exact ⟨_, _, rfl, Or.inl (by decide)⟩
  | emptyObject => exact ⟨_, _, rfl, Or.inl (by decide)⟩
  | object => exact ⟨_, _, rfl, Or.inl (by decide)⟩

theorem Value.head_ne (h : Value quotes v s rest) :
    ∃ c t, s = c :: t ∧ isWhitespace c = false ∧ c ≠ chr ']' := by
  obtain ⟨c, t, rfl, hc⟩ := h.head
  refine ⟨c, t, rfl, ?_⟩
  simp only [valueStarts, List.mem_cons, List.not_mem_nil, or_false] at hc
  rcases hc with hc | rfl | hc
  · rcases hc with rfl | rfl | rfl | rfl | rfl | rfl | rfl <;> decide
  · decide
  · constructor
    · by_contra hws
      simp only [isWhitespace, Bool.not_eq_false, Bool.or_eq_true, decide_eq_true_eq] at hws
      rcases hws with ((rfl | rfl) | rfl) | rfl <;> exact absurd hc (by decide)
    · rintro rfl
      exact absurd hc (by decide)

theorem Elements.head_ne (h : Elements quotes vs s rest) :
    ∃ c t, s = c :: t ∧ isWhitespace c = false ∧ c ≠ chr ']' := by
  cases h with
  | last hv => exact hv.head_ne
  | cons hv => exact hv.head_ne

theorem Members.head (hquotes : ∀ c, quotes c → isWhitespace c = false)
    (h : Members quotes ms s rest) : ∃ c t, s = c :: t ∧ isWhitespace c = false := by
  have hmember {name : List Byte} {v : Json} {rest : List Byte} (hm : Member quotes name v s rest) :
      ∃ c t, s = c :: t ∧ isWhitespace c = false := by
    obtain ⟨⟨quote, items, hquote, -, rfl⟩, -, -, -⟩ := hm
    exact ⟨quote, _, rfl, hquotes _ hquote⟩
  cases h with
  | last hm => exact hmember hm
  | cons hm => exact hmember hm

/-! ### Tokens between values -/

theorem not_isFinal_closeContext {t : JsonToken} (ht : t = .endArray ∨ t = .endObject) :
    ¬(p.closeContext t).currentToken.IsFinal := by
  show ¬t.IsFinal
  rcases ht with rfl | rfl
  · decide
  · decide

/-- The end of a context is a step. -/
theorem steps_closeContext {t : JsonToken} (ht : t = .endArray ∨ t = .endObject)
    (hnext : p.nextToken = ({ p with chars := c :: rest }).closeContext t) :
    Steps p [⟨t, [c]⟩] p.nextToken ∧ Behind (p.stackSize - 1) p p.nextToken rest := by
  have hbehind : Behind (p.stackSize - 1) { p with chars := c :: rest } p.nextToken rest := by
    rw [hnext]
    exact behind_closeContext (p := { p with chars := c :: rest }) rfl ht
  have htoken : p.nextToken.token = ⟨t, [c]⟩ := by
    rw [hnext]
    exact token_closeContext rfl
  refine ⟨?_, ⟨⟨hbehind.stackSize, hbehind.contexts, hbehind.beyond, hbehind.maxDepthExceeded⟩,
    hbehind.chars, hbehind.token⟩⟩
  rw [← htoken]
  exact Steps.single (by rw [hnext]; exact not_isFinal_closeContext ht)

theorem nextToken_array_end (hin : p.Inside false) (hp : p.chars = ws ++ chr ']' :: rest)
    (hws : IsWhitespaces ws) :
    p.nextToken = ({ p with chars := chr ']' :: rest }).closeContext .endArray := by
  rw [nextToken_eq hp hws (by decide), parseNextTokenAt_array (hin.withChars _)]
  by_cases htoken : p.currentToken = .startArray
  · rw [if_pos htoken, if_pos rfl]
    rfl
  · rw [if_neg htoken, if_neg (by decide), if_pos rfl]
    rfl

theorem nextToken_array_first (hin : p.Inside false) (htoken : p.currentToken = .startArray)
    (hp : p.chars = ws ++ s) (hws : IsWhitespaces ws)
    (hs : ∃ c t, s = c :: t ∧ isWhitespace c = false ∧ c ≠ chr ']') :
    p.nextToken = ({ p with chars := s }).parseFirstTokenInValue := by
  obtain ⟨c, t, rfl, hc, hne⟩ := hs
  rw [nextToken_eq hp hws hc, parseNextTokenAt_array (hin.withChars _), if_pos htoken, if_neg hne]
  rfl

theorem nextToken_array_comma (hin : p.Inside false) (htoken : p.currentToken ≠ .startArray)
    (hp : p.chars = ws ++ chr ',' :: rest) (hws : IsWhitespaces ws) :
    p.nextToken = ({ p with chars := rest.dropWhile isWhitespace }).parseFirstTokenInValue := by
  rw [nextToken_eq hp hws (by decide), parseNextTokenAt_array (hin.withChars _), if_neg htoken,
    if_pos rfl]
  rfl

theorem nextToken_object_end (hin : p.Inside true) (htoken : p.currentToken ≠ .fieldName)
    (hp : p.chars = ws ++ chr '\x7d' :: rest) (hws : IsWhitespaces ws) :
    p.nextToken = ({ p with chars := chr '\x7d' :: rest }).closeContext .endObject := by
  rw [nextToken_eq hp hws (by decide), parseNextTokenAt_object (hin.withChars _)]
  by_cases hstart : p.currentToken = .startObject
  · rw [if_pos hstart, if_pos rfl]
    rfl
  · rw [if_neg hstart, if_neg htoken, if_pos rfl]
    rfl

theorem nextToken_object_first (hin : p.Inside true) (htoken : p.currentToken = .startObject)
    (hp : p.chars = ws ++ s) (hws : IsWhitespaces ws)
    (hs : ∃ c t, s = c :: t ∧ isWhitespace c = false ∧ c ≠ chr '\x7d') :
    p.nextToken = (({ p with chars := s }).parseFieldName none).parser := by
  obtain ⟨c, t, rfl, hc, hne⟩ := hs
  rw [nextToken_eq hp hws hc, parseNextTokenAt_object (hin.withChars _), if_pos htoken, if_neg hne]

theorem nextToken_object_comma (hin : p.Inside true)
    (htoken : p.currentToken ≠ .startObject ∧ p.currentToken ≠ .fieldName)
    (hp : p.chars = ws ++ chr ',' :: rest) (hws : IsWhitespaces ws) :
    p.nextToken = (({ p with chars := rest.dropWhile isWhitespace }).parseFieldName none).parser := by
  rw [nextToken_eq hp hws (by decide), parseNextTokenAt_object (hin.withChars _), if_neg htoken.1,
    if_neg htoken.2, if_neg (by decide), if_pos rfl]
  rfl

theorem nextToken_colon (hin : p.Inside true) (htoken : p.currentToken = .fieldName)
    (hp : p.chars = ws ++ chr ':' :: rest) (hws : IsWhitespaces ws) :
    p.nextToken = ({ p with chars := rest.dropWhile isWhitespace }).parseFirstTokenInValue := by
  have htoken' : ({ p with chars := chr ':' :: rest }).currentToken ≠ .startObject := by
    show p.currentToken ≠ _
    rw [htoken]
    decide
  rw [nextToken_eq hp hws (by decide), parseNextTokenAt_object (hin.withChars _), if_neg htoken',
    if_pos htoken, if_pos rfl]
  rfl

/-! ### Values of the grammar are read -/

/-- A token that is a value of its own is read. -/
theorem scalar_reads {text : List Byte} {t : JsonToken}
    (ht : t ∈ [JsonToken.valueString, .valueNumberInt, .valueNumberFloat, .valueTrue, .valueFalse,
      .valueNull])
    (hp : p.chars = text ++ rest) (hfirst : p.parseFirstTokenInValue = p.scalar t rest) :
    ∃ q, ReadsFrom p.parseFirstTokenInValue [⟨t, text⟩] q ∧ Behind p.stackSize p q rest := by
  have hrange : (p.scalar t rest).currentRange = text := currentRange_eq hp
  have htoken : (p.scalar t rest).token = ⟨t, text⟩ := by
    unfold token
    rw [hrange]
    rfl
  rw [hfirst, ← htoken]
  refine ⟨p.scalar t rest, .cons ?_ (.refl _), ⟨⟨rfl, fun _ _ => rfl, rfl, rfl⟩, rfl, ?_⟩⟩
  · show ¬t.IsFinal
    simp only [List.mem_cons, List.not_mem_nil, or_false] at ht
    rcases ht with rfl | rfl | rfl | rfl | rfl | rfl <;> decide
  · show t ≠ _ ∧ t ≠ _ ∧ t ≠ _ ∧ t ≠ _
    simp only [List.mem_cons, List.not_mem_nil, or_false] at ht
    rcases ht with rfl | rfl | rfl | rfl | rfl | rfl <;> decide

theorem token_opened {t : JsonToken} (hp : p.chars = c :: rest) : (p.opened t).token = ⟨t, [c]⟩ := by
  have hrange : (p.opened t).currentRange = [c] := by
    apply currentRange_eq
    show p.chars = [c] ++ p.chars.tail
    rw [hp]
    rfl
  unfold token
  rw [hrange]
  rfl

/-- The start of an object or array, and what is read inside of it. -/
theorem opened_reads {t : JsonToken}
    (hstart : (c, t) = (chr '\x7b', JsonToken.startObject) ∨ (c, t) = (chr '[', .startArray))
    (hp : p.chars = c :: s) (hdepth : p.stackSize < maxJsonNestingDepth)
    (h : ∃ q, Steps (p.opened t) ts q ∧ Behind p.stackSize (p.opened t) q rest) :
    ∃ q, ReadsFrom p.parseFirstTokenInValue (⟨t, [c]⟩ :: ts) q ∧ Behind p.stackSize p q rest := by
  obtain ⟨q, hsteps, hbehind⟩ := h
  refine ⟨q, ?_, hbehind.of_opened hdepth⟩
  rw [parseFirst_start hstart (by rw [hp]; rfl) hdepth, ← token_opened hp]
  refine .cons ?_ hsteps
  show ¬t.IsFinal
  rcases hstart with h | h
  · obtain ⟨rfl, rfl⟩ := Prod.mk.inj h
    decide
  · obtain ⟨rfl, rfl⟩ := Prod.mk.inj h
    decide

/-- Behind a name, where the colon is next. -/
def named (p : JsonParser) (rest : List Byte) : JsonParser :=
  { p with tokenStart := p.chars, chars := rest, currentToken := .fieldName }

theorem parseFieldName_of_isString (hname : IsString quotes name) (hp : p.chars = name ++ rest)
    (toMatch : Option (List Byte)) : (p.parseFieldName toMatch).parser = named p rest := by
  obtain ⟨b, hparse⟩ := tryParseString_of_isString hname rest toMatch
  unfold parseFieldName named
  rw [hp, hparse]
  rfl

theorem token_named (hp : p.chars = name ++ rest) : (named p rest).token = ⟨.fieldName, name⟩ := by
  have hrange : (named p rest).currentRange = name := currentRange_eq hp
  unfold token
  rw [hrange]
  rfl

theorem inside_named {isObject : Bool} (h : p.Inside isObject) (rest : List Byte) :
    (named p rest).Inside isObject :=
  ⟨h.pos, h.le, h.bit⟩

/-- The value `v` is read from `s`, with `rest` behind it. -/
def ReadsValue (v : Json) (s rest : List Byte) : Prop :=
  ∀ p : JsonParser, p.chars = s → p.stackSize + v.depth ≤ maxJsonNestingDepth →
    ∃ q, ReadsFrom p.parseFirstTokenInValue v.tokens q ∧ Behind p.stackSize p q rest

/-- The elements `vs` of an array and its end are read from `s`. -/
def ReadsElements (vs : List Json) (s rest : List Byte) : Prop :=
  ∀ p : JsonParser, p.chars = s → p.Inside false →
    p.stackSize + Json.elementsDepth vs ≤ maxJsonNestingDepth →
    ∃ q, ReadsFrom p.parseFirstTokenInValue
        (Json.elementsTokens vs ++ [⟨.endArray, [chr ']']⟩]) q ∧ Behind (p.stackSize - 1) p q rest

/-- The member of the name `name` and the value `v` is read from `s`. -/
def ReadsMember (name : List Byte) (v : Json) (s rest : List Byte) : Prop :=
  ∀ p : JsonParser, p.chars = s → p.Inside true → p.stackSize + v.depth ≤ maxJsonNestingDepth →
    ∃ q, ReadsFrom (p.parseFieldName none).parser (⟨.fieldName, name⟩ :: v.tokens) q ∧
      Behind p.stackSize p q rest

/-- The members `ms` of an object and its end are read from `s`. -/
def ReadsMembers (ms : List (List Byte × Json)) (s rest : List Byte) : Prop :=
  ∀ p : JsonParser, p.chars = s → p.Inside true →
    p.stackSize + Json.membersDepth ms ≤ maxJsonNestingDepth →
    ∃ q, ReadsFrom (p.parseFieldName none).parser
        (Json.membersTokens ms ++ [⟨.endObject, [chr '\x7d']⟩]) q ∧
      Behind (p.stackSize - 1) p q rest

theorem readsValue_scalar {text : List Byte} {t : JsonToken}
    (ht : t ∈ [JsonToken.valueString, .valueNumberInt, .valueNumberFloat, .valueTrue, .valueFalse,
      .valueNull]) (hv : v.tokens = [⟨t, text⟩])
    (hfirst : ∀ p : JsonParser, p.chars = text ++ rest →
      p.parseFirstTokenInValue = p.scalar t rest) : ReadsValue v (text ++ rest) rest := by
  intro p hp _
  rw [hv]
  exact scalar_reads ht hp (hfirst p hp)

theorem readsValue_emptyArray (hws : IsWhitespaces ws) :
    ReadsValue (.array []) (chr '[' :: (ws ++ chr ']' :: rest)) rest := by
  intro p hp hdepth
  have hlt : p.stackSize < maxJsonNestingDepth := Nat.lt_of_succ_le hdepth
  have hchars : (p.opened .startArray).chars = ws ++ chr ']' :: rest := congrArg List.tail hp
  have hend := nextToken_array_end (inside_opened .startArray hlt) hchars hws
  exact opened_reads (Or.inr rfl) hp hlt ⟨_, steps_closeContext (Or.inl rfl) hend⟩

theorem readsValue_array (hws : IsWhitespaces ws)
    (hs : ∃ c t, s = c :: t ∧ isWhitespace c = false ∧ c ≠ chr ']')
    (hvs : ReadsElements vs s rest) : ReadsValue (.array vs) (chr '[' :: (ws ++ s)) rest := by
  intro p hp hdepth
  have hdepth : p.stackSize + (Json.elementsDepth vs + 1) ≤ maxJsonNestingDepth := hdepth
  have hlt : p.stackSize < maxJsonNestingDepth := by omega
  have hchars : (p.opened .startArray).chars = ws ++ s := congrArg List.tail hp
  have hin := inside_opened .startArray hlt
  obtain ⟨q, hreads, hbehind⟩ := hvs { p.opened .startArray with chars := s } rfl (hin.withChars s)
    (show p.stackSize + 1 + _ ≤ _ by omega)
  rw [← nextToken_array_first hin rfl hchars hws hs] at hreads
  exact opened_reads (Or.inr rfl) hp hlt ⟨q, hreads.steps, hbehind.of_withChars⟩

theorem readsValue_emptyObject (hws : IsWhitespaces ws) :
    ReadsValue (.object []) (chr '\x7b' :: (ws ++ chr '\x7d' :: rest)) rest := by
  intro p hp hdepth
  have hlt : p.stackSize < maxJsonNestingDepth := Nat.lt_of_succ_le hdepth
  have hchars : (p.opened .startObject).chars = ws ++ chr '\x7d' :: rest := congrArg List.tail hp
  have hend := nextToken_object_end (inside_opened .startObject hlt)
    (show JsonToken.startObject ≠ .fieldName by decide) hchars hws
  exact opened_reads (Or.inl rfl) hp hlt ⟨_, steps_closeContext (Or.inr rfl) hend⟩

theorem readsValue_object (hws : IsWhitespaces ws)
    (hs : ∃ c t, s = c :: t ∧ isWhitespace c = false ∧ c ≠ chr '\x7d')
    (hms : ReadsMembers ms s rest) : ReadsValue (.object ms) (chr '\x7b' :: (ws ++ s)) rest := by
  intro p hp hdepth
  have hdepth : p.stackSize + (Json.membersDepth ms + 1) ≤ maxJsonNestingDepth := hdepth
  have hlt : p.stackSize < maxJsonNestingDepth := by omega
  have hchars : (p.opened .startObject).chars = ws ++ s := congrArg List.tail hp
  have hin := inside_opened .startObject hlt
  obtain ⟨q, hreads, hbehind⟩ := hms { p.opened .startObject with chars := s } rfl (hin.withChars s)
    (show p.stackSize + 1 + _ ≤ _ by omega)
  rw [← nextToken_object_first hin rfl hchars hws hs] at hreads
  exact opened_reads (Or.inl rfl) hp hlt ⟨q, hreads.steps, hbehind.of_withChars⟩

theorem readsElements_last (hv : ReadsValue v s (ws ++ chr ']' :: rest)) (hws : IsWhitespaces ws) :
    ReadsElements [v] s rest := by
  intro p hp hin hdepth
  obtain ⟨q, hreads, hbehind⟩ := hv p hp
    ((Nat.add_le_add_left (le_max_left _ _) _).trans hdepth)
  have hend := nextToken_array_end (hin.of_sameBelow hbehind.toSameBelow) hbehind.chars hws
  obtain ⟨hsteps, hbehind'⟩ := steps_closeContext (Or.inl rfl) hend
  rw [hbehind.stackSize] at hbehind'
  refine ⟨q.nextToken, ?_, hbehind'.of_sameBelow (Nat.sub_le _ _) hbehind.toSameBelow⟩
  rw [Json.elementsTokens, Json.elementsTokens, List.append_nil]
  exact hreads.append hsteps

theorem dropWhile_whitespaces_of_head (hws : IsWhitespaces ws)
    (hs : ∃ c t, s = c :: t ∧ isWhitespace c = false) : (ws ++ s).dropWhile isWhitespace = s := by
  obtain ⟨c, t, rfl, hc⟩ := hs
  apply dropWhile_whitespaces hws
  intro c' hc'
  obtain rfl := Option.some.inj hc'
  exact hc

theorem readsElements_cons {s' : List Byte} (hv : ReadsValue v s (ws ++ chr ',' :: (ws' ++ s')))
    (hws : IsWhitespaces ws) (hws' : IsWhitespaces ws')
    (hs' : ∃ c t, s' = c :: t ∧ isWhitespace c = false) (hvs : ReadsElements vs s' rest) :
    ReadsElements (v :: vs) s rest := by
  intro p hp hin hdepth
  obtain ⟨q, hreads, hbehind⟩ := hv p hp
    ((Nat.add_le_add_left (le_max_left _ _) _).trans hdepth)
  have hin' := hin.of_sameBelow hbehind.toSameBelow
  have hnext := nextToken_array_comma hin' hbehind.token.2.2.2 hbehind.chars hws
  rw [dropWhile_whitespaces_of_head hws' hs'] at hnext
  obtain ⟨r, hreads', hbehind'⟩ := hvs { q with chars := s' } rfl (hin'.withChars s') (by
    show q.stackSize + _ ≤ _
    rw [hbehind.stackSize]
    exact (Nat.add_le_add_left (le_max_right _ _) _).trans hdepth)
  rw [← hnext] at hreads'
  have hbehind'' : Behind (q.stackSize - 1) q r rest := hbehind'.of_withChars
  rw [hbehind.stackSize] at hbehind''
  refine ⟨r, ?_, hbehind''.of_sameBelow (Nat.sub_le _ _) hbehind.toSameBelow⟩
  rw [Json.elementsTokens, List.append_assoc]
  exact hreads.append hreads'.steps

theorem readsMembers_last (hm : ReadsMember name v s (ws ++ chr '\x7d' :: rest))
    (hws : IsWhitespaces ws) : ReadsMembers [(name, v)] s rest := by
  intro p hp hin hdepth
  obtain ⟨q, hreads, hbehind⟩ := hm p hp hin
    ((Nat.add_le_add_left (le_max_left _ _) _).trans hdepth)
  have hend := nextToken_object_end (hin.of_sameBelow hbehind.toSameBelow) hbehind.token.2.1
    hbehind.chars hws
  obtain ⟨hsteps, hbehind'⟩ := steps_closeContext (Or.inr rfl) hend
  rw [hbehind.stackSize] at hbehind'
  refine ⟨q.nextToken, ?_, hbehind'.of_sameBelow (Nat.sub_le _ _) hbehind.toSameBelow⟩
  rw [Json.membersTokens, Json.membersTokens, List.append_nil]
  exact hreads.append hsteps

theorem readsMembers_cons {s' : List Byte}
    (hm : ReadsMember name v s (ws ++ chr ',' :: (ws' ++ s'))) (hws : IsWhitespaces ws)
    (hws' : IsWhitespaces ws') (hs' : ∃ c t, s' = c :: t ∧ isWhitespace c = false)
    (hms : ReadsMembers ms s' rest) : ReadsMembers ((name, v) :: ms) s rest := by
  intro p hp hin hdepth
  obtain ⟨q, hreads, hbehind⟩ := hm p hp hin
    ((Nat.add_le_add_left (le_max_left _ _) _).trans hdepth)
  have hin' := hin.of_sameBelow hbehind.toSameBelow
  have hnext := nextToken_object_comma hin' ⟨hbehind.token.2.2.1, hbehind.token.2.1⟩
    hbehind.chars hws
  rw [dropWhile_whitespaces_of_head hws' hs'] at hnext
  obtain ⟨r, hreads', hbehind'⟩ := hms { q with chars := s' } rfl (hin'.withChars s') (by
    show q.stackSize + _ ≤ _
    rw [hbehind.stackSize]
    exact (Nat.add_le_add_left (le_max_right _ _) _).trans hdepth)
  rw [← hnext] at hreads'
  have hbehind'' : Behind (q.stackSize - 1) q r rest := hbehind'.of_withChars
  rw [hbehind.stackSize] at hbehind''
  refine ⟨r, ?_, hbehind''.of_sameBelow (Nat.sub_le _ _) hbehind.toSameBelow⟩
  rw [Json.membersTokens, List.cons_append, List.append_assoc]
  exact hreads.append hreads'.steps

theorem readsMember_mk (hname : IsString quotes name) (hws : IsWhitespaces ws)
    (hws' : IsWhitespaces ws') (hs : ∃ c t, s = c :: t ∧ isWhitespace c = false)
    (hv : ReadsValue v s rest) :
    ReadsMember name v (name ++ (ws ++ chr ':' :: (ws' ++ s))) rest := by
  intro p hp hin hdepth
  have hnext := nextToken_colon (inside_named hin (ws ++ chr ':' :: (ws' ++ s))) rfl rfl hws
  rw [dropWhile_whitespaces_of_head hws' hs] at hnext
  obtain ⟨q, hreads, hbehind⟩ :=
    hv { named p (ws ++ chr ':' :: (ws' ++ s)) with chars := s } rfl hdepth
  rw [← hnext] at hreads
  refine ⟨q, ?_, ⟨⟨hbehind.stackSize, hbehind.contexts, hbehind.beyond,
    hbehind.maxDepthExceeded⟩, hbehind.chars, hbehind.token⟩⟩
  rw [parseFieldName_of_isString hname hp none, ← token_named hp]
  exact .cons (show ¬JsonToken.fieldName.IsFinal by decide) hreads.steps

theorem Elements.head (h : Elements quotes vs s rest) :
    ∃ c t, s = c :: t ∧ isWhitespace c = false := by
  obtain ⟨c, t, hs, hc, -⟩ := h.head_ne
  exact ⟨c, t, hs, hc⟩

theorem Members.head_ne (hquotes : ∀ c, quotes c → isWhitespace c = false)
    (h : Members quotes ms s rest) (hs : s.head? ≠ some (chr '\x7d')) :
    ∃ c t, s = c :: t ∧ isWhitespace c = false ∧ c ≠ chr '\x7d' := by
  obtain ⟨c, t, rfl, hc⟩ := h.head hquotes
  exact ⟨c, t, rfl, hc, fun heq => hs (by rw [heq]; rfl)⟩

theorem Member.reads (h : Member quotes name v s rest) (hv : ∀ {s}, Value quotes v s rest →
    ReadsValue v s rest) : ReadsMember name v s rest := by
  obtain ⟨hname, hws, hws', hvalue⟩ := h
  obtain ⟨c, t, hs, hc, -⟩ := hvalue.head_ne
  exact readsMember_mk hname hws hws' ⟨c, t, hs, hc⟩ (hv hvalue)

/-- A value of the grammar is read token by token. -/
theorem Value.reads (hquotes : ∀ c, quotes c → isWhitespace c = Bool.false)
    (h : Value quotes v s rest) : ReadsValue v s rest := by
  refine Value.induction (N := ReadsMember) (E := ReadsElements) (M := ReadsMembers) ?_ h
  constructor
  case string =>
    exact fun htext => readsValue_scalar (by decide) rfl fun p hp => parseFirst_string htext hp
  case number =>
    intro isFloat text rest htext
    refine readsValue_scalar ?_ rfl fun p hp => parseFirst_number htext hp
    cases isFloat with
    | false => decide
    | true => decide
  case trueValue =>
    exact readsValue_scalar (by decide) rfl fun p hp =>
      parseFirst_literal_append (List.mem_cons_self ..) hp
  case falseValue =>
    exact readsValue_scalar (by decide) rfl fun p hp =>
      parseFirst_literal_append (List.mem_cons_of_mem _ (List.mem_cons_self ..)) hp
  case nullValue =>
    exact readsValue_scalar (by decide) rfl fun p hp => parseFirst_literal_append
      (List.mem_cons_of_mem _ (List.mem_cons_of_mem _ (List.mem_cons_self ..))) hp
  case emptyArray => exact fun hws => readsValue_emptyArray hws
  case array => exact fun hws hvs ih => readsValue_array hws hvs.head_ne ih
  case emptyObject => exact fun hws => readsValue_emptyObject hws
  case object => exact fun hws hs hms ih => readsValue_object hws (hms.head_ne hquotes hs) ih
  case lastElement => exact fun _ hws ih => readsElements_last ih hws
  case consElement => exact fun _ hws hws' hvs ih ih' => readsElements_cons ih hws hws' hvs.head ih'
  case lastMember => exact fun _ hws ih => readsMembers_last ih hws
  case consMember =>
    exact fun _ hws hws' hms ih ih' => readsMembers_cons ih hws hws' (hms.head hquotes) ih'
  case member =>
    intro name ws ws' s rest v hstring hws hws' hv ih
    obtain ⟨c, t, hs, hc, -⟩ := hv.head_ne
    exact readsMember_mk hstring hws hws' ⟨c, t, hs, hc⟩ ih

end SparkRapids.GetJson
