import SparkRapidsJni.GetJson.Ahead

/-!
# Copies of documents

`copy_current_structure` writes the document that it is at without white space, with the texts of
strings and numbers rewritten (`Placed.copy`).
-/

namespace SparkRapids.GetJson

open JsonToken

namespace Json

/-! ### The texts of a document -/

mutual

/-- The document with the texts of its strings, names and numbers replaced. -/
def mapTexts (f : Token → List Byte) : Json → Json
  | string text => string (f ⟨.valueString, text⟩)
  | number isFloat text =>
    number isFloat (f ⟨if isFloat then .valueNumberFloat else .valueNumberInt, text⟩)
  | trueValue => trueValue
  | falseValue => falseValue
  | nullValue => nullValue
  | array elements => array (mapElements f elements)
  | object members => object (mapMembers f members)

def mapElements (f : Token → List Byte) : List Json → List Json
  | [] => []
  | v :: vs => mapTexts f v :: mapElements f vs

def mapMembers (f : Token → List Byte) : List (List Byte × Json) → List (List Byte × Json)
  | [] => []
  | (name, v) :: ms => (f ⟨.fieldName, name⟩, mapTexts f v) :: mapMembers f ms

end

mutual

/-- The document as it is written without white space. -/
def compactText : Json → List Byte
  | string text => text
  | number _ text => text
  | trueValue => trueText
  | falseValue => falseText
  | nullValue => nullText
  | array elements => chr '[' :: (elementsText elements ++ [chr ']'])
  | object members => chr '\x7b' :: (membersText members ++ [chr '\x7d'])

def elementsText : List Json → List Byte
  | [] => []
  | [v] => compactText v
  | v :: vs => compactText v ++ chr ',' :: elementsText vs

def membersText : List (List Byte × Json) → List Byte
  | [] => []
  | [(name, v)] => name ++ chr ':' :: compactText v
  | (name, v) :: ms => name ++ chr ':' :: (compactText v ++ chr ',' :: membersText ms)

end

/-! ### Its tokens -/

theorem isScalar_numberToken (isFloat : Bool) :
    (if isFloat then valueNumberFloat else .valueNumberInt).IsScalar := by
  cases isFloat with
  | false => decide
  | true => decide

mutual

theorem closed_tokens : ∀ v : Json, Closed v.tokens
  | string _ => .scalar (show valueString.IsScalar by decide)
  | number isFloat _ => .scalar (isScalar_numberToken isFloat)
  | trueValue => .scalar (show valueTrue.IsScalar by decide)
  | falseValue => .scalar (show valueFalse.IsScalar by decide)
  | nullValue => .scalar (show valueNull.IsScalar by decide)
  | array vs => .nested (by decide) (by decide) (closed_elementsTokens vs) .nil
  | object ms => .nested (by decide) (by decide) (closed_membersTokens ms) .nil

theorem closed_elementsTokens : ∀ vs : List Json, Closed (elementsTokens vs)
  | [] => .nil
  | v :: vs => (closed_tokens v).append (closed_elementsTokens vs)

theorem closed_membersTokens : ∀ ms : List (List Byte × Json), Closed (membersTokens ms)
  | [] => .nil
  | (_, v) :: ms =>
    .plain (show ¬fieldName.IsStart by decide) (show ¬fieldName.IsEnd by decide)
      ((closed_tokens v).append (closed_membersTokens ms))

end

/-- The last token of a value. -/
def EndsValue (t : JsonToken) : Prop := t.IsScalar ∨ t.IsEnd

theorem EndsValue.ne {t : JsonToken} (h : EndsValue t) : t ≠ .fieldName ∧ ¬t.IsStart := by
  rcases h with h | h | h
  · exact ⟨h.not_fieldName, h.not_isStart⟩
  · rw [h]
    decide
  · rw [h]
    decide

theorem endsValue_lastKind (prev : JsonToken) (v : Json) : EndsValue (lastKind prev v.tokens) := by
  cases v with
  | string => exact Or.inl (show valueString.IsScalar by decide)
  | number isFloat => exact Or.inl (isScalar_numberToken isFloat)
  | trueValue => exact Or.inl (show valueTrue.IsScalar by decide)
  | falseValue => exact Or.inl (show valueFalse.IsScalar by decide)
  | nullValue => exact Or.inl (show valueNull.IsScalar by decide)
  | array vs =>
    rw [tokens, lastKind, lastKind_append]
    exact Or.inr (Or.inr rfl)
  | object ms =>
    rw [tokens, lastKind, lastKind_append]
    exact Or.inr (Or.inl rfl)

theorem lastKind_elementsTokens {prev : JsonToken} (hprev : prev ≠ .fieldName) (vs : List Json) :
    lastKind prev (elementsTokens vs) ≠ .fieldName := by
  induction vs generalizing prev with
  | nil => exact hprev
  | cons v vs ih =>
    rw [elementsTokens, lastKind_append]
    exact ih (endsValue_lastKind prev v).ne.1

theorem lastKind_membersTokens {prev : JsonToken} (hprev : prev ≠ .fieldName)
    (ms : List (List Byte × Json)) : lastKind prev (membersTokens ms) ≠ .fieldName := by
  induction ms generalizing prev with
  | nil => exact hprev
  | cons m ms ih =>
    obtain ⟨name, v⟩ := m
    rw [membersTokens, lastKind, lastKind_append]
    exact ih (endsValue_lastKind _ v).ne.1

/-! ### Its copy -/

variable (normal : List Byte → List Byte)

/-- The document as `write_escaped_text` writes its texts. -/
def copied (v : Json) : Json := v.mapTexts (Token.written normal .escaped)

/-- What stands in front of a token that ends nothing. -/
def between (prev : JsonToken) : List Byte :=
  if prev = .fieldName then [chr ':'] else if prev.IsStart then [] else [chr ',']

theorem separator_eq_between {prev next : JsonToken} (hnext : ¬next.IsEnd) :
    prev.separator next = between prev := by
  unfold separator between
  by_cases hname : prev = .fieldName
  · rw [if_pos hname, if_pos hname]
  · rw [if_neg hname, if_neg hname]
    by_cases hstart : prev.IsStart
    · rw [if_pos (Or.inl hstart), if_pos hstart]
    · rw [if_neg (not_or.2 ⟨hstart, hnext⟩), if_neg hstart]

theorem separator_of_isEnd {prev next : JsonToken} (hprev : prev ≠ .fieldName)
    (hnext : next.IsEnd) : prev.separator next = [] := by
  unfold separator
  rw [if_neg hprev, if_pos (Or.inr hnext)]

theorem EndsValue.between {t : JsonToken} (h : EndsValue t) : Json.between t = [chr ','] := by
  unfold Json.between
  rw [if_neg h.ne.1, if_neg h.ne.2]

theorem between_startArray : between .startArray = [] := rfl

theorem between_startObject : between .startObject = [] := rfl

theorem between_fieldName : between .fieldName = [chr ':'] := rfl

theorem elementsText_cons {v : Json} {vs : List Json} : elementsText (v :: vs) =
    compactText v ++ if vs = [] then [] else chr ',' :: elementsText vs := by
  cases vs with
  | nil => simp [elementsText]
  | cons v' vs => simp [elementsText]

theorem membersText_cons {name : List Byte} {v : Json} {ms : List (List Byte × Json)} :
    membersText ((name, v) :: ms) =
      name ++ chr ':' :: (compactText v ++ if ms = [] then [] else chr ',' :: membersText ms) := by
  cases ms with
  | nil => simp [membersText]
  | cons m ms => simp [membersText]

theorem mapElements_eq_nil {f : Token → List Byte} {vs : List Json} :
    mapElements f vs = [] ↔ vs = [] := by
  cases vs <;> simp [mapElements]

theorem mapMembers_eq_nil {f : Token → List Byte} {ms : List (List Byte × Json)} :
    mapMembers f ms = [] ↔ ms = [] := by
  cases ms <;> simp [mapMembers]

theorem joined_single {t : Token} (prev : JsonToken) (ht : ¬t.kind.IsEnd) :
    joined normal prev [t] = between prev ++ t.written normal .escaped := by
  rw [joined, joined, List.append_nil, separator_eq_between ht]

mutual

/-- The tokens of a document are written as its copy. -/
theorem joined_tokens (prev : JsonToken) : ∀ v : Json,
    joined normal prev v.tokens = between prev ++ (v.copied normal).compactText
  | string _ => joined_single normal prev (show ¬valueString.IsEnd by decide)
  | number isFloat _ => by
    rw [tokens, joined_single normal prev (isScalar_numberToken isFloat).not_isEnd]
    cases isFloat with
    | false => rfl
    | true => rfl
  | trueValue => joined_single normal prev (show ¬valueTrue.IsEnd by decide)
  | falseValue => joined_single normal prev (show ¬valueFalse.IsEnd by decide)
  | nullValue => joined_single normal prev (show ¬valueNull.IsEnd by decide)
  | array vs => by
    have hne : startArray ≠ .fieldName := by decide
    rw [tokens, joined, separator_eq_between (show ¬startArray.IsEnd by decide),
      joined_append, joined_elementsTokens .startArray vs, joined, joined,
      separator_of_isEnd (lastKind_elementsTokens hne vs) (Or.inr rfl)]
    rw [copied, mapTexts, compactText]
    by_cases hvs : vs = []
    · subst hvs
      simp [Token.written, mapElements, elementsText]
    · rw [if_neg hvs]
      simp [Token.written, between_startArray]
  | object ms => by
    have hne : startObject ≠ .fieldName := by decide
    rw [tokens, joined, separator_eq_between (show ¬startObject.IsEnd by decide),
      joined_append, joined_membersTokens .startObject ms, joined, joined,
      separator_of_isEnd (lastKind_membersTokens hne ms) (Or.inl rfl)]
    rw [copied, mapTexts, compactText]
    by_cases hms : ms = []
    · subst hms
      simp [Token.written, mapMembers, membersText]
    · rw [if_neg hms]
      simp [Token.written, between_startObject]

theorem joined_elementsTokens (prev : JsonToken) : ∀ vs : List Json,
    joined normal prev (elementsTokens vs) = if vs = [] then [] else
      between prev ++ elementsText (mapElements (Token.written normal .escaped) vs)
  | [] => rfl
  | v :: vs => by
    have hlast := endsValue_lastKind prev v
    rw [if_neg (List.cons_ne_nil _ _), elementsTokens, joined_append, joined_tokens prev v,
      joined_elementsTokens _ vs, hlast.between, mapElements, elementsText_cons,
      List.append_assoc]
    simp only [mapElements_eq_nil]
    rfl

theorem joined_membersTokens (prev : JsonToken) : ∀ ms : List (List Byte × Json),
    joined normal prev (membersTokens ms) = if ms = [] then [] else
      between prev ++ membersText (mapMembers (Token.written normal .escaped) ms)
  | [] => rfl
  | (name, v) :: ms => by
    have hlast := endsValue_lastKind .fieldName v
    rw [if_neg (List.cons_ne_nil _ _), membersTokens, joined, joined_append,
      joined_tokens .fieldName v, joined_membersTokens _ ms, hlast.between, mapMembers,
      membersText_cons, separator_eq_between (show ¬fieldName.IsEnd by decide)]
    simp only [mapMembers_eq_nil, between_fieldName, List.append_assoc, List.cons_append,
      List.nil_append]
    rfl

end

/-! ### Values that the parser is at -/

end Json

open JsonParser

variable {p q : JsonParser} {v : Json} {ts us : List Token} {t e : Token} {final : JsonToken}
  (normal : List Byte → List Byte)

/-- The parser is at the first token of the value `v`, with the tokens `ts` behind the value. -/
def Placed (p : JsonParser) (v : Json) (ts : List Token) (final : JsonToken) : Prop :=
  ∃ us, v.tokens = p.token :: us ∧ Ahead p (us ++ ts) final

/-- The parser is at the last token of a value, with the tokens `ts` behind it. -/
structure Left (p : JsonParser) (ts : List Token) (final : JsonToken) : Prop where
  ahead : Ahead p ts final
  ends : Json.EndsValue p.currentToken

/-- A value is an object or an array, or has one token. -/
theorem Json.tokens_cases (v : Json) : (∃ t, v.tokens = [t] ∧ t.kind.IsScalar) ∨
    ∃ t us e, v.tokens = t :: (us ++ [e]) ∧ Closed us ∧
      ((t.kind = .startObject ∧ e.kind = .endObject) ∨ (t.kind = .startArray ∧ e.kind = .endArray)) := by
  cases v with
  | string => exact Or.inl ⟨_, rfl, show valueString.IsScalar by decide⟩
  | number isFloat => exact Or.inl ⟨_, rfl, isScalar_numberToken isFloat⟩
  | trueValue => exact Or.inl ⟨_, rfl, show valueTrue.IsScalar by decide⟩
  | falseValue => exact Or.inl ⟨_, rfl, show valueFalse.IsScalar by decide⟩
  | nullValue => exact Or.inl ⟨_, rfl, show valueNull.IsScalar by decide⟩
  | array vs => exact Or.inr ⟨_, _, _, rfl, closed_elementsTokens vs, Or.inr ⟨rfl, rfl⟩⟩
  | object ms => exact Or.inr ⟨_, _, _, rfl, closed_membersTokens ms, Or.inl ⟨rfl, rfl⟩⟩

/-- Skipping an object or array, and copying it. -/
theorem JsonParser.Ahead.closed (h : Ahead p (us ++ e :: ts) final) (hus : Closed us)
    (hp : p.currentToken.IsStart) (he : e.kind.IsEnd) : ∃ q, Left q ts final ∧
      p.trySkipChildren = (true, q) ∧ p.copyCurrentStructure normal =
        ⟨true, q, p.writeEscapedText normal ++
          joined normal p.currentToken (us ++ [e])⟩ := by
  obtain ⟨q, hpasses, hq⟩ := h.passes normal hus
  have hnot : ¬e.kind.IsStart := by
    rcases he with he | he
    · rw [he]
      decide
    · rw [he]
      decide
  have hpos : 0 < p.stackSize := by
    rcases hp with hp | hp
    · exact (h.consistent.object (Or.inl hp)).pos
    · exact (h.consistent.array hp).pos
  have hsize : q.nextToken.stackSize = p.stackSize - 1 := by
    rw [hq.stackSize, sizeBehind, if_neg hnot, if_pos he, hpasses.stackSize]
  have hskip : p.skipLoop 1 = (true, q.nextToken) := by
    rw [hpasses.skip 1 Nat.one_pos, hq.skipLoop, if_neg hnot, if_pos he, if_pos rfl]
  -- both loops stop at the end of the container
  have hcopy : p.copyLoop normal p.stackSize =
      ⟨true, q.nextToken, joined normal p.currentToken (us ++ [e])⟩ := by
    rw [hpasses.copy _ hpos le_rfl, hq.copyLoop, if_pos hsize.symm, joined_append,
      ← hpasses.currentToken, joined, joined, List.append_nil]
    rfl
  refine ⟨q.nextToken, ⟨hq.next, Or.inr (by rw [hq.kind]; exact he)⟩, ?_, ?_⟩
  · unfold trySkipChildren
    rcases hp with hp | hp
    · rw [hp, if_neg (by decide), if_neg (by decide), hskip]
    · rw [hp, if_neg (by decide), if_neg (by decide), hskip]
  · unfold copyCurrentStructure
    rcases hp with hp | hp
    · rw [hp] at hcopy ⊢
      dsimp only
      rw [hcopy]
    · rw [hp] at hcopy ⊢
      dsimp only
      rw [hcopy]

theorem trySkipChildren_of_isScalar (h : p.currentToken.IsScalar) :
    p.trySkipChildren = (true, p) := by
  have hfinal : ¬(p.currentToken = .error ∨ p.currentToken = .init ∨ p.currentToken = .success) :=
    (by decide : ∀ t ∈ scalars,
      ¬(t = error ∨ t = init ∨ t = success)) _ h
  unfold trySkipChildren
  rw [if_neg hfinal, if_pos (not_or.1 h.not_isStart)]

theorem copyCurrentStructure_of_isScalar (h : p.currentToken.IsScalar) :
    p.copyCurrentStructure normal = ⟨true, p, p.writeEscapedText normal⟩ := by
  simp only [JsonToken.IsScalar, scalars, List.mem_cons, List.not_mem_nil,
    or_false] at h
  unfold copyCurrentStructure
  rcases h with h | h | h | h | h | h <;> rw [h]

/-- A value is skipped, and copied without white space. -/
theorem Placed.copy (h : Placed p v ts final) : ∃ q, Left q ts final ∧
    p.trySkipChildren = (true, q) ∧ p.copyCurrentStructure normal =
      ⟨true, q, (v.copied normal).compactText⟩ := by
  obtain ⟨us, htokens, hahead⟩ := h
  have htext : (v.copied normal).compactText = joined normal .startArray v.tokens := by
    rw [Json.joined_tokens, Json.between_startArray, List.nil_append]
  rcases v.tokens_cases with ⟨t, ht, hscalar⟩ | ⟨t, us', e, ht, hclosed, hkind⟩
  · obtain ⟨rfl, rfl⟩ := List.cons.inj (ht.symm.trans htokens)
    have hscalar : p.currentToken.IsScalar := hscalar
    refine ⟨p, ⟨hahead, Or.inl hscalar⟩, trySkipChildren_of_isScalar hscalar, ?_⟩
    rw [copyCurrentStructure_of_isScalar normal hscalar, htext, ht,
      Json.joined_single normal _ (show ¬p.currentToken.IsEnd from hscalar.not_isEnd)]
    rfl
  · obtain ⟨rfl, rfl⟩ := List.cons.inj (ht.symm.trans htokens)
    rw [List.append_assoc] at hahead
    have hkind : p.currentToken.IsStart ∧ e.kind.IsEnd := by
      rcases hkind with ⟨hp, he⟩ | ⟨hp, he⟩
      · exact ⟨Or.inl hp, Or.inl he⟩
      · exact ⟨Or.inr hp, Or.inr he⟩
    obtain ⟨q, hleft, hskip, hcopy⟩ := hahead.closed normal hclosed hkind.1 hkind.2
    refine ⟨q, hleft, hskip, ?_⟩
    rw [hcopy, htext, ht, joined, Json.separator_eq_between, Json.between_startArray]
    · rfl
    · show ¬p.currentToken.IsEnd
      rcases hkind.1 with hp | hp
      · rw [hp]
        decide
      · rw [hp]
        decide

end SparkRapids.GetJson
