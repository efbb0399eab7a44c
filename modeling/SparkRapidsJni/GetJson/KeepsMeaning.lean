import SparkRapidsJni.GetJson.Reread

/-!
# What a copy means

A copy is read as the document that it was made from, and is copied as it is, exactly if all the
strings and names of the document are stable (`copy_keepsMeaning_iff`).
-/

namespace SparkRapids.GetJson

/-! ### Documents are known by their tokens -/

namespace Json

/-- The kind of the first token. -/
def headKind : Json → JsonToken
  | string _ => .valueString
  | number isFloat _ => if isFloat then .valueNumberFloat else .valueNumberInt
  | trueValue => .valueTrue
  | falseValue => .valueFalse
  | nullValue => .valueNull
  | array _ => .startArray
  | object _ => .startObject

theorem kind_head_tokens (v : Json) : ∃ t ts, v.tokens = t :: ts ∧ t.kind = v.headKind := by
  cases v with
  | string => exact ⟨_, _, rfl, rfl⟩
  | number => exact ⟨_, _, rfl, rfl⟩
  | trueValue => exact ⟨_, _, rfl, rfl⟩
  | falseValue => exact ⟨_, _, rfl, rfl⟩
  | nullValue => exact ⟨_, _, rfl, rfl⟩
  | array => exact ⟨_, _, rfl, rfl⟩
  | object => exact ⟨_, _, rfl, rfl⟩

theorem headKind_eq {v v' : Json} {ts ts' : List Token} (h : v.tokens ++ ts = v'.tokens ++ ts') :
    v.headKind = v'.headKind := by
  obtain ⟨t, us, ht, hkind⟩ := kind_head_tokens v
  obtain ⟨t', us', ht', hkind'⟩ := kind_head_tokens v'
  rw [ht, ht'] at h
  rw [← hkind, ← hkind', (List.cons.inj h).1]

theorem headKind_number (isFloat : Bool) (text : List Byte) :
    (number isFloat text).headKind = .valueNumberFloat ∧ isFloat = true ∨
      (number isFloat text).headKind = .valueNumberInt ∧ isFloat = false := by
  cases isFloat with
  | false => exact Or.inr ⟨rfl, rfl⟩
  | true => exact Or.inl ⟨rfl, rfl⟩

/-- Documents of one kind are built in one way. -/
theorem eq_of_headKind {v v' : Json} (h : v.headKind = v'.headKind) : match v with
    | string _ => ∃ text, v' = string text
    | number isFloat _ => ∃ text, v' = number isFloat text
    | trueValue => v' = trueValue
    | falseValue => v' = falseValue
    | nullValue => v' = nullValue
    | array _ => ∃ vs, v' = array vs
    | object _ => ∃ ms, v' = object ms := by
  cases v with
  | number isFloat text =>
    cases v' with
    | number isFloat' text' =>
      rcases headKind_number isFloat text with ⟨hkind, rfl⟩ | ⟨hkind, rfl⟩ <;>
        rcases headKind_number isFloat' text' with ⟨hkind', rfl⟩ | ⟨hkind', rfl⟩ <;>
        simp_all
    | _ => cases isFloat <;> exact absurd h (by simp [headKind])
  | _ =>
    cases v' with
    | number isFloat' => cases isFloat' <;> exact absurd h (by simp [headKind])
    | _ => first | exact ⟨_, rfl⟩ | rfl | exact absurd h (by simp [headKind])

/-- Behind an array's elements its end is not taken for an element. -/
theorem endArray_not_value {v : Json} {ts ts' : List Token} {text : List Byte}
    (h : (⟨.endArray, text⟩ : Token) :: ts = v.tokens ++ ts') : False := by
  obtain ⟨t, us, ht, hkind⟩ := kind_head_tokens v
  rw [ht] at h
  have hend : v.headKind = .endArray := by rw [← hkind, ← (List.cons.inj h).1]
  cases v with
  | number isFloat => cases isFloat <;> exact absurd hend (by simp [headKind])
  | _ => exact absurd hend (by simp [headKind])

mutual

/-- No tokens of a document are the first ones of another. -/
theorem tokens_append_inj : ∀ (v v' : Json) {ts ts' : List Token},
    v.tokens ++ ts = v'.tokens ++ ts' → v = v' ∧ ts = ts'
  | string text, v', ts, ts', h => by
    obtain ⟨text', rfl⟩ := eq_of_headKind (headKind_eq h)
    obtain ⟨ht, hts⟩ := List.cons.inj h
    exact ⟨congrArg string (Token.mk.inj ht).2, hts⟩
  | number isFloat text, v', ts, ts', h => by
    obtain ⟨text', rfl⟩ := eq_of_headKind (headKind_eq h)
    obtain ⟨ht, hts⟩ := List.cons.inj h
    exact ⟨congrArg (number isFloat) (Token.mk.inj ht).2, hts⟩
  | trueValue, v', ts, ts', h => by
    have hv' : v' = trueValue := eq_of_headKind (headKind_eq h)
    subst hv'
    exact ⟨rfl, (List.cons.inj h).2⟩
  | falseValue, v', ts, ts', h => by
    have hv' : v' = falseValue := eq_of_headKind (headKind_eq h)
    subst hv'
    exact ⟨rfl, (List.cons.inj h).2⟩
  | nullValue, v', ts, ts', h => by
    have hv' : v' = nullValue := eq_of_headKind (headKind_eq h)
    subst hv'
    exact ⟨rfl, (List.cons.inj h).2⟩
  | array vs, v', ts, ts', h => by
    obtain ⟨vs', rfl⟩ := eq_of_headKind (headKind_eq h)
    rw [tokens, tokens, List.cons_append, List.cons_append, List.append_assoc,
      List.append_assoc] at h
    obtain ⟨hvs, hts⟩ := elementsTokens_append_inj vs vs' (List.cons.inj h).2
    exact ⟨congrArg array hvs, hts⟩
  | object ms, v', ts, ts', h => by
    obtain ⟨ms', rfl⟩ := eq_of_headKind (headKind_eq h)
    rw [tokens, tokens, List.cons_append, List.cons_append, List.append_assoc,
      List.append_assoc] at h
    obtain ⟨hms, hts⟩ := membersTokens_append_inj ms ms' (List.cons.inj h).2
    exact ⟨congrArg object hms, hts⟩

theorem elementsTokens_append_inj : ∀ (vs vs' : List Json) {ts ts' : List Token},
    elementsTokens vs ++ ([⟨.endArray, [chr ']']⟩] ++ ts) =
      elementsTokens vs' ++ ([⟨.endArray, [chr ']']⟩] ++ ts') → vs = vs' ∧ ts = ts'
  | [], [], ts, ts', h => ⟨rfl, (List.cons.inj h).2⟩
  | [], v' :: vs', ts, ts', h => by
    rw [elementsTokens, elementsTokens, List.append_assoc] at h
    exact (endArray_not_value h).elim
  | v :: vs, [], ts, ts', h => by
    rw [elementsTokens, elementsTokens, List.append_assoc] at h
    exact (endArray_not_value h.symm).elim
  | v :: vs, v' :: vs', ts, ts', h => by
    rw [elementsTokens, elementsTokens, List.append_assoc, List.append_assoc] at h
    obtain ⟨rfl, hrest⟩ := tokens_append_inj v v' h
    obtain ⟨rfl, hts⟩ := elementsTokens_append_inj vs vs' hrest
    exact ⟨rfl, hts⟩

theorem membersTokens_append_inj : ∀ (ms ms' : List (List Byte × Json)) {ts ts' : List Token},
    membersTokens ms ++ ([⟨.endObject, [chr '\x7d']⟩] ++ ts) =
      membersTokens ms' ++ ([⟨.endObject, [chr '\x7d']⟩] ++ ts') → ms = ms' ∧ ts = ts'
  | [], [], ts, ts', h => ⟨rfl, (List.cons.inj h).2⟩
  | [], (name', v') :: ms', ts, ts', h => by
    exact absurd (Token.mk.inj (List.cons.inj h).1).1 (by decide)
  | (name, v) :: ms, [], ts, ts', h => by
    exact absurd (Token.mk.inj (List.cons.inj h).1).1 (by decide)
  | (name, v) :: ms, (name', v') :: ms', ts, ts', h => by
    rw [membersTokens, membersTokens] at h
    obtain ⟨hname, hbehind⟩ := List.cons.inj h
    rw [List.append_eq, List.append_eq, List.append_assoc, List.append_assoc] at hbehind
    obtain ⟨rfl, hrest⟩ := tokens_append_inj v v' hbehind
    obtain ⟨rfl, hts⟩ := membersTokens_append_inj ms ms' hrest
    exact ⟨by rw [(Token.mk.inj hname).2], hts⟩

end

theorem tokens_injective {v v' : Json} (h : v.tokens = v'.tokens) : v = v' :=
  (tokens_append_inj v v' (congrArg (· ++ []) h)).1

/-! ### Texts do not change the nesting -/

variable {f : Token → List Byte}

mutual

theorem depth_mapTexts : ∀ v : Json, (v.mapTexts f).depth = v.depth
  | string _ => rfl
  | number _ _ => rfl
  | trueValue => rfl
  | falseValue => rfl
  | nullValue => rfl
  | array vs => by rw [mapTexts, depth, depth, elementsDepth_mapElements vs]
  | object ms => by rw [mapTexts, depth, depth, membersDepth_mapMembers ms]

theorem elementsDepth_mapElements : ∀ vs : List Json,
    elementsDepth (mapElements f vs) = elementsDepth vs
  | [] => rfl
  | v :: vs => by
    rw [mapElements, elementsDepth, elementsDepth, depth_mapTexts v, elementsDepth_mapElements vs]

theorem membersDepth_mapMembers : ∀ ms : List (List Byte × Json),
    membersDepth (mapMembers f ms) = membersDepth ms
  | [] => rfl
  | (name, v) :: ms => by
    rw [mapMembers, membersDepth, membersDepth, depth_mapTexts v, membersDepth_mapMembers ms]

end

/-- An object or an array. -/
def IsStructure (v : Json) : Prop := v.headKind.IsStart

theorem headKind_mapTexts (v : Json) : (v.mapTexts f).headKind = v.headKind := by
  cases v <;> rfl

theorem depth_copied (normal : List Byte → List Byte) (v : Json) :
    (v.copied normal).depth = v.depth :=
  depth_mapTexts v

end Json

open Json

/-! ### Reading the copy again -/

section Evaluate

variable (normal : List Byte → List Byte)

/-- `evaluate_path` where the path is `$`: no instruction is left, and the style is `RAW`. -/
def JsonParser.evaluateRoot (p : JsonParser) : Option (List Byte) :=
  let first := p.nextToken
  if first.currentToken = .error then none
  -- case path 1
  else if first.currentToken = .valueString then some (first.writeUnescapedText normal)
  -- case path 3
  else
    let copy := first.copyCurrentStructure normal
    if copy.success then some copy.out else none

/-- The tokens with what their texts stand for: strings and names decoded, and `-0` as `0`. -/
def contents (ts : List Token) : List Token := ts.map (mapText (Token.written normal .unescaped))

/-- The value that the parser is at is copied, its copy is accepted and read as the same value, and
the path `$` gives the copy for the copy. -/
def KeepsMeaning (p : JsonParser) (v : Json) : Prop :=
  ∃ q out, p.copyCurrentStructure normal = ⟨true, q, out⟩ ∧ ∀ beyond,
    (∃ ts, (JsonParser.make out beyond).scan = (ts, .success) ∧
      contents normal ts = contents normal v.tokens) ∧
    (JsonParser.make out beyond).evaluateRoot normal = some out

end Evaluate

variable {normal : List Byte → List Byte} {v v' : Json} {p : JsonParser}
  {s out rest : List Byte} {beyond : Byte}

/-- The parser at the first token of a value of the grammar. -/
theorem Value.placed {quotes : Byte → Prop} (hquotes : ∀ c, quotes c → isWhitespace c = Bool.false)
    (h : Value quotes v p.chars rest) (hdepth : p.stackSize + v.depth ≤ maxJsonNestingDepth) :
    ∃ ts final, Placed p.parseFirstTokenInValue v ts final := by
  obtain ⟨q, ⟨hnot, us, htokens, hsteps⟩, -⟩ := h.reads hquotes p rfl hdepth
  have hadvanced := (JsonParser.begins_parseFirst p).advanced ((Nat.le_add_right _ _).trans hdepth)
    fun h => hnot (Or.inr h)
  exact ⟨q.scan.1, q.scan.2, us, htokens, hsteps.scan_eq, hadvanced.consistent, hadvanced.init⟩

/-- The path `$` gives the copy of an object or array. -/
theorem Value.evaluateRoot (h : Value IsQuote v out rest) (hdepth : v.depth ≤ maxJsonNestingDepth)
    (hstructure : v.IsStructure) : (JsonParser.make out beyond).evaluateRoot normal =
      some (v.copied normal).compactText := by
  obtain ⟨c, t, hs, hc, -⟩ := h.head_ne
  have hnext : (JsonParser.make out beyond).nextToken =
      (JsonParser.make out beyond).parseFirstTokenInValue :=
    nextToken_init rfl rfl rfl isWhitespaces_nil ⟨c, t, hs, hc⟩
  have hvalue : Value IsQuote v (JsonParser.make out beyond).chars rest := h
  obtain ⟨ts, final, hplaced⟩ := hvalue.placed isWhitespace_of_isQuote (by
    show 0 + v.depth ≤ _
    rwa [Nat.zero_add])
  obtain ⟨q, -, -, hcopy⟩ := hplaced.copy normal
  -- an object or array starts with a token of its own
  obtain ⟨us, htokens, -⟩ := hplaced
  obtain ⟨t', us', htokens', hkind⟩ := kind_head_tokens v
  have hhead := (List.cons.inj (htokens.symm.trans htokens')).1
  have hstart : (JsonParser.make out beyond).parseFirstTokenInValue.currentToken.IsStart := by
    have hkind' : (JsonParser.make out beyond).parseFirstTokenInValue.currentToken = v.headKind := by
      rw [← hkind, ← hhead]
      rfl
    rw [hkind']
    exact hstructure
  unfold JsonParser.evaluateRoot
  dsimp only
  rw [hnext, hcopy]
  rcases hstart with hstart | hstart
  · rw [hstart, if_neg (by decide), if_neg (by decide), if_pos rfl]
  · rw [hstart, if_neg (by decide), if_neg (by decide), if_pos rfl]

theorem contents_tokens (v : Json) :
    contents normal v.tokens = (v.decoded normal).tokens :=
  (tokens_mapTexts v).symm

theorem Stable.faithful (h : Stable v.tokens) (hfloat : NoFloats v.tokens) : Faithful v.tokens :=
  fun t ht => ⟨fun hkind => (h t ht hkind).faithfulText, hfloat t ht⟩

theorem noFloats_copied (h : NoFloats v.tokens) : NoFloats (v.copied normal).tokens := by
  intro t ht
  rw [copied, tokens_mapTexts] at ht
  obtain ⟨u, hu, rfl⟩ := List.mem_map.1 ht
  unfold mapText
  split_ifs
  · exact h u hu
  · exact h u hu

theorem Value.anyQuote (h : Value IsQuote v s rest) : Value AnyQuote v s rest := by
  refine h.restrict fun t ht hkind => ?_
  obtain ⟨quote, hquote, hquotes⟩ := h.namesQuoted t ht hkind
  exact ⟨quote, hquote, isWhitespace_of_isQuote quote hquotes⟩

/-- The copy of a faithful document, at the end of the text. -/
theorem Value.copied_nil (h : Value IsQuote v s rest) (hfaithful : Faithful v.tokens) :
    Value IsQuote (v.copied normal) (v.copied normal).compactText [] := by
  have hcopied : Value IsQuote (v.copied normal)
      ((v.copied normal).compactText ++ []) [] := h.copied hfaithful [] (by simp [Stops])
  rwa [List.append_nil] at hcopied

theorem isStructure_copied (h : v.IsStructure) : (v.copied normal).IsStructure := by
  unfold IsStructure at h ⊢
  rwa [copied, headKind_mapTexts]

/-- A copy that is accepted, and read with the same contents, is the one of a faithful document. -/
theorem Value.faithful (h : Value IsQuote v s rest) (hfloat : NoFloats v.tokens) {ts : List Token}
    (hscan : (JsonParser.make (v.copied normal).compactText beyond).scan = (ts, .success))
    (hcontents : contents normal ts = contents normal v.tokens) :
    Faithful v.tokens := by
  obtain ⟨v', hstarts, hdepth⟩ := exists_startsWith_of_scan (by rw [hscan])
  have htokens := scan_of_startsWith (fun _ h => h) beyond hstarts hdepth
  rw [hscan] at htokens
  rw [(Prod.mk.inj htokens).1, contents_tokens, contents_tokens] at hcontents
  obtain ⟨ws, s', rest', htext, hws, hvalue⟩ := hstarts
  -- no white space is in front of the copy
  obtain rfl := whitespaces_eq_nil hws htext.symm (h.copyHead hfloat).head
  rw [← List.append_nil (v.copied normal).compactText] at hvalue
  exact (h.reread hfloat v' [] rest' guarded_nil hvalue (tokens_injective hcontents)).1

/-- A document with a copy that is a document, and that is copied as it is, is stable. -/
theorem Value.stable (h : Value IsQuote v s rest) (hfloat : NoFloats v.tokens)
    (hdepth : v.depth ≤ maxJsonNestingDepth) (hfaithful : Faithful v.tokens)
    (htext : ((v.copied normal).copied normal).compactText =
      (v.copied normal).compactText) : Stable v.tokens := by
  have hcopy : Value IsQuote (v.copied normal) (v.copied normal).compactText [] :=
    h.copied_nil hfaithful
  have hcopy' : Value AnyQuote (v.copied normal)
      (((v.copied normal).copied normal).compactText ++ []) [] := by
    rw [htext, List.append_nil]
    exact hcopy.anyQuote
  obtain ⟨hfaithful', -⟩ := hcopy.reread (noFloats_copied hfloat) _ [] [] guarded_nil hcopy' rfl
  -- both copies are read from one text
  have htwice : Value IsQuote ((v.copied normal).copied normal)
      ((v.copied normal).copied normal).compactText [] := hcopy.copied_nil hfaithful'
  rw [htext] at htwice
  have hscan := scan_of_startsWith isWhitespace_of_isQuote 0 ⟨[], _, [], rfl, isWhitespaces_nil, hcopy⟩
    (by rwa [depth_copied])
  have hscan' := scan_of_startsWith isWhitespace_of_isQuote 0
    ⟨[], _, [], rfl, isWhitespaces_nil, htwice⟩ (by rwa [depth_copied, depth_copied])
  rw [hscan] at hscan'
  have htokens := (Prod.mk.inj hscan').1
  rw [Json.copied, Json.copied, mapTexts_mapTexts, tokens_mapTexts, tokens_mapTexts,
    List.map_inj_left] at htokens
  intro t ht hkind
  obtain ⟨quote, items, hquoted⟩ := h.wellQuoted t ht hkind
  apply (hquoted.writtenTwice_iff ((hfaithful t ht).1 hkind)).1
  have heq := htokens t ht
  have hhas : t.kind.HasText := hkind.elim Or.inl fun h => Or.inr (Or.inr (Or.inr h))
  unfold mapText at heq
  rw [if_pos hhas, if_pos hhas] at heq
  obtain ⟨k, text⟩ := t
  have htext : Token.written normal .escaped ⟨k, text⟩ =
      Token.written normal .escaped ⟨k, Token.written normal .escaped ⟨k, text⟩⟩ :=
    (Token.mk.inj heq).2
  rw [written_of_string hkind, written_of_string hkind] at htext
  exact htext.symm

theorem Value.stable_of_keepsMeaning (h : Value IsQuote v p.chars rest)
    (hdepth : p.stackSize + v.depth ≤ maxJsonNestingDepth) (hstructure : v.IsStructure)
    (hfloat : NoFloats v.tokens) (hkeeps : KeepsMeaning normal p.parseFirstTokenInValue v) :
    Stable v.tokens := by
  have hdepth' : v.depth ≤ maxJsonNestingDepth := (Nat.le_add_left _ _).trans hdepth
  obtain ⟨ts, final, hplaced⟩ := h.placed isWhitespace_of_isQuote hdepth
  obtain ⟨q, -, -, hcopy⟩ := hplaced.copy normal
  obtain ⟨q', out, hcopy', hmeaning⟩ := hkeeps
  obtain ⟨-, -, rfl⟩ := JsonParser.Written.mk.inj (hcopy.symm.trans hcopy')
  -- the byte behind the copy does not matter
  obtain ⟨⟨ts', hscan, hcontents⟩, hroot⟩ := hmeaning 0
  have hfaithful := h.faithful hfloat hscan hcontents
  rw [(h.copied_nil hfaithful).evaluateRoot (by rwa [depth_copied])
    (isStructure_copied hstructure)] at hroot
  exact h.stable hfloat hdepth' hfaithful (Option.some.inj hroot)

theorem Value.keepsMeaning_of_stable (h : Value IsQuote v p.chars rest)
    (hdepth : p.stackSize + v.depth ≤ maxJsonNestingDepth) (hstructure : v.IsStructure)
    (hfloat : NoFloats v.tokens) (hstable : Stable v.tokens) :
    KeepsMeaning normal p.parseFirstTokenInValue v := by
  have hdepth' : v.depth ≤ maxJsonNestingDepth := (Nat.le_add_left _ _).trans hdepth
  obtain ⟨ts, final, hplaced⟩ := h.placed isWhitespace_of_isQuote hdepth
  obtain ⟨q, -, -, hcopy⟩ := hplaced.copy normal
  have hfaithful := hstable.faithful hfloat
  have hcopied : Value IsQuote (v.copied normal) (v.copied normal).compactText [] :=
    h.copied_nil hfaithful
  refine ⟨q, _, hcopy, fun beyond => ⟨⟨(v.copied normal).tokens, ?_, ?_⟩, ?_⟩⟩
  · exact scan_of_startsWith isWhitespace_of_isQuote beyond
      ⟨[], _, [], rfl, isWhitespaces_nil, hcopied⟩ (by rwa [depth_copied])
  · rw [contents_tokens, contents_tokens, decoded_copied hfaithful h.wellQuoted]
  · rw [hcopied.evaluateRoot (by rwa [depth_copied]) (isStructure_copied hstructure),
      copied_copied hfaithful h.wellQuoted hstable]

/-- Copied JSON keeps its meaning exactly if the strings and names are stable. -/
theorem copy_keepsMeaning_iff (normal : List Byte → List Byte) (p : JsonParser) (v : Json)
    (rest : List Byte) (h : Value IsQuote v p.chars rest)
    (hdepth : p.stackSize + v.depth ≤ maxJsonNestingDepth) (hstructure : v.IsStructure)
    (hfloat : NoFloats v.tokens) :
    KeepsMeaning normal p.parseFirstTokenInValue v ↔ Stable v.tokens :=
  ⟨h.stable_of_keepsMeaning hdepth hstructure hfloat,
    h.keepsMeaning_of_stable hdepth hstructure hfloat⟩

/-! ### Arrays of one string -/

/-- An array of one string, and its text. -/
def arrayOf (text : List Byte) : Json := .array [.string text]

def arrayText (text : List Byte) : List Byte := chr '[' :: (text ++ [chr ']'])

theorem value_arrayOf {text : List Byte} (h : IsString IsQuote text) :
    Value IsQuote (arrayOf text) (arrayText text) [] :=
  @Value.array IsQuote [] _ _ [.string text] isWhitespaces_nil (Elements.last_compact (.string h))

theorem tokens_arrayOf (text : List Byte) : (arrayOf text).tokens =
    [⟨.startArray, [chr '[']⟩, ⟨.valueString, text⟩, ⟨.endArray, [chr ']']⟩] :=
  rfl

theorem noFloats_arrayOf (text : List Byte) : NoFloats (arrayOf text).tokens := by
  rw [tokens_arrayOf]
  exact noFloats_cons.2 ⟨(by decide : JsonToken.startArray ≠ .valueNumberFloat),
    noFloats_cons.2 ⟨(by decide : JsonToken.valueString ≠ .valueNumberFloat),
      noFloats_cons.2 ⟨(by decide : JsonToken.endArray ≠ .valueNumberFloat), by simp [NoFloats]⟩⟩⟩

/-- An array of one string is stable if the pieces of the string are. -/
theorem stable_arrayOf {quote : Byte} {items : List StringItem} {text : List Byte}
    (h : Quoted quote items text) :
    Stable (arrayOf text).tokens ↔ ∀ p ∈ pieces items, p.Stable := by
  constructor
  · intro hstable
    have hmem : (⟨.valueString, text⟩ : Token) ∈ (arrayOf text).tokens := by
      rw [tokens_arrayOf]
      exact List.mem_cons_of_mem _ (List.mem_cons_self ..)
    exact hstable _ hmem (Or.inl rfl) quote items h
  · intro hpieces t ht hkind quote' items' h'
    rw [tokens_arrayOf] at ht
    simp only [List.mem_cons, List.not_mem_nil, or_false] at ht
    rcases ht with rfl | rfl | rfl
    · exact absurd hkind (by decide)
    · rwa [← h.unique h']
    · exact absurd hkind (by decide)

theorem quoted_letter : Quoted dquote [.char (chr 'a')] [dquote, chr 'a', dquote] :=
  ⟨List.forall_mem_singleton.2 ⟨by decide, by decide⟩, rfl⟩

/-- `["a"]` -/
theorem keepsMeaning_letter : KeepsMeaning id
    (JsonParser.make (arrayText [dquote, chr 'a', dquote]) 0).parseFirstTokenInValue
      (arrayOf [dquote, chr 'a', dquote]) :=
  (copy_keepsMeaning_iff id (.make _ 0) _ []
    (value_arrayOf ⟨dquote, _, Or.inl rfl, quoted_letter.fits, quoted_letter.text⟩) (by decide)
    (Or.inr rfl) (noFloats_arrayOf _)).2 ((stable_arrayOf quoted_letter).2
      (List.forall_mem_singleton.2 fun h => absurd h (by decide)))

/-- `"\u0022"` -/
def unicodeQuote : List Byte :=
  [dquote, backslash, chr 'u', chr '0', chr '0', chr '2', chr '2', dquote]

theorem quoted_unicodeQuote :
    Quoted dquote [.unicode (chr '0') (chr '0') (chr '2') (chr '2')] unicodeQuote :=
  ⟨List.forall_mem_singleton.2 ⟨by decide, by decide, by decide, by decide, by decide⟩, rfl⟩

/-- `["\u0022"]` is copied as three quotes between brackets. -/
theorem unicodeQuote_not_kept : ¬KeepsMeaning id
    (JsonParser.make (arrayText unicodeQuote) 0).parseFirstTokenInValue (arrayOf unicodeQuote) := by
  intro hkeeps
  have hvalue := value_arrayOf
    ⟨dquote, _, Or.inl rfl, quoted_unicodeQuote.fits, quoted_unicodeQuote.text⟩
  have hstable := Value.stable_of_keepsMeaning (p := .make (arrayText unicodeQuote) 0) hvalue
    (by decide) (Or.inr rfl) (noFloats_arrayOf _) hkeeps
  have hpieces := (stable_arrayOf quoted_unicodeQuote).1 hstable _ (List.mem_singleton_self _)
  exact absurd hpieces.2.1 (by decide)

end SparkRapids.GetJson
