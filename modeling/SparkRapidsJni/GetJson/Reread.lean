import SparkRapidsJni.GetJson.Unfaithful

/-!
# Reading copies

A copy is read along with what has been written for the document, as long as the contents are the
same (`Value.reread`): so the strings and names of the document are faithful, and the end of the copy
is where it has been written.
-/

namespace SparkRapids.GetJson

open Json

variable {v v' : Json} {vs vs' : List Json} {ms ms' : List (List Byte × Json)}
  {name s text rest rest' ws : List Byte} {ts us : List Token}
  {normal : List Byte → List Byte}

/-! ### Documents without floating-point numbers -/

/-- There is no floating-point number among the tokens. -/
def NoFloats (ts : List Token) : Prop := ∀ t ∈ ts, t.kind ≠ .valueNumberFloat

theorem noFloats_append : NoFloats (ts ++ us) ↔ NoFloats ts ∧ NoFloats us :=
  List.forall_mem_append

theorem noFloats_cons {t : Token} :
    NoFloats (t :: ts) ↔ t.kind ≠ .valueNumberFloat ∧ NoFloats ts :=
  List.forall_mem_cons

/-- The characters of an integer. -/
def IsIntChar (c : Byte) : Prop := c = chr '-' ∨ isDigit c

theorem isIntChar_ne {c : Byte} (h : IsIntChar c) : c ≠ backslash ∧ isWhitespace c = false := by
  rcases h with rfl | h
  · decide
  · exact (by decide +kernel : ∀ c : Byte, isDigit c → c ≠ backslash ∧ isWhitespace c = false) c h

theorem writeInt_chars (h : IsNumber false text rest) :
    writeInt text ≠ [] ∧ ∀ c ∈ writeInt text, IsIntChar c := by
  have hchars : text ≠ [] ∧ ∀ c ∈ text, IsIntChar c := by
    generalize hfalse : false = isFloat at h
    obtain ⟨hsign, hint, -, -, -, -⟩ := h
    next sign int fraction exponent =>
    have hnone : ¬(fraction ≠ [] ∨ exponent ≠ []) := of_decide_eq_false hfalse.symm
    obtain ⟨hfraction, hexponent⟩ := not_or.1 hnone
    obtain rfl : fraction = [] := not_not.1 hfraction
    obtain rfl : exponent = [] := not_not.1 hexponent
    rw [List.append_nil, List.append_nil]
    have hne : int ≠ [] := by cases hint <;> simp
    have hdigits : ∀ c ∈ int, isDigit c := by
      cases hint with
      | zero => decide
      | digits hd hds =>
        refine List.forall_mem_cons.2 ⟨?_, hds⟩
        have hle := BitVec.le_trans (show chr '0' ≤ chr '1' by decide) hd.1
        simp [isDigit, hle, hd.2]
    refine ⟨List.append_ne_nil_of_right_ne_nil _ hne, ?_⟩
    intro c hc
    rcases List.mem_append.1 hc with hc | hc
    · rcases hsign with rfl | rfl
      · exact absurd hc List.not_mem_nil
      · exact Or.inl (List.mem_singleton.1 hc)
    · exact Or.inr (hdigits c hc)
  unfold writeInt
  split_ifs
  · refine ⟨List.cons_ne_nil _ _, fun c hc => ?_⟩
    rw [List.mem_singleton.1 hc]
    exact Or.inr (by decide)
  · exact hchars

/-! ### What copies start with -/

theorem writeString_eq_cons {quotes : Byte → Prop} (h : IsString quotes text) :
    ∃ t, writeString text .escaped = dquote :: t := by
  obtain ⟨quote, items, -, hquoted⟩ := h.quoted
  exact ⟨_, hquoted.writeString_escaped⟩

/-- No white space is in front of a copy, and no backslash in front of its first quote. -/
structure CopyHead (copy : List Byte) : Prop where
  head : ∃ c t, copy = c :: t ∧ isWhitespace c = false
  first : ∀ rest, QuoteFirst rest → QuoteFirst (copy ++ rest)

theorem CopyHead.append (h : CopyHead text) (h' : ∀ rest, QuoteFirst rest → QuoteFirst (s ++ rest)) :
    CopyHead (text ++ s) where
  head := by
    obtain ⟨c, t, rfl, hc⟩ := h.head
    exact ⟨c, t ++ s, rfl, hc⟩
  first rest hrest := by
    rw [List.append_assoc]
    exact h.first _ (h' rest hrest)

theorem copyHead_dquote (t : List Byte) : CopyHead (dquote :: t) :=
  ⟨⟨dquote, t, rfl, by decide⟩, fun rest _ => quoteFirst_dquote (t ++ rest)⟩

theorem copyHead_text (hne : text ≠ [])
    (h : ∀ c ∈ text, c ≠ backslash ∧ isWhitespace c = false) : CopyHead text := by
  obtain ⟨c, t, rfl⟩ := List.exists_cons_of_ne_nil hne
  refine ⟨⟨c, t, rfl, (h c (List.mem_cons_self ..)).2⟩, fun rest hrest => ?_⟩
  exact hrest.append fun hmem => (h _ hmem).1 rfl

theorem copyHead_cons {c : Byte} {t : List Byte} (hc : c ≠ backslash ∧ isWhitespace c = false)
    (h : ∀ rest, QuoteFirst rest → QuoteFirst (t ++ rest)) : CopyHead (c :: t) :=
  ⟨⟨c, t, rfl, hc.2⟩, fun rest hrest => (h rest hrest).cons hc.1⟩

theorem Value.copyHead (h : Value IsQuote v s rest) : NoFloats v.tokens →
    CopyHead (v.copied normal).compactText := by
  -- by induction on the derivation: the copy begins with a quote or a character of its own
  refine Value.induction
    (V := fun v _ _ => NoFloats v.tokens → CopyHead (v.copied normal).compactText)
    (E := fun vs _ _ => NoFloats (elementsTokens vs) →
      CopyHead (elementsText (mapElements (Token.written normal .escaped) vs)))
    (M := fun ms _ _ => CopyHead (membersText (mapMembers (Token.written normal .escaped) ms)))
    (N := fun name _ _ _ => ∃ t, writeString name .escaped = dquote :: t) ?_ h
  constructor
  case string =>
    intro text rest htext _
    obtain ⟨t, ht⟩ := writeString_eq_cons htext
    show CopyHead (writeString text .escaped)
    rw [ht]
    exact copyHead_dquote t
  case number =>
    intro isFloat text rest htext hfloat
    cases isFloat with
    | false =>
      obtain ⟨hne, hchars⟩ := writeInt_chars htext
      exact copyHead_text hne fun c hc => isIntChar_ne (hchars c hc)
    | true => exact absurd rfl (hfloat _ (List.mem_singleton_self _))
  case trueValue =>
    intro _ _
    show CopyHead trueText
    exact copyHead_text (by decide) (by decide)
  case falseValue =>
    intro _ _
    show CopyHead falseText
    exact copyHead_text (by decide) (by decide)
  case nullValue =>
    intro _ _
    show CopyHead nullText
    exact copyHead_text (by decide) (by decide)
  case emptyArray =>
    intro ws rest _ _
    show CopyHead [chr '[', chr ']']
    exact copyHead_text (by decide) (by decide)
  case array =>
    intro ws s rest vs _ _ ih hfloat
    have helems := ih (noFloats_append.1 (noFloats_cons.1 hfloat).2).1
    refine copyHead_cons (by decide) fun rest hrest => ?_
    rw [List.append_assoc]
    exact helems.first _ (hrest.cons (by decide))
  case emptyObject =>
    intro ws rest _ _
    show CopyHead [chr '\x7b', chr '\x7d']
    exact copyHead_text (by decide) (by decide)
  case object =>
    intro ws s rest ms _ _ _ ih _
    refine copyHead_cons (by decide) fun rest hrest => ?_
    rw [List.append_assoc]
    exact ih.first _ (hrest.cons (by decide))
  case lastElement =>
    intro v s ws rest _ _ ih hfloat
    exact ih (noFloats_append.1 hfloat).1
  case consElement =>
    intro v vs s ws ws' s' rest _ _ _ hvs ih ih' hfloat
    obtain ⟨hv, hvs'⟩ := noFloats_append.1 hfloat
    rw [mapElements, elementsText_cons, if_neg (mt mapElements_eq_nil.1 hvs.ne_nil)]
    exact (ih hv).append fun rest hrest => ((ih' hvs').first rest hrest).cons (by decide)
  case lastMember =>
    intro name v s ws rest _ _ ih
    obtain ⟨t, ht⟩ := ih
    rw [mapMembers, mapMembers, membersText]
    show CopyHead (writeString name .escaped ++ _)
    rw [ht]
    exact copyHead_dquote _
  case consMember =>
    intro name v ms s ws ws' s' rest _ _ _ _ ih _
    obtain ⟨t, ht⟩ := ih
    rw [mapMembers, membersText_cons]
    show CopyHead (writeString name .escaped ++ _)
    rw [ht]
    exact copyHead_dquote _
  case member =>
    intro name ws ws' s rest v hname _ _ _ _
    exact writeString_eq_cons hname

/-! ### Documents of the same contents -/

theorem exists_string_of_decoded {content : List Byte}
    (h : v'.decoded normal = .string content) :
    ∃ t, v' = .string t ∧ writeString t .unescaped = content := by
  cases v' with
  | string t => exact ⟨t, rfl, Json.string.inj h⟩
  | _ => exact Json.noConfusion h

theorem exists_number_of_decoded {t : List Byte} (h : v'.decoded normal = .number false t) :
    ∃ t', v' = .number false t' ∧ writeInt t' = t := by
  cases v' with
  | number isFloat t' =>
    obtain ⟨rfl, ht⟩ := Json.number.inj h
    exact ⟨t', rfl, ht⟩
  | _ => exact Json.noConfusion h

theorem exists_array_of_decoded {vs : List Json} (h : v'.decoded normal = .array vs) :
    ∃ vs', v' = .array vs' ∧ mapElements (Token.written normal .unescaped) vs' = vs := by
  cases v' with
  | array vs' => exact ⟨vs', rfl, Json.array.inj h⟩
  | _ => exact Json.noConfusion h

theorem exists_object_of_decoded {ms : List (List Byte × Json)}
    (h : v'.decoded normal = .object ms) :
    ∃ ms', v' = .object ms' ∧ mapMembers (Token.written normal .unescaped) ms' = ms := by
  cases v' with
  | object ms' => exact ⟨ms', rfl, Json.object.inj h⟩
  | _ => exact Json.noConfusion h

theorem eq_true_of_decoded (h : v'.decoded normal = .trueValue) : v' = .trueValue := by
  cases v' with
  | trueValue => rfl
  | _ => exact Json.noConfusion h

theorem eq_false_of_decoded (h : v'.decoded normal = .falseValue) : v' = .falseValue := by
  cases v' with
  | falseValue => rfl
  | _ => exact Json.noConfusion h

theorem eq_null_of_decoded (h : v'.decoded normal = .nullValue) : v' = .nullValue := by
  cases v' with
  | nullValue => rfl
  | _ => exact Json.noConfusion h

/-! ### Reading along -/

/-- White space in front of what starts with none is no white space. -/
theorem whitespaces_eq_nil {t : List Byte} (hws : IsWhitespaces ws) (h : ws ++ s = t)
    (ht : ∃ c t', t = c :: t' ∧ isWhitespace c = false) : s = t := by
  obtain ⟨c, t', rfl, hc⟩ := ht
  rcases ws with _ | ⟨w, ws⟩
  · exact h
  · have hw := hws w (List.mem_cons_self ..)
    rw [(List.cons.inj h).1, hc] at hw
    exact absurd hw Bool.false_ne_true

/-- A string that is read where one has been written. -/
theorem IsString.reread {quotes : Byte → Prop} {text' : List Byte} (h : IsString IsQuote text)
    (h' : IsString quotes text') (htext : writeString text .escaped ++ rest = text' ++ rest')
    (hcontent : writeString text' .unescaped = writeString text .unescaped)
    (hguarded : Guarded rest) : FaithfulText text ∧ rest' = rest := by
  obtain ⟨quote, items, -, hquoted⟩ := h.quoted
  obtain ⟨quote', items', -, hquoted'⟩ := h'.quoted
  rw [hquoted.writeString_escaped, hquoted'.text, List.cons_append, List.cons_append,
    List.cons_append, List.cons_append, List.append_assoc, List.append_assoc] at htext
  obtain ⟨rfl, htext⟩ := List.cons.inj htext
  rw [hquoted.writeString_unescaped, hquoted'.writeString_unescaped] at hcontent
  exact read_written hquoted hquoted'.fits htext.symm hcontent hguarded

/-- An integer that is read where one has been written. -/
theorem writeInt_reread {text' : List Byte} (hint : writeInt text' = writeInt text)
    (h : writeInt text ++ rest = text' ++ rest') : rest' = rest := by
  by_cases hzero : text' = minusZero
  · rw [← hint, hzero] at h
    exact absurd (List.cons.inj h).1 (by decide)
  · rw [← hint, show writeInt text' = text' from if_neg hzero] at h
    exact (List.append_cancel_left h).symm

theorem Elements.copyHead (h : Elements IsQuote vs s rest) (hfloat : NoFloats (elementsTokens vs)) :
    CopyHead (elementsText (mapElements (Token.written normal .escaped) vs)) := by
  induction vs generalizing s with
  | nil => exact absurd rfl h.ne_nil
  | cons v vs ih =>
    obtain ⟨hv, hvs⟩ := noFloats_append.1 hfloat
    cases h with
    | last hvalue => exact hvalue.copyHead hv
    | cons hvalue _ _ helems =>
      rw [mapElements, elementsText_cons, if_neg (mt mapElements_eq_nil.1 helems.ne_nil)]
      exact (hvalue.copyHead hv).append fun rest hrest =>
        ((ih helems hvs).first rest hrest).cons (by decide)

theorem Member.copyHead (h : Member IsQuote name v s rest) (ms : List (List Byte × Json)) :
    CopyHead (membersText (mapMembers (Token.written normal .escaped) ((name, v) :: ms))) := by
  obtain ⟨hname, -, -, -⟩ := h
  obtain ⟨t, ht⟩ := writeString_eq_cons hname
  rw [mapMembers, membersText_cons]
  show CopyHead (writeString name .escaped ++ _)
  rw [ht]
  exact copyHead_dquote _

theorem Members.copyHead (h : Members IsQuote ms s rest) :
    CopyHead (membersText (mapMembers (Token.written normal .escaped) ms)) := by
  cases h with
  | last hm => exact hm.copyHead []
  | cons hm => exact hm.copyHead _

theorem CopyHead.head_append {copy : List Byte} (h : CopyHead copy) (t : List Byte) :
    ∃ c t', copy ++ t = c :: t' ∧ isWhitespace c = false := by
  obtain ⟨c, t', rfl, hc⟩ := h.head
  exact ⟨c, t' ++ t, rfl, hc⟩

/-- What is read where the value `v` has been written is `v`, if the contents are the same. -/
def RereadsValue (normal : List Byte → List Byte) (v : Json) : Prop :=
  NoFloats v.tokens → ∀ v' rest rest', Guarded rest →
    Value AnyQuote v' ((v.copied normal).compactText ++ rest) rest' →
    v'.decoded normal = v.decoded normal → Faithful v.tokens ∧ rest' = rest

def RereadsElements (normal : List Byte → List Byte) (vs : List Json) : Prop :=
  NoFloats (elementsTokens vs) → ∀ vs' rest rest', QuoteFirst rest →
    Elements AnyQuote vs' (elementsText (mapElements (Token.written normal .escaped) vs) ++
      chr ']' :: rest) rest' →
    mapElements (Token.written normal .unescaped) vs' =
      mapElements (Token.written normal .unescaped) vs →
    Faithful (elementsTokens vs) ∧ rest' = rest

def RereadsMember (normal : List Byte → List Byte) (name : List Byte) (v : Json) : Prop :=
  NoFloats v.tokens → ∀ name' v' rest rest', Guarded rest →
    Member AnyQuote name' v' (writeString name .escaped ++
      chr ':' :: ((v.copied normal).compactText ++ rest)) rest' →
    writeString name' .unescaped = writeString name .unescaped →
    v'.decoded normal = v.decoded normal →
    FaithfulText name ∧ Faithful v.tokens ∧ rest' = rest

def RereadsMembers (normal : List Byte → List Byte) (ms : List (List Byte × Json)) : Prop :=
  NoFloats (membersTokens ms) → ∀ ms' rest rest', QuoteFirst rest →
    Members AnyQuote ms' (membersText (mapMembers (Token.written normal .escaped) ms) ++
      chr '\x7d' :: rest) rest' →
    mapMembers (Token.written normal .unescaped) ms' =
      mapMembers (Token.written normal .unescaped) ms →
    Faithful (membersTokens ms) ∧ rest' = rest

theorem rereads_string (h : IsString IsQuote text) : RereadsValue normal (.string text) := by
  intro _ v' rest rest' hguarded hv hdec
  obtain ⟨t, rfl, hcontent⟩ := exists_string_of_decoded hdec
  generalize hs : ((Json.string text).copied normal).compactText ++ rest = s at hv
  cases hv with
  | string htext =>
    obtain ⟨hfaithful, hrest⟩ := h.reread htext hs hcontent hguarded
    refine ⟨?_, hrest⟩
    intro t ht
    obtain rfl := List.mem_singleton.1 ht
    exact ⟨fun _ => hfaithful, (by decide : JsonToken.valueString ≠ .valueNumberFloat)⟩

theorem faithful_single {t : Token} (ht : t.kind ≠ .valueString ∧ t.kind ≠ .fieldName ∧
    t.kind ≠ .valueNumberFloat) : Faithful [t] := by
  intro t' h
  rw [List.mem_singleton.1 h]
  exact ⟨fun hkind => (hkind.elim ht.1 ht.2.1).elim, ht.2.2⟩

theorem rereads_number {isFloat : Bool} : RereadsValue normal (.number isFloat text) := by
  intro hfloat v' rest rest' _ hv hdec
  cases isFloat with
  | true => exact absurd rfl (hfloat _ (List.mem_singleton_self _))
  | false =>
    obtain ⟨t, rfl, hint⟩ := exists_number_of_decoded hdec
    generalize hs : ((Json.number false text).copied normal).compactText ++ rest = s at hv
    cases hv with
    | number htext =>
      exact ⟨faithful_single ⟨by simp, by simp, by simp⟩, writeInt_reread hint hs⟩

theorem rereads_true : RereadsValue normal .trueValue := by
  intro _ v' rest rest' _ hv hdec
  obtain rfl := eq_true_of_decoded hdec
  generalize hs : (Json.trueValue.copied normal).compactText ++ rest = s at hv
  cases hv with
  | trueValue => exact ⟨faithful_single (by decide), (List.append_cancel_left hs).symm⟩

theorem rereads_false : RereadsValue normal .falseValue := by
  intro _ v' rest rest' _ hv hdec
  obtain rfl := eq_false_of_decoded hdec
  generalize hs : (Json.falseValue.copied normal).compactText ++ rest = s at hv
  cases hv with
  | falseValue => exact ⟨faithful_single (by decide), (List.append_cancel_left hs).symm⟩

theorem rereads_null : RereadsValue normal .nullValue := by
  intro _ v' rest rest' _ hv hdec
  obtain rfl := eq_null_of_decoded hdec
  generalize hs : (Json.nullValue.copied normal).compactText ++ rest = s at hv
  cases hv with
  | nullValue => exact ⟨faithful_single (by decide), (List.append_cancel_left hs).symm⟩

theorem rereads_emptyArray : RereadsValue normal (.array []) := by
  intro _ v' rest rest' _ hv hdec
  obtain ⟨vs', rfl, hvs'⟩ := exists_array_of_decoded hdec
  obtain rfl := mapElements_eq_nil.1 hvs'
  generalize hs : ((Json.array []).copied normal).compactText ++ rest = s at hv
  cases hv with
  | emptyArray hws =>
    refine ⟨faithful_append.2 ⟨faithful_single (by decide), faithful_single (by decide)⟩, ?_⟩
    have hend := whitespaces_eq_nil hws (List.cons.inj hs).2.symm ⟨chr ']', rest, rfl, by decide⟩
    exact (List.cons.inj hend).2
  | array _ helems => exact absurd rfl helems.ne_nil

theorem rereads_array (hvs : Elements IsQuote vs s text) (h : RereadsElements normal vs) :
    RereadsValue normal (.array vs) := by
  intro hfloat v' rest rest' hguarded hv hdec
  obtain ⟨vs', rfl, hvs'⟩ := exists_array_of_decoded hdec
  have hfloat' := (noFloats_append.1 (noFloats_cons.1 hfloat).2).1
  generalize hs : ((Json.array vs).copied normal).compactText ++ rest = s' at hv
  have hs : chr '[' :: (elementsText (mapElements (Token.written normal .escaped) vs) ++
      [chr ']']) ++ rest = s' := hs
  rw [List.cons_append, List.append_assoc] at hs
  cases hv with
  | emptyArray => exact absurd (mapElements_eq_nil.1 hvs'.symm) hvs.ne_nil
  | array hws helems =>
    have hstart := whitespaces_eq_nil hws (List.cons.inj hs).2.symm
      ((hvs.copyHead hfloat').head_append _)
    rw [hstart] at helems
    obtain ⟨hfaithful, hrest⟩ := h hfloat' vs' rest rest' hguarded.first helems hvs'
    exact ⟨faithful_append.2 ⟨faithful_single (by decide),
      faithful_append.2 ⟨hfaithful, faithful_single (by decide)⟩⟩, hrest⟩

theorem rereads_emptyObject : RereadsValue normal (.object []) := by
  intro _ v' rest rest' _ hv hdec
  obtain ⟨ms', rfl, hms'⟩ := exists_object_of_decoded hdec
  obtain rfl := mapMembers_eq_nil.1 hms'
  generalize hs : ((Json.object []).copied normal).compactText ++ rest = s at hv
  cases hv with
  | emptyObject hws =>
    refine ⟨faithful_append.2 ⟨faithful_single (by decide), faithful_single (by decide)⟩, ?_⟩
    have hend := whitespaces_eq_nil hws (List.cons.inj hs).2.symm ⟨chr '\x7d', rest, rfl, by decide⟩
    exact (List.cons.inj hend).2
  | object _ _ hmembers => exact absurd rfl hmembers.ne_nil

theorem rereads_object (hms : Members IsQuote ms s text) (h : RereadsMembers normal ms) :
    RereadsValue normal (.object ms) := by
  intro hfloat v' rest rest' hguarded hv hdec
  obtain ⟨ms', rfl, hms'⟩ := exists_object_of_decoded hdec
  have hfloat' := (noFloats_append.1 (noFloats_cons.1 hfloat).2).1
  generalize hs : ((Json.object ms).copied normal).compactText ++ rest = s' at hv
  have hs : chr '\x7b' :: (membersText (mapMembers (Token.written normal .escaped) ms) ++
      [chr '\x7d']) ++ rest = s' := hs
  rw [List.cons_append, List.append_assoc] at hs
  cases hv with
  | emptyObject => exact absurd (mapMembers_eq_nil.1 hms'.symm) hms.ne_nil
  | object hws _ hmembers =>
    have hstart := whitespaces_eq_nil hws (List.cons.inj hs).2.symm
      (hms.copyHead.head_append _)
    rw [hstart] at hmembers
    obtain ⟨hfaithful, hrest⟩ := h hfloat' ms' rest rest' hguarded.first hmembers hms'
    exact ⟨faithful_append.2 ⟨faithful_single (by decide),
      faithful_append.2 ⟨hfaithful, faithful_single (by decide)⟩⟩, hrest⟩

theorem rereads_lastElement (h : RereadsValue normal v) :
    RereadsElements normal [v] := by
  intro hfloat vs' rest rest' hfirst helems hdec
  obtain ⟨hv, -⟩ := noFloats_append.1 hfloat
  cases helems with
  | last hvalue hws =>
    obtain ⟨hfaithful, hrest⟩ := h hv _ _ _ (hfirst.guarded (by decide)) hvalue
      (List.cons.inj hdec).1
    have hend := whitespaces_eq_nil hws hrest ⟨chr ']', rest, rfl, by decide⟩
    exact ⟨faithful_append.2 ⟨hfaithful, fun t ht => absurd ht List.not_mem_nil⟩,
      (List.cons.inj hend).2⟩
  | cons _ _ _ hvs =>
    exact absurd (mapElements_eq_nil.1 (List.cons.inj hdec).2) hvs.ne_nil

theorem rereads_consElement (hvs : Elements IsQuote vs s text) (h : RereadsValue normal v)
    (h' : RereadsElements normal vs) : RereadsElements normal (v :: vs) := by
  intro hfloat vs' rest rest' hfirst helems hdec
  obtain ⟨hv, hvs'⟩ := noFloats_append.1 hfloat
  rw [mapElements, elementsText_cons, if_neg (mt mapElements_eq_nil.1 hvs.ne_nil),
    List.append_assoc, List.cons_append] at helems
  have hhead : CopyHead (elementsText (mapElements (Token.written normal .escaped) vs)) :=
    hvs.copyHead hvs'
  have hfirst' := hhead.first _ (hfirst.cons (show chr ']' ≠ backslash by decide))
  cases helems with
  | last =>
    exact absurd (mapElements_eq_nil.1 (List.cons.inj hdec).2.symm) hvs.ne_nil
  | cons hvalue hws hws' helems =>
    obtain ⟨hfaithful, hrest⟩ := h hv _ _ _ (hfirst'.guarded (by decide)) hvalue
      (List.cons.inj hdec).1
    have hcomma := whitespaces_eq_nil hws hrest ⟨chr ',', _, rfl, by decide⟩
    have hnext := whitespaces_eq_nil hws' (List.cons.inj hcomma).2 (hhead.head_append _)
    rw [hnext] at helems
    obtain ⟨hfaithful', hend⟩ := h' hvs' _ _ _ hfirst helems (List.cons.inj hdec).2
    exact ⟨faithful_append.2 ⟨hfaithful, hfaithful'⟩, hend⟩

theorem faithful_name (hname : FaithfulText name) (h : Faithful ts) :
    Faithful (⟨.fieldName, name⟩ :: ts) :=
  List.forall_mem_cons.2 ⟨⟨fun _ => hname, (by decide : JsonToken.fieldName ≠ .valueNumberFloat)⟩, h⟩

theorem rereads_member (hname : IsString IsQuote name) (hvalue : Value IsQuote v s text)
    (h : RereadsValue normal v) : RereadsMember normal name v := by
  intro hfloat name' v' rest rest' hguarded hmember hcontent hdec
  have hhead : CopyHead (v.copied normal).compactText := hvalue.copyHead hfloat
  generalize hs : writeString name .escaped ++
    chr ':' :: ((v.copied normal).compactText ++ rest) = s' at hmember
  obtain ⟨hname', hws, hws', hv⟩ := hmember
  obtain ⟨hfaithful, hrest⟩ := hname.reread hname' hs hcontent
    ((hhead.first _ hguarded.first).guarded (by decide))
  have hcolon := whitespaces_eq_nil hws hrest ⟨chr ':', _, rfl, by decide⟩
  have hstart := whitespaces_eq_nil hws' (List.cons.inj hcolon).2 (hhead.head_append _)
  rw [hstart] at hv
  obtain ⟨hfaithful', hend⟩ := h hfloat _ _ _ hguarded hv hdec
  exact ⟨hfaithful, hfaithful', hend⟩

theorem mapMembers_cons_inj {f g : Token → List Byte} {name name' : List Byte}
    (h : mapMembers f ((name', v') :: ms') = mapMembers g ((name, v) :: ms)) :
    f ⟨.fieldName, name'⟩ = g ⟨.fieldName, name⟩ ∧ v'.mapTexts f = v.mapTexts g ∧
      mapMembers f ms' = mapMembers g ms := by
  obtain ⟨hm, hms⟩ := List.cons.inj h
  obtain ⟨hname, hv⟩ := Prod.mk.inj hm
  exact ⟨hname, hv, hms⟩

theorem rereads_lastMember (h : RereadsMember normal name v) :
    RereadsMembers normal [(name, v)] := by
  intro hfloat ms' rest rest' hfirst hmembers hdec
  obtain ⟨hv, -⟩ := noFloats_append.1 (noFloats_cons.1 hfloat).2
  rw [mapMembers, mapMembers, membersText, List.append_assoc, List.cons_append] at hmembers
  cases hmembers with
  | last hm hws =>
    obtain ⟨hname', hv', -⟩ := mapMembers_cons_inj hdec
    obtain ⟨hname, hfaithful, hrest⟩ := h hv _ _ _ _ (hfirst.guarded (by decide)) hm hname' hv'
    have hend := whitespaces_eq_nil hws hrest ⟨chr '\x7d', rest, rfl, by decide⟩
    exact ⟨faithful_name hname (faithful_append.2
      ⟨hfaithful, fun t ht => absurd ht List.not_mem_nil⟩), (List.cons.inj hend).2⟩
  | cons _ _ _ hms =>
    exact absurd (mapMembers_eq_nil.1 (mapMembers_cons_inj hdec).2.2) hms.ne_nil

theorem rereads_consMember (hms : Members IsQuote ms s text) (h : RereadsMember normal name v)
    (h' : RereadsMembers normal ms) : RereadsMembers normal ((name, v) :: ms) := by
  intro hfloat ms' rest rest' hfirst hmembers hdec
  obtain ⟨hv, hms'⟩ := noFloats_append.1 (noFloats_cons.1 hfloat).2
  rw [mapMembers, membersText_cons, if_neg (mt mapMembers_eq_nil.1 hms.ne_nil), List.append_assoc,
    List.cons_append, List.append_assoc, List.cons_append] at hmembers
  have hhead : CopyHead (membersText (mapMembers (Token.written normal .escaped) ms)) :=
    hms.copyHead
  have hfirst' := hhead.first _ (hfirst.cons (show chr '\x7d' ≠ backslash by decide))
  cases hmembers with
  | last =>
    exact absurd (mapMembers_eq_nil.1 (mapMembers_cons_inj hdec).2.2.symm) hms.ne_nil
  | cons hm hws hws' hmembers =>
    obtain ⟨hname', hv', hrest'⟩ := mapMembers_cons_inj hdec
    obtain ⟨hname, hfaithful, hrest⟩ := h hv _ _ _ _ (hfirst'.guarded (by decide)) hm hname' hv'
    have hcomma := whitespaces_eq_nil hws hrest ⟨chr ',', _, rfl, by decide⟩
    have hnext := whitespaces_eq_nil hws' (List.cons.inj hcomma).2 (hhead.head_append _)
    rw [hnext] at hmembers
    obtain ⟨hfaithful', hend⟩ := h' hms' _ _ _ hfirst hmembers hrest'
    exact ⟨faithful_name hname (faithful_append.2 ⟨hfaithful, hfaithful'⟩), hend⟩

/-- A copy that is read as a value with the same contents is read to its end, and the document is
faithful. -/
theorem Value.reread (h : Value IsQuote v s rest) : RereadsValue normal v := by
  refine Value.induction (V := fun v _ _ => RereadsValue normal v)
    (E := fun vs _ _ => RereadsElements normal vs)
    (M := fun ms _ _ => RereadsMembers normal ms)
    (N := fun name v _ _ => RereadsMember normal name v) ?_ h
  constructor
  case string => exact fun htext => rereads_string htext
  case number => exact fun _ => rereads_number
  case trueValue => exact rereads_true
  case falseValue => exact rereads_false
  case nullValue => exact rereads_null
  case emptyArray => exact fun _ => rereads_emptyArray
  case array => exact fun _ hvs ih => rereads_array hvs ih
  case emptyObject => exact fun _ => rereads_emptyObject
  case object => exact fun _ _ hms ih => rereads_object hms ih
  case lastElement => exact fun _ _ ih => rereads_lastElement ih
  case consElement => exact fun _ _ _ hvs ih ih' => rereads_consElement hvs ih ih'
  case lastMember => exact fun _ _ ih => rereads_lastMember ih
  case consMember => exact fun _ _ _ hms ih ih' => rereads_consMember hms ih ih'
  case member => exact fun hname _ _ hvalue ih => rereads_member hname hvalue ih

end SparkRapids.GetJson
