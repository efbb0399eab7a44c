import SparkRapidsJni.GetJson.Rewritten
import SparkRapidsJni.GetJson.Copied

/-!
# Copies are read as what they are copies of

If the strings and names of a document are faithful, its copy is a text of the grammar
(`Json.copied_value`), with the same contents (`Json.decoded_copied`), and a copy of the copy is the
copy itself if they are stable (`Json.copied_copied`).
-/

namespace SparkRapids.GetJson

variable {quote : Byte} {items items' : List StringItem} {text rest rest' : List Byte}

/-! ### The items of a string -/

theorem StringItem.Fits.head {item : StringItem} (h : item.Fits quote) :
    ∃ c t, item.text = c :: t ∧ c ≠ quote := by
  cases item with
  | char c => exact ⟨c, [], rfl, h.1⟩
  | escape c => exact ⟨backslash, [c], rfl, h.1⟩
  | unicode h1 h2 h3 h4 => exact ⟨backslash, _, rfl, h.1⟩

theorem StringItem.text_injective {item item' : StringItem} (hfits : item.Fits quote)
    (hfits' : item'.Fits quote) {t t' : List Byte} (h : item.text ++ t = item'.text ++ t') :
    item = item' ∧ t = t' := by
  have hu : chr 'u' ∉ escapeChars := by decide
  cases item with
  | char c =>
    cases item' with
    | char c' =>
      obtain ⟨rfl, rfl⟩ := List.cons.inj h
      exact ⟨rfl, rfl⟩
    | escape c' => exact absurd (List.cons.inj h).1 hfits.2
    | unicode => exact absurd (List.cons.inj h).1 hfits.2
  | escape c =>
    cases item' with
    | char c' => exact absurd (List.cons.inj h).1.symm hfits'.2
    | escape c' =>
      obtain ⟨-, h⟩ := List.cons.inj h
      obtain ⟨rfl, rfl⟩ := List.cons.inj h
      exact ⟨rfl, rfl⟩
    | unicode =>
      obtain ⟨-, h⟩ := List.cons.inj h
      obtain rfl : c = chr 'u' := (List.cons.inj h).1
      exact absurd hfits.2 hu
  | unicode h1 h2 h3 h4 =>
    cases item' with
    | char c' => exact absurd (List.cons.inj h).1.symm hfits'.2
    | escape c' =>
      obtain ⟨-, h⟩ := List.cons.inj h
      obtain rfl : chr 'u' = c' := (List.cons.inj h).1
      exact absurd hfits'.2 hu
    | unicode =>
      simp only [StringItem.text, List.cons_append, List.nil_append, List.cons.injEq] at h
      obtain ⟨-, -, rfl, rfl, rfl, rfl, rfl⟩ := h
      exact ⟨rfl, rfl⟩

/-- A string has one sequence of items. -/
theorem itemsText_injective (hfits : ∀ item ∈ items, item.Fits quote)
    (hfits' : ∀ item ∈ items', item.Fits quote)
    (h : itemsText items ++ quote :: rest = itemsText items' ++ quote :: rest') :
    items = items' ∧ rest = rest' := by
  induction items generalizing items' with
  | nil =>
    rcases items' with _ | ⟨item', items'⟩
    · exact ⟨rfl, (List.cons.inj h).2⟩
    · obtain ⟨c, t, htext, hc⟩ := (List.forall_mem_cons.1 hfits').1.head
      rw [itemsText_cons, htext] at h
      exact absurd (List.cons.inj h).1.symm hc
  | cons item items ih =>
    obtain ⟨hitem, hitems⟩ := List.forall_mem_cons.1 hfits
    rcases items' with _ | ⟨item', items'⟩
    · obtain ⟨c, t, htext, hc⟩ := hitem.head
      rw [itemsText_cons, htext] at h
      exact absurd (List.cons.inj h).1 hc
    · obtain ⟨hitem', hitems'⟩ := List.forall_mem_cons.1 hfits'
      rw [itemsText_cons, itemsText_cons, List.append_assoc, List.append_assoc] at h
      obtain ⟨rfl, htail⟩ := StringItem.text_injective hitem hitem' h
      obtain ⟨rfl, rfl⟩ := ih hitems hitems' htail
      exact ⟨rfl, rfl⟩

/-- The text consists of the items between two quotes. -/
structure Quoted (quote : Byte) (items : List StringItem) (text : List Byte) : Prop where
  fits : ∀ item ∈ items, item.Fits quote
  text : text = quote :: itemsText items ++ [quote]

theorem Quoted.unique {quote' : Byte} (h : Quoted quote items text)
    (h' : Quoted quote' items' text) : items = items' := by
  have htext := h.text.symm.trans h'.text
  rw [List.cons_append, List.cons_append] at htext
  obtain ⟨rfl, htext⟩ := List.cons.inj htext
  exact (itemsText_injective h.fits h'.fits htext).1

theorem IsString.quoted {quotes : Byte → Prop} (h : IsString quotes text) :
    ∃ quote items, quotes quote ∧ Quoted quote items text := by
  obtain ⟨quote, items, hquote, hfits, htext⟩ := h
  exact ⟨quote, items, hquote, hfits, htext⟩

/-- What `write_string` writes for a string. -/
theorem Quoted.writeString_eq (h : Quoted quote items text) (style : EscapeStyle) :
    writeString text style = (if style = .escaped then [dquote] else []) ++
      (pieces items).flatMap (Piece.written style) ++
      if style = .escaped then [dquote] else [] := by
  rw [h.text]
  show writeContent quote style _ = _
  rw [writeContent_items items h.fits rfl]

theorem Quoted.writeString_unescaped (h : Quoted quote items text) :
    writeString text .unescaped = itemsContent items := by
  rw [h.writeString_eq, if_neg (by decide), List.nil_append, List.append_nil]
  rfl

theorem Quoted.writeString_escaped (h : Quoted quote items text) :
    writeString text .escaped =
      dquote :: (pieces items).flatMap (Piece.written .escaped) ++ [dquote] := by
  rw [h.writeString_eq, if_pos rfl]
  rfl

/-- The string is written by faithful pieces. -/
def FaithfulText (text : List Byte) : Prop :=
  ∀ quote items, Quoted quote items text → ∀ p ∈ pieces items, p.Faithful

/-- The string is written by stable pieces. -/
def StableText (text : List Byte) : Prop :=
  ∀ quote items, Quoted quote items text → ∀ p ∈ pieces items, p.Stable

theorem StableText.faithfulText (h : StableText text) : FaithfulText text :=
  fun quote items hquoted p hp => (h quote items hquoted p hp).faithful

section

variable (h : Quoted quote items text) (hfaith : FaithfulText text)
include h hfaith

/-- A string of faithful pieces is written as items again. -/
theorem Quoted.rewritten :
    Quoted dquote ((pieces items).flatMap Piece.rewritten) (writeString text .escaped) ∧
      pieces ((pieces items).flatMap Piece.rewritten) =
        ((pieces items).flatMap Piece.rewritten).map StringItem.piece := by
  have hrewrites := rewrites_pieces (pieces_fits items h.fits) (hfaith quote items h)
  refine ⟨⟨hrewrites.fits, ?_⟩, pieces_of_alone hrewrites.alone⟩
  rw [h.writeString_escaped, hrewrites.text]

theorem Quoted.content_rewritten :
    writeString (writeString text .escaped) .unescaped =
      writeString text .unescaped := by
  have hrewrites := rewrites_pieces (pieces_fits items h.fits) (hfaith quote items h)
  obtain ⟨hquoted, hpieces⟩ := h.rewritten hfaith
  rw [hquoted.writeString_unescaped, h.writeString_unescaped, itemsContent, hpieces,
    List.flatMap_map, hrewrites.content]
  rfl

theorem Quoted.writtenTwice :
    writeString (writeString text .escaped) .escaped =
      dquote :: (pieces items).flatMap Piece.writtenTwice ++ [dquote] := by
  obtain ⟨hquoted, hpieces⟩ := h.rewritten hfaith
  rw [hquoted.writeString_escaped, hpieces, List.flatMap_map, List.flatMap_assoc]
  rfl

/-- A string of faithful pieces is written twice as it is written once if its pieces are stable. -/
theorem Quoted.writtenTwice_iff :
    writeString (writeString text .escaped) .escaped =
      writeString text .escaped ↔ StableText text := by
  have hfits := pieces_fits items h.fits
  rw [h.writtenTwice hfaith, h.writeString_escaped]
  constructor
  · intro heq
    have hflat := List.append_cancel_right (List.cons.inj heq).2
    intro quote' items' hquoted
    obtain rfl := h.unique hquoted
    exact forall_of_flatMap_eq (fun p hp hstable => hstable.writtenTwice (hfits p hp))
      (fun p hp hnot => Piece.head_writtenTwice_ne (hfaith quote items h p hp) hnot) hflat
  · intro hstable
    have hflat : (pieces items).flatMap Piece.writtenTwice =
        (pieces items).flatMap (Piece.written .escaped) :=
      List.flatMap_congr fun p hp => (hstable quote items h p hp).writtenTwice (hfits p hp)
    rw [hflat]

end

/-! ### Texts of a document -/

/-- The tokens with a text of their own. -/
def JsonToken.HasText (t : JsonToken) : Prop :=
  t = .valueString ∨ t = .valueNumberInt ∨ t = .valueNumberFloat ∨ t = .fieldName

instance (t : JsonToken) : Decidable t.HasText := inferInstanceAs (Decidable (_ ∨ _))

namespace Json

variable {f g : Token → List Byte}

theorem hasText_number (isFloat : Bool) :
    (if isFloat then JsonToken.valueNumberFloat else .valueNumberInt).HasText := by
  cases isFloat with
  | false => decide
  | true => decide

mutual

/-- The texts of the tokens decide what the document gets. -/
theorem mapTexts_congr : ∀ v : Json, (∀ t ∈ v.tokens, t.kind.HasText → f t = g t) →
    v.mapTexts f = v.mapTexts g
  | string text, h => by
    rw [mapTexts, mapTexts, h _ (List.mem_singleton_self _) (Or.inl rfl)]
  | number isFloat text, h => by
    rw [mapTexts, mapTexts, h _ (List.mem_singleton_self _) (hasText_number isFloat)]
  | trueValue, _ => rfl
  | falseValue, _ => rfl
  | nullValue, _ => rfl
  | array vs, h => by
    rw [mapTexts, mapTexts, mapElements_congr vs fun t ht =>
      h t (List.mem_cons_of_mem _ (List.mem_append_left _ ht))]
  | object ms, h => by
    rw [mapTexts, mapTexts, mapMembers_congr ms fun t ht =>
      h t (List.mem_cons_of_mem _ (List.mem_append_left _ ht))]

theorem mapElements_congr : ∀ vs : List Json,
    (∀ t ∈ elementsTokens vs, t.kind.HasText → f t = g t) → mapElements f vs = mapElements g vs
  | [], _ => rfl
  | v :: vs, h => by
    rw [mapElements, mapElements, mapTexts_congr v fun t ht => h t (List.mem_append_left _ ht),
      mapElements_congr vs fun t ht => h t (List.mem_append_right _ ht)]

theorem mapMembers_congr : ∀ ms : List (List Byte × Json),
    (∀ t ∈ membersTokens ms, t.kind.HasText → f t = g t) → mapMembers f ms = mapMembers g ms
  | [], _ => rfl
  | (name, v) :: ms, h => by
    rw [mapMembers, mapMembers, h _ (List.mem_cons_self ..) (Or.inr (Or.inr (Or.inr rfl))),
      mapTexts_congr v fun t ht => h t (List.mem_cons_of_mem _ (List.mem_append_left _ ht)),
      mapMembers_congr ms fun t ht => h t (List.mem_cons_of_mem _ (List.mem_append_right _ ht))]

end

mutual

theorem mapTexts_mapTexts : ∀ v : Json,
    (v.mapTexts g).mapTexts f = v.mapTexts fun t => f ⟨t.kind, g t⟩
  | string _ => rfl
  | number _ _ => rfl
  | trueValue => rfl
  | falseValue => rfl
  | nullValue => rfl
  | array vs => by rw [mapTexts, mapTexts, mapTexts, mapElements_mapElements vs]
  | object ms => by rw [mapTexts, mapTexts, mapTexts, mapMembers_mapMembers ms]

theorem mapElements_mapElements : ∀ vs : List Json,
    mapElements f (mapElements g vs) = mapElements (fun t => f ⟨t.kind, g t⟩) vs
  | [] => rfl
  | v :: vs => by
    rw [mapElements, mapElements, mapElements, mapTexts_mapTexts v, mapElements_mapElements vs]

theorem mapMembers_mapMembers : ∀ ms : List (List Byte × Json),
    mapMembers f (mapMembers g ms) = mapMembers (fun t => f ⟨t.kind, g t⟩) ms
  | [] => rfl
  | (name, v) :: ms => by
    rw [mapMembers, mapMembers, mapMembers, mapTexts_mapTexts v, mapMembers_mapMembers ms]

end

/-- A token with its text replaced. -/
def mapText (f : Token → List Byte) (t : Token) : Token :=
  if t.kind.HasText then ⟨t.kind, f t⟩ else t

mutual

theorem tokens_mapTexts : ∀ v : Json, (v.mapTexts f).tokens = v.tokens.map (mapText f)
  | string _ => rfl
  | number isFloat _ => by
    rw [mapTexts, tokens, tokens, List.map_singleton, mapText, if_pos (hasText_number isFloat)]
  | trueValue => rfl
  | falseValue => rfl
  | nullValue => rfl
  | array vs => by
    rw [mapTexts, tokens, tokens, elementsTokens_mapElements vs, List.map_cons, List.map_append]
    rfl
  | object ms => by
    rw [mapTexts, tokens, tokens, membersTokens_mapMembers ms, List.map_cons, List.map_append]
    rfl

theorem elementsTokens_mapElements : ∀ vs : List Json,
    elementsTokens (mapElements f vs) = (elementsTokens vs).map (mapText f)
  | [] => rfl
  | v :: vs => by
    rw [mapElements, elementsTokens, elementsTokens, tokens_mapTexts v,
      elementsTokens_mapElements vs, List.map_append]

theorem membersTokens_mapMembers : ∀ ms : List (List Byte × Json),
    membersTokens (mapMembers f ms) = (membersTokens ms).map (mapText f)
  | [] => rfl
  | (name, v) :: ms => by
    rw [mapMembers, membersTokens, membersTokens, tokens_mapTexts v,
      membersTokens_mapMembers ms, List.map_cons, List.map_append]
    rfl

end

end Json

/-! ### Copies of faithful documents -/

open Json

variable {v : Json} {vs : List Json} {ms : List (List Byte × Json)} {name s : List Byte}
  {ts us : List Token} {normal : List Byte → List Byte}

/-- What may stand behind a value. -/
def Stops (rest : List Byte) : Prop := ∀ c ∈ rest.head?, c = chr ',' ∨ c = chr ']' ∨ c = chr '\x7d'

theorem stops_cons {c : Byte} (hc : c = chr ',' ∨ c = chr ']' ∨ c = chr '\x7d') :
    Stops (c :: rest) := by
  intro c' hc'
  obtain rfl := Option.some.inj hc'
  exact hc

theorem Stops.endsNumber (h : Stops rest) (fraction exponent : List Byte) :
    EndsNumber fraction exponent rest where
  digit c hc := by
    rcases h c hc with rfl | rfl | rfl
    · decide
    · decide
    · decide
  fraction _ _ c hc := by
    rcases h c hc with rfl | rfl | rfl
    · decide
    · decide
    · decide
  exponent _ c hc := by
    rcases h c hc with rfl | rfl | rfl
    · decide
    · decide
    · decide

/-- An integer is an integer when it is written again. -/
theorem isNumber_writeInt (h : IsNumber false text rest) (hstops : Stops rest') :
    IsNumber false (writeInt text) rest' := by
  generalize hfalse : false = isFloat at h
  obtain ⟨hsign, hint, hfraction, hexponent, -, hlen⟩ := h
  next sign int fraction exponent =>
  have hnone : ¬(fraction ≠ [] ∨ exponent ≠ []) := of_decide_eq_false hfalse.symm
  obtain ⟨hfraction', hexponent'⟩ := not_or.1 hnone
  obtain rfl : fraction = [] := not_not.1 hfraction'
  obtain rfl : exponent = [] := not_not.1 hexponent'
  unfold writeInt
  split_ifs with hzero
  · exact .mk (Or.inl rfl) .zero .none .none (hstops.endsNumber _ _) (by decide)
  · exact .mk hsign hint .none .none (hstops.endsNumber _ _) hlen

/-- The strings and names among the tokens are faithful, and the numbers integers. -/
def Faithful (ts : List Token) : Prop :=
  ∀ t ∈ ts, (t.kind = .valueString ∨ t.kind = .fieldName → FaithfulText t.text) ∧
    t.kind ≠ .valueNumberFloat

theorem faithful_append : Faithful (ts ++ us) ↔ Faithful ts ∧ Faithful us :=
  List.forall_mem_append

theorem Members.head_quotes {quotes : Byte → Prop} (h : Members quotes ms s rest) :
    ∃ c ∈ s.head?, quotes c := by
  cases h with
  | last hm =>
    obtain ⟨⟨quote, items, hquote, -, rfl⟩, -, -, -⟩ := hm
    exact ⟨quote, rfl, hquote⟩
  | cons hm =>
    obtain ⟨⟨quote, items, hquote, -, rfl⟩, -, -, -⟩ := hm
    exact ⟨quote, rfl, hquote⟩

theorem Elements.ne_nil {quotes : Byte → Prop} (h : Elements quotes vs s rest) : vs ≠ [] := by
  cases h <;> simp

theorem Members.ne_nil {quotes : Byte → Prop} (h : Members quotes ms s rest) : ms ≠ [] := by
  cases h <;> simp

theorem isWhitespaces_nil : IsWhitespaces [] := fun _ hc => absurd hc List.not_mem_nil

section Compact

variable {quotes : Byte → Prop}

theorem Elements.last_compact (hv : Value quotes v s (chr ']' :: rest)) :
    Elements quotes [v] s rest :=
  @Elements.last quotes v s [] rest hv isWhitespaces_nil

theorem Elements.cons_compact {s' : List Byte} (hv : Value quotes v s (chr ',' :: s'))
    (hvs : Elements quotes vs s' rest) : Elements quotes (v :: vs) s rest :=
  @Elements.cons quotes v vs s [] [] s' rest hv isWhitespaces_nil isWhitespaces_nil hvs

theorem Members.last_compact (hm : Member quotes name v s (chr '\x7d' :: rest)) :
    Members quotes [(name, v)] s rest :=
  @Members.last quotes name v s [] rest hm isWhitespaces_nil

theorem Members.cons_compact {s' : List Byte} (hm : Member quotes name v s (chr ',' :: s'))
    (hms : Members quotes ms s' rest) : Members quotes ((name, v) :: ms) s rest :=
  @Members.cons quotes name v ms s [] [] s' rest hm isWhitespaces_nil isWhitespaces_nil hms

theorem Member.compact (hname : IsString quotes name) (hv : Value quotes v s rest) :
    Member quotes name v (name ++ chr ':' :: s) rest :=
  @Member.mk quotes name [] [] s rest v hname isWhitespaces_nil isWhitespaces_nil hv

end Compact

theorem isString_written (h : IsString IsQuote text) (hfaith : FaithfulText text) :
    IsString IsQuote (writeString text .escaped) := by
  obtain ⟨quote, items, -, hquoted⟩ := h.quoted
  obtain ⟨hwritten, -⟩ := hquoted.rewritten hfaith
  exact ⟨dquote, _, Or.inl rfl, hwritten.fits, hwritten.text⟩

/-- The copy of a faithful document is a text of the grammar. -/
theorem Value.copied (h : Value IsQuote v s rest) : Faithful v.tokens →
    ∀ rest', Stops rest' → Value IsQuote (v.copied normal)
      ((v.copied normal).compactText ++ rest') rest' := by
  -- by induction on the derivation, for values, elements, members and single members at once
  refine Value.induction
    (V := fun v _ _ => Faithful v.tokens → ∀ rest', Stops rest' →
      Value IsQuote (v.copied normal) ((v.copied normal).compactText ++ rest') rest')
    (E := fun vs _ _ => Faithful (elementsTokens vs) → ∀ rest',
      Elements IsQuote (mapElements (Token.written normal .escaped) vs)
        (elementsText (mapElements (Token.written normal .escaped) vs) ++ chr ']' :: rest')
        rest')
    (M := fun ms _ _ => Faithful (membersTokens ms) → ∀ rest',
      Members IsQuote (mapMembers (Token.written normal .escaped) ms)
        (membersText (mapMembers (Token.written normal .escaped) ms) ++
          chr '\x7d' :: rest') rest')
    (N := fun name v _ _ => FaithfulText name → Faithful v.tokens → ∀ rest', Stops rest' →
      Member IsQuote (writeString name .escaped) (v.copied normal)
        (writeString name .escaped ++ chr ':' :: ((v.copied normal).compactText ++ rest'))
        rest') ?_ h
  constructor
  case string =>
    intro text rest htext hfaith rest' _
    exact .string (isString_written htext ((hfaith _ (List.mem_singleton_self _)).1 (Or.inl rfl)))
  -- a float is not faithful, so the number is an integer
  case number =>
    intro isFloat text rest htext hfaith rest' hstops
    cases isFloat with
    | false => exact .number (isNumber_writeInt htext hstops)
    | true => exact absurd rfl (hfaith _ (List.mem_singleton_self _)).2
  case trueValue => exact fun _ _ _ => .trueValue
  case falseValue => exact fun _ _ _ => .falseValue
  case nullValue => exact fun _ _ _ => .nullValue
  case emptyArray => exact fun _ _ _ _ => .emptyArray isWhitespaces_nil
  case array =>
    intro ws s rest vs _ _ ih hfaith rest' _
    have helements := ih (faithful_append.1 (List.forall_mem_cons.1 hfaith).2).1 rest'
    have hvalue := Value.array isWhitespaces_nil helements
    rw [Json.copied, mapTexts, compactText, List.cons_append, List.append_assoc]
    exact hvalue
  case emptyObject => exact fun _ _ _ _ => .emptyObject isWhitespaces_nil
  case object =>
    intro ws s rest ms _ _ _ ih hfaith rest' _
    have hmembers := ih (faithful_append.1 (List.forall_mem_cons.1 hfaith).2).1 rest'
    obtain ⟨c, hc, hquote⟩ := hmembers.head_quotes
    have hvalue := Value.object isWhitespaces_nil (by
      rw [Option.mem_def.1 hc]
      intro heq
      rw [Option.some.inj heq] at hquote
      exact absurd hquote (by unfold IsQuote; decide)) hmembers
    rw [Json.copied, mapTexts, compactText, List.cons_append, List.append_assoc]
    exact hvalue
  case lastElement =>
    intro v s ws rest _ _ ih hfaith rest'
    have hvalue := ih (faithful_append.1 hfaith).1 (chr ']' :: rest') (stops_cons (by decide))
    exact .last_compact hvalue
  case consElement =>
    intro v vs s ws ws' s' rest _ _ _ hvs ih ih' hfaith rest'
    obtain ⟨hv, hvs'⟩ := faithful_append.1 hfaith
    have hvalue := ih hv (chr ',' :: (elementsText (mapElements (Token.written normal .escaped)
      vs) ++ chr ']' :: rest')) (stops_cons (by decide))
    rw [mapElements, elementsText_cons, if_neg (mt mapElements_eq_nil.1 hvs.ne_nil),
      List.append_assoc, List.cons_append]
    exact .cons_compact hvalue (ih' hvs' rest')
  case lastMember =>
    intro name v s ws rest _ _ ih hfaith rest'
    obtain ⟨hname, hv⟩ := List.forall_mem_cons.1 hfaith
    have hmember := ih (hname.1 (Or.inr rfl)) (faithful_append.1 hv).1 (chr '\x7d' :: rest')
      (stops_cons (by decide))
    rw [mapMembers, mapMembers, membersText, List.append_assoc, List.cons_append]
    exact .last_compact hmember
  case consMember =>
    intro name v ms s ws ws' s' rest _ _ _ hms ih ih' hfaith rest'
    obtain ⟨hname, hv⟩ := List.forall_mem_cons.1 hfaith
    obtain ⟨hv, hms'⟩ := faithful_append.1 hv
    have hmember := ih (hname.1 (Or.inr rfl)) hv (chr ',' :: (membersText (mapMembers
      (Token.written normal .escaped) ms) ++ chr '\x7d' :: rest')) (stops_cons (by decide))
    rw [mapMembers, membersText_cons, if_neg (mt mapMembers_eq_nil.1 hms.ne_nil),
      List.append_assoc, List.cons_append, List.append_assoc, List.cons_append]
    exact .cons_compact hmember (ih' hms' rest')
  case member =>
    intro name ws ws' s rest v hname _ _ _ ih hfaith hv rest' hstops
    exact .compact (isString_written hname hfaith) (ih hv rest' hstops)

/-! ### Contents of copies -/

/-- The document as `write_unescaped_text` writes its texts: the contents of strings and names. -/
def Json.decoded (normal : List Byte → List Byte) (v : Json) : Json :=
  v.mapTexts (Token.written normal .unescaped)

/-- The strings and names among the tokens are quoted. -/
def WellQuoted (ts : List Token) : Prop :=
  ∀ t ∈ ts, t.kind = .valueString ∨ t.kind = .fieldName → ∃ quote items, Quoted quote items t.text

theorem wellQuoted_append : WellQuoted (ts ++ us) ↔ WellQuoted ts ∧ WellQuoted us :=
  List.forall_mem_append

theorem wellQuoted_single {t : Token} (ht : t.kind ≠ .valueString ∧ t.kind ≠ .fieldName) :
    WellQuoted [t] := by
  intro t' h hkind
  rw [List.mem_singleton.1 h] at hkind
  exact (hkind.elim ht.1 ht.2).elim

theorem Value.wellQuoted {quotes : Byte → Prop} (h : Value quotes v s rest) :
    WellQuoted v.tokens := by
  refine Value.induction (V := fun v _ _ => WellQuoted v.tokens)
    (E := fun vs _ _ => WellQuoted (elementsTokens vs))
    (M := fun ms _ _ => WellQuoted (membersTokens ms))
    (N := fun name v _ _ => (∃ quote items, Quoted quote items name) ∧ WellQuoted v.tokens) ?_ h
  -- one case for each production of the grammar
  constructor
  case string =>
    intro text rest htext t ht _
    obtain ⟨quote, items, -, hquoted⟩ := htext.quoted
    obtain rfl := List.mem_singleton.1 ht
    exact ⟨quote, items, hquoted⟩
  case number =>
    intro isFloat text rest _
    cases isFloat with
    | false => exact wellQuoted_single ⟨by simp, by simp⟩
    | true => exact wellQuoted_single ⟨by simp, by simp⟩
  case trueValue => exact wellQuoted_single (by decide)
  case falseValue => exact wellQuoted_single (by decide)
  case nullValue => exact wellQuoted_single (by decide)
  case emptyArray =>
    exact fun _ => wellQuoted_append.2 ⟨wellQuoted_single (by decide), wellQuoted_single (by decide)⟩
  case array =>
    intro ws s rest vs _ _ ih
    exact wellQuoted_append.2 ⟨wellQuoted_single (by decide),
      wellQuoted_append.2 ⟨ih, wellQuoted_single (by decide)⟩⟩
  case emptyObject =>
    exact fun _ => wellQuoted_append.2 ⟨wellQuoted_single (by decide), wellQuoted_single (by decide)⟩
  case object =>
    intro ws s rest ms _ _ _ ih
    exact wellQuoted_append.2 ⟨wellQuoted_single (by decide),
      wellQuoted_append.2 ⟨ih, wellQuoted_single (by decide)⟩⟩
  case lastElement =>
    intro v s ws rest _ _ ih
    rw [elementsTokens, elementsTokens, List.append_nil]
    exact ih
  case consElement => exact fun _ _ _ _ ih ih' => wellQuoted_append.2 ⟨ih, ih'⟩
  case lastMember =>
    intro name v s ws rest _ _ ih
    rw [membersTokens, membersTokens, List.append_nil]
    exact List.forall_mem_cons.2 ⟨fun _ => ih.1, ih.2⟩
  case consMember =>
    exact fun _ _ _ _ ih ih' =>
      List.forall_mem_cons.2 ⟨fun _ => ih.1, wellQuoted_append.2 ⟨ih.2, ih'⟩⟩
  case member =>
    intro name ws ws' s rest v hname _ _ _ ih
    obtain ⟨quote, items, -, hquoted⟩ := hname.quoted
    exact ⟨⟨quote, items, hquoted⟩, ih⟩

theorem writeInt_writeInt (text : List Byte) : writeInt (writeInt text) = writeInt text := by
  by_cases hzero : text = minusZero
  · rw [hzero]
    decide
  · have hint : writeInt text = text := if_neg hzero
    rw [hint, hint]

/-- What holds of strings, integers and names holds of the texts of a document without
floating-point numbers. -/
theorem mapTexts_eq {f g : Token → List Byte} (hfaith : Faithful v.tokens)
    (hquoted : WellQuoted v.tokens)
    (hstring : ∀ k, k = .valueString ∨ k = .fieldName → ∀ quote items text,
      (⟨k, text⟩ : Token) ∈ v.tokens → Quoted quote items text → f ⟨k, text⟩ = g ⟨k, text⟩)
    (hint : ∀ text, f ⟨.valueNumberInt, text⟩ = g ⟨.valueNumberInt, text⟩) :
    v.mapTexts f = v.mapTexts g := by
  apply mapTexts_congr
  rintro ⟨k, text⟩ ht hkind
  rcases hkind with hk | hk | hk | hk
  · obtain ⟨quote, items, h⟩ := hquoted _ ht (Or.inl hk)
    exact hstring k (Or.inl hk) quote items text ht h
  · obtain rfl : k = .valueNumberInt := hk
    exact hint text
  · exact absurd hk (hfaith _ ht).2
  · obtain ⟨quote, items, h⟩ := hquoted _ ht (Or.inr hk)
    exact hstring k (Or.inr hk) quote items text ht h

theorem written_of_string {k : JsonToken} (hk : k = .valueString ∨ k = .fieldName)
    (text : List Byte) (style : EscapeStyle) :
    (⟨k, text⟩ : Token).written normal style = writeString text style := by
  rcases hk with rfl | rfl
  · rfl
  · rfl

/-- The copy of a faithful document has its contents. -/
theorem Json.decoded_copied (hfaith : Faithful v.tokens) (hquoted : WellQuoted v.tokens) :
    (v.copied normal).decoded normal = v.decoded normal := by
  rw [copied, decoded, decoded, mapTexts_mapTexts]
  apply mapTexts_eq hfaith hquoted
  · intro k hk quote items text ht h
    rw [written_of_string hk, written_of_string hk, written_of_string hk]
    exact h.content_rewritten ((hfaith _ ht).1 hk)
  · exact fun text => writeInt_writeInt text

/-- The strings and names among the tokens are stable. -/
def Stable (ts : List Token) : Prop :=
  ∀ t ∈ ts, t.kind = .valueString ∨ t.kind = .fieldName → StableText t.text

/-- The copy of a faithful document is copied as it is if the document is stable. -/
theorem Json.copied_copied (hfaith : Faithful v.tokens) (hquoted : WellQuoted v.tokens)
    (hstable : Stable v.tokens) : (v.copied normal).copied normal =
      v.copied normal := by
  rw [copied, copied, mapTexts_mapTexts]
  apply mapTexts_eq hfaith hquoted
  · intro k hk quote items text ht h
    rw [written_of_string hk, written_of_string hk]
    exact (h.writtenTwice_iff ((hfaith _ ht).1 hk)).2 (hstable _ ht hk)
  · exact fun text => writeInt_writeInt text

end SparkRapids.GetJson
