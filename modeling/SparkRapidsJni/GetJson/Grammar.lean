import SparkRapidsJni.GetJson.Tokens

/-!
# The documented grammar

The grammar of JSON texts that the comments of `json_parser` give, as a relation between a value, a
text and what is left of the text behind the value. A number ends where no further digit, fraction
or exponent could be read: `1.` and `01` are no number with some text behind it, but no number.

The characters that field names may be quoted by are a parameter: single and double quotes in the
documented grammar, and any characters in the one that the code reads.
-/

namespace SparkRapids.GetJson

/-- A JSON document: strings and numbers as they are written. -/
inductive Json
  | string (text : List Byte)
  | number (isFloat : Bool) (text : List Byte)
  | trueValue
  | falseValue
  | nullValue
  | array (elements : List Json)
  | object (members : List (List Byte × Json))

namespace Json

/-- `true` -/
def trueText : List Byte := [chr 't', chr 'r', chr 'u', chr 'e']

/-- `false` -/
def falseText : List Byte := [chr 'f', chr 'a', chr 'l', chr 's', chr 'e']

/-- `null` -/
def nullText : List Byte := [chr 'n', chr 'u', chr 'l', chr 'l']

mutual

/-- The tokens of a document. -/
def tokens : Json → List Token
  | string text => [⟨.valueString, text⟩]
  | number isFloat text => [⟨if isFloat then .valueNumberFloat else .valueNumberInt, text⟩]
  | trueValue => [⟨.valueTrue, trueText⟩]
  | falseValue => [⟨.valueFalse, falseText⟩]
  | nullValue => [⟨.valueNull, nullText⟩]
  | array elements => ⟨.startArray, [chr '[']⟩ :: (elementsTokens elements ++ [⟨.endArray, [chr ']']⟩])
  | object members =>
    ⟨.startObject, [chr '\x7b']⟩ :: (membersTokens members ++ [⟨.endObject, [chr '\x7d']⟩])

/-- The tokens of the elements of an array. -/
def elementsTokens : List Json → List Token
  | [] => []
  | v :: vs => tokens v ++ elementsTokens vs

/-- The tokens of the members of an object. -/
def membersTokens : List (List Byte × Json) → List Token
  | [] => []
  | (name, v) :: ms => ⟨.fieldName, name⟩ :: (tokens v ++ membersTokens ms)

end

mutual

/-- How deep objects and arrays are nested. -/
def depth : Json → Nat
  | array elements => elementsDepth elements + 1
  | object members => membersDepth members + 1
  | _ => 0

def elementsDepth : List Json → Nat
  | [] => 0
  | v :: vs => max (depth v) (elementsDepth vs)

def membersDepth : List (List Byte × Json) → Nat
  | [] => 0
  | (_, v) :: ms => max (depth v) (membersDepth ms)

end

end Json

/-! ### Strings and numbers -/

/-- A string between two equal quotes. -/
def IsString (quotes : Byte → Prop) (text : List Byte) : Prop :=
  ∃ quote items, quotes quote ∧ (∀ item ∈ items, StringItem.Fits quote item) ∧
    text = quote :: itemsText items ++ [quote]

/-- A double or a single quote. -/
def IsQuote (c : Byte) : Prop := c = dquote ∨ c = squote

/-- One or more digits. -/
def IsDigits (ds : List Byte) : Prop := ds ≠ [] ∧ ∀ d ∈ ds, isDigit d

/-- The integer part of a number. -/
inductive IsInt : List Byte → Prop
  | zero : IsInt [chr '0']
  | digits {d : Byte} {ds : List Byte} (hd : chr '1' ≤ d ∧ d ≤ chr '9') (hds : ∀ d ∈ ds, isDigit d) :
      IsInt (d :: ds)

/-- The fraction of a number, or nothing. -/
inductive IsFraction : List Byte → Prop
  | none : IsFraction []
  | some {ds : List Byte} (hds : IsDigits ds) : IsFraction (chr '.' :: ds)

/-- The exponent of a number, or nothing. -/
inductive IsExponent : List Byte → Prop
  | none : IsExponent []
  | some {e : Byte} {sign ds : List Byte} (he : e = chr 'e' ∨ e = chr 'E')
      (hsign : sign = [] ∨ sign = [chr '+'] ∨ sign = [chr '-']) (hds : IsDigits ds) :
      IsExponent (e :: (sign ++ ds))

/-- Nothing behind a number makes it longer. -/
structure EndsNumber (fraction exponent rest : List Byte) : Prop where
  digit : ∀ c ∈ rest.head?, ¬isDigit c
  fraction : fraction = [] → exponent = [] → ∀ c ∈ rest.head?, c ≠ chr '.'
  exponent : exponent = [] → ∀ c ∈ rest.head?, c ≠ chr 'e' ∧ c ≠ chr 'E'

/-- A number, and the text behind it. -/
inductive IsNumber : Bool → List Byte → List Byte → Prop
  | mk {sign int fraction exponent rest : List Byte} (hsign : sign = [] ∨ sign = [chr '-'])
      (hint : IsInt int) (hfraction : IsFraction fraction) (hexponent : IsExponent exponent)
      (hend : EndsNumber fraction exponent rest)
      (hlen : (int ++ fraction ++ exponent).countP isDigit ≤ maxNumLen) :
      IsNumber (decide (fraction ≠ [] ∨ exponent ≠ [])) (sign ++ (int ++ fraction ++ exponent)) rest

/-! ### Values -/

/-- White space. -/
def IsWhitespaces (ws : List Byte) : Prop := ∀ c ∈ ws, isWhitespace c

mutual

/-- A value at the front of a text, and the text behind it. -/
inductive Value (quotes : Byte → Prop) : Json → List Byte → List Byte → Prop
  | string {text rest : List Byte} (htext : IsString IsQuote text) :
      Value quotes (.string text) (text ++ rest) rest
  | number {isFloat : Bool} {text rest : List Byte} (htext : IsNumber isFloat text rest) :
      Value quotes (.number isFloat text) (text ++ rest) rest
  | trueValue {rest : List Byte} : Value quotes .trueValue (Json.trueText ++ rest) rest
  | falseValue {rest : List Byte} : Value quotes .falseValue (Json.falseText ++ rest) rest
  | nullValue {rest : List Byte} : Value quotes .nullValue (Json.nullText ++ rest) rest
  | emptyArray {ws rest : List Byte} (hws : IsWhitespaces ws) :
      Value quotes (.array []) (chr '[' :: (ws ++ chr ']' :: rest)) rest
  | array {ws s rest : List Byte} {vs : List Json} (hws : IsWhitespaces ws)
      (hvs : Elements quotes vs s rest) : Value quotes (.array vs) (chr '[' :: (ws ++ s)) rest
  | emptyObject {ws rest : List Byte} (hws : IsWhitespaces ws) :
      Value quotes (.object []) (chr '\x7b' :: (ws ++ chr '\x7d' :: rest)) rest
  -- a closing brace is no quote behind an opening one
  | object {ws s rest : List Byte} {ms : List (List Byte × Json)} (hws : IsWhitespaces ws)
      (hs : s.head? ≠ some (chr '\x7d')) (hms : Members quotes ms s rest) :
      Value quotes (.object ms) (chr '\x7b' :: (ws ++ s)) rest

/-- The elements of an array up to its end. -/
inductive Elements (quotes : Byte → Prop) : List Json → List Byte → List Byte → Prop
  | last {v : Json} {s ws rest : List Byte} (hv : Value quotes v s (ws ++ chr ']' :: rest))
      (hws : IsWhitespaces ws) : Elements quotes [v] s rest
  | cons {v : Json} {vs : List Json} {s ws ws' s' rest : List Byte}
      (hv : Value quotes v s (ws ++ chr ',' :: (ws' ++ s'))) (hws : IsWhitespaces ws)
      (hws' : IsWhitespaces ws') (hvs : Elements quotes vs s' rest) :
      Elements quotes (v :: vs) s rest

/-- The members of an object up to its end. -/
inductive Members (quotes : Byte → Prop) : List (List Byte × Json) → List Byte → List Byte → Prop
  | last {name : List Byte} {v : Json} {s ws rest : List Byte}
      (hm : Member quotes name v s (ws ++ chr '\x7d' :: rest)) (hws : IsWhitespaces ws) :
      Members quotes [(name, v)] s rest
  | cons {name : List Byte} {v : Json} {ms : List (List Byte × Json)} {s ws ws' s' rest : List Byte}
      (hm : Member quotes name v s (ws ++ chr ',' :: (ws' ++ s'))) (hws : IsWhitespaces ws)
      (hws' : IsWhitespaces ws') (hms : Members quotes ms s' rest) :
      Members quotes ((name, v) :: ms) s rest

/-- A field name and its value. -/
inductive Member (quotes : Byte → Prop) : List Byte → Json → List Byte → List Byte → Prop
  | mk {name ws ws' s rest : List Byte} {v : Json} (hname : IsString quotes name)
      (hws : IsWhitespaces ws) (hws' : IsWhitespaces ws') (hv : Value quotes v s rest) :
      Member quotes name v (name ++ (ws ++ chr ':' :: (ws' ++ s))) rest

end

/-- The text starts with a value, after optional white space. -/
def StartsWith (quotes : Byte → Prop) (v : Json) (text : List Byte) : Prop :=
  ∃ ws s rest, text = ws ++ s ∧ IsWhitespaces ws ∧ Value quotes v s rest

variable {quotes : Byte → Prop} {v : Json} {vs : List Json} {ms : List (List Byte × Json)}
  {name s rest : List Byte}

/-! ### Induction over the grammar -/

/-- What has to be shown for properties `V` of values, `E` of the elements of an array, `M` of the
members of an object and `N` of one member to hold of all that the grammar derives. -/
structure GrammarCases (quotes : Byte → Prop) (V : Json → List Byte → List Byte → Prop)
    (E : List Json → List Byte → List Byte → Prop)
    (M : List (List Byte × Json) → List Byte → List Byte → Prop)
    (N : List Byte → Json → List Byte → List Byte → Prop) : Prop where
  string {text rest : List Byte} : IsString IsQuote text → V (.string text) (text ++ rest) rest
  number {isFloat : Bool} {text rest : List Byte} : IsNumber isFloat text rest →
    V (.number isFloat text) (text ++ rest) rest
  trueValue {rest : List Byte} : V .trueValue (Json.trueText ++ rest) rest
  falseValue {rest : List Byte} : V .falseValue (Json.falseText ++ rest) rest
  nullValue {rest : List Byte} : V .nullValue (Json.nullText ++ rest) rest
  emptyArray {ws rest : List Byte} : IsWhitespaces ws →
    V (.array []) (chr '[' :: (ws ++ chr ']' :: rest)) rest
  array {ws s rest : List Byte} {vs : List Json} : IsWhitespaces ws → Elements quotes vs s rest →
    E vs s rest → V (.array vs) (chr '[' :: (ws ++ s)) rest
  emptyObject {ws rest : List Byte} : IsWhitespaces ws →
    V (.object []) (chr '\x7b' :: (ws ++ chr '\x7d' :: rest)) rest
  object {ws s rest : List Byte} {ms : List (List Byte × Json)} : IsWhitespaces ws →
    s.head? ≠ some (chr '\x7d') → Members quotes ms s rest → M ms s rest →
    V (.object ms) (chr '\x7b' :: (ws ++ s)) rest
  lastElement {v : Json} {s ws rest : List Byte} : Value quotes v s (ws ++ chr ']' :: rest) →
    IsWhitespaces ws → V v s (ws ++ chr ']' :: rest) → E [v] s rest
  consElement {v : Json} {vs : List Json} {s ws ws' s' rest : List Byte} :
    Value quotes v s (ws ++ chr ',' :: (ws' ++ s')) → IsWhitespaces ws → IsWhitespaces ws' →
    Elements quotes vs s' rest → V v s (ws ++ chr ',' :: (ws' ++ s')) → E vs s' rest →
    E (v :: vs) s rest
  lastMember {name : List Byte} {v : Json} {s ws rest : List Byte} :
    Member quotes name v s (ws ++ chr '\x7d' :: rest) → IsWhitespaces ws →
    N name v s (ws ++ chr '\x7d' :: rest) → M [(name, v)] s rest
  consMember {name : List Byte} {v : Json} {ms : List (List Byte × Json)}
    {s ws ws' s' rest : List Byte} : Member quotes name v s (ws ++ chr ',' :: (ws' ++ s')) →
    IsWhitespaces ws → IsWhitespaces ws' → Members quotes ms s' rest →
    N name v s (ws ++ chr ',' :: (ws' ++ s')) → M ms s' rest → M ((name, v) :: ms) s rest
  member {name ws ws' s rest : List Byte} {v : Json} : IsString quotes name → IsWhitespaces ws →
    IsWhitespaces ws' → Value quotes v s rest → V v s rest →
    N name v (name ++ (ws ++ chr ':' :: (ws' ++ s))) rest

theorem Value.induction {V : Json → List Byte → List Byte → Prop}
    {E : List Json → List Byte → List Byte → Prop}
    {M : List (List Byte × Json) → List Byte → List Byte → Prop}
    {N : List Byte → Json → List Byte → List Byte → Prop} (H : GrammarCases quotes V E M N)
    (h : Value quotes v s rest) : V v s rest :=
  @Value.rec quotes (fun v s rest _ => V v s rest) (fun vs s rest _ => E vs s rest)
    (fun ms s rest _ => M ms s rest) (fun name v s rest _ => N name v s rest)
    H.string H.number H.trueValue H.falseValue H.nullValue H.emptyArray H.array H.emptyObject
    H.object H.lastElement H.consElement H.lastMember H.consMember H.member v s rest h

/-! ### Field names -/

/-- The field names among tokens start with one of the quotes. -/
def NamesQuoted (quotes : Byte → Prop) (ts : List Token) : Prop :=
  ∀ t ∈ ts, t.kind = .fieldName → ∃ quote ∈ t.text.head?, quotes quote

theorem namesQuoted_append {ts us : List Token} :
    NamesQuoted quotes (ts ++ us) ↔ NamesQuoted quotes ts ∧ NamesQuoted quotes us :=
  List.forall_mem_append

theorem namesQuoted_cons {t : Token} {ts : List Token} : NamesQuoted quotes (t :: ts) ↔
    (t.kind = .fieldName → ∃ quote ∈ t.text.head?, quotes quote) ∧ NamesQuoted quotes ts :=
  List.forall_mem_cons

theorem namesQuoted_singleton {t : Token} (h : t.kind ≠ .fieldName) : NamesQuoted quotes [t] :=
  fun _ ht hkind => absurd (List.mem_singleton.1 ht ▸ hkind) h

theorem IsString.of_head {quotes' : Byte → Prop} (h : IsString quotes name)
    (hhead : ∃ quote ∈ name.head?, quotes' quote) : IsString quotes' name := by
  obtain ⟨quote, items, -, hfits, rfl⟩ := h
  obtain ⟨quote', hmem, hquote'⟩ := hhead
  obtain rfl := Option.some.inj hmem
  exact ⟨quote, items, hquote', hfits, rfl⟩

theorem IsString.head (h : IsString quotes name) : ∃ quote ∈ name.head?, quotes quote := by
  obtain ⟨quote, items, hquote, -, rfl⟩ := h
  exact ⟨quote, rfl, hquote⟩

/-- Which quotes are allowed only matters for the field names that there are. -/
theorem Value.restrict {quotes' : Byte → Prop} (h : Value quotes v s rest) :
    NamesQuoted quotes' v.tokens → Value quotes' v s rest := by
  refine Value.induction (V := fun v s rest => NamesQuoted quotes' v.tokens → Value quotes' v s rest)
    (E := fun vs s rest => NamesQuoted quotes' (Json.elementsTokens vs) → Elements quotes' vs s rest)
    (M := fun ms s rest => NamesQuoted quotes' (Json.membersTokens ms) → Members quotes' ms s rest)
    (N := fun name v s rest => (∃ quote ∈ name.head?, quotes' quote) →
      NamesQuoted quotes' v.tokens → Member quotes' name v s rest) ?_ h
  -- the names of a part are names of the whole, in each production
  constructor
  case string => exact fun htext _ => .string htext
  case number => exact fun htext _ => .number htext
  case trueValue => exact fun _ => .trueValue
  case falseValue => exact fun _ => .falseValue
  case nullValue => exact fun _ => .nullValue
  case emptyArray => exact fun hws _ => .emptyArray hws
  case array =>
    intro ws s rest vs hws _ ih hnames
    obtain ⟨-, hnames⟩ := namesQuoted_cons.1 hnames
    exact .array hws (ih (namesQuoted_append.1 hnames).1)
  case emptyObject => exact fun hws _ => .emptyObject hws
  case object =>
    intro ws s rest ms hws hs _ ih hnames
    obtain ⟨-, hnames⟩ := namesQuoted_cons.1 hnames
    exact .object hws hs (ih (namesQuoted_append.1 hnames).1)
  case lastElement =>
    intro v s ws rest _ hws ih hnames
    exact .last (ih (namesQuoted_append.1 hnames).1) hws
  case consElement =>
    intro v vs s ws ws' s' rest _ hws hws' _ ih ih' hnames
    obtain ⟨hnames, hnames'⟩ := namesQuoted_append.1 hnames
    exact .cons (ih hnames) hws hws' (ih' hnames')
  case lastMember =>
    intro name v s ws rest _ hws ih hnames
    obtain ⟨hname, hnames⟩ := namesQuoted_cons.1 hnames
    exact .last (ih (hname rfl) (namesQuoted_append.1 hnames).1) hws
  case consMember =>
    intro name v ms s ws ws' s' rest _ hws hws' _ ih ih' hnames
    obtain ⟨hname, hnames⟩ := namesQuoted_cons.1 hnames
    obtain ⟨hnames, hnames'⟩ := namesQuoted_append.1 hnames
    exact .cons (ih (hname rfl) hnames) hws hws' (ih' hnames')
  case member =>
    intro name ws ws' s rest v hstring hws hws' _ ih hname hnames
    exact .mk (hstring.of_head hname) hws hws' (ih hnames)

/-- The field names of a value are quoted as the grammar says. -/
theorem Value.namesQuoted (h : Value quotes v s rest) : NamesQuoted quotes v.tokens := by
  have hnone {t : JsonToken} {text : List Byte} (ht : t ≠ .fieldName) :
      NamesQuoted quotes [⟨t, text⟩] := namesQuoted_singleton ht
  have houter {t t' : JsonToken} {text text' : List Byte} {ts : List Token} (ht : t ≠ .fieldName)
      (ht' : t' ≠ .fieldName) (h : NamesQuoted quotes ts) :
      NamesQuoted quotes (⟨t, text⟩ :: (ts ++ [⟨t', text'⟩])) :=
    namesQuoted_cons.2 ⟨fun heq => absurd heq ht, namesQuoted_append.2 ⟨h, hnone ht'⟩⟩
  have hnil : NamesQuoted quotes [] := fun t ht => absurd ht (by simp)
  refine Value.induction (V := fun v _ _ => NamesQuoted quotes v.tokens)
    (E := fun vs _ _ => NamesQuoted quotes (Json.elementsTokens vs))
    (M := fun ms _ _ => NamesQuoted quotes (Json.membersTokens ms))
    (N := fun name v _ _ => NamesQuoted quotes (⟨.fieldName, name⟩ :: v.tokens)) ?_ h
  constructor
  case string => exact fun _ => hnone (by decide)
  case number =>
    intro isFloat text rest _
    cases isFloat with
    | false => exact hnone (by decide)
    | true => exact hnone (by decide)
  case trueValue => exact hnone (by decide)
  case falseValue => exact hnone (by decide)
  case nullValue => exact hnone (by decide)
  case emptyArray => exact fun _ => houter (by decide) (by decide) hnil
  case array => exact fun _ _ ih => houter (by decide) (by decide) ih
  case emptyObject => exact fun _ => houter (by decide) (by decide) hnil
  case object => exact fun _ _ _ ih => houter (by decide) (by decide) ih
  case lastElement => exact fun _ _ ih => namesQuoted_append.2 ⟨ih, hnil⟩
  case consElement => exact fun _ _ _ _ ih ih' => namesQuoted_append.2 ⟨ih, ih'⟩
  case lastMember =>
    intro name v s ws rest _ _ ih
    obtain ⟨hname, hv⟩ := namesQuoted_cons.1 ih
    exact namesQuoted_cons.2 ⟨hname, namesQuoted_append.2 ⟨hv, hnil⟩⟩
  case consMember =>
    intro name v ms s ws ws' s' rest _ _ _ _ ih ih'
    obtain ⟨hname, hv⟩ := namesQuoted_cons.1 ih
    exact namesQuoted_cons.2 ⟨hname, namesQuoted_append.2 ⟨hv, ih'⟩⟩
  case member =>
    intro name ws ws' s rest v hstring _ _ _ ih
    exact namesQuoted_cons.2 ⟨fun _ => hstring.head, ih⟩

end SparkRapids.GetJson
