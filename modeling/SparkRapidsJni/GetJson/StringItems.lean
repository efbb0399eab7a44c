import SparkRapidsJni.GetJson.Strings

/-!
# What a quoted string consists of

Between its quotes a string is a sequence of items: characters, escaped characters and code units in
hexadecimal. Two code units that are a surrogate pair make one code point, so that the items are
grouped to pieces, each with the bytes that it stands for.

The functions that scan a string go from piece to piece (`parseString_items`, `writeContent_items`),
and accept no other strings (`exists_items_of_parseString`).
-/

namespace SparkRapids.GetJson

open StringScan

/-- An item of a string. -/
inductive StringItem
  | char (c : Byte)
  | escape (c : Byte)
  | unicode (h1 h2 h3 h4 : Byte)
  deriving DecidableEq, Repr

/-- The characters that may be escaped. -/
def escapeChars : List Byte :=
  [dquote, squote, backslash, chr '/', chr 'b', chr 'f', chr 'n', chr 'r', chr 't']

namespace StringItem

/-- How an item is written. -/
def text : StringItem → List Byte
  | char c => [c]
  | escape c => [backslash, c]
  | unicode h1 h2 h3 h4 => [backslash, chr 'u', h1, h2, h3, h4]

/-- The item may stand between two quotes. -/
def Fits (quote : Byte) : StringItem → Prop
  | char c => c ≠ quote ∧ c ≠ backslash
  | escape c => backslash ≠ quote ∧ c ∈ escapeChars
  | unicode h1 h2 h3 h4 => backslash ≠ quote ∧
      isHexDigit h1 ∧ isHexDigit h2 ∧ isHexDigit h3 ∧ isHexDigit h4

end StringItem

/-- The text of items. -/
def itemsText (items : List StringItem) : List Byte := items.flatMap StringItem.text

@[simp] theorem itemsText_nil : itemsText [] = [] := rfl

@[simp] theorem itemsText_cons (item : StringItem) (items : List StringItem) :
    itemsText (item :: items) = item.text ++ itemsText items := rfl

/-! ### Pieces -/

/-- A piece of a string. -/
inductive Piece
  | char (c : Byte)
  | escape (c : Byte)
  | unicode (codePoint : Nat)
  deriving DecidableEq, Repr

/-- The number that four hexadecimal digits write. -/
def hexCode (h1 h2 h3 h4 : Byte) : Nat :=
  ((hexValue h1 * 16 + hexValue h2) * 16 + hexValue h3) * 16 + hexValue h4

def IsHighSurrogate (code : Nat) : Prop := 0xD800 ≤ code ∧ code ≤ 0xDBFF

def IsLowSurrogate (code : Nat) : Prop := 0xDC00 ≤ code ∧ code ≤ 0xDFFF

instance (code : Nat) : Decidable (IsHighSurrogate code) := inferInstanceAs (Decidable (_ ∧ _))

instance (code : Nat) : Decidable (IsLowSurrogate code) := inferInstanceAs (Decidable (_ ∧ _))

/-- The code point of a surrogate pair. -/
def pairCode (high low : Nat) : Nat := 0x10000 + (high - 0xD800) * 2 ^ 10 + (low - 0xDC00)

/-- The pieces of items. -/
def pieces : List StringItem → List Piece
  | [] => []
  | .char c :: items => .char c :: pieces items
  | .escape c :: items => .escape c :: pieces items
  | .unicode h1 h2 h3 h4 :: .unicode l1 l2 l3 l4 :: items =>
    if IsHighSurrogate (hexCode h1 h2 h3 h4) ∧ IsLowSurrogate (hexCode l1 l2 l3 l4) then
      .unicode (pairCode (hexCode h1 h2 h3 h4) (hexCode l1 l2 l3 l4)) :: pieces items
    else .unicode (hexCode h1 h2 h3 h4) :: pieces (.unicode l1 l2 l3 l4 :: items)
  | .unicode h1 h2 h3 h4 :: items => .unicode (hexCode h1 h2 h3 h4) :: pieces items

namespace Piece

/-- The bytes that a piece stands for. -/
def content : Piece → List Byte
  | char c => [c]
  | escape c =>
    if c = chr 'b' then [0x08]
    else if c = chr 'f' then [0x0C]
    else if c = chr 'n' then [0x0A]
    else if c = chr 'r' then [0x0D]
    else if c = chr 't' then [0x09]
    else [c]
  | unicode codePoint => utf8 codePoint

/-- What `write_string` writes for a piece. -/
def written : EscapeStyle → Piece → List Byte
  | .unescaped, p => p.content
  | .escaped, char c =>
    if isControl c then escapeChar c else if c = dquote then [backslash, dquote] else [c]
  | .escaped, escape c => if c = squote ∨ c = chr '/' then [c] else [backslash, c]
  | .escaped, unicode codePoint => utf8 codePoint

end Piece

/-- The content of a string. -/
def itemsContent (items : List StringItem) : List Byte := (pieces items).flatMap Piece.content

/-! ### Escape sequences -/

variable {quote c : Byte} {s s' : StringScan} {style : EscapeStyle} {rest : List Byte}

theorem simpleEscape_of_mem (h : c ∈ escapeChars) :
    ∃ content, simpleEscape c = some (content, (Piece.escape c).written .escaped) ∧
      (Piece.escape c).content = [content] := by
  simp only [escapeChars, List.mem_cons, List.not_mem_nil, or_false] at h
  obtain rfl | rfl | rfl | rfl | rfl | rfl | rfl | rfl | rfl := h <;> exact ⟨_, rfl, rfl⟩

theorem mem_of_simpleEscape {r : Byte × List Byte} (h : simpleEscape c = some r) :
    c ∈ escapeChars := by
  unfold simpleEscape at h
  simp only [escapeChars, List.mem_cons, List.not_mem_nil, or_false]
  by_contra hnot
  simp only [not_or] at hnot
  obtain ⟨h1, h2, h3, h4, h5, h6, h7, h8, h9⟩ := hnot
  rw [if_neg h1, if_neg h2, if_neg h3, if_neg h4, if_neg h5, if_neg h6, if_neg h7, if_neg h8,
    if_neg h9] at h
  exact absurd h (by simp)

theorem readHex_four {h1 h2 h3 h4 : Byte}
    (hex : isHexDigit h1 ∧ isHexDigit h2 ∧ isHexDigit h3 ∧ isHexDigit h4) :
    readHex 4 (h1 :: h2 :: h3 :: h4 :: rest) 0 = some (hexCode h1 h2 h3 h4, rest) := by
  obtain ⟨hex1, hex2, hex3, hex4⟩ := hex
  unfold hexCode
  simp only [readHex, hex1, hex2, hex3, hex4, if_true, Nat.zero_mul, Nat.zero_add]

theorem exists_of_readHex {n code code' : Nat} {str : List Byte}
    (h : readHex (n + 1) str code = some (code', rest)) :
    ∃ h str', str = h :: str' ∧ isHexDigit h ∧
      readHex n str' (code * 16 + hexValue h) = some (code', rest) := by
  cases str with
  | nil => exact absurd h (by simp [readHex])
  | cons c str =>
    unfold readHex at h
    split at h
    · next hex => exact ⟨c, str, rfl, hex, h⟩
    · exact absurd h (by simp)

theorem exists_of_readHex_four {code : Nat} {str : List Byte}
    (h : readHex 4 str 0 = some (code, rest)) :
    ∃ h1 h2 h3 h4, str = h1 :: h2 :: h3 :: h4 :: rest ∧
      (isHexDigit h1 ∧ isHexDigit h2 ∧ isHexDigit h3 ∧ isHexDigit h4) ∧
      code = hexCode h1 h2 h3 h4 := by
  obtain ⟨h1, str1, rfl, hex1, h⟩ := exists_of_readHex h
  obtain ⟨h2, str2, rfl, hex2, h⟩ := exists_of_readHex h
  obtain ⟨h3, str3, rfl, hex3, h⟩ := exists_of_readHex h
  obtain ⟨h4, str4, rfl, hex4, h⟩ := exists_of_readHex h
  obtain ⟨rfl, rfl⟩ := Prod.mk.inj (Option.some.inj h)
  refine ⟨h1, h2, h3, h4, rfl, ⟨hex1, hex2, hex3, hex4⟩, ?_⟩
  rw [Nat.zero_mul, Nat.zero_add, hexCode]

theorem combineSurrogates_pair {l1 l2 l3 l4 : Byte} {code : Nat} (hhigh : IsHighSurrogate code)
    (hex : isHexDigit l1 ∧ isHexDigit l2 ∧ isHexDigit l3 ∧ isHexDigit l4)
    (hlow : IsLowSurrogate (hexCode l1 l2 l3 l4)) :
    combineSurrogates code (backslash :: chr 'u' :: l1 :: l2 :: l3 :: l4 :: rest) =
      (pairCode code (hexCode l1 l2 l3 l4), rest) := by
  have hhigh' : 0xD800 ≤ code ∧ code ≤ 0xDBFF := hhigh
  unfold combineSurrogates
  rw [if_pos hhigh']
  dsimp only
  rw [if_pos ⟨rfl, rfl, hex⟩]
  exact if_pos hlow

/-- A code unit is left alone unless it makes a pair with the next one. -/
theorem combineSurrogates_cases (code : Nat) (str : List Byte) :
    combineSurrogates code str = (code, str) ∨
      ∃ l1 l2 l3 l4 rest, str = backslash :: chr 'u' :: l1 :: l2 :: l3 :: l4 :: rest ∧
        (isHexDigit l1 ∧ isHexDigit l2 ∧ isHexDigit l3 ∧ isHexDigit l4) ∧
        IsHighSurrogate code ∧ IsLowSurrogate (hexCode l1 l2 l3 l4) ∧
        combineSurrogates code str = (pairCode code (hexCode l1 l2 l3 l4), rest) := by
  by_cases hhigh : IsHighSurrogate code
  · by_cases hpair : ∃ l1 l2 l3 l4 rest,
        str = backslash :: chr 'u' :: l1 :: l2 :: l3 :: l4 :: rest ∧
        (isHexDigit l1 ∧ isHexDigit l2 ∧ isHexDigit l3 ∧ isHexDigit l4) ∧
        IsLowSurrogate (hexCode l1 l2 l3 l4)
    · obtain ⟨l1, l2, l3, l4, rest, rfl, hex, hlow⟩ := hpair
      exact Or.inr ⟨l1, l2, l3, l4, rest, rfl, hex, hhigh, hlow,
        combineSurrogates_pair hhigh hex hlow⟩
    · left
      have hhigh' : 0xD800 ≤ code ∧ code ≤ 0xDBFF := hhigh
      unfold combineSurrogates
      rw [if_pos hhigh']
      split
      · next b u l1 l2 l3 l4 rest =>
        split
        · next h =>
          obtain ⟨rfl, rfl, hex⟩ := h
          exact if_neg fun hlow => hpair ⟨l1, l2, l3, l4, rest, rfl, hex, hlow⟩
        · rfl
      · rfl
  · exact Or.inl (if_neg hhigh)

/-! ### Skipping a piece -/

/-- The state behind a piece. -/
def StringScan.behind (s : StringScan) (style : EscapeStyle) (p : Piece) (str : List Byte) :
    StringScan :=
  matchBytes p.content { s with str, out := s.out ++ p.written style }

theorem trySkipEscapePart_escape (hc : c ∈ escapeChars) (hs : s.str = c :: rest) :
    trySkipEscapePart style s = some (s.behind style (.escape c) rest) := by
  obtain ⟨content, hsimple, hcontent⟩ := simpleEscape_of_mem hc
  unfold trySkipEscapePart behind
  rw [hs]
  dsimp only
  rw [hsimple, hcontent]
  cases style with
  | unescaped => rw [Piece.written, hcontent]; rfl
  | escaped => rfl

theorem chr_u_not_escaped : simpleEscape (chr 'u') = none := by
  decide

theorem trySkipEscapePart_unicode {h1 h2 h3 h4 : Byte} {code : Nat} {str : List Byte}
    (hex : isHexDigit h1 ∧ isHexDigit h2 ∧ isHexDigit h3 ∧ isHexDigit h4)
    (hs : s.str = chr 'u' :: h1 :: h2 :: h3 :: h4 :: rest)
    (hcombine : combineSurrogates (hexCode h1 h2 h3 h4) rest = (code, str)) :
    trySkipEscapePart style s = some (s.behind style (.unicode code) str) := by
  unfold trySkipEscapePart behind
  rw [hs]
  dsimp only
  rw [chr_u_not_escaped]
  dsimp only
  rw [if_pos rfl]
  unfold trySkipUnicode
  rw [readHex_four hex]
  dsimp only
  rw [hcombine]
  cases style with
  | unescaped => rfl
  | escaped => rfl

/-- Behind a backslash nothing but an escaped character or code units are skipped. -/
theorem exists_items_of_trySkipEscapePart (hquote : backslash ≠ quote)
    (h : trySkipEscapePart style s = some s') :
    ∃ items, (∀ item ∈ items, item.Fits quote) ∧ items ≠ [] ∧
      backslash :: s.str = itemsText items ++ s'.str := by
  unfold trySkipEscapePart at h
  split at h
  · exact absurd h (by simp)
  · next c str hstr =>
    rw [hstr]
    split at h
    · next content escaped hsimple =>
      obtain rfl := Option.some.inj h
      refine ⟨[.escape c], ?_, by simp, ?_⟩
      · intro item hitem
        obtain rfl := List.mem_singleton.1 hitem
        exact ⟨hquote, mem_of_simpleEscape hsimple⟩
      · rw [matchChar_str]
        rfl
    · split at h
      · next hu =>
        subst hu
        unfold trySkipUnicode at h
        split at h
        · exact absurd h (by simp)
        · next code rest hread =>
          obtain ⟨h1, h2, h3, h4, hread', hex, -⟩ := exists_of_readHex_four hread
          obtain rfl : str = h1 :: h2 :: h3 :: h4 :: rest := hread'
          obtain rfl := Option.some.inj h
          rw [matchBytes_str]
          show ∃ items, _ ∧ _ ∧ _ = itemsText items ++ (combineSurrogates code rest).2
          -- a surrogate pair is two escapes
          obtain heq | ⟨l1, l2, l3, l4, rest', rfl, hex', -, -, heq⟩ :=
            combineSurrogates_cases code rest
          · refine ⟨[.unicode h1 h2 h3 h4], ?_, by simp, ?_⟩
            · intro item hitem
              obtain rfl := List.mem_singleton.1 hitem
              exact ⟨hquote, hex⟩
            · rw [heq]
              rfl
          · refine ⟨[.unicode h1 h2 h3 h4, .unicode l1 l2 l3 l4], ?_, by simp, ?_⟩
            · intro item hitem
              obtain rfl | hitem := List.mem_cons.1 hitem
              · exact ⟨hquote, hex⟩
              · obtain rfl := List.mem_singleton.1 hitem
                exact ⟨hquote, hex'⟩
            · rw [heq]
              rfl
      · exact absurd h (by simp)

/-! ### Scanning a string -/

/-- What is left of the content is the name that is left to compare with. -/
def StringScan.Matches (s : StringScan) (content : List Byte) : Bool :=
  s.matched && match s.toMatch with
    | none => true
    | some name => name = content

theorem StringScan.matches_matchChar (s : StringScan) (c : Byte) (content : List Byte) :
    (s.matchChar c).Matches content = s.Matches (c :: content) := by
  unfold matchChar StringScan.Matches
  cases hmatched : s.matched with
  | false => rw [if_neg Bool.false_ne_true, hmatched, Bool.false_and, Bool.false_and]
  | true =>
    rw [if_pos rfl]
    rcases htoMatch : s.toMatch with _ | _ | ⟨d, name⟩
    · rfl
    · rfl
    · unfold tryMatchChar
      by_cases hd : d = c
      · simp [hd]
      · simp [hd]

theorem StringScan.matches_matchBytes (bs : List Byte) (s : StringScan) (content : List Byte) :
    (matchBytes bs s).Matches content = s.Matches (bs ++ content) := by
  induction bs generalizing s with
  | nil => rfl
  | cons b bs ih =>
    rw [matchBytes, ih, matches_matchChar]
    rfl

section Steps

variable {str : List Byte}

theorem parseString_quote (hs : s.str = quote :: str) :
    parseString quote s = some (s.Matches [], str) := by
  rw [parseString]
  split
  · next h => exact absurd (hs.symm.trans h) (by simp)
  · next c str' h =>
    obtain ⟨rfl, rfl⟩ := List.cons.inj (hs.symm.trans h)
    rw [if_pos rfl]
    unfold StringScan.Matches
    rcases s.toMatch with _ | _ | _
    · rfl
    · rfl
    · rfl

theorem parseString_char (hs : s.str = c :: str) (hquote : c ≠ quote) (hc : c ≠ backslash) :
    parseString quote s = parseString quote (({ s with str }).matchChar c) := by
  rw [parseString]
  split
  · next h => exact absurd (hs.symm.trans h) (by simp)
  · next c' str' h =>
    obtain ⟨rfl, rfl⟩ := List.cons.inj (hs.symm.trans h)
    rw [if_neg hquote, if_neg hc]
    split_ifs
    · rfl
    · rfl

theorem parseString_escape (hs : s.str = backslash :: str) (hquote : backslash ≠ quote)
    (hskip : trySkipEscapePart .unescaped { s with str } = some s') :
    parseString quote s = parseString quote s' := by
  rw [parseString]
  split
  · next h => exact absurd (hs.symm.trans h) (by simp)
  · next c' str' h =>
    obtain ⟨rfl, rfl⟩ := List.cons.inj (hs.symm.trans h)
    rw [if_neg hquote, if_neg (by decide), if_pos rfl]
    split
    · next h' => exact absurd (hskip.symm.trans h') (by simp)
    · next s'' h' =>
      obtain rfl := Option.some.inj (hskip.symm.trans h')
      rfl

theorem writeContent_quote (hs : s.str = quote :: str) :
    writeContent quote style s = s.out ++ if style = .escaped then [dquote] else [] := by
  rw [writeContent]
  split
  · next h => exact absurd (hs.symm.trans h) (by simp)
  · next c str' h =>
    obtain ⟨rfl, rfl⟩ := List.cons.inj (hs.symm.trans h)
    rw [if_pos rfl]

theorem written_char (style : EscapeStyle) (c : Byte) : (Piece.char c).written style =
    if isControl c then if style = .escaped then escapeChar c else [c]
    else if c = dquote ∧ style = .escaped then [backslash, c] else [c] := by
  cases style with
  | unescaped => simp [Piece.written, Piece.content]
  | escaped =>
    by_cases hdquote : c = dquote
    · simp [Piece.written, hdquote]
    · simp [Piece.written, hdquote]

theorem writeContent_char (hs : s.str = c :: str) (hquote : c ≠ quote) (hc : c ≠ backslash) :
    writeContent quote style s =
      writeContent quote style { s with str, out := s.out ++ (Piece.char c).written style } := by
  rw [written_char, writeContent]
  split
  · next h => exact absurd (hs.symm.trans h) (by simp)
  · next c' str' h =>
    obtain ⟨rfl, rfl⟩ := List.cons.inj (hs.symm.trans h)
    rw [if_neg hquote, if_neg hc]
    by_cases hcontrol : isControl c
    · rw [if_pos hcontrol, if_pos hcontrol]
    · rw [if_neg hcontrol, if_neg hcontrol]

theorem writeContent_escape (hs : s.str = backslash :: str) (hquote : backslash ≠ quote)
    (hskip : trySkipEscapePart style { s with str } = some s') :
    writeContent quote style s = writeContent quote style s' := by
  rw [writeContent]
  split
  · next h => exact absurd (hs.symm.trans h) (by simp)
  · next c' str' h =>
    obtain ⟨rfl, rfl⟩ := List.cons.inj (hs.symm.trans h)
    rw [if_neg hquote, if_neg (by decide), if_pos rfl]
    split
    · next h' => exact absurd (hskip.symm.trans h') (by simp)
    · next s'' h' =>
      obtain rfl := Option.some.inj (hskip.symm.trans h')
      rfl

end Steps

theorem StringScan.behind_str (p : Piece) (str : List Byte) :
    (s.behind style p str).str = str :=
  matchBytes_str _ _

theorem StringScan.behind_out (p : Piece) (str : List Byte) :
    (s.behind style p str).out = s.out ++ p.written style :=
  matchBytes_out _ _

theorem StringScan.behind_matches (p : Piece) (str content : List Byte) :
    (s.behind style p str).Matches content = s.Matches (p.content ++ content) :=
  matches_matchBytes _ _ _

/-- The scan of a string is the scan of its pieces, one after the other: a property of the state
before a string that follows from the property behind the first piece. -/
theorem scan_induction {quote : Byte} {rest : List Byte} (style : EscapeStyle)
    (Q : StringScan → List Piece → Prop)
    (nil : ∀ s, s.str = quote :: rest → Q s [])
    (char : ∀ s c str ps, s.str = c :: str → c ≠ quote → c ≠ backslash →
      (∀ s', s'.str = str → Q s' ps) → Q s (.char c :: ps))
    (escape : ∀ s p str str' ps, s.str = backslash :: str → backslash ≠ quote →
      trySkipEscapePart style { s with str } = some (s.behind style p str') →
      (∀ s', s'.str = str' → Q s' ps) → Q s (p :: ps))
    (items : List StringItem) (hfits : ∀ item ∈ items, item.Fits quote) (s : StringScan)
    (hs : s.str = itemsText items ++ quote :: rest) : Q s (pieces items) := by
  induction items using pieces.induct generalizing s with
  | case1 => exact nil s hs
  | case2 c items ih =>
    obtain ⟨hquote, hc⟩ := hfits _ (List.mem_cons_self ..)
    rw [pieces]
    refine char s c _ _ hs hquote hc fun s' hs' => ?_
    exact ih (fun item hitem => hfits item (List.mem_cons_of_mem _ hitem)) s' hs'
  | case3 c items ih =>
    obtain ⟨hquote, hc⟩ := hfits _ (List.mem_cons_self ..)
    rw [pieces]
    refine escape s _ _ _ _ hs hquote (trySkipEscapePart_escape hc rfl) fun s' hs' => ?_
    exact ih (fun item hitem => hfits item (List.mem_cons_of_mem _ hitem)) s' hs'
  | case4 h1 h2 h3 h4 l1 l2 l3 l4 items hpair ih =>
    obtain ⟨hquote, hex⟩ := hfits _ (List.mem_cons_self ..)
    obtain ⟨-, hex'⟩ := hfits _ (List.mem_cons_of_mem _ (List.mem_cons_self ..))
    rw [pieces, if_pos hpair]
    refine escape s _ _ _ _ hs hquote (trySkipEscapePart_unicode hex rfl
      (combineSurrogates_pair hpair.1 hex' hpair.2)) fun s' hs' => ?_
    exact ih (fun item hitem =>
      hfits item (List.mem_cons_of_mem _ (List.mem_cons_of_mem _ hitem))) s' hs'
  | case5 h1 h2 h3 h4 l1 l2 l3 l4 items hpair ih =>
    obtain ⟨hquote, hex⟩ := hfits _ (List.mem_cons_self ..)
    rw [pieces, if_neg hpair]
    have hcombine : combineSurrogates (hexCode h1 h2 h3 h4)
        (itemsText (.unicode l1 l2 l3 l4 :: items) ++ quote :: rest) =
        (hexCode h1 h2 h3 h4, itemsText (.unicode l1 l2 l3 l4 :: items) ++ quote :: rest) := by
      obtain heq | ⟨l1', l2', l3', l4', rest', hstr, -, hhigh, hlow, -⟩ :=
        combineSurrogates_cases (hexCode h1 h2 h3 h4)
          (itemsText (.unicode l1 l2 l3 l4 :: items) ++ quote :: rest)
      · exact heq
      · simp only [itemsText_cons, StringItem.text, List.cons_append, List.nil_append,
          List.cons.injEq] at hstr
        obtain ⟨-, -, rfl, rfl, rfl, rfl, -⟩ := hstr
        exact absurd ⟨hhigh, hlow⟩ hpair
    refine escape s _ _ _ _ hs hquote (trySkipEscapePart_unicode hex rfl hcombine) fun s' hs' => ?_
    exact ih (fun item hitem => hfits item (List.mem_cons_of_mem _ hitem)) s' hs'
  | case6 h1 h2 h3 h4 items hnot ih =>
    obtain ⟨hquote, hex⟩ := hfits _ (List.mem_cons_self ..)
    rw [pieces]
    · have hcombine : combineSurrogates (hexCode h1 h2 h3 h4) (itemsText items ++ quote :: rest) =
          (hexCode h1 h2 h3 h4, itemsText items ++ quote :: rest) := by
        obtain heq | ⟨l1, l2, l3, l4, rest', hstr, -⟩ :=
          combineSurrogates_cases (hexCode h1 h2 h3 h4) (itemsText items ++ quote :: rest)
        · exact heq
        · -- neither a character nor an escaped one starts like a code unit
          exfalso
          rcases items with _ | ⟨⟨c⟩ | ⟨c⟩ | ⟨l1', l2', l3', l4'⟩, items⟩
          · exact hquote (List.cons.inj hstr).1.symm
          · have hfit := hfits _ (List.mem_cons_of_mem _ (List.mem_cons_self ..))
            exact hfit.2 (List.cons.inj hstr).1
          · have hfit := hfits _ (List.mem_cons_of_mem _ (List.mem_cons_self ..))
            obtain rfl : c = chr 'u' := (List.cons.inj (List.cons.inj hstr).2).1
            exact absurd hfit.2 (by decide)
          · exact hnot _ _ _ _ _ rfl
      refine escape s _ _ _ _ hs hquote (trySkipEscapePart_unicode hex rfl hcombine)
        fun s' hs' => ?_
      exact ih (fun item hitem => hfits item (List.mem_cons_of_mem _ hitem)) s' hs'
    · exact hnot

/-- A string is scanned to its end, and its content compared with the name. -/
theorem parseString_items (items : List StringItem) (hfits : ∀ item ∈ items, item.Fits quote)
    (hs : s.str = itemsText items ++ quote :: rest) :
    parseString quote s = some (s.Matches (itemsContent items), rest) := by
  refine scan_induction .unescaped
    (fun s ps => parseString quote s = some (s.Matches (ps.flatMap Piece.content), rest))
    ?_ ?_ ?_ items hfits s hs
  · intro s hs
    exact parseString_quote hs
  · intro s c str ps hs hquote hc ih
    rw [parseString_char hs hquote hc, ih _ (matchChar_str _ _),
      matches_matchChar]
    rfl
  · intro s p str str' ps hs hquote hskip ih
    rw [parseString_escape hs hquote hskip, ih _ (behind_str _ _),
      behind_matches]
    rfl

/-- A string is written piece by piece. -/
theorem writeContent_items (items : List StringItem) (hfits : ∀ item ∈ items, item.Fits quote)
    (hs : s.str = itemsText items ++ quote :: rest) :
    writeContent quote style s = s.out ++ (pieces items).flatMap (Piece.written style) ++
      if style = .escaped then [dquote] else [] := by
  refine scan_induction style
    (fun s ps => writeContent quote style s = s.out ++ ps.flatMap (Piece.written style) ++
      if style = .escaped then [dquote] else []) ?_ ?_ ?_ items hfits s hs
  · intro s hs
    rw [writeContent_quote hs, List.flatMap_nil, List.append_nil]
  · intro s c str ps hs hquote hc ih
    rw [writeContent_char hs hquote hc, ih _ rfl, List.flatMap_cons, List.append_assoc s.out]
  · intro s p str str' ps hs hquote hskip ih
    rw [writeContent_escape hs hquote hskip, ih _ (behind_str _ _),
      behind_out, List.flatMap_cons, List.append_assoc s.out]

/-- What is scanned as a string consists of items that fit. -/
theorem exists_items_of_parseString {b : Bool} (h : parseString quote s = some (b, rest)) :
    ∃ items : List StringItem, (∀ item ∈ items, item.Fits quote) ∧
      s.str = itemsText items ++ quote :: rest := by
  -- the induction is on the length of what is left, as an escape sequence takes several characters
  induction hn : s.str.length using Nat.strong_induction_on generalizing s with
  | _ n ih =>
    subst hn
    have hchar (c : Byte) (str : List Byte) (hs : s.str = c :: str) (hquote : c ≠ quote)
        (hc : c ≠ backslash) : ∃ items : List StringItem, (∀ item ∈ items, item.Fits quote) ∧
          s.str = itemsText items ++ quote :: rest := by
      rw [parseString_char hs hquote hc] at h
      obtain ⟨items, hfits, hstr⟩ := ih _ (by rw [matchChar_str, hs]; simp) h rfl
      rw [matchChar_str] at hstr
      refine ⟨.char c :: items, List.forall_mem_cons.2 ⟨⟨hquote, hc⟩, hfits⟩, ?_⟩
      rw [hs, show str = _ from hstr]
      rfl
    have h' := h
    rw [parseString] at h'
    split at h'
    · exact absurd h' (by simp)
    · next c str hs =>
      split at h'
      · next hquote =>
        obtain ⟨-, rfl⟩ := Prod.mk.inj (Option.some.inj h')
        exact ⟨[], by simp, by rw [hs, hquote]; rfl⟩
      · next hquote =>
        split at h'
        · next hcontrol =>
          exact hchar c str hs hquote (by rintro rfl; exact absurd hcontrol (by decide))
        · split at h'
          · next hc =>
            subst hc
            split at h'
            · exact absurd h' (by simp)
            · next s' hskip =>
              have hlt := length_of_trySkipEscapePart hskip
              obtain ⟨items, hfits, hstr⟩ := ih _ (by rw [hs]; exact Nat.lt_succ_of_lt hlt) h' rfl
              obtain ⟨first, hfirst, -, hskipped⟩ := exists_items_of_trySkipEscapePart hquote hskip
              refine ⟨first ++ items, ?_, ?_⟩
              · intro item hitem
                obtain hitem | hitem := List.mem_append.1 hitem
                · exact hfirst item hitem
                · exact hfits item hitem
              · have hs' : s.str = itemsText first ++ s'.str := hs.trans hskipped
                rw [hs', hstr]
                unfold itemsText
                rw [List.flatMap_append, List.append_assoc]
          · next hc => exact hchar c str hs hquote hc

end SparkRapids.GetJson
