import SparkRapidsJni.GetJson.Written
import SparkRapidsJni.GetJson.Accepts

/-!
# Copies of unfaithful documents

A copy that is read as a document with the same contents is one of a faithful document
(`Value.faithful_of_copied`). As long as the strings are faithful, reading goes along with what has
been written; in the first one that is not, too few backslashes have been written
(`written_weight_lt`) for what has to be read (`content_weight_le`).
-/

namespace SparkRapids.GetJson

variable {quote : Byte} {items items' : List StringItem} {ps : List Piece} {p : Piece}
  {text rest rest' : List Byte}

/-! ### Weights -/

/-- What a byte weighs in the text of a string: backslashes, and control characters as much as the
sequences that they are written as. The digit `5` weighs as in `\u005C`, `\u0005` and `\u0015`. -/
def weight (b : Byte) : Nat :=
  if b = backslash ∨ b = chr '5' then 1
  else if b = 0x05 ∨ b = 0x15 then 2
  else if isControl b then 1
  else 0

/-- What a byte of the content weighs: as much as it weighs where it is escaped. -/
def contentWeight (b : Byte) : Nat :=
  if b = backslash then 2 else if b = dquote then 1 else weight b

/-- The weight of bytes. -/
def total (w : Byte → Nat) (bs : List Byte) : Nat := (bs.map w).sum

@[simp] theorem total_nil (w : Byte → Nat) : total w [] = 0 := rfl

@[simp] theorem total_cons (w : Byte → Nat) (b : Byte) (bs : List Byte) :
    total w (b :: bs) = w b + total w bs := by
  unfold total
  rw [List.map_cons, List.sum_cons]

@[simp] theorem total_append (w : Byte → Nat) (bs bs' : List Byte) :
    total w (bs ++ bs') = total w bs + total w bs' := by
  unfold total
  rw [List.map_append, List.sum_append]

theorem weight_le_contentWeight (b : Byte) : weight b ≤ contentWeight b := by
  unfold contentWeight
  split_ifs with hbackslash hdquote
  · rw [hbackslash]
    decide
  · rw [hdquote]
    decide
  · exact le_rfl

theorem total_weight_le (bs : List Byte) : total weight bs ≤ total contentWeight bs :=
  List.sum_le_sum fun b _ => weight_le_contentWeight b

theorem contentWeight_of_isHigh (b : Byte) (h : IsHigh b) : contentWeight b = 0 := by
  have hne {c : Byte} (hc : c.getLsbD 7 = false) : b ≠ c := by
    rintro rfl
    exact Bool.noConfusion (h.symm.trans hc)
  have hcontrol : ¬isControl b = true := by
    rw [Piece.isControl_of_isHigh b h]
    exact Bool.false_ne_true
  unfold contentWeight weight
  rw [if_neg (hne (by decide)), if_neg (hne (by decide)),
    if_neg (not_or.2 ⟨hne (by decide), hne (by decide)⟩),
    if_neg (not_or.2 ⟨hne (by decide), hne (by decide)⟩), if_neg hcontrol]

theorem total_of_isHigh {bs : List Byte} (h : ∀ b ∈ bs, IsHigh b) : total contentWeight bs = 0 := by
  induction bs with
  | nil => rfl
  | cons b bs ih =>
    obtain ⟨hb, hbs⟩ := List.forall_mem_cons.1 h
    rw [total_cons, contentWeight_of_isHigh b hb, ih hbs]

theorem contentWeight_char (c : Byte) (hdquote : c ≠ dquote) (hbackslash : c ≠ backslash) :
    contentWeight c = weight c := by
  unfold contentWeight
  rw [if_neg hbackslash, if_neg hdquote]

theorem contentWeight_escape : ∀ c ∈ escapeChars,
    total contentWeight (Piece.escape c).content ≤ weight backslash + weight c := by
  decide

theorem contentWeight_codePoint : ∀ n < 128, contentWeight (BitVec.ofNat 8 n) ≤ 1 ∨
    contentWeight (BitVec.ofNat 8 n) = 2 ∧ (n = 0x05 ∨ n = 0x15 ∨ n = 0x5C) := by
  decide

theorem eq_of_hexValue : ∀ c : Byte, isHexDigit c → hexValue c = 5 → weight c = 1 := by
  decide +kernel

theorem contentWeight_unicode {h1 h2 h3 h4 : Byte}
    (hex : isHexDigit h1 ∧ isHexDigit h2 ∧ isHexDigit h3 ∧ isHexDigit h4) :
    total contentWeight (Piece.unicode (hexCode h1 h2 h3 h4)).content ≤
      total weight (StringItem.unicode h1 h2 h3 h4).text := by
  have htext : total weight (StringItem.unicode h1 h2 h3 h4).text =
      1 + (weight h1 + (weight h2 + (weight h3 + (weight h4 + 0)))) := by
    unfold StringItem.text
    simp only [total_cons, total_nil]
    rw [show weight backslash = 1 from rfl, show weight (chr 'u') = 0 from rfl, Nat.zero_add]
  have hlt := hexCode_lt h1 h2 h3 h4
  by_cases hascii : hexCode h1 h2 h3 h4 < 128
  · have hcontent : total contentWeight (Piece.unicode (hexCode h1 h2 h3 h4)).content =
        contentWeight (BitVec.ofNat 8 (hexCode h1 h2 h3 h4)) := by
      rw [Piece.content, utf8_of_lt _ hascii, total_cons, total_nil, Nat.add_zero]
    rcases contentWeight_codePoint _ hascii with hle | ⟨htwo, hcode⟩
    · rw [hcontent, htext]
      omega
    · -- one of the last two digits is a `5`
      have hlt3 := hexValue_lt h3
      have hlt4 := hexValue_lt h4
      have hfive : hexValue h3 = 5 ∨ hexValue h4 = 5 := by
        unfold hexCode at hcode
        omega
      rw [hcontent, htext, htwo]
      rcases hfive with hfive | hfive
      · rw [eq_of_hexValue h3 hex.2.2.1 hfive]
        omega
      · rw [eq_of_hexValue h4 hex.2.2.2 hfive]
        omega
  · have hhigh := utf8_isHigh (Nat.le_of_not_lt hascii) (hlt.trans (by decide))
    rw [Piece.content, total_of_isHigh hhigh]
    exact Nat.zero_le _

/-- What is read of a string weighs no more than its text. -/
theorem content_weight_le (items : List StringItem) (hfits : ∀ item ∈ items, item.Fits dquote) :
    total contentWeight (itemsContent items) ≤ total weight (itemsText items) := by
  unfold itemsContent
  induction items using pieces.induct with
  | case1 => exact le_rfl
  | case2 c items ih =>
    obtain ⟨hc, hitems⟩ := List.forall_mem_cons.1 hfits
    rw [pieces, List.flatMap_cons, itemsText_cons, total_append, total_append]
    apply Nat.add_le_add _ (ih hitems)
    rw [Piece.content, StringItem.text, total_cons, total_cons, contentWeight_char c hc.1 hc.2]
    exact le_rfl
  | case3 c items ih =>
    obtain ⟨hc, hitems⟩ := List.forall_mem_cons.1 hfits
    rw [pieces, List.flatMap_cons, itemsText_cons, total_append, total_append]
    apply Nat.add_le_add _ (ih hitems)
    rw [StringItem.text, total_cons, total_cons, total_nil, Nat.add_zero]
    exact contentWeight_escape c hc.2
  | case4 h1 h2 h3 h4 l1 l2 l3 l4 items hpair ih =>
    obtain ⟨-, hitems⟩ := List.forall_mem_cons.1 hfits
    obtain ⟨-, hitems⟩ := List.forall_mem_cons.1 hitems
    -- a surrogate pair is one character, and its bytes weigh nothing
    have hcode : 128 ≤ pairCode (hexCode h1 h2 h3 h4) (hexCode l1 l2 l3 l4) ∧
        pairCode (hexCode h1 h2 h3 h4) (hexCode l1 l2 l3 l4) < 0x110000 := by
      obtain ⟨⟨_, hhigh⟩, _, hlow⟩ := hpair
      unfold pairCode
      omega
    rw [pieces, if_pos hpair, List.flatMap_cons, total_append, Piece.content,
      total_of_isHigh (utf8_isHigh hcode.1 hcode.2), itemsText_cons, itemsText_cons, total_append,
      total_append]
    have hle := ih hitems
    omega
  | case5 h1 h2 h3 h4 l1 l2 l3 l4 items hpair ih =>
    obtain ⟨hfit, hitems⟩ := List.forall_mem_cons.1 hfits
    rw [pieces, if_neg hpair, List.flatMap_cons, itemsText_cons, total_append, total_append]
    exact Nat.add_le_add (contentWeight_unicode hfit.2) (ih hitems)
  | case6 h1 h2 h3 h4 items hnot ih =>
    obtain ⟨hfit, hitems⟩ := List.forall_mem_cons.1 hfits
    rw [pieces, List.flatMap_cons, itemsText_cons, total_append, total_append]
    · exact Nat.add_le_add (contentWeight_unicode hfit.2) (ih hitems)
    · exact hnot

theorem weight_escapeChar : ∀ c : Byte, isControl c →
    total weight (escapeChar c) ≤ contentWeight c :=
  forall_isControl (by decide)

theorem weight_escape : ∀ c ∈ escapeChars, total weight ((Piece.escape c).written .escaped) ≤
    total contentWeight (Piece.escape c).content := by
  decide

/-- What is written for a piece weighs no more than what it stands for. -/
theorem Piece.written_weight_le (hfits : p.Fits) :
    total weight (p.written .escaped) ≤ total contentWeight p.content := by
  cases p with
  | char c =>
    rw [written, content, total_cons, total_nil, Nat.add_zero]
    by_cases hcontrol : isControl c
    · rw [if_pos hcontrol]
      exact weight_escapeChar c hcontrol
    · rw [if_neg hcontrol]
      by_cases hc : c = dquote
      · rw [hc]
        decide
      · rw [if_neg hc, total_cons, total_nil, Nat.add_zero]
        exact weight_le_contentWeight c
  | escape c => exact weight_escape c hfits
  | unicode codePoint => exact total_weight_le _

theorem Piece.written_weight_lt (h : ¬p.Faithful) :
    total weight (p.written .escaped) < total contentWeight p.content := by
  cases p with
  | char => exact absurd trivial h
  | escape => exact absurd trivial h
  | unicode codePoint =>
    have hcode : codePoint = 0x22 ∨ codePoint = 0x5C := by
      by_contra hcode
      exact h (not_or.1 hcode)
    rcases hcode with rfl | rfl
    · decide
    · decide

/-- What is written for a string weighs less than its content, unless its pieces are faithful. -/
theorem written_weight (hfits : ∀ p ∈ ps, p.Fits) :
    total weight (ps.flatMap (Piece.written .escaped)) ≤
        total contentWeight (ps.flatMap Piece.content) ∧
      (total weight (ps.flatMap (Piece.written .escaped)) =
        total contentWeight (ps.flatMap Piece.content) → ∀ p ∈ ps, p.Faithful) := by
  induction ps with
  | nil => exact ⟨le_rfl, fun _ p hp => absurd hp List.not_mem_nil⟩
  | cons p ps ih =>
    obtain ⟨hp, hps⟩ := List.forall_mem_cons.1 hfits
    obtain ⟨hle, hfaithful⟩ := ih hps
    have hple := p.written_weight_le hp
    simp only [List.flatMap_cons, total_append]
    refine ⟨Nat.add_le_add hple hle, fun heq => ?_⟩
    have hpfaithful : p.Faithful := by
      by_contra hnot
      have hlt := p.written_weight_lt hnot
      omega
    exact List.forall_mem_cons.2 ⟨hpfaithful, hfaithful (by omega)⟩

/-! ### Where a written string ends -/

theorem dquote_not_mem_unicode {h1 h2 h3 h4 : Byte}
    (h : (StringItem.unicode h1 h2 h3 h4).Fits dquote) :
    dquote ∉ (StringItem.unicode h1 h2 h3 h4).text := by
  obtain ⟨-, hex1, hex2, hex3, hex4⟩ := h
  have hne {c : Byte} (hc : isHexDigit c) : dquote ≠ c := by
    rintro rfl
    exact absurd hc (by decide)
  simp only [StringItem.text, List.mem_cons, List.not_mem_nil, or_false, not_or]
  exact ⟨by decide, by decide, hne hex1, hne hex2, hne hex3, hne hex4⟩

theorem StringItem.backslash_of_text {item : StringItem} {x t : List Byte}
    (h : item.Fits dquote) (htext : item.text = x ++ dquote :: t) : x.getLast? = some backslash := by
  have hmem : dquote ∈ item.text := by
    rw [htext]
    exact List.mem_append_right _ (List.mem_cons_self ..)
  cases item with
  | char c => exact absurd (List.mem_singleton.1 hmem).symm h.1
  | escape c =>
    rcases x with _ | ⟨a, _ | ⟨b, x⟩⟩
    · exact absurd (List.cons.inj htext).1 h.1
    · rw [← (List.cons.inj htext).1]
      rfl
    · have hlen := congrArg List.length htext
      simp [StringItem.text] at hlen
  | unicode h1 h2 h3 h4 => exact absurd hmem (dquote_not_mem_unicode h)

/-- A quote that is no end of a string has a backslash before it. -/
theorem backslash_of_itemsText {x y : List Byte} (hfits : ∀ item ∈ items, item.Fits dquote)
    (h : itemsText items = x ++ dquote :: y) : x.getLast? = some backslash := by
  induction items generalizing x with
  | nil => exact absurd h.symm (by simp)
  | cons item items ih =>
    obtain ⟨hitem, hitems⟩ := List.forall_mem_cons.1 hfits
    rw [itemsText_cons, List.append_eq_append_iff] at h
    rcases h with ⟨x', rfl, h⟩ | ⟨t, ht, h⟩
    · have hlast := ih hitems h
      rw [List.getLast?_append, hlast]
      rfl
    · rcases t with _ | ⟨b, t⟩
      · have hlast := ih (x := []) hitems h.symm
        exact absurd hlast (by simp)
      · obtain ⟨rfl, -⟩ := List.cons.inj h
        exact StringItem.backslash_of_text hitem ht

/-- No backslash is in front of the next quote. -/
def QuoteFirst (rest : List Byte) : Prop := backslash ∉ rest.takeWhile (· ≠ dquote)

theorem quoteFirst_nil : QuoteFirst [] := List.not_mem_nil

theorem quoteFirst_dquote (rest : List Byte) : QuoteFirst (dquote :: rest) := by
  unfold QuoteFirst
  rw [List.takeWhile_cons_of_neg (by simp)]
  exact List.not_mem_nil

theorem QuoteFirst.cons {c : Byte} (h : QuoteFirst rest) (hc : c ≠ backslash) :
    QuoteFirst (c :: rest) := by
  by_cases hquote : c = dquote
  · rw [hquote]
    exact quoteFirst_dquote rest
  · unfold QuoteFirst
    rw [List.takeWhile_cons_of_pos (by simpa using hquote)]
    intro hmem
    rcases List.mem_cons.1 hmem with heq | hmem
    · exact hc heq.symm
    · exact h hmem

theorem QuoteFirst.append {t : List Byte} (h : QuoteFirst rest) (ht : backslash ∉ t) :
    QuoteFirst (t ++ rest) := by
  induction t with
  | nil => exact h
  | cons c t ih =>
    obtain ⟨hc, ht⟩ := not_or.1 (mt List.mem_cons.2 ht)
    exact (ih ht).cons (Ne.symm hc)

/-- No quote is next, and no backslash is in front of the next quote. -/
structure Guarded (rest : List Byte) : Prop where
  head : rest.head? ≠ some dquote
  first : QuoteFirst rest

theorem guarded_nil : Guarded [] := ⟨by simp, quoteFirst_nil⟩

theorem QuoteFirst.guarded {c : Byte} (h : QuoteFirst rest) (hc : c ≠ dquote ∧ c ≠ backslash) :
    Guarded (c :: rest) :=
  ⟨fun heq => hc.1 (Option.some.inj heq), h.cons hc.2⟩

theorem takeWhile_of_not_mem {a t : List Byte} (h : dquote ∉ a) :
    (a ++ dquote :: t).takeWhile (· ≠ dquote) = a := by
  have hall : ∀ b ∈ a, decide (b ≠ dquote) = true := by
    intro b hb
    apply decide_eq_true
    rintro rfl
    exact h hb
  rw [List.takeWhile_append_of_pos hall, List.takeWhile_cons_of_neg (by simp), List.append_nil]

/-- What is read on behind the end of a string that has been written goes up to the next quote. -/
theorem reads_to_next_quote {t a : List Byte} (hfits : ∀ item ∈ items, item.Fits dquote)
    (htext : itemsText items = t ++ dquote :: a) (hrest : rest = a ++ dquote :: rest')
    (hguarded : Guarded rest) : dquote ∉ a ∧ backslash ∉ a ∧ a ≠ [] := by
  have hquote : dquote ∉ a := by
    intro hmem
    -- the first quote in `a` would have a backslash before it
    obtain ⟨a1, a2, rfl, hnot⟩ := List.eq_append_cons_of_mem hmem
    have htake : rest.takeWhile (· ≠ dquote) = a1 := by
      rw [hrest, List.append_assoc, List.cons_append, takeWhile_of_not_mem hnot]
    have hlast := backslash_of_itemsText hfits
      (show itemsText items = (t ++ dquote :: a1) ++ dquote :: a2 by
        rw [htext, List.append_assoc, List.cons_append])
    have hmem' := List.mem_of_getLast? hlast
    rcases List.eq_nil_or_concat a1 with rfl | ⟨a0, b, rfl⟩
    · rw [List.getLast?_concat] at hlast
      exact absurd (Option.some.inj hlast) (by decide)
    · rw [List.concat_eq_append, ← List.cons_append, ← List.append_assoc,
        List.getLast?_concat] at hlast
      obtain rfl := Option.some.inj hlast
      exact hguarded.first (by rw [htake]; simp)
  have htake : rest.takeWhile (· ≠ dquote) = a := by
    rw [hrest, takeWhile_of_not_mem hquote]
  have hfirst : backslash ∉ rest.takeWhile (· ≠ dquote) := hguarded.first
  rw [htake] at hfirst
  refine ⟨hquote, hfirst, ?_⟩
  rintro rfl
  exact hguarded.head (by rw [hrest]; rfl)

/-- Items whose text ends without quotes and backslashes end with a character. -/
theorem exists_char_of_itemsText {t a : List Byte} (hfits : ∀ item ∈ items, item.Fits dquote)
    (htext : itemsText items = t ++ dquote :: a)
    (ha : dquote ∉ a ∧ backslash ∉ a ∧ a ≠ []) :
    ∃ items0 c, items = items0 ++ [.char c] ∧ c ≠ backslash := by
  rcases List.eq_nil_or_concat items with rfl | ⟨items0, item, rfl⟩
  · exact absurd htext.symm (by simp)
  rw [List.concat_eq_append] at htext hfits ⊢
  have hitem := hfits item (by simp)
  have hsuffix : item.text <:+ t ++ dquote :: a := by
    refine ⟨itemsText items0, ?_⟩
    rw [← htext]
    unfold itemsText
    rw [List.flatMap_append, List.flatMap_singleton]
  have hnot : backslash ∉ dquote :: a := by
    intro hmem
    rcases List.mem_cons.1 hmem with h | h
    · exact absurd h (by decide)
    · exact ha.2.1 h
  have hchar (hmem : backslash ∈ item.text) : dquote :: a <:+ item.text := by
    rcases List.suffix_or_suffix_of_suffix hsuffix (List.suffix_append t (dquote :: a)) with h | h
    · exact absurd (h.subset hmem) hnot
    · exact h
  cases item with
  | char c => exact ⟨items0, c, rfl, hitem.2⟩
  | escape c =>
    obtain ⟨x, hx⟩ := hchar (by simp [StringItem.text])
    have hlen := congrArg List.length hx
    have hpos := List.length_pos_of_ne_nil ha.2.2
    rcases x with _ | ⟨b, x⟩
    · exact absurd (List.cons.inj hx).1 (by decide)
    · simp [StringItem.text] at hlen
      omega
  | unicode h1 h2 h3 h4 =>
    have hsub := (hchar (by simp [StringItem.text])).subset (List.mem_cons_self ..)
    exact absurd hsub (dquote_not_mem_unicode hitem)

theorem pieces_concat_char (items : List StringItem) (c : Byte) :
    pieces (items ++ [.char c]) = pieces items ++ [.char c] := by
  induction items using pieces.induct with
  | case1 => rfl
  | case2 d items ih => rw [List.cons_append, pieces, pieces, ih, List.cons_append]
  | case3 d items ih => rw [List.cons_append, pieces, pieces, ih, List.cons_append]
  | case4 h1 h2 h3 h4 l1 l2 l3 l4 items hpair ih =>
    rw [List.cons_append, List.cons_append, pieces, if_pos hpair, pieces, if_pos hpair, ih,
      List.cons_append]
  | case5 h1 h2 h3 h4 l1 l2 l3 l4 items hpair ih =>
    rw [List.cons_append] at ih
    rw [List.cons_append, List.cons_append, pieces, if_neg hpair, pieces, if_neg hpair, ih,
      List.cons_append]
  | case6 h1 h2 h3 h4 items hnot ih =>
    have hnot' : ∀ l1 l2 l3 l4 items', items ++ [.char c] = .unicode l1 l2 l3 l4 :: items' → False := by
      intro l1 l2 l3 l4 items' heq
      rcases items with _ | ⟨item, items⟩
      · exact StringItem.noConfusion (List.cons.inj heq).1
      · obtain ⟨rfl, -⟩ := List.cons.inj heq
        exact hnot _ _ _ _ _ rfl
    rw [List.cons_append, pieces, pieces, ih, List.cons_append]
    · exact hnot
    · exact hnot'

theorem getLast_escapeChar : ∀ c : Byte, isControl c →
    (escapeChar c).getLast? ≠ some backslash :=
  forall_isControl (by decide)

/-- A piece that is written with a backslash at the end stands for one. -/
theorem Piece.getLast_content (hfits : p.Fits)
    (h : (p.written .escaped).getLast? = some backslash) : p.content.getLast? = some backslash := by
  cases p with
  | char c =>
    rw [written] at h
    by_cases hcontrol : isControl c
    · rw [if_pos hcontrol] at h
      exact absurd h (getLast_escapeChar c hcontrol)
    · rw [if_neg hcontrol] at h
      by_cases hc : c = dquote
      · rw [if_pos hc] at h
        exact absurd h (by decide)
      · rw [if_neg hc] at h
        exact h
  | escape c =>
    exact (by decide : ∀ c ∈ escapeChars, ((Piece.escape c).written .escaped).getLast? =
      some backslash → (Piece.escape c).content.getLast? = some backslash) c hfits h
  | unicode codePoint => exact h

theorem length_charBytes (n : Nat) (w : BitVec 32) (str : List Byte) :
    (charBytes n w str).length = n + str.length := by
  induction n generalizing w str with
  | zero => rw [charBytes, Nat.zero_add]
  | succ n ih =>
    rw [charBytes, ih, List.length_cons]
    omega

theorem utf8_ne_nil (codePoint : Nat) : utf8 codePoint ≠ [] := by
  intro h
  have hlen := congrArg List.length h
  unfold utf8 fromCharUtf8 at hlen
  rw [length_charBytes] at hlen
  unfold bytesInCharUtf8 at hlen
  simp at hlen

theorem escapeChar_ne_nil (c : Byte) : escapeChar c ≠ [] := by
  unfold escapeChar
  split_ifs <;> exact List.cons_ne_nil _ _

theorem Piece.written_ne_nil (p : Piece) : p.written .escaped ≠ [] := by
  cases p with
  | char c =>
    rw [written]
    split_ifs
    · exact escapeChar_ne_nil c
    · exact List.cons_ne_nil _ _
    · exact List.cons_ne_nil _ _
  | escape c =>
    rw [written]
    split_ifs
    · exact List.cons_ne_nil _ _
    · exact List.cons_ne_nil _ _
  | unicode codePoint => exact utf8_ne_nil codePoint

theorem getLast_flatMap_content (hfits : ∀ p ∈ ps, p.Fits)
    (h : (ps.flatMap (Piece.written .escaped)).getLast? = some backslash) :
    (ps.flatMap Piece.content).getLast? = some backslash := by
  rcases List.eq_nil_or_concat ps with rfl | ⟨ps0, p, rfl⟩
  · exact absurd h (by simp)
  rw [List.concat_eq_append] at h hfits ⊢
  have hp := hfits p (by simp)
  rw [List.flatMap_append, List.flatMap_singleton, List.getLast?_append] at h
  rcases hlast : (p.written .escaped).getLast? with _ | b
  · exact absurd (List.getLast?_eq_none_iff.1 hlast) p.written_ne_nil
  · rw [hlast] at h
    obtain rfl := Option.some.inj h
    rw [List.flatMap_append, List.flatMap_singleton, List.getLast?_append,
      p.getLast_content hp hlast]
    rfl

/-- Reading what has been written for a string up to its end, or beyond: if that is its content, then
the string is faithful, and the end is the one that has been written. -/
theorem read_written (h : Quoted quote items text) (hfits' : ∀ item ∈ items', item.Fits dquote)
    (hread : itemsText items' ++ dquote :: rest' =
      (pieces items).flatMap (Piece.written .escaped) ++ dquote :: rest)
    (hcontent : itemsContent items' = itemsContent items) (hguarded : Guarded rest) :
    FaithfulText text ∧ rest' = rest := by
  have hfits := pieces_fits items h.fits
  have hprefix (a : List Byte) (ha : (pieces items).flatMap (Piece.written .escaped) =
      itemsText items' ++ a) : FaithfulText text ∧ rest' = rest := by
    -- what has been written weighs as much as the content
    obtain ⟨hle, hfaithful⟩ := written_weight hfits
    have hread' := content_weight_le items' hfits'
    have hcontent' : total contentWeight (itemsContent items') =
        total contentWeight ((pieces items).flatMap Piece.content) := by
      rw [hcontent]
      rfl
    rw [ha, total_append] at hle hfaithful
    have hpieces := hfaithful (by omega)
    have hfaithfulText : FaithfulText text := by
      intro quote' items'' hquoted
      obtain rfl := h.unique hquoted
      exact hpieces
    have hrewrites := rewrites_pieces hfits hpieces
    rw [← hrewrites.text] at hread
    exact ⟨hfaithfulText, (itemsText_injective hfits' hrewrites.fits hread).2⟩
  rcases List.append_eq_append_iff.1 hread with ⟨a, ha, -⟩ | ⟨a, ha, hrest⟩
  · exact hprefix a ha
  · rcases a with _ | ⟨b, a⟩
    · exact hprefix [] (by rw [ha, List.append_nil, List.append_nil])
    · -- beyond: the content ends with a backslash, and what is read does not
      exfalso
      obtain ⟨rfl, htail⟩ := List.cons.inj hrest
      have hnext := reads_to_next_quote hfits' ha htail hguarded
      obtain ⟨items0, c, rfl, hc⟩ := exists_char_of_itemsText hfits' ha hnext
      have hlast := getLast_flatMap_content hfits (backslash_of_itemsText hfits' ha)
      have hlast' : (itemsContent (items0 ++ [.char c])).getLast? = some c := by
        unfold itemsContent
        rw [pieces_concat_char, List.flatMap_append, List.flatMap_singleton]
        exact List.getLast?_concat
      rw [hcontent] at hlast'
      exact hc (Option.some.inj (hlast'.symm.trans hlast))

end SparkRapids.GetJson
