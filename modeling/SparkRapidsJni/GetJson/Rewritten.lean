import SparkRapidsJni.GetJson.StringItems

/-!
# Strings that are written again

`write_string` in the style `ESCAPED` writes every piece of a string so that it is read as the same
bytes again, but for the code points of the double quote and the backslash: these are written as
they are (`Piece.Faithful`). What a faithful piece is written as are items again
(`Piece.rewritten`), so that the written string has the content of the string (`rewritten_items`).
-/

namespace SparkRapids.GetJson

/-! ### UTF-8 -/

theorem utf8_of_lt : ∀ codePoint < 128, utf8 codePoint = [BitVec.ofNat 8 codePoint] := by
  decide +kernel

/-- The byte starts with a one bit, as the bytes of all characters do that are not ASCII. -/
def IsHigh (b : Byte) : Prop := b.getLsbD 7 = true

theorem charBytes_isHigh {n : Nat} {w : BitVec 32} {str : List Byte}
    (h : ∀ i < n, w.getLsbD (8 * i + 7) = true) (hstr : ∀ b ∈ str, IsHigh b) :
    ∀ b ∈ charBytes n w str, IsHigh b := by
  induction n generalizing w str with
  | zero => exact hstr
  | succ n ih =>
    rw [charBytes]
    apply ih
    · intro i hi
      have hbit := h (i + 1) (Nat.succ_lt_succ hi)
      rw [BitVec.getLsbD_ushiftRight, ← hbit]
      congr 1
      omega
    · intro b hb
      rcases List.mem_cons.1 hb with rfl | hb
      · have hbit := h 0 (Nat.succ_pos n)
        unfold IsHigh
        rw [BitVec.getLsbD_setWidth, hbit]
        rfl
      · exact hstr b hb

/-- The bytes of a character are counted by the highest bits of its bytes. -/
theorem bytesInCharUtf8_eq {w : BitVec 32} (b1 b2 b3 : Bool)
    (h1 : if b1 then w.getLsbD 15 = true else w &&& 0x0000FF00 = 0)
    (h2 : if b2 then w.getLsbD 23 = true else w &&& 0x00FF0000 = 0)
    (h3 : if b3 then w.getLsbD 31 = true else w &&& 0xFF000000 = 0) :
    bytesInCharUtf8 w = 1 + b1.toNat + b2.toNat + b3.toNat := by
  have hpart {b : Bool} {mask : BitVec 32} {i : Nat} (hmask : mask.getLsbD i = true)
      (h : if b then w.getLsbD i = true else w &&& mask = 0) :
      (if w &&& mask = 0 then 0 else 1) = b.toNat := by
    cases b with
    | false => exact if_pos h
    | true =>
      apply if_neg
      intro hzero
      have hbit := congrArg (BitVec.getLsbD · i) hzero
      simp only [BitVec.getLsbD_and, hmask, show w.getLsbD i = true from h] at hbit
      exact absurd hbit (by simp)
  unfold bytesInCharUtf8
  rw [hpart (i := 15) (by decide) h1, hpart (i := 23) (by decide) h2,
    hpart (i := 31) (by decide) h3]

theorem fromCharUtf8_isHigh {w : BitVec 32} {n : Nat} (hn : bytesInCharUtf8 w = n)
    (h : ∀ i < n, w.getLsbD (8 * i + 7) = true) : ∀ b ∈ fromCharUtf8 w, IsHigh b := by
  unfold fromCharUtf8
  rw [hn]
  exact charBytes_isHigh h fun b hb => absurd hb List.not_mem_nil

theorem utf8_isHigh {codePoint : Nat} (hle : 128 ≤ codePoint) (hlt : codePoint < 0x110000) :
    ∀ b ∈ utf8 codePoint, IsHigh b := by
  unfold utf8 codepointToUtf8
  have hw : (BitVec.ofNat 32 codePoint).toNat = codePoint := Nat.mod_eq_of_lt (by omega)
  generalize BitVec.ofNat 32 codePoint = w at hw
  have hascii : ¬w < 0x00000080 := by
    rw [BitVec.lt_def, hw]
    exact Nat.not_lt.2 hle
  rw [if_neg hascii]
  -- two, three or four bytes, each with its highest bit set
  split_ifs with _ _ htop
  · apply fromCharUtf8_isHigh (bytesInCharUtf8_eq true false false ?_ ?_ ?_)
    · intro i hi
      have hi : i < 2 := hi
      interval_cases i <;> simp
    · simp
    · ext i hi
      simp
      interval_cases i <;> simp
    · ext i hi
      simp
      interval_cases i <;> simp
  · apply fromCharUtf8_isHigh (bytesInCharUtf8_eq true true false ?_ ?_ ?_)
    · intro i hi
      have hi : i < 3 := hi
      interval_cases i <;> simp
    · simp
    · simp
    · ext i hi
      simp
      interval_cases i <;> simp
  · apply fromCharUtf8_isHigh (bytesInCharUtf8_eq true true true ?_ ?_ ?_)
    · intro i hi
      have hi : i < 4 := hi
      interval_cases i <;> simp
    · simp
    · simp
    · simp
  · exact absurd (show w < 0x00110000 by rw [BitVec.lt_def, hw]; exact hlt) htop

/-! ### Pieces of a string -/

namespace Piece

/-- The piece can be in a string. -/
def Fits : Piece → Prop
  | char c => c ≠ backslash
  | escape c => c ∈ escapeChars
  | unicode codePoint => codePoint < 0x110000

/-- What is written for the piece is read as its content. -/
def Faithful : Piece → Prop
  | unicode codePoint => codePoint ≠ 0x22 ∧ codePoint ≠ 0x5C
  | _ => True

end Piece

theorem hexValue_lt : ∀ c : Byte, hexValue c < 16 := by decide +kernel

theorem hexCode_lt (h1 h2 h3 h4 : Byte) : hexCode h1 h2 h3 h4 < 0x10000 := by
  have hlt1 := hexValue_lt h1
  have hlt2 := hexValue_lt h2
  have hlt3 := hexValue_lt h3
  have hlt4 := hexValue_lt h4
  unfold hexCode
  omega

theorem pieces_fits {quote : Byte} (items : List StringItem)
    (hfits : ∀ item ∈ items, item.Fits quote) : ∀ p ∈ pieces items, p.Fits := by
  induction items using pieces.induct with
  | case1 => exact fun p hp => absurd hp List.not_mem_nil
  | case2 c items ih =>
    obtain ⟨hc, hitems⟩ := List.forall_mem_cons.1 hfits
    exact List.forall_mem_cons.2 ⟨hc.2, ih hitems⟩
  | case3 c items ih =>
    obtain ⟨hc, hitems⟩ := List.forall_mem_cons.1 hfits
    exact List.forall_mem_cons.2 ⟨hc.2, ih hitems⟩
  | case4 h1 h2 h3 h4 l1 l2 l3 l4 items hpair ih =>
    obtain ⟨-, hitems⟩ := List.forall_mem_cons.1 hfits
    obtain ⟨-, hitems⟩ := List.forall_mem_cons.1 hitems
    rw [pieces, if_pos hpair]
    refine List.forall_mem_cons.2 ⟨?_, ih hitems⟩
    obtain ⟨⟨_, hhigh⟩, _, hlow⟩ := hpair
    show pairCode _ _ < 0x110000
    unfold pairCode
    omega
  | case5 h1 h2 h3 h4 l1 l2 l3 l4 items hpair ih =>
    obtain ⟨-, hitems⟩ := List.forall_mem_cons.1 hfits
    rw [pieces, if_neg hpair]
    exact List.forall_mem_cons.2 ⟨(hexCode_lt _ _ _ _).trans (by decide), ih hitems⟩
  | case6 h1 h2 h3 h4 items hnot ih =>
    obtain ⟨-, hitems⟩ := List.forall_mem_cons.1 hfits
    rw [pieces]
    · exact List.forall_mem_cons.2 ⟨(hexCode_lt _ _ _ _).trans (by decide), ih hitems⟩
    · exact hnot

/-! ### Pieces that are written again -/

/-- A control character, escaped. -/
def controlItem (c : Byte) : StringItem :=
  if c = 8 then .escape (chr 'b')
  else if c = 9 then .escape (chr 't')
  else if c = 10 then .escape (chr 'n')
  else if c = 12 then .escape (chr 'f')
  else if c = 13 then .escape (chr 'r')
  else .unicode (chr '0') (chr '0') (if 16 ≤ c then chr '1' else chr '0') (toHexChar (c.toNat % 16))

/-- The items that a piece is written as. -/
def Piece.rewritten : Piece → List StringItem
  | .char c =>
    if isControl c then [controlItem c] else if c = dquote then [.escape dquote] else [.char c]
  | .escape c => if c = squote ∨ c = chr '/' then [.char c] else [.escape c]
  | .unicode codePoint => (utf8 codePoint).map .char

/-- An item that is a piece of its own. -/
def StringItem.piece : StringItem → Piece
  | .char c => .char c
  | .escape c => .escape c
  | .unicode h1 h2 h3 h4 => .unicode (hexCode h1 h2 h3 h4)

/-- An item that no other one can be combined with. -/
def StringItem.Alone : StringItem → Prop
  | .unicode h1 h2 h3 h4 => ¬IsHighSurrogate (hexCode h1 h2 h3 h4)
  | _ => True

instance (quote : Byte) : (item : StringItem) → Decidable (item.Fits quote)
  | .char _ => inferInstanceAs (Decidable (_ ∧ _))
  | .escape _ => inferInstanceAs (Decidable (_ ∧ _))
  | .unicode _ _ _ _ => inferInstanceAs (Decidable (_ ∧ _ ∧ _ ∧ _ ∧ _))

instance : (item : StringItem) → Decidable item.Alone
  | .char _ => inferInstanceAs (Decidable True)
  | .escape _ => inferInstanceAs (Decidable True)
  | .unicode _ _ _ _ => inferInstanceAs (Decidable (¬_))

/-- What is to be shown of the items that something is written as. -/
structure Rewrites (items : List StringItem) (written content : List Byte) : Prop where
  text : itemsText items = written
  fits : ∀ item ∈ items, item.Fits dquote
  alone : ∀ item ∈ items, item.Alone
  content : items.flatMap (fun item => item.piece.content) = content

theorem Rewrites.single {item : StringItem} (hfits : item.Fits dquote) (halone : item.Alone) :
    Rewrites [item] item.text item.piece.content where
  text := List.append_nil _
  fits _ h := List.mem_singleton.1 h ▸ hfits
  alone _ h := List.mem_singleton.1 h ▸ halone
  content := List.append_nil _

theorem Rewrites.append {items items' : List StringItem} {w w' c c' : List Byte}
    (h : Rewrites items w c) (h' : Rewrites items' w' c') :
    Rewrites (items ++ items') (w ++ w') (c ++ c') where
  text := by
    unfold itemsText
    rw [List.flatMap_append, ← h.text, ← h'.text]
    rfl
  fits := List.forall_mem_append.2 ⟨h.fits, h'.fits⟩
  alone := List.forall_mem_append.2 ⟨h.alone, h'.alone⟩
  content := by rw [List.flatMap_append, h.content, h'.content]

/-- What holds of the first 32 bytes holds of the control characters. -/
theorem forall_isControl {P : Byte → Prop} (h : ∀ n < 32, P (BitVec.ofNat 8 n)) :
    ∀ c : Byte, isControl c → P c := by
  intro c hc
  have hlt : c < 32 := of_decide_eq_true hc
  have hnat := h c.toNat hlt
  rwa [BitVec.ofNat_toNat, BitVec.setWidth_eq] at hnat

theorem controlItem_rewrites : ∀ c : Byte, isControl c →
    (controlItem c).text = escapeChar c ∧ (controlItem c).Fits dquote ∧ (controlItem c).Alone ∧
      (controlItem c).piece.content = [c] :=
  forall_isControl (by decide)

theorem escape_rewrites : ∀ c ∈ escapeChars,
    (Piece.escape c).rewritten = [.char c] ∧ (Piece.escape c).written .escaped = [c] ∧
        (Piece.escape c).content = [c] ∧ (StringItem.char c).Fits dquote ∨
      (Piece.escape c).rewritten = [.escape c] ∧
        (Piece.escape c).written .escaped = [backslash, c] ∧ (StringItem.escape c).Fits dquote := by
  decide

theorem rewrites_chars {bs : List Byte} (h : ∀ b ∈ bs, b ≠ dquote ∧ b ≠ backslash) :
    Rewrites (bs.map .char) bs bs where
  text := by
    unfold itemsText
    rw [List.flatMap_map]
    exact List.flatMap_singleton' _
  fits item hitem := by
    obtain ⟨b, hb, rfl⟩ := List.mem_map.1 hitem
    exact h b hb
  alone item hitem := by
    obtain ⟨b, -, rfl⟩ := List.mem_map.1 hitem
    exact trivial
  content := by
    rw [List.flatMap_map]
    exact List.flatMap_singleton' _

theorem utf8_ne {codePoint : Nat} (hlt : codePoint < 0x110000)
    (hne : codePoint ≠ 0x22 ∧ codePoint ≠ 0x5C) :
    ∀ b ∈ utf8 codePoint, b ≠ dquote ∧ b ≠ backslash := by
  intro b hb
  by_cases hascii : codePoint < 128
  · rw [utf8_of_lt codePoint hascii] at hb
    obtain rfl := List.mem_singleton.1 hb
    have hvalue {d : Nat} (hd : d < 128) (hnot : codePoint ≠ d) :
        BitVec.ofNat 8 codePoint ≠ BitVec.ofNat 8 d := by
      intro heq
      apply hnot
      have htoNat := congrArg BitVec.toNat heq
      rwa [BitVec.toNat_ofNat, BitVec.toNat_ofNat, Nat.mod_eq_of_lt (by omega),
        Nat.mod_eq_of_lt (by omega)] at htoNat
    exact ⟨hvalue (by decide) hne.1, hvalue (by decide) hne.2⟩
  · have hhigh := utf8_isHigh (Nat.le_of_not_lt hascii) hlt b hb
    constructor
    · rintro rfl
      exact absurd hhigh (by unfold IsHigh; decide)
    · rintro rfl
      exact absurd hhigh (by unfold IsHigh; decide)

/-- A faithful piece is written as items of the same content. -/
theorem Piece.rewrites {p : Piece} (hfits : p.Fits) (hfaithful : p.Faithful) :
    Rewrites p.rewritten (p.written .escaped) p.content := by
  cases p with
  | char c =>
    rw [rewritten, written]
    by_cases hcontrol : isControl c
    · rw [if_pos hcontrol, if_pos hcontrol]
      obtain ⟨htext, hfits', halone, hcontent⟩ := controlItem_rewrites c hcontrol
      have hsingle := Rewrites.single hfits' halone
      rwa [htext, hcontent] at hsingle
    · rw [if_neg hcontrol, if_neg hcontrol]
      by_cases hc : c = dquote
      · subst hc
        exact .single (by decide) (by decide)
      · rw [if_neg hc, if_neg hc]
        exact .single ⟨hc, hfits⟩ trivial
  | escape c =>
    rcases escape_rewrites c hfits with ⟨hitems, hwritten, hcontent, hfits'⟩ |
      ⟨hitems, hwritten, hfits'⟩
    · rw [hitems, hwritten, hcontent]
      exact .single hfits' trivial
    · rw [hitems, hwritten]
      exact .single hfits' trivial
  | unicode codePoint =>
    exact rewrites_chars (utf8_ne hfits hfaithful)

theorem rewrites_pieces {ps : List Piece} (hfits : ∀ p ∈ ps, p.Fits)
    (hfaithful : ∀ p ∈ ps, p.Faithful) : Rewrites (ps.flatMap Piece.rewritten)
      (ps.flatMap (Piece.written .escaped)) (ps.flatMap Piece.content) := by
  induction ps with
  | nil => exact ⟨rfl, by simp, by simp, rfl⟩
  | cons p ps ih =>
    obtain ⟨hp, hps⟩ := List.forall_mem_cons.1 hfits
    obtain ⟨hp', hps'⟩ := List.forall_mem_cons.1 hfaithful
    exact (p.rewrites hp hp').append (ih hps hps')

/-- Items that no other one can be combined with are the pieces. -/
theorem pieces_of_alone {items : List StringItem} (h : ∀ item ∈ items, item.Alone) :
    pieces items = items.map StringItem.piece := by
  induction items using pieces.induct with
  | case1 => rfl
  | case2 c items ih => rw [pieces, ih (List.forall_mem_cons.1 h).2]; rfl
  | case3 c items ih => rw [pieces, ih (List.forall_mem_cons.1 h).2]; rfl
  | case4 h1 h2 h3 h4 l1 l2 l3 l4 items hpair ih =>
    exact absurd hpair.1 (List.forall_mem_cons.1 h).1
  | case5 h1 h2 h3 h4 l1 l2 l3 l4 items hpair ih =>
    rw [pieces, if_neg hpair, ih (List.forall_mem_cons.1 h).2]
    rfl
  | case6 h1 h2 h3 h4 items hnot ih =>
    rw [pieces, ih (List.forall_mem_cons.1 h).2]
    · rfl
    · exact hnot

/-! ### Writing twice -/

/-- The control characters with an escape sequence of two characters. -/
def shortControls : List Byte := [8, 9, 10, 12, 13]

namespace Piece

/-- What is written for the piece is written as it is when it is read again. -/
def Stable : Piece → Prop
  | char c => isControl c → c ∈ shortControls
  | escape _ => True
  | unicode codePoint => 32 ≤ codePoint ∧ codePoint ≠ 0x22 ∧ codePoint ≠ 0x5C

theorem Stable.faithful {p : Piece} (h : p.Stable) : p.Faithful := by
  cases p with
  | char => exact trivial
  | escape => exact trivial
  | unicode => exact h.2

/-- What the items that the piece is written as are written as. -/
def writtenTwice (p : Piece) : List Byte :=
  p.rewritten.flatMap fun item => item.piece.written .escaped

theorem shortControl_writtenTwice : ∀ c ∈ shortControls,
    (Piece.char c).writtenTwice = (Piece.char c).written .escaped := by
  decide

/-- A control character without a short escape sequence changes between a code point and itself. -/
theorem control_writtenTwice : ∀ c : Byte, isControl c → c ∉ shortControls →
    (Piece.char c).writtenTwice.head? = some c ∧
      ((Piece.char c).written .escaped).head? = some backslash :=
  forall_isControl (by decide)

theorem unicode_control_writtenTwice : ∀ codePoint < 32,
    (Piece.unicode codePoint).writtenTwice.head? = some backslash ∧
      ((Piece.unicode codePoint).written .escaped).head? = some (BitVec.ofNat 8 codePoint) := by
  decide

theorem escape_writtenTwice : ∀ c ∈ escapeChars,
    (Piece.escape c).writtenTwice = (Piece.escape c).written .escaped := by
  decide

theorem chars_writtenTwice {bs : List Byte} (h : ∀ b ∈ bs, isControl b = false ∧ b ≠ dquote) :
    (bs.map StringItem.char).flatMap (fun item => item.piece.written .escaped) = bs := by
  induction bs with
  | nil => rfl
  | cons b bs ih =>
    obtain ⟨⟨hcontrol, hb⟩, hbs⟩ := List.forall_mem_cons.1 h
    rw [List.map_cons, List.flatMap_cons, ih hbs]
    show (Piece.char b).written .escaped ++ bs = b :: bs
    rw [written, hcontrol, if_neg Bool.false_ne_true, if_neg hb]
    rfl

theorem isControl_of_isHigh : ∀ b : Byte, IsHigh b → isControl b = false := by
  intro b h
  unfold IsHigh at h
  apply decide_eq_false
  intro hlt
  rw [BitVec.getLsbD, Nat.testBit_lt_two_pow ((show b.toNat < 32 from hlt).trans (by decide))] at h
  exact Bool.noConfusion h

theorem isControl_ofNat : ∀ codePoint < 128, 32 ≤ codePoint →
    isControl (BitVec.ofNat 8 codePoint) = false := by
  decide

theorem Stable.writtenTwice {p : Piece} (h : p.Stable) (hfits : p.Fits) :
    p.writtenTwice = p.written .escaped := by
  cases p with
  | char c =>
    by_cases hcontrol : isControl c
    · exact shortControl_writtenTwice c (h hcontrol)
    · have hcontrol : isControl c = false := by simpa using hcontrol
      by_cases hc : c = dquote
      · subst hc
        decide
      · unfold Piece.writtenTwice
        rw [rewritten, written, hcontrol, if_neg Bool.false_ne_true, if_neg Bool.false_ne_true,
          if_neg hc, if_neg hc]
        have hchars : ∀ b ∈ [c], isControl b = false ∧ b ≠ dquote := by
          intro b hb
          obtain rfl := List.mem_singleton.1 hb
          exact ⟨hcontrol, hc⟩
        exact chars_writtenTwice hchars
  | escape c => exact escape_writtenTwice c hfits
  | unicode codePoint =>
    apply chars_writtenTwice
    intro b hb
    refine ⟨?_, (utf8_ne hfits h.2 b hb).1⟩
    by_cases hascii : codePoint < 128
    · rw [utf8_of_lt codePoint hascii] at hb
      obtain rfl := List.mem_singleton.1 hb
      exact isControl_ofNat codePoint hascii h.1
    · exact isControl_of_isHigh b (utf8_isHigh (Nat.le_of_not_lt hascii) hfits b hb)

/-- Where the second writing differs, it differs from the first byte on. -/
theorem head_writtenTwice_ne {p : Piece} (hfaithful : p.Faithful) (h : ¬p.Stable) :
    ∃ a ∈ p.writtenTwice.head?, ∃ b ∈ (p.written .escaped).head?, a ≠ b := by
  cases p with
  | char c =>
    have hnot : isControl c ∧ c ∉ shortControls := by
      by_contra hnot
      exact h fun hcontrol => by_contra fun hmem => hnot ⟨hcontrol, hmem⟩
    obtain ⟨htwice, hwritten⟩ := control_writtenTwice c hnot.1 hnot.2
    refine ⟨c, htwice, backslash, hwritten, ?_⟩
    rintro rfl
    exact absurd hnot.1 (by decide)
  | escape => exact absurd trivial h
  | unicode codePoint =>
    have hlt : codePoint < 32 := by
      by_contra hlt
      exact h ⟨Nat.le_of_not_lt hlt, hfaithful⟩
    obtain ⟨htwice, hwritten⟩ := unicode_control_writtenTwice codePoint hlt
    refine ⟨backslash, htwice, _, hwritten, ?_⟩
    exact (by decide : ∀ n < 32, backslash ≠ BitVec.ofNat 8 n) codePoint hlt

end Piece

/-- Two ways to write pieces that differ, where they do, from the first byte on write the same only
if they do not differ. -/
theorem forall_of_flatMap_eq {α : Type} {f g : α → List Byte} {Q : α → Prop} {as : List α}
    (heq : ∀ a ∈ as, Q a → f a = g a)
    (hne : ∀ a ∈ as, ¬Q a → ∃ x ∈ (f a).head?, ∃ y ∈ (g a).head?, x ≠ y)
    (h : as.flatMap f = as.flatMap g) : ∀ a ∈ as, Q a := by
  induction as with
  | nil => exact fun a ha => absurd ha List.not_mem_nil
  | cons a as ih =>
    obtain ⟨heq, heqs⟩ := List.forall_mem_cons.1 heq
    obtain ⟨hne, hnes⟩ := List.forall_mem_cons.1 hne
    rw [List.flatMap_cons, List.flatMap_cons] at h
    have ha : Q a := by
      by_contra ha
      obtain ⟨x, hx, y, hy, hxy⟩ := hne ha
      rcases hf : f a with _ | ⟨x', fs⟩
      · rw [hf] at hx
        exact absurd hx (by simp)
      rcases hg : g a with _ | ⟨y', gs⟩
      · rw [hg] at hy
        exact absurd hy (by simp)
      rw [hf] at hx h
      rw [hg] at hy h
      obtain rfl := Option.some.inj hx
      obtain rfl := Option.some.inj hy
      exact hxy (List.cons.inj h).1
    rw [heq ha] at h
    exact List.forall_mem_cons.2 ⟨ha, ih heqs hnes (List.append_cancel_left h)⟩

end SparkRapids.GetJson
