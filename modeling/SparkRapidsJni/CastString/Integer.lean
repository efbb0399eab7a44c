import SparkRapidsJni.CastString.Values

/-!
# `cast_string.cu`: strings to integers

A row of `string_to_integer_kernel` is scanned once: digits are appended to the value up to a point, and
behind the number there may be white space if the row is stripped. The row is valid iff the text without
white space is an integer literal whose integer part fits into the type, and it has that value
(`stringToInteger_exact`). The value is what the loop has at the first character that is no digit
(`loop_digits`); from there on the characters are only checked (`loop_truncating`, `loop_trailing`).
-/

namespace SparkRapids.CastString

open Ascii Numerals

/-! ### The kernel -/

/-- The variables of the loop over the characters. -/
structure IntegerScan where
  truncating : Bool
  trailingWhitespace : Bool
  threadVal : Int
  deriving DecidableEq, Repr

section Code

variable (T : IntType) (narrow : Int → Option Int) (ansiMode strip : Bool)

/-- The flags behind a character; `none` if it is invalid. `first` is `c == i`. -/
def IntegerScan.next (s : IntegerScan) (first : Bool) (chr : Byte) : Option IntegerScan :=
  if s.trailingWhitespace && !isWhitespace chr then none
  else if !s.truncating && chr = Ascii.chr '.' && !ansiMode then some { s with truncating := true }
  else if isDigit chr then some s
  else if isWhitespace chr && !first && strip then some { s with trailingWhitespace := true }
  else none

/-- The loop of `string_to_integer_kernel`: whether the row is valid, and its value. `adding` is
`sign > 0`. -/
def integerLoop (adding : Bool) : Bool → List Byte → IntegerScan → Option (Bool × Int)
  | _, [], s => some (true, s.threadVal)
  | first, chr :: chars, s =>
    match s.next ansiMode strip first chr with
    | none => some (false, s.threadVal)
    | some s =>
      if !s.truncating && !s.trailingWhitespace then
        match processValue T narrow first s.threadVal (digit chr) adding with
        | none => none
        | some (true, newVal) => integerLoop adding false chars { s with threadVal := newVal }
        | some (false, _) => some (false, s.threadVal)
      else integerLoop adding false chars s

/-- `string_to_integer_kernel`, for a row: whether it is valid, and what is stored for it. There is no
result where `narrow` has none. -/
def stringToInteger (validEntry : Bool) (row : List Byte) : Option (Bool × Option Int) :=
  if !validEntry || row.isEmpty then some (false, none)
  else
    let chars := if strip then row.dropWhile isWhitespace else row
    let hasSign : Bool := T.signed && (chars.head? = some (chr '+') || chars.head? = some (chr '-'))
    let adding : Bool := !(hasSign && chars.head? = some (chr '-'))
    let chars := if hasSign then chars.tail else chars
    (integerLoop T narrow ansiMode strip adding true chars ⟨false, false, 0⟩).map fun (valid, threadVal) =>
      (valid && !chars.isEmpty, some threadVal)

end Code

/-! ### Literals -/

/-- A text without the white space at its start, if it is stripped. -/
def trimStart (strip : Bool) (text : List Byte) : List Byte :=
  if strip then text.dropWhile isWhitespace else text

/-- A text without the white space at its end, if it is stripped. -/
def trimEnd (strip : Bool) (text : List Byte) : List Byte :=
  if strip then text.rdropWhile isWhitespace else text

/-- A text without the white space at both ends, if it is stripped. -/
def stripped (strip : Bool) (text : List Byte) : List Byte := trimEnd strip (trimStart strip text)

/-- Digits and maybe a point with digits, and the number before the point. -/
inductive Unsigned (ansi : Bool) : List Byte → ℕ → Prop
  | digits {ds : List Byte} (hds : ∀ c ∈ ds, isDigit c = true) (hne : ds ≠ []) :
    Unsigned ansi ds (readDigits 10 (ds.map digit))
  | fraction {ds frac : List Byte} (hds : ∀ c ∈ ds, isDigit c = true)
    (hfrac : ∀ c ∈ frac, isDigit c = true) (hansi : ansi = false) :
    Unsigned ansi (ds ++ chr '.' :: frac) (readDigits 10 (ds.map digit))

/-- An integer literal, with a sign in signed types, and its value without the fraction. -/
inductive Literal (signed ansi : Bool) : List Byte → Int → Prop
  | unsigned {text : List Byte} {n : ℕ} (h : Unsigned ansi text n) : Literal signed ansi text n
  | plus {text : List Byte} {n : ℕ} (hsigned : signed = true) (h : Unsigned ansi text n) :
    Literal signed ansi (chr '+' :: text) n
  | minus {text : List Byte} {n : ℕ} (hsigned : signed = true) (h : Unsigned ansi text n) :
    Literal signed ansi (chr '-' :: text) (-n)

/-! ### Characters -/

section

variable {c : Byte}

theorem isWhitespace_iff : isWhitespace c = true ↔ c.toNat ≤ 32 := by
  unfold isWhitespace
  rw [Bool.or_eq_true, decide_eq_true_iff, decide_eq_true_iff, ← BitVec.toNat_inj, BitVec.le_def]
  have hspace : (Ascii.chr ' ').toNat = 32 := rfl
  have hlast : (0x1F : Byte).toNat = 31 := rfl
  rw [hspace, hlast]
  omega

theorem not_isWhitespace_of_isDigit (h : isDigit c = true) : isWhitespace c = false := by
  rw [isDigit_iff] at h
  rw [← Bool.not_eq_true, isWhitespace_iff]
  omega

theorem ne_point_of_isDigit (h : isDigit c = true) : c ≠ chr '.' := by
  rintro rfl
  exact absurd h (by decide)

theorem not_isWhitespace_point : isWhitespace (chr '.') = false := by decide

theorem not_isDigit_point : isDigit (chr '.') = false := by decide

end

/-! ### The flags -/

section

variable {ansi strip first : Bool} {s : IntegerScan} {c : Byte}

/-- A digit changes no flag, unless white space is behind the number. -/
theorem next_of_isDigit (h : isDigit c = true) (hs : s.trailingWhitespace = false) :
    s.next ansi strip first c = some s := by
  have hpoint := ne_point_of_isDigit h
  unfold IntegerScan.next
  simp [hs, hpoint, h]

/-- Behind white space there is only white space. -/
theorem next_of_trailing (hs : s.trailingWhitespace = true) (hstrip : strip = true) :
    s.next ansi strip false c = if isWhitespace c then some s else none := by
  obtain ⟨truncating, trailing, val⟩ := s
  obtain rfl : trailing = true := hs
  unfold IntegerScan.next
  by_cases hc : isWhitespace c = true
  · have hdigit : isDigit c = false := by
      rw [← Bool.not_eq_true]
      intro hdigit
      rw [not_isWhitespace_of_isDigit hdigit] at hc
      exact absurd hc (by simp)
    have hpoint : c ≠ chr '.' := by
      rintro rfl
      exact absurd hc (by decide)
    simp [hc, hdigit, hpoint, hstrip]
  · simp [hc]

/-- White space behind the number is skipped, if the row is stripped. -/
theorem next_of_isWhitespace (h : isWhitespace c = true) (hs : s.trailingWhitespace = false) :
    s.next ansi strip first c =
      if !first && strip then some { s with trailingWhitespace := true } else none := by
  have hdigit : isDigit c = false := by
    rw [← Bool.not_eq_true]
    intro hdigit
    rw [not_isWhitespace_of_isDigit hdigit] at h
    exact absurd h (by simp)
  have hpoint : c ≠ chr '.' := by
    rintro rfl
    exact absurd h (by decide)
  unfold IntegerScan.next
  simp [hs, h, hdigit, hpoint]

/-- The point, before white space. -/
theorem next_point (hs : s.trailingWhitespace = false) :
    s.next ansi strip first (chr '.') =
      if !s.truncating && !ansi then some { s with truncating := true } else none := by
  unfold IntegerScan.next
  simp [hs, not_isWhitespace_point, not_isDigit_point]

/-- Every other character is invalid. -/
theorem next_of_other (hdigit : isDigit c = false) (hspace : isWhitespace c = false)
    (hpoint : c ≠ chr '.') : s.next ansi strip first c = none := by
  unfold IntegerScan.next
  simp [hdigit, hspace, hpoint]

end

/-! ### The loop -/

section

variable {T : IntType} {ansi strip adding : Bool} {first : Bool} {narrow : Int → Option Int}

/-- Behind white space there may only be more of it. -/
theorem loop_trailing (hstrip : strip = true) (rest : List Byte) (truncating : Bool) (v : Int) :
    integerLoop T narrow ansi strip adding false rest ⟨truncating, true, v⟩ =
      some (rest.all isWhitespace, v) := by
  induction rest with
  | nil => rfl
  | cons c rest ih =>
    unfold integerLoop
    rw [next_of_trailing rfl hstrip, List.all_cons]
    cases hc : isWhitespace c with
    | false => rfl
    | true => simpa using ih

/-- Behind a point there may be digits, and white space behind them. -/
theorem loop_truncating (rest : List Byte) (v : Int) :
    integerLoop T narrow ansi strip adding false rest ⟨true, false, v⟩ =
      some ((rest.dropWhile isDigit).all fun c => strip && isWhitespace c, v) := by
  induction rest with
  | nil => rfl
  | cons c rest ih =>
    unfold integerLoop
    by_cases hdigit : isDigit c = true
    · rw [next_of_isDigit hdigit rfl, List.dropWhile_cons_of_pos hdigit]
      simpa using ih
    · rw [List.dropWhile_cons_of_neg hdigit, List.all_cons]
      by_cases hspace : isWhitespace c = true
      · rw [next_of_isWhitespace hspace rfl]
        cases hstrip : strip with
        | false => simp
        | true =>
          have htrailing := @loop_trailing T ansi true adding narrow rfl rest true v
          simpa [hspace] using htrailing
      · -- a second point, or another character
        have hnone : IntegerScan.next ansi strip ⟨true, false, v⟩ false c = none := by
          by_cases hpoint : c = chr '.'
          · rw [hpoint, next_point rfl]
            rfl
          · exact next_of_other (by simpa using hdigit) (by simpa using hspace) hpoint
        rw [hnone]
        simp [hspace]

/-- The value of a number, upwards or downwards. -/
def signedNat (adding : Bool) (n : ℕ) : Int := if adding then n else -(n : Int)

theorem appended_signedNat (adding : Bool) (n d : ℕ) :
    appended adding (signedNat adding n) d = signedNat adding (n * 10 + d) := by
  unfold appended signedNat
  cases adding with
  | true =>
    rw [if_pos rfl, if_pos rfl, if_pos rfl]
    push_cast
    ring
  | false =>
    rw [if_neg (by simp), if_neg (by simp), if_neg (by simp)]
    push_cast
    ring

theorem side_signedNat (hsigned : adding = false → T.signed = true) (n : ℕ) :
    Side T adding (signedNat adding n) := by
  unfold Side signedNat
  cases adding with
  | true => exact Int.natCast_nonneg n
  | false =>
    rw [if_neg (by simp), if_neg (by simp)]
    exact ⟨hsigned rfl, by omega⟩

/-- Fewer digits fit, too. -/
theorem fits_signedNat_of_le {n m : ℕ} (h : n ≤ m) (hm : T.Fits (signedNat adding m)) :
    T.Fits (signedNat adding n) := by
  have hzero := T.fits_zero
  unfold signedNat IntType.Fits at *
  cases adding with
  | true =>
    rw [if_pos rfl] at hm ⊢
    omega
  | false =>
    rw [if_neg (by simp)] at hm ⊢
    omega

/-- The digits are appended if the number of all of them fits; else the row is invalid. -/
theorem loop_digits (hsigned : adding = false → T.signed = true) {ds : List Byte}
    (hds : ∀ c ∈ ds, isDigit c = true) (rest : List Byte) (n : ℕ) (hfirst : first = true → n = 0)
    (hn : T.Fits (signedNat adding n)) :
    (T.Fits (signedNat adding ((ds.map digit).foldl (fun n d => n * 10 + d) n)) →
      ∀ narrow, T.Keeps narrow →
        integerLoop T narrow ansi strip adding first (ds ++ rest) ⟨false, false, signedNat adding n⟩ =
          integerLoop T narrow ansi strip adding (first && ds.isEmpty) rest
            ⟨false, false, signedNat adding ((ds.map digit).foldl (fun n d => n * 10 + d) n)⟩) ∧
      (¬T.Fits (signedNat adding ((ds.map digit).foldl (fun n d => n * 10 + d) n)) →
        ∃ w, ∀ narrow, T.Keeps narrow →
          integerLoop T narrow ansi strip adding first (ds ++ rest)
            ⟨false, false, signedNat adding n⟩ = some (false, w)) := by
  induction ds generalizing n first with
  | nil =>
    refine ⟨fun _ narrow _ => ?_, fun h => absurd hn h⟩
    rw [List.nil_append, List.isEmpty_nil, Bool.and_true]
    rfl
  | cons c ds ih =>
    have hc := hds c (List.mem_cons_self ..)
    have hdigit := digit_lt hc
    have hzero : first = true → signedNat adding n = 0 := by
      intro h
      rw [hfirst h]
      unfold signedNat
      split_ifs <;> rfl
    obtain ⟨w, hprocess, hw⟩ := @processValue_spec T adding first _ (digit c) hzero (side_signedNat hsigned n) hn
      ⟨by omega, by omega⟩
    rw [appended_signedNat] at hprocess hw
    rw [List.map_cons, List.foldl_cons]
    by_cases hfits : T.Fits (signedNat adding (n * 10 + digit c))
    · have hstep : ∀ narrow, T.Keeps narrow →
          integerLoop T narrow ansi strip adding first (c :: ds ++ rest)
            ⟨false, false, signedNat adding n⟩ =
          integerLoop T narrow ansi strip adding false (ds ++ rest)
            ⟨false, false, signedNat adding (n * 10 + digit c)⟩ := by
        intro narrow hnarrow
        rw [List.cons_append]
        conv_lhs => unfold integerLoop
        rw [next_of_isDigit hc rfl]
        simp [hprocess narrow hnarrow, hfits, hw hfits]
      obtain ⟨hyes, hno⟩ := @ih false (fun c hc => hds c (List.mem_cons_of_mem _ hc))
        (n * 10 + digit c) (by simp) hfits
      refine ⟨fun h narrow hnarrow => ?_, fun h => ?_⟩
      · rw [hstep narrow hnarrow, hyes h narrow hnarrow]
        simp
      · obtain ⟨w, hw⟩ := hno h
        exact ⟨w, fun narrow hnarrow => (hstep narrow hnarrow).trans (hw narrow hnarrow)⟩
    · -- more digits do not make it smaller
      have hmono : n * 10 + digit c ≤ (ds.map digit).foldl (fun n d => n * 10 + d) (n * 10 + digit c) := by
        rw [foldl_eq]
        calc n * 10 + digit c ≤ (n * 10 + digit c) * 10 ^ (ds.map digit).length :=
              Nat.le_mul_of_pos_right _ (by positivity)
          _ ≤ _ := Nat.le_add_right _ _
      refine ⟨fun h => absurd (fits_signedNat_of_le hmono h) hfits, fun _ => ⟨signedNat adding n, ?_⟩⟩
      intro narrow hnarrow
      rw [List.cons_append]
      unfold integerLoop
      rw [next_of_isDigit hc rfl]
      simp [hprocess narrow hnarrow, hfits]

end

/-! ### Texts and their ends -/

section

variable {ansi strip : Bool} {text core spaces : List Byte} {n : ℕ}

theorem exists_trimEnd (strip : Bool) (text : List Byte) :
    ∃ spaces, text = trimEnd strip text ++ spaces ∧
      ∀ c ∈ spaces, strip = true ∧ isWhitespace c = true := by
  cases strip with
  | false => exact ⟨[], (List.append_nil text).symm, by simp⟩
  | true =>
    refine ⟨text.rtakeWhile isWhitespace, List.rdropWhile_append_rtakeWhile.symm, fun c hc => ⟨rfl, ?_⟩⟩
    exact List.mem_rtakeWhile_imp hc

/-- White space is cut off behind a text that does not end with it. -/
theorem trimEnd_append (hspaces : ∀ c ∈ spaces, strip = true ∧ isWhitespace c = true)
    (hcore : strip = true → ∀ h : core ≠ [], isWhitespace (core.getLast h) = false) :
    trimEnd strip (core ++ spaces) = core := by
  cases strip with
  | false =>
    obtain rfl : spaces = [] := by
      cases spaces with
      | nil => rfl
      | cons c spaces => exact absurd (hspaces c (List.mem_cons_self ..)).1 (by simp)
    exact List.append_nil core
  | true =>
    show (core ++ spaces).rdropWhile isWhitespace = core
    induction spaces using List.reverseRecOn with
    | nil =>
      rw [List.append_nil, List.rdropWhile_eq_self_iff]
      intro h
      simp [hcore rfl h]
    | append_singleton spaces c ih =>
      rw [← List.append_assoc, List.rdropWhile_concat_pos _ _ _ (hspaces c (by simp)).2]
      exact ih fun c hc => hspaces c (List.mem_append_left _ hc)

/-- What is no white space at the front stays. -/
theorem trimEnd_cons {c : Byte} (hc : isWhitespace c = false) (text : List Byte) :
    trimEnd strip (c :: text) = c :: trimEnd strip text := by
  obtain ⟨spaces, hsplit, hspaces⟩ := exists_trimEnd strip text
  have hlast : strip = true → ∀ h : c :: trimEnd strip text ≠ [],
      isWhitespace ((c :: trimEnd strip text).getLast h) = false := by
    rintro rfl h
    by_cases hnil : trimEnd true text = []
    · simp [hnil, hc]
    · rw [List.getLast_cons hnil]
      exact Bool.eq_false_of_not_eq_true (List.rdropWhile_last_not isWhitespace text hnil)
  calc trimEnd strip (c :: text) = trimEnd strip ((c :: trimEnd strip text) ++ spaces) := by
        rw [List.cons_append, ← hsplit]
    _ = c :: trimEnd strip text := trimEnd_append hspaces hlast

/-- What may be behind the first digits of a text: nothing, a point with digits, and white space. -/
def tailOk (ansi strip : Bool) (ds rest : List Byte) : Bool :=
  match rest with
  | [] => !ds.isEmpty
  | c :: rest =>
    if c = chr '.' then !ansi && (rest.dropWhile isDigit).all fun c => strip && isWhitespace c
    else !ds.isEmpty && strip && (c :: rest).all isWhitespace

theorem takeWhile_digits {ds rest : List Byte} (hds : ∀ c ∈ ds, isDigit c = true)
    (hrest : ∀ c ∈ rest.head?, isDigit c = false) :
    (ds ++ rest).takeWhile isDigit = ds ∧ (ds ++ rest).dropWhile isDigit = rest := by
  have hhead : rest.takeWhile isDigit = [] ∧ rest.dropWhile isDigit = rest := by
    cases rest with
    | nil => exact ⟨rfl, rfl⟩
    | cons c rest =>
      have hc := hrest c rfl
      exact ⟨List.takeWhile_cons_of_neg (by simp [hc]), List.dropWhile_cons_of_neg (by simp [hc])⟩
  rw [List.takeWhile_append_of_pos hds, List.dropWhile_append_of_pos hds, hhead.1, hhead.2,
    List.append_nil]
  exact ⟨rfl, rfl⟩

theorem head_spaces (hspaces : ∀ c ∈ spaces, strip = true ∧ isWhitespace c = true) :
    ∀ c ∈ spaces.head?, isDigit c = false := by
  intro c hc
  have hspace := (hspaces c (List.mem_of_mem_head? hc)).2
  rw [← Bool.not_eq_true]
  intro hdigit
  rw [not_isWhitespace_of_isDigit hdigit] at hspace
  exact absurd hspace (by simp)

/-- A literal and white space behind it, by the first digits and what is behind them. -/
theorem Unsigned.tailOk (h : Unsigned ansi core n)
    (hspaces : ∀ c ∈ spaces, strip = true ∧ isWhitespace c = true) :
    tailOk ansi strip ((core ++ spaces).takeWhile isDigit) ((core ++ spaces).dropWhile isDigit) ∧
      n = readDigits 10 (((core ++ spaces).takeWhile isDigit).map digit) := by
  cases h with
  | digits hds hne =>
    obtain ⟨htake, hdrop⟩ := takeWhile_digits hds (head_spaces hspaces)
    rw [htake, hdrop]
    refine ⟨?_, rfl⟩
    have hne' : core.isEmpty = false := by simpa using hne
    unfold CastString.tailOk
    cases spaces with
    | nil => simp [hne']
    | cons c spaces =>
      obtain ⟨hstrip, hspace⟩ := hspaces c (List.mem_cons_self ..)
      have hpoint : c ≠ chr '.' := by
        rintro rfl
        exact absurd hspace (by decide)
      dsimp only
      rw [if_neg hpoint, hne', hstrip]
      simp only [Bool.not_false, Bool.true_and, List.all_eq_true]
      exact fun c hc => (hspaces c hc).2
  | @fraction ds frac hds hfrac hansi =>
    obtain ⟨htake, hdrop⟩ := @takeWhile_digits ds (chr '.' :: (frac ++ spaces)) hds
      (fun c hc => Option.some.inj hc ▸ not_isDigit_point)
    rw [List.append_assoc, List.cons_append, htake, hdrop]
    refine ⟨?_, rfl⟩
    unfold CastString.tailOk
    dsimp only
    rw [if_pos rfl, hansi, (takeWhile_digits hfrac (head_spaces hspaces)).2]
    simp only [Bool.not_false, Bool.true_and, List.all_eq_true, Bool.and_eq_true]
    exact hspaces

/-- What the first digits and the characters behind them make a literal. -/
theorem unsigned_of_tailOk (h : tailOk ansi strip (text.takeWhile isDigit) (text.dropWhile isDigit)) :
    Unsigned ansi (trimEnd strip text) (readDigits 10 ((text.takeWhile isDigit).map digit)) := by
  have hsplit := List.takeWhile_append_dropWhile (p := isDigit) (l := text)
  have hds : ∀ c ∈ text.takeWhile isDigit, isDigit c = true := fun c hc => List.mem_takeWhile_imp hc
  generalize text.takeWhile isDigit = ds at h hsplit hds ⊢
  generalize text.dropWhile isDigit = rest at h hsplit
  have hlast : ∀ h : ds ≠ [], isWhitespace (ds.getLast h) = false :=
    fun h => not_isWhitespace_of_isDigit (hds _ (List.getLast_mem h))
  unfold tailOk at h
  cases rest with
  | nil =>
    have hne : ds ≠ [] := by simpa using h
    have htrim : trimEnd strip text = ds := by
      rw [← hsplit]
      exact trimEnd_append (by simp) fun _ => hlast
    rw [htrim]
    exact .digits hds hne
  | cons c rest =>
    dsimp only at h
    split_ifs at h with hpoint
    · -- a point, digits and white space
      rw [Bool.and_eq_true, List.all_eq_true] at h
      obtain ⟨hansi, hspaces⟩ := h
      have hrest := List.takeWhile_append_dropWhile (p := isDigit) (l := rest)
      have hfrac : ∀ c ∈ rest.takeWhile isDigit, isDigit c = true := fun c hc => List.mem_takeWhile_imp hc
      have htrim : trimEnd strip text = ds ++ chr '.' :: rest.takeWhile isDigit := by
        rw [← hsplit, hpoint]
        conv_lhs => rw [← hrest, ← List.cons_append, ← List.append_assoc]
        refine trimEnd_append (fun c hc => by simpa using hspaces c hc) fun _ hne => ?_
        rw [List.getLast_append_of_ne_nil _ (by simp)]
        by_cases hnil : rest.takeWhile isDigit = []
        · simp [hnil, not_isWhitespace_point]
        · rw [List.getLast_cons hnil]
          exact not_isWhitespace_of_isDigit (hfrac _ (List.getLast_mem hnil))
      rw [htrim]
      exact .fraction hds hfrac (by simpa using hansi)
    · rw [Bool.and_eq_true, Bool.and_eq_true, List.all_eq_true] at h
      obtain ⟨⟨hne, hstrip⟩, hspaces⟩ := h
      have htrim : trimEnd strip text = ds := by
        rw [← hsplit]
        exact trimEnd_append (fun c hc => ⟨hstrip, hspaces c hc⟩) fun _ => hlast
      rw [htrim]
      exact .digits hds (by simpa using hne)

/-- A text is a literal, and white space, iff the characters behind its first digits are right. -/
theorem unsigned_trimEnd_iff : Unsigned ansi (trimEnd strip text) n ↔
    tailOk ansi strip (text.takeWhile isDigit) (text.dropWhile isDigit) ∧
      n = readDigits 10 ((text.takeWhile isDigit).map digit) := by
  constructor
  · intro h
    obtain ⟨spaces, hsplit, hspaces⟩ := exists_trimEnd strip text
    have htail := h.tailOk hspaces
    rwa [← hsplit] at htail
  · rintro ⟨htail, rfl⟩
    exact unsigned_of_tailOk htail

end

/-! ### The scan of a row -/

section

variable {T : IntType} {ansi strip adding : Bool}

/-- The characters behind the digits. -/
theorem loop_tail {narrow : Int → Option Int} {ds rest : List Byte}
    (hrest : ∀ c ∈ rest.head?, isDigit c = false) (hne : ds ++ rest ≠ []) (v : Int) :
    integerLoop T narrow ansi strip adding ds.isEmpty rest ⟨false, false, v⟩ =
      some (tailOk ansi strip ds rest, v) := by
  cases rest with
  | nil =>
    have hds : ds.isEmpty = false := by simpa using hne
    unfold tailOk integerLoop
    simp [hds]
  | cons c rest =>
    have hdigit := hrest c rfl
    unfold integerLoop tailOk
    dsimp only
    by_cases hpoint : c = chr '.'
    · rw [hpoint, next_point rfl, if_pos rfl]
      cases ansi with
      | true => simp
      | false =>
        have htruncating := @loop_truncating T false strip adding narrow rest v
        simpa using htruncating
    · rw [if_neg hpoint]
      by_cases hspace : isWhitespace c = true
      · rw [next_of_isWhitespace hspace rfl, List.all_cons, hspace, Bool.true_and]
        cases hskip : !ds.isEmpty && strip with
        | false => simp
        | true =>
          obtain ⟨-, hstrip⟩ := Bool.and_eq_true_iff.1 hskip
          have htrailing := @loop_trailing T ansi strip adding narrow hstrip rest false v
          simpa using htrailing
      · rw [next_of_other hdigit (by simpa using hspace) hpoint, List.all_cons]
        simp [hspace]

/-- The scan of the characters behind the sign. -/
theorem loop_exact (hsigned : adding = false → T.signed = true) (text : List Byte) :
    ∃ valid w, (∀ narrow, T.Keeps narrow →
        integerLoop T narrow ansi strip adding true text ⟨false, false, 0⟩ = some (valid, w)) ∧
      ((valid && !text.isEmpty) = true ↔
        ∃ n, Unsigned ansi (trimEnd strip text) n ∧ T.Fits (signedNat adding n)) ∧
      ∀ n, Unsigned ansi (trimEnd strip text) n → T.Fits (signedNat adding n) →
        w = signedNat adding n := by
  have hsplit := List.takeWhile_append_dropWhile (p := isDigit) (l := text)
  have hds : ∀ c ∈ text.takeWhile isDigit, isDigit c = true := fun c hc => List.mem_takeWhile_imp hc
  have hrest : ∀ c ∈ (text.dropWhile isDigit).head?, isDigit c = false := by
    intro c hc
    have hnot := List.head?_dropWhile_not isDigit text
    rw [hc] at hnot
    simpa using hnot
  have hzero : signedNat adding 0 = 0 := by
    unfold signedNat
    split_ifs <;> rfl
  by_cases hnil : text = []
  · subst hnil
    refine ⟨true, 0, fun narrow _ => rfl, ?_, ?_⟩
    · simp only [unsigned_trimEnd_iff]
      simp [tailOk]
    · intro n hn
      rw [unsigned_trimEnd_iff] at hn
      exact absurd hn.1 (by simp [tailOk])
  obtain ⟨hyes, hno⟩ := @loop_digits T ansi strip adding true hsigned _ hds (text.dropWhile isDigit) 0
    (fun _ => rfl) (hzero ▸ T.fits_zero)
  have hnumber : ((text.takeWhile isDigit).map digit).foldl (fun n d => n * 10 + d) 0 =
      readDigits 10 ((text.takeWhile isDigit).map digit) := rfl
  rw [hnumber] at hyes hno
  rw [hsplit, hzero] at hyes hno
  have hempty : text.isEmpty = false := by simpa using hnil
  simp only [unsigned_trimEnd_iff, hempty, Bool.not_false, Bool.and_true]
  -- if the digits fit, the tail decides; if not, the row is invalid
  by_cases hfits : T.Fits (signedNat adding (readDigits 10 ((text.takeWhile isDigit).map digit)))
  · refine ⟨tailOk ansi strip (text.takeWhile isDigit) (text.dropWhile isDigit),
      signedNat adding (readDigits 10 ((text.takeWhile isDigit).map digit)), fun narrow hn => ?_, ?_, ?_⟩
    · rw [hyes hfits narrow hn, Bool.true_and]
      exact loop_tail hrest (by rwa [hsplit]) _
    · constructor
      · intro h
        exact ⟨_, ⟨h, rfl⟩, hfits⟩
      · rintro ⟨n, ⟨h, -⟩, -⟩
        exact h
    · rintro n ⟨-, rfl⟩ -
      rfl
  · obtain ⟨w, hw⟩ := hno hfits
    refine ⟨false, w, hw, iff_of_false (by simp) ?_, ?_⟩
    · rintro ⟨n, ⟨-, rfl⟩, h⟩
      exact hfits h
    · rintro n ⟨-, rfl⟩ h
      exact absurd h hfits

end

/-! ### Rows -/

section

variable {signed ansi strip : Bool} {text : List Byte} {v : Int}

theorem Unsigned.head {n : ℕ} (h : Unsigned ansi text n) :
    ∃ c ∈ text.head?, isDigit c = true ∨ c = chr '.' := by
  cases h with
  | digits hds hne =>
    obtain ⟨c, rest, rfl⟩ := List.exists_cons_of_ne_nil hne
    exact ⟨c, rfl, .inl (hds c (List.mem_cons_self ..))⟩
  | @fraction ds frac hds =>
    cases ds with
    | nil => exact ⟨chr '.', rfl, .inr rfl⟩
    | cons c ds => exact ⟨c, rfl, .inl (hds c (List.mem_cons_self ..))⟩

theorem Unsigned.not_sign {n : ℕ} {c : Byte} (hc : c = chr '+' ∨ c = chr '-') :
    ¬Unsigned ansi (c :: text) n := by
  intro h
  obtain ⟨c', hc', hdigit⟩ := h.head
  obtain rfl : c = c' := Option.some.inj hc'
  obtain rfl | rfl := hc
  · exact absurd hdigit (by decide)
  · exact absurd hdigit (by decide)

/-- A literal begins with a sign, or is a number. -/
theorem literal_of_sign (hsigned : signed = true) {c : Byte} (hc : c = chr '+' ∨ c = chr '-') :
    Literal signed ansi (trimEnd strip (c :: text)) v ↔
      ∃ n, Unsigned ansi (trimEnd strip text) n ∧ v = signedNat (!decide (c = chr '-')) n := by
  have hspace : isWhitespace c = false := by
    obtain rfl | rfl := hc <;> decide
  rw [trimEnd_cons hspace]
  constructor
  · intro h
    generalize htext : c :: trimEnd strip text = literal at h
    cases h with
    | unsigned h =>
      rw [← htext] at h
      exact absurd h (Unsigned.not_sign hc)
    | @plus core n _ h =>
      obtain ⟨rfl, rfl⟩ := List.cons.inj htext
      exact ⟨n, h, rfl⟩
    | @minus core n _ h =>
      obtain ⟨rfl, rfl⟩ := List.cons.inj htext
      exact ⟨n, h, rfl⟩
  · rintro ⟨n, h, rfl⟩
    obtain rfl | rfl := hc
    · exact .plus hsigned h
    · exact .minus hsigned h

theorem literal_of_not_sign
    (hsign : signed = true → text.head? ≠ some (chr '+') ∧ text.head? ≠ some (chr '-')) :
    Literal signed ansi (trimEnd strip text) v ↔
      ∃ n, Unsigned ansi (trimEnd strip text) n ∧ v = signedNat true n := by
  obtain ⟨spaces, hsplit, -⟩ := exists_trimEnd strip text
  constructor
  · intro h
    generalize htext : trimEnd strip text = literal at h hsplit
    cases h with
    | @unsigned _ n h => exact ⟨n, h, rfl⟩
    | plus hsigned _ =>
      rw [hsplit] at hsign
      exact absurd rfl (hsign hsigned).1
    | minus hsigned _ =>
      rw [hsplit] at hsign
      exact absurd rfl (hsign hsigned).2
  · rintro ⟨n, h, rfl⟩
    exact .unsigned h

end

/-- A row is valid iff it is a literal whose value fits, and it has that value. -/
theorem stringToInteger_spec (T : IntType) (ansi strip : Bool) (row : List Byte) :
    ∃ valid out, (∀ narrow, T.Keeps narrow →
        stringToInteger T narrow ansi strip true row = some (valid, out)) ∧
      (valid = true ↔ ∃ v, Literal T.signed ansi (stripped strip row) v ∧ T.Fits v) ∧
      ∀ v, Literal T.signed ansi (stripped strip row) v → T.Fits v → out = some v := by
  -- the sign, and the scan of the characters behind it
  have hscan : ∀ (adding : Bool) (chars : List Byte), (adding = false → T.signed = true) →
      (∀ v, Literal T.signed ansi (stripped strip row) v ↔
        ∃ n, Unsigned ansi (trimEnd strip chars) n ∧ v = signedNat adding n) →
      ∃ valid out, (∀ narrow, T.Keeps narrow →
          (integerLoop T narrow ansi strip adding true chars ⟨false, false, 0⟩).map
            (fun r => (r.1 && !chars.isEmpty, some r.2)) = some (valid, out)) ∧
        (valid = true ↔ ∃ v, Literal T.signed ansi (stripped strip row) v ∧ T.Fits v) ∧
        ∀ v, Literal T.signed ansi (stripped strip row) v → T.Fits v → out = some v := by
    intro adding chars hsigned hliteral
    obtain ⟨valid, w, hloop, hvalid, hw⟩ := @loop_exact T ansi strip adding hsigned chars
    refine ⟨valid && !chars.isEmpty, some w, fun narrow hn => ?_, hvalid.trans ?_, ?_⟩
    · rw [hloop narrow hn]
      rfl
    · constructor
      · rintro ⟨n, hn, hfits⟩
        exact ⟨_, (hliteral _).2 ⟨n, hn, rfl⟩, hfits⟩
      · rintro ⟨v, hv, hfits⟩
        obtain ⟨n, hn, rfl⟩ := (hliteral v).1 hv
        exact ⟨n, hn, hfits⟩
    · intro v hv hfits
      obtain ⟨n, hn, rfl⟩ := (hliteral v).1 hv
      rw [hw n hn hfits]
  by_cases hempty : row = []
  · -- no literal is empty
    subst hempty
    have hnil : stripped strip [] = [] := by cases strip <;> rfl
    have hnot : ∀ v, ¬Literal T.signed ansi (stripped strip []) v := by
      intro v h
      rw [hnil] at h
      generalize htext : ([] : List Byte) = text at h
      cases h with
      | unsigned h =>
        subst htext
        obtain ⟨c, hc, -⟩ := h.head
        exact absurd hc (by simp)
      | plus => exact absurd htext (by simp)
      | minus => exact absurd htext (by simp)
    refine ⟨false, none, fun narrow _ => rfl, iff_of_false (by simp) ?_, fun v h => absurd h (hnot v)⟩
    rintro ⟨v, h, -⟩
    exact hnot v h
  · have hkernel : ∀ narrow, stringToInteger T narrow ansi strip true row =
        (integerLoop T narrow ansi strip
          (!((T.signed && ((trimStart strip row).head? = some (chr '+') ||
            (trimStart strip row).head? = some (chr '-'))) &&
            decide ((trimStart strip row).head? = some (chr '-')))) true
          (if T.signed && ((trimStart strip row).head? = some (chr '+') ||
            (trimStart strip row).head? = some (chr '-')) then (trimStart strip row).tail
            else trimStart strip row) ⟨false, false, 0⟩).map fun r =>
          (r.1 && !(if T.signed && ((trimStart strip row).head? = some (chr '+') ||
            (trimStart strip row).head? = some (chr '-')) then (trimStart strip row).tail
            else trimStart strip row).isEmpty, some r.2) := by
      intro narrow
      have hrow : row.isEmpty = false := by simpa using hempty
      unfold stringToInteger
      rw [hrow]
      rfl
    simp only [hkernel]
    cases hsign : T.signed && (decide ((trimStart strip row).head? = some (chr '+')) ||
        decide ((trimStart strip row).head? = some (chr '-'))) with
    | true =>
      rw [Bool.and_eq_true, Bool.or_eq_true, decide_eq_true_iff, decide_eq_true_iff] at hsign
      obtain ⟨hsigned, hhead⟩ := hsign
      obtain ⟨c, text, hchars⟩ : ∃ c text, trimStart strip row = c :: text := by
        cases hchars : trimStart strip row with
        | nil => rw [hchars] at hhead; exact absurd hhead (by simp)
        | cons c text => exact ⟨c, text, rfl⟩
      have hc : c = chr '+' ∨ c = chr '-' := by simpa [hchars] using hhead
      have hliteral : ∀ v, Literal T.signed ansi (stripped strip row) v ↔
          ∃ n, Unsigned ansi (trimEnd strip text) n ∧ v = signedNat (!decide (c = chr '-')) n := by
        intro v
        unfold stripped
        rw [hchars]
        exact literal_of_sign hsigned hc
      have h := hscan (!decide (c = chr '-')) text (fun _ => hsigned) hliteral
      simpa [hchars] using h
    | false =>
      have hnot : T.signed = true → (trimStart strip row).head? ≠ some (chr '+') ∧
          (trimStart strip row).head? ≠ some (chr '-') := by
        intro hsigned
        simpa [hsigned] using hsign
      have h := hscan true (trimStart strip row) (by simp) fun v => literal_of_not_sign hnot
      simpa using h

/-- **The cast of strings to integers is exact.** A row is valid iff, without the white space at its ends if
it is stripped, it is an integer literal whose integer part fits into the type; then the integer is stored.
No value that is computed leaves the type: there is a result where there is none for such values. -/
theorem stringToInteger_exact (T : IntType) (ansi strip : Bool) (row : List Byte) :
    ∃ valid out, stringToInteger T (fun x => some (T.wrap x)) ansi strip true row = some (valid, out) ∧
      stringToInteger T T.checked ansi strip true row = some (valid, out) ∧
      (valid = true ↔ ∃ v, Literal T.signed ansi (stripped strip row) v ∧ T.Fits v) ∧
      ∀ v, Literal T.signed ansi (stripped strip row) v → T.Fits v → out = some v := by
  obtain ⟨valid, out, hkernel, hvalid, hout⟩ := stringToInteger_spec T ansi strip row
  exact ⟨valid, out, hkernel _ T.wrap_keeps, hkernel _ T.checked_keeps, hvalid, hout⟩

example : stringToInteger ⟨8, true, le_rfl⟩ (fun x => some (IntType.wrap ⟨8, true, le_rfl⟩ x)) false true true
    (" -128.9 ".toList.map chr) = some (true, some (-128)) := by decide

end SparkRapids.CastString
