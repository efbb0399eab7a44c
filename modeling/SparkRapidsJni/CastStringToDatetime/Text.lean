import SparkRapidsJni.Lib.Ascii
import SparkRapidsJni.Lib.Numerals

/-!
# Numbers in a text

The scanners of `cast_string_to_datetime.cu` for numbers: `parse_int`, which fails on more digits than it
may read, and white space at the ends of a text. A position in the text is the list of the characters from
it on.
-/

namespace SparkRapids.CastStringToDatetime

open Ascii Numerals

/-! ### The functions of the source -/

/-- `is_whitespace` -/
def isWhitespace (c : Byte) : Bool := c ≤ 32 || c = 127

/-- The loop of `parse_int`: the number of digits, their value and the characters behind them. -/
def parseIntLoop (maxDigits : ℕ) : List Byte → ℕ → ℕ → Option (ℕ × ℕ × List Byte)
  | [], digits, v => some (digits, v, [])
  | c :: chars, digits, v =>
    if isDigit c then
      if digits + 1 > maxDigits then none
      else parseIntLoop maxDigits chars (digits + 1) (v * 10 + digit c)
    else some (digits, v, c :: chars)

/-- `parse_int`: the number, and the characters behind it -/
def parseInt (minDigits maxDigits : ℕ) (chars : List Byte) : Option (ℕ × List Byte) :=
  match parseIntLoop maxDigits chars 0 0 with
  | none => none
  | some (digits, v, rest) => if digits ≥ minDigits then some (v, rest) else none

/-- A text without the white space at its ends. -/
def trimAll (text : List Byte) : List Byte := (text.dropWhile isWhitespace).rdropWhile isWhitespace

/-! ### Numbers -/

/-- A number of `minDigits` to `maxDigits` digits. -/
structure IsNumber (minDigits maxDigits : ℕ) (ds : List Byte) : Prop where
  digits : ∀ c ∈ ds, isDigit c = true
  le_length : minDigits ≤ ds.length
  length_le : ds.length ≤ maxDigits

/-- The value of a text of digits. -/
def number (ds : List Byte) : ℕ := readDigits 10 (ds.map digit)

/-- The next character is no digit. -/
def NoDigit (rest : List Byte) : Prop := ∀ c ∈ rest.head?, isDigit c = false

variable {minDigits maxDigits : ℕ}

theorem noDigit_nil : NoDigit [] := fun c hc => absurd hc (by simp)

theorem noDigit_cons {c : Byte} {rest : List Byte} (h : isDigit c = false) : NoDigit (c :: rest) := by
  intro c' hc'
  obtain rfl : c = c' := Option.some.inj hc'
  exact h

/-- The loop reads the digits up to the first other character. -/
theorem parseIntLoop_append {ds rest : List Byte} (hds : ∀ c ∈ ds, isDigit c = true)
    (hrest : NoDigit rest) (digits v : ℕ) (hle : digits + ds.length ≤ maxDigits) :
    parseIntLoop maxDigits (ds ++ rest) digits v =
      some (digits + ds.length, (ds.map digit).foldl (fun n d => n * 10 + d) v, rest) := by
  induction ds generalizing digits v with
  | nil =>
    cases rest with
    | nil => rfl
    | cons c rest =>
      have hc := hrest c rfl
      rw [List.nil_append, parseIntLoop, if_neg (by simp [hc])]
      rfl
  | cons c ds ih =>
    have hc := hds c (List.mem_cons_self ..)
    rw [List.length_cons] at hle
    rw [List.cons_append, parseIntLoop, if_pos hc, if_neg (by omega),
      ih (fun c hc => hds c (List.mem_cons_of_mem _ hc)) _ _ (by omega), List.length_cons]
    have hlen : digits + 1 + ds.length = digits + (ds.length + 1) := by omega
    rw [hlen]
    rfl

theorem parseInt_append {ds rest : List Byte} (h : IsNumber minDigits maxDigits ds) (hrest : NoDigit rest) :
    parseInt minDigits maxDigits (ds ++ rest) = some (number ds, rest) := by
  have hle := h.le_length
  have hloop := parseIntLoop_append h.digits hrest 0 0 (by simpa using h.length_le)
  unfold parseInt
  rw [hloop]
  dsimp only
  rw [if_pos (by omega)]
  rfl

/-- What the loop has read. -/
theorem parseIntLoop_eq_some {chars rest : List Byte} {digits v n m : ℕ}
    (hdigits : digits ≤ maxDigits) (h : parseIntLoop maxDigits chars digits v = some (n, m, rest)) :
    ∃ ds, chars = ds ++ rest ∧ (∀ c ∈ ds, isDigit c = true) ∧ NoDigit rest ∧ n = digits + ds.length ∧
      n ≤ maxDigits ∧ m = (ds.map digit).foldl (fun n d => n * 10 + d) v := by
  induction chars generalizing digits v with
  | nil =>
    obtain ⟨rfl, rfl, rfl⟩ : digits = n ∧ v = m ∧ [] = rest := by simpa [parseIntLoop] using h
    exact ⟨[], rfl, by simp, noDigit_nil, rfl, hdigits, rfl⟩
  | cons c chars ih =>
    rw [parseIntLoop] at h
    split_ifs at h with hc hmax
    · obtain ⟨ds, rfl, hds, hrest, hn, hle, hm⟩ := ih (by omega) h
      refine ⟨c :: ds, rfl, ?_, hrest, ?_, hle, hm⟩
      · intro c' hc'
        obtain rfl | hmem := List.mem_cons.1 hc'
        · exact hc
        · exact hds c' hmem
      · rw [hn, List.length_cons]
        omega
    · obtain ⟨rfl, rfl, rfl⟩ : digits = n ∧ v = m ∧ c :: chars = rest := by simpa using h
      exact ⟨[], rfl, by simp, noDigit_cons (by simpa using hc), rfl, hdigits, rfl⟩

/-- `parse_int` reads a number, up to the next character that is no digit. -/
theorem parseInt_eq_some_iff {chars rest : List Byte} {v : ℕ} :
    parseInt minDigits maxDigits chars = some (v, rest) ↔
      ∃ ds, chars = ds ++ rest ∧ IsNumber minDigits maxDigits ds ∧ NoDigit rest ∧ v = number ds := by
  constructor
  · intro h
    unfold parseInt at h
    cases hloop : parseIntLoop maxDigits chars 0 0 with
    | none => rw [hloop] at h; exact absurd h (by simp)
    | some r =>
      obtain ⟨n, m, rest'⟩ := r
      rw [hloop] at h
      dsimp only at h
      split_ifs at h with hmin
      obtain ⟨rfl, rfl⟩ : m = v ∧ rest' = rest := by simpa using h
      obtain ⟨ds, hchars, hds, hrest, hn, hle, hm⟩ := parseIntLoop_eq_some (Nat.zero_le _) hloop
      exact ⟨ds, hchars, ⟨hds, by omega, by omega⟩, hrest, hm⟩
  · rintro ⟨ds, rfl, hds, hrest, rfl⟩
    exact parseInt_append hds hrest

theorem number_lt {ds : List Byte} (h : IsNumber minDigits maxDigits ds) : number ds < 10 ^ maxDigits := by
  have hlt : number ds < 10 ^ (ds.map digit).length := by
    apply readDigits_lt
    intro d hd
    obtain ⟨c, hc, rfl⟩ := List.mem_map.1 hd
    exact digit_lt (h.digits c hc)
  rw [List.length_map] at hlt
  exact hlt.trans_le (Nat.pow_le_pow_right (by decide) h.length_le)

end SparkRapids.CastStringToDatetime
