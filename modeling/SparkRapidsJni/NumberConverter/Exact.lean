import SparkRapidsJni.NumberConverter.Convert

/-!
# Conversions are exact

The number of a text is that of the longest prefix of digits behind the spaces and a minus, as long as it
may be. The scanner has it, up to the greatest number of 64 bits (`parse_eq`), and the text that is written
is the numeral of what the negation rules make of it (`convert_eq`). A row is filled by its text, at its
positions and no others, and another conversion of a text without a sign reads the number back
(`convert_exact`).
-/

namespace SparkRapids.NumberConverter

open Numerals
open Ascii (chr)

/-! ### What is meant -/

/-- The digits that a text begins with. -/
def digitPrefix (base : Int) (text : List Byte) : List ℕ :=
  ((text.map (charToByte · base)).takeWhile (0 ≤ ·)).map Int.toNat

/-- The text without the spaces at both ends. -/
def strip (text : List Byte) : List Byte :=
  (text.dropWhile (· = chr ' ')).rdropWhile (· = chr ' ')

def isMinus (text : List Byte) : Bool := (strip text).head? = some (chr '-')

/-- The text behind a minus. -/
def unsigned (text : List Byte) : List Byte := if text.head? = some (chr '-') then text.tail else text

/-- The number of a text. -/
def number (base : Int) (text : List Byte) : ℕ :=
  readDigits base.toNat (digitPrefix base (unsigned (strip text)))

/-- The greatest number of 64 bits. -/
def maxNumber : ℕ := 2 ^ 64 - 1

/-- A numeral as text. -/
def digitsText (base n : ℕ) : List Byte := (writeDigits base n).map byteToChar

/-- The unsigned value that is written for a number of 64 bits: with a minus it is the two's complement,
of a number that is not negative as a signed one. -/
def unsignedValue (minus : Bool) (n : ℕ) : ℕ :=
  if minus then if n < 2 ^ 63 then (2 ^ 64 - n) % 2 ^ 64 else maxNumber else n

/-- The signed reading of a number of 64 bits. -/
def signedValue (n : ℕ) : Int := if n < 2 ^ 63 then n else (n : Int) - 2 ^ 64

/-- The text for a number of 64 bits, behind a minus or not. -/
def resultText (toBase : Int) (minus : Bool) (n : ℕ) : List Byte :=
  if toBase > 0 then digitsText toBase.toNat (unsignedValue minus n)
  else (if minus ∨ signedValue n < 0 then [chr '-'] else []) ++
    digitsText toBase.natAbs (signedValue n).natAbs

/-- A text and its positions, from one on. -/
def placed (start : Int) : List Byte → List (Int × Byte)
  | [] => []
  | c :: text => (start, c) :: placed (start + 1) text

/-! ### Digits -/

section

variable {base : Int} {c : Byte} {text : List Byte}

/-- The bases that are valid. -/
def ValidBase (base : Int) : Prop := 2 ≤ base ∧ base ≤ 36

/-- `char_to_byte`, of the code of the character. -/
theorem charToByte_eq (c : Byte) (base : Int) : charToByte c base =
    if 48 ≤ c.toNat ∧ c.toNat ≤ 57 ∧ (c.toNat : Int) - 48 < base then (c.toNat : Int) - 48
    else if 65 ≤ c.toNat ∧ c.toNat ≤ 90 ∧ (c.toNat : Int) - 65 + 10 < base then
      (c.toNat : Int) - 65 + 10
    else if 97 ≤ c.toNat ∧ c.toNat ≤ 122 ∧ (c.toNat : Int) - 97 + 10 < base then
      (c.toNat : Int) - 97 + 10
    else -1 := rfl

theorem charToByte_lt (hbase : ValidBase base) : charToByte c base < base := by
  obtain ⟨hlow, hhigh⟩ := hbase
  rw [charToByte_eq]
  split_ifs <;> omega

/-- Digits are ASCII characters, and neither spaces nor signs. -/
theorem charToByte_of_not_alphanumeric (h : c.toNat < 48 ∨ 122 < c.toNat) :
    charToByte c base = -1 := by
  rw [charToByte_eq]
  split_ifs <;> omega

theorem toNat_byteToChar {d : ℕ} (hd : d < 36) :
    (byteToChar d).toNat = if d ≤ 9 then 48 + d else 55 + d := by
  have hall : ∀ d < 36, (byteToChar d).toNat = if d ≤ 9 then 48 + d else 55 + d := by decide
  exact hall d hd

/-- A digit that is written is read back. -/
theorem charToByte_byteToChar {d : ℕ} (hbase : ValidBase base) (hd : (d : Int) < base) :
    charToByte (byteToChar d) base = d := by
  obtain ⟨hlow, hhigh⟩ := hbase
  rw [charToByte_eq, toNat_byteToChar (by omega)]
  split_ifs <;> omega

theorem digitPrefix_nil : digitPrefix base [] = [] := rfl

theorem digitPrefix_cons_of_neg (h : charToByte c base < 0) : digitPrefix base (c :: text) = [] := by
  unfold digitPrefix
  rw [List.map_cons, List.takeWhile_cons_of_neg (by simpa using h), List.map_nil]

theorem digitPrefix_cons_of_nonneg (h : 0 ≤ charToByte c base) :
    digitPrefix base (c :: text) = (charToByte c base).toNat :: digitPrefix base text := by
  unfold digitPrefix
  rw [List.map_cons, List.takeWhile_cons_of_pos (by simpa using h), List.map_cons]

/-- The digits end before a character that is none. -/
theorem digitPrefix_append (text : List Byte) {rest : List Byte}
    (hrest : ∀ c ∈ rest.head?, charToByte c base < 0) :
    digitPrefix base (text ++ rest) = digitPrefix base text := by
  induction text with
  | nil =>
    cases rest with
    | nil => rfl
    | cons c rest => exact digitPrefix_cons_of_neg (hrest c rfl)
  | cons c text ih =>
    rw [List.cons_append]
    by_cases h : charToByte c base < 0
    · rw [digitPrefix_cons_of_neg h, digitPrefix_cons_of_neg h]
    · rw [digitPrefix_cons_of_nonneg (not_lt.1 h), digitPrefix_cons_of_nonneg (not_lt.1 h), ih]

/-- All of a numeral is digits. -/
theorem digitPrefix_digits (hbase : ValidBase base) {ds : List ℕ} (hds : ∀ d ∈ ds, (d : Int) < base) :
    digitPrefix base (ds.map byteToChar) = ds := by
  induction ds with
  | nil => rfl
  | cons d ds ih =>
    have hd := charToByte_byteToChar hbase (hds d (List.mem_cons_self ..))
    rw [List.map_cons, digitPrefix_cons_of_nonneg (by omega), hd, Int.toNat_natCast,
      ih fun d hd => hds d (List.mem_cons_of_mem _ hd)]

end

/-! ### Scanning the digits -/

section

variable {base : Int} {c : Byte} {v : BitVec 64}

/-- The checks for an overflow are exact. -/
theorem overflows_iff (hbase : ValidBase base) {b : Int} (hb : 0 ≤ b) (hlt : b < base) :
    (v.toInt < 0 ∨ (BitVec.ofInt 64 (-1 - base) / BitVec.ofInt 64 base ≤ v ∧
        BitVec.ofInt 64 (-1 - b) / BitVec.ofInt 64 base < v)) ↔
      maxNumber < v.toNat * base.toNat + b.toNat := by
  obtain ⟨hlow, hhigh⟩ := hbase
  obtain ⟨base, rfl⟩ := Int.eq_ofNat_of_zero_le (by omega : 0 ≤ base)
  obtain ⟨b, rfl⟩ := Int.eq_ofNat_of_zero_le hb
  have hv := v.isLt
  have hsub : ∀ x : ℕ, x ≤ 36 → (BitVec.ofInt 64 (-1 - (x : Int))).toNat = 2 ^ 64 - 1 - x := by
    intro x hx
    rw [BitVec.toNat_ofInt]
    omega
  have hbaseNat : (BitVec.ofInt 64 (base : Int)).toNat = base := by
    rw [BitVec.toNat_ofInt]
    omega
  have hneg : v.toInt < 0 ↔ 2 ^ 63 ≤ v.toNat := by
    rw [BitVec.toInt_eq_toNat_cond]
    split_ifs <;> omega
  rw [hneg, BitVec.le_def, BitVec.lt_def, BitVec.toNat_udiv, BitVec.toNat_udiv, hsub base (by omega),
    hsub b (by omega), hbaseNat, Nat.div_lt_iff_lt_mul (by omega), Int.toNat_natCast,
    Int.toNat_natCast]
  unfold maxNumber
  -- below the bound there is room for one more digit
  have hbound : v.toNat < (2 ^ 64 - 1 - base) / base → v.toNat * base + base ≤ 2 ^ 64 - 1 := by
    intro h
    have hmul := Nat.div_mul_le_self (2 ^ 64 - 1 - base) base
    have hle := Nat.mul_le_mul_right base h.le
    omega
  have hhalf : 2 ^ 63 ≤ v.toNat → 2 ^ 64 ≤ v.toNat * base := by
    intro h
    calc 2 ^ 64 = 2 ^ 63 * 2 := by norm_num
      _ ≤ v.toNat * base := Nat.mul_le_mul h (by omega)
  omega

/-- A number of 64 bits after one more digit that fits. -/
theorem toNat_next (hbase : ValidBase base) {b : Int} (hb : 0 ≤ b) (hlt : b < base)
    (hfits : v.toNat * base.toNat + b.toNat ≤ maxNumber) :
    (v * BitVec.ofInt 64 base + BitVec.ofInt 64 b).toNat = v.toNat * base.toNat + b.toNat := by
  obtain ⟨hlow, hhigh⟩ := hbase
  obtain ⟨base, rfl⟩ := Int.eq_ofNat_of_zero_le (by omega : 0 ≤ base)
  obtain ⟨b, rfl⟩ := Int.eq_ofNat_of_zero_le hb
  unfold maxNumber at hfits
  rw [Int.toNat_natCast, Int.toNat_natCast] at hfits ⊢
  rw [BitVec.ofInt_natCast, BitVec.ofInt_natCast, BitVec.toNat_add, BitVec.toNat_mul,
    BitVec.toNat_ofNat, BitVec.toNat_ofNat, Nat.mod_eq_of_lt (by omega : base < 2 ^ 64),
    Nat.mod_eq_of_lt (by omega : b < 2 ^ 64), Nat.mod_add_mod]
  exact Nat.mod_eq_of_lt (by omega)

/-- The scanner has the number of all digits, and finds that it is too large before it wraps around. -/
theorem parse_eq (hbase : ValidBase base) (ansiType : AnsiMode) (chars : List Byte) (v : BitVec 64) :
    parse base ansiType chars v =
      if (digitPrefix base chars).foldl (fun n d => n * base.toNat + d) v.toNat ≤ maxNumber then
        some (BitVec.ofNat 64 ((digitPrefix base chars).foldl (fun n d => n * base.toNat + d) v.toNat))
      else if ansiType = .on then none else some (-1) := by
  induction chars generalizing v with
  | nil =>
    have hle : v.toNat ≤ maxNumber := Nat.le_pred_of_lt v.isLt
    rw [digitPrefix_nil, List.foldl_nil, if_pos hle, BitVec.ofNat_toNat, BitVec.setWidth_eq]
    rfl
  | cons c chars ih =>
    unfold parse
    dsimp only
    by_cases hneg : charToByte c base < 0
    · have hle : v.toNat ≤ maxNumber := Nat.le_pred_of_lt v.isLt
      rw [if_pos hneg, digitPrefix_cons_of_neg hneg, List.foldl_nil, if_pos hle, BitVec.ofNat_toNat,
        BitVec.setWidth_eq]
    · have hb := not_lt.1 hneg
      have hlt := @charToByte_lt base c hbase
      rw [if_neg hneg, digitPrefix_cons_of_nonneg hb, List.foldl_cons]
      by_cases hover : maxNumber < v.toNat * base.toNat + (charToByte c base).toNat
      · -- more digits do not bring it back
        have hmono : ¬(digitPrefix base chars).foldl (fun n d => n * base.toNat + d)
            (v.toNat * base.toNat + (charToByte c base).toNat) ≤ maxNumber := by
          obtain ⟨hlow, -⟩ := hbase
          rw [foldl_eq, not_le]
          calc maxNumber < v.toNat * base.toNat + (charToByte c base).toNat := hover
            _ ≤ (v.toNat * base.toNat + (charToByte c base).toNat) *
                base.toNat ^ (digitPrefix base chars).length :=
              Nat.le_mul_of_pos_right _ (Nat.pow_pos (by omega))
            _ ≤ _ := Nat.le_add_right _ _
        rw [if_pos ((overflows_iff hbase hb hlt).2 hover), if_neg hmono]
      · rw [if_neg (mt (overflows_iff hbase hb hlt).1 hover), ih,
          toNat_next hbase hb hlt (not_lt.1 hover)]

end

/-! ### Spaces -/

section

variable {text : List Byte}

theorem drop_takeWhile_space (text : List Byte) :
    text.drop (text.takeWhile (· = chr ' ')).length = text.dropWhile (· = chr ' ') := by
  have hsplit := List.takeWhile_append_dropWhile (p := fun c => decide (c = chr ' ')) (l := text)
  calc text.drop (text.takeWhile (· = chr ' ')).length
      = (text.takeWhile (· = chr ' ') ++ text.dropWhile (· = chr ' ')).drop
          (text.takeWhile (· = chr ' ')).length := by rw [hsplit]
    _ = text.dropWhile (· = chr ' ') := List.drop_left

theorem head_dropWhile_space {c : Byte} {rest : List Byte}
    (h : text.dropWhile (· = chr ' ') = c :: rest) : c ≠ chr ' ' := by
  have hnot := List.head?_dropWhile_not (fun c => decide (c = chr ' ')) text
  rw [h] at hnot
  simpa using hnot

/-- The spaces at the end of a text that begins with another character are behind that one. -/
theorem takeWhile_reverse_cons {c : Byte} (hc : c ≠ chr ' ') (front rest : List Byte) :
    (front ++ c :: rest).reverse.takeWhile (· = chr ' ') = rest.reverse.takeWhile (· = chr ' ') := by
  have hreverse : (front ++ c :: rest).reverse = rest.reverse ++ c :: front.reverse := by simp
  rw [hreverse, List.takeWhile_append]
  split_ifs with hall
  · rw [List.takeWhile_cons_of_neg (by simpa using hc), List.append_nil]
    exact ((List.takeWhile_prefix _).eq_of_length hall).symm
  · rfl

/-- What is left when the spaces at the end are taken off. -/
theorem rdropWhile_eq_take (l : List Byte) :
    l.rdropWhile (· = chr ' ') = l.take (l.length - (l.reverse.takeWhile (· = chr ' ')).length) := by
  have hsplit := List.rdropWhile_append_rtakeWhile (p := fun c => decide (c = chr ' ')) (l := l)
  have hlen := congrArg List.length hsplit
  have hspaces : (l.rtakeWhile (· = chr ' ')).length = (l.reverse.takeWhile (· = chr ' ')).length :=
    List.length_reverse
  rw [List.length_append, hspaces] at hlen
  calc l.rdropWhile (· = chr ' ')
      = (l.rdropWhile (· = chr ' ') ++ l.rtakeWhile (· = chr ' ')).take
          (l.rdropWhile (· = chr ' ')).length := List.take_left.symm
    _ = l.take (l.length - (l.reverse.takeWhile (· = chr ' ')).length) := by
      rw [hsplit]
      congr 1
      omega

/-- `trim` finds the text between the spaces. -/
theorem trim_spec (text : List Byte) :
    (strip text = [] → (trim text).2 - (trim text).1 < 0) ∧
      (strip text ≠ [] → ¬(trim text).2 - (trim text).1 < 0 ∧
        (text.drop (trim text).1.toNat).take ((trim text).2 + 1 - (trim text).1).toNat = strip text) := by
  have hsplit := List.takeWhile_append_dropWhile (p := fun c => decide (c = chr ' ')) (l := text)
  have hdrop := drop_takeWhile_space text
  have hlen := congrArg List.length hsplit
  rw [List.length_append] at hlen
  unfold strip trim
  dsimp only
  cases hrest : text.dropWhile (· = chr ' ') with
  | nil =>
    -- there are only spaces
    rw [hrest, List.length_nil] at hlen
    refine ⟨fun _ => ?_, fun h => absurd rfl h⟩
    rw [if_pos (by omega)]
    omega
  | cons c rest =>
    have hc := head_dropWhile_space hrest
    have hspaces := takeWhile_reverse_cons hc (text.takeWhile (· = chr ' ')) rest
    rw [← hrest, hsplit] at hspaces
    have hspaces' := takeWhile_reverse_cons hc [] rest
    rw [List.nil_append] at hspaces'
    have hle : (rest.reverse.takeWhile (· = chr ' ')).length ≤ rest.length :=
      (List.takeWhile_sublist _).length_le.trans_eq List.length_reverse
    rw [hrest, List.length_cons] at hlen
    rw [rdropWhile_eq_take, hspaces, hspaces', Int.toNat_natCast, hdrop, hrest, List.length_cons]
    refine ⟨fun h => ?_, fun _ => ⟨?_, ?_⟩⟩
    · rw [List.take_eq_nil_iff] at h
      obtain h | h := h
      · omega
      · exact absurd h (by simp)
    · split_ifs <;> omega
    · congr 1
      split_ifs <;> omega

end

/-! ### Writing the text -/

section

variable {text : List Byte} {o : Output}

theorem placed_map (start offset : Int) (text : List Byte) :
    (placed start text).map (fun w => (offset + w.1, w.2)) = placed (offset + start) text := by
  induction text generalizing start with
  | nil => rfl
  | cons c text ih =>
    unfold placed
    rw [List.map_cons, ih, add_assoc]

/-- The output after a text has been written to the left. -/
def Output.written (out : Bool) (text : List Byte) (uv : BitVec 64) (o : Output) : Output where
  uv := uv
  outIdx := o.outIdx - text.length
  writes := if out then placed (o.outIdx + 1 - text.length) text ++ o.writes else o.writes

theorem Output.put_eq (out : Bool) (c : Byte) (o : Output) : o.put out c = o.written out [c] o.uv := by
  cases out with
  | false => rfl
  | true =>
    unfold Output.put Output.written placed placed
    simp

theorem placed_append (start : Int) (front text : List Byte) :
    placed start (front ++ text) = placed start front ++ placed (start + front.length) text := by
  induction front generalizing start with
  | nil => simp [placed]
  | cons c front ih =>
    show (start, c) :: placed (start + 1) (front ++ text) =
      (start, c) :: (placed (start + 1) front ++ placed (start + (c :: front).length) text)
    rw [ih, List.length_cons]
    push_cast
    rw [add_assoc start 1, add_comm 1]

/-- One text before the other. -/
theorem Output.written_written (out : Bool) (front text : List Byte) (uv uv' : BitVec 64) (o : Output) :
    (o.written out text uv).written out front uv' = o.written out (front ++ text) uv' := by
  unfold Output.written
  dsimp only
  rw [List.length_append, placed_append]
  congr 1
  · push_cast
    ring
  · cases out with
    | false => rfl
    | true =>
      rw [if_pos rfl, if_pos rfl, List.append_assoc, if_pos rfl]
      congr 2
      · push_cast
        ring
      · congr 1
        push_cast
        ring

/-- The loop writes the digits of the value, from the last one on. A turn takes a bit of the value at
least. -/
theorem whileLoop_writeDigit (out : Bool) {base : ℕ} (hbase : 2 ≤ base) (hlt : base < 2 ^ 64) (turns : ℕ)
    (o : Output) (huv : o.uv.toNat < 2 ^ turns) :
    whileLoop (fun o : Output => o.uv = 0) (writeDigit out (BitVec.ofNat 64 base)) turns o =
      some (o.written out ((Nat.digits base o.uv.toNat).reverse.map byteToChar) 0) := by
  have hdone : ∀ o : Output, o.uv = 0 →
      some o = some (o.written out ((Nat.digits base o.uv.toNat).reverse.map byteToChar) 0) := by
    intro o hzero
    obtain ⟨uv, outIdx, writes⟩ := o
    obtain rfl : uv = 0 := hzero
    unfold Output.written
    simp [placed]
  induction turns generalizing o with
  | zero =>
    have hzero : o.uv = 0 := BitVec.eq_of_toNat_eq (by simpa using huv)
    unfold whileLoop
    rw [if_pos (decide_eq_true hzero)]
    exact hdone o hzero
  | succ turns ih =>
    unfold whileLoop
    by_cases hzero : o.uv = 0
    · rw [if_pos (decide_eq_true hzero)]
      exact hdone o hzero
    · have hne : o.uv.toNat ≠ 0 := fun h => hzero (BitVec.eq_of_toNat_eq h)
      have hbaseNat : (BitVec.ofNat 64 base).toNat = base := by
        rw [BitVec.toNat_ofNat, Nat.mod_eq_of_lt hlt]
      have hdiv : (o.uv / BitVec.ofNat 64 base).toNat = o.uv.toNat / base := by
        rw [BitVec.toNat_udiv, hbaseNat]
      have hmod : (o.uv % BitVec.ofNat 64 base).toNat = o.uv.toNat % base := by
        rw [BitVec.toNat_umod, hbaseNat]
      -- each turn takes a factor of at least two
      have hsmall : o.uv.toNat / base < 2 ^ turns := by
        rw [Nat.div_lt_iff_lt_mul (by omega)]
        calc o.uv.toNat < 2 ^ turns * 2 := by rwa [← pow_succ]
          _ ≤ 2 ^ turns * base := Nat.mul_le_mul_left _ hbase
      have hstep : writeDigit out (BitVec.ofNat 64 base) o = some (o.written out
          [byteToChar (o.uv.toNat % base)] (o.uv / BitVec.ofNat 64 base)) := by
        unfold writeDigit
        dsimp only
        rw [Output.put_eq, hmod]
        rfl
      rw [if_neg (by simpa using hzero), hstep, Option.bind_some, ih _ (by rw [← hdiv] at hsmall; exact hsmall),
        Output.written_written]
      have huv' : (o.written out [byteToChar (o.uv.toNat % base)] (o.uv / BitVec.ofNat 64 base)).uv =
          o.uv / BitVec.ofNat 64 base := rfl
      rw [huv', hdiv, digits_reverse_eq hbase hne, List.map_append]
      rfl

end

/-! ### Conversions -/

section

variable {toBase : Int} {n : ℕ}

/-- What is written of a number, behind a minus or not: the unsigned value or the absolute one, and the
sign. -/
theorem negate_spec (minus : Bool) (hn : n ≤ maxNumber) :
    (0 < toBase → (negate minus toBase (BitVec.ofNat 64 n)).1.toNat = unsignedValue minus n) ∧
      (toBase < 0 → (negate minus toBase (BitVec.ofNat 64 n)).1.toNat = (signedValue n).natAbs ∧
        ((negate minus toBase (BitVec.ofNat 64 n)).2 = true ↔ minus = true ∨ signedValue n < 0)) := by
  have hlt : n < 2 ^ 64 := Nat.lt_of_le_pred (by norm_num) hn
  have htoNat : (BitVec.ofNat 64 n).toNat = n := by
    rw [BitVec.toNat_ofNat, Nat.mod_eq_of_lt hlt]
  have hneg : (BitVec.ofNat 64 n).toInt < 0 ↔ ¬n < 2 ^ 63 := by
    rw [BitVec.toInt_eq_toNat_cond, htoNat]
    split_ifs <;> omega
  have hminus : (-BitVec.ofNat 64 n).toNat = (2 ^ 64 - n) % 2 ^ 64 := by
    rw [BitVec.toNat_neg, htoNat]
  have hsigned : signedValue n < 0 ↔ ¬n < 2 ^ 63 := by
    unfold signedValue
    split_ifs <;> omega
  constructor
  · intro hpos
    -- to a positive base, the sign of the number does not matter
    have hnonneg : ∀ v : BitVec 64, ¬(toBase < 0 ∧ v.toInt < 0) := fun v h => by omega
    unfold negate unsignedValue
    dsimp only
    rw [if_neg (hnonneg _)]
    cases minus with
    | false => rw [if_neg (by simp), if_neg (by simp), htoNat]
    | true =>
      rw [if_pos ⟨rfl, hpos⟩, if_pos rfl]
      by_cases hhalf : n < 2 ^ 63
      · rw [if_neg (by rw [hneg]; omega), if_pos hhalf, hminus]
      · rw [if_pos (hneg.2 hhalf), if_neg hhalf]
        rfl
  · intro hnegative
    have hnot : ¬(minus = true ∧ toBase > 0) := fun h => by omega
    unfold negate
    dsimp only
    rw [if_neg hnot]
    by_cases hhalf : n < 2 ^ 63
    · rw [if_neg (by rw [hneg]; omega), htoNat]
      refine ⟨?_, by rw [hsigned]; tauto⟩
      unfold signedValue
      rw [if_pos hhalf]
      rfl
    · rw [if_pos ⟨hnegative, hneg.2 hhalf⟩, hminus]
      refine ⟨?_, by rw [hsigned]; tauto⟩
      unfold signedValue
      rw [if_neg hhalf]
      omega

/-- The digits of the value, and the sign before them. -/
theorem writeOut_eq (hbase : 2 ≤ toBase.natAbs ∧ toBase.natAbs ≤ 36) (out : Bool) (outLen : Int)
    (v : BitVec 64) (negative : Bool) :
    writeOut toBase out outLen v negative =
      let result := (if negative ∧ toBase < 0 then [chr '-'] else []) ++ digitsText toBase.natAbs v.toNat
      some ⟨.success, result.length, if out then placed (outLen - result.length) result else []⟩ := by
  have hdigits : ∃ uv, (if v = 0 then some (Output.put out (chr '0') ⟨v, outLen - 1, []⟩)
      else whileLoop (fun o : Output => o.uv = 0) (writeDigit out (BitVec.ofNat 64 toBase.natAbs)) 64
        ⟨v, outLen - 1, []⟩) =
      some (Output.written out (digitsText toBase.natAbs v.toNat) uv ⟨v, outLen - 1, []⟩) := by
    unfold digitsText
    by_cases hzero : v = 0
    · refine ⟨v, ?_⟩
      have htoNat : v.toNat = 0 := by rw [hzero]; rfl
      rw [if_pos hzero, Output.put_eq, htoNat, writeDigits_zero]
      rfl
    · have hne : v.toNat ≠ 0 := fun h => hzero (BitVec.eq_of_toNat_eq h)
      refine ⟨0, ?_⟩
      rw [if_neg hzero, whileLoop_writeDigit out hbase.1 (by omega) 64 _ v.isLt, writeDigits_of_pos hne]
  obtain ⟨uv, hdigits⟩ := hdigits
  unfold writeOut
  dsimp only
  rw [hdigits, Option.map_some]
  -- what is written to an output that is empty so far
  have hresult : ∀ (text : List Byte) (uv : BitVec 64),
      (⟨.success, outLen - 1 - (Output.written out text uv ⟨v, outLen - 1, []⟩).outIdx,
        (Output.written out text uv ⟨v, outLen - 1, []⟩).writes⟩ : Converted) =
        ⟨.success, text.length, if out then placed (outLen - text.length) text else []⟩ := by
    intro text uv
    unfold Output.written
    simp
  by_cases hsign : negative = true ∧ toBase < 0
  · rw [if_pos hsign, if_pos hsign, Output.put_eq, Output.written_written, hresult]
  · rw [if_neg hsign, if_neg hsign, hresult]
    rfl

/-- The text that a number is written with. -/
theorem writeOut_negate (hbase : 2 ≤ toBase.natAbs ∧ toBase.natAbs ≤ 36) (out : Bool) (outLen : Int)
    (minus : Bool) (hn : n ≤ maxNumber) :
    writeOut toBase out outLen (negate minus toBase (BitVec.ofNat 64 n)).1
        (negate minus toBase (BitVec.ofNat 64 n)).2 =
      some ⟨.success, (resultText toBase minus n).length,
        if out then placed (outLen - (resultText toBase minus n).length) (resultText toBase minus n)
        else []⟩ := by
  obtain ⟨hunsigned, hsigned⟩ := @negate_spec toBase n minus hn
  rw [writeOut_eq hbase]
  unfold resultText
  by_cases hpos : 0 < toBase
  · rw [if_neg (by omega), if_pos hpos, hunsigned hpos, List.nil_append]
    rw [show toBase.toNat = toBase.natAbs by omega]
  · obtain ⟨habs, hsign⟩ := hsigned (by omega)
    rw [if_neg hpos, habs]
    simp only [hsign, show toBase < 0 by omega, and_true]

/-- A conversion finds that there is no text, or no number of 64 bits in ANSI mode, or writes the text of
the number. -/
theorem convert_eq {fromBase : Int} (hfrom : ValidBase fromBase)
    (hto : 2 ≤ toBase.natAbs ∧ toBase.natAbs ≤ 36) (text : List Byte) (out : Bool) (outLen : Int)
    (ansiType : AnsiMode) : convert text fromBase toBase out outLen ansiType =
      if strip text = [] then some ⟨.nullValue, 0, []⟩
      else if ansiType = .on ∧ maxNumber < number fromBase text then some ⟨.overflow, 0, []⟩
      else
        let result := resultText toBase (isMinus text) (min (number fromBase text) maxNumber)
        some ⟨.success, result.length, if out then placed (outLen - result.length) result else []⟩ := by
  obtain ⟨hblank, htext⟩ := trim_spec text
  unfold convert
  generalize trim text = range at hblank htext
  obtain ⟨first, last⟩ := range
  dsimp only at hblank htext ⊢
  by_cases hnil : strip text = []
  · rw [if_pos hnil, if_pos (hblank hnil)]
  · obtain ⟨hlast, hchars⟩ := htext hnil
    rw [if_neg hnil, if_neg hlast, hchars]
    have hunsigned : (if (decide ((strip text).head? = some (chr '-'))) = true then (strip text).tail
        else strip text) = unsigned (strip text) := by
      unfold unsigned
      simp only [decide_eq_true_eq]
    have hnumber : (digitPrefix fromBase (unsigned (strip text))).foldl
        (fun n d => n * fromBase.toNat + d) (0 : BitVec 64).toNat = number fromBase text := rfl
    rw [hunsigned, parse_eq hfrom, hnumber]
    by_cases hfits : number fromBase text ≤ maxNumber
    · rw [if_pos hfits, if_neg (fun h => absurd h.2 (not_lt.2 hfits)), min_eq_left hfits]
      exact writeOut_negate hto out outLen (isMinus text) hfits
    · rw [if_neg hfits]
      cases ansiType with
      | on =>
        rw [if_pos rfl, if_pos ⟨rfl, not_le.1 hfits⟩]
      | off =>
        rw [if_neg (by simp), if_neg (by simp), min_eq_right (not_le.1 hfits).le]
        exact writeOut_negate hto out outLen (isMinus text) le_rfl

end

/-! ### Characters and bytes -/

section

variable {base : Int} {text rest : List Byte}

/-- The number, from the text behind the first spaces. -/
theorem strip_append (text : List Byte) :
    ∃ spaces, text.dropWhile (· = chr ' ') = strip text ++ spaces ∧ (∀ c ∈ spaces, c = chr ' ') ∧
      (strip text = [] → spaces = []) := by
  have hsplit := List.rdropWhile_append_rtakeWhile (p := fun c => decide (c = chr ' '))
    (l := text.dropWhile (· = chr ' '))
  refine ⟨(text.dropWhile (· = chr ' ')).rtakeWhile (· = chr ' '), hsplit.symm, ?_, ?_⟩
  · intro c hc
    simpa using List.mem_rtakeWhile_imp hc
  · intro hnil
    -- a text that does not begin with a space is not only spaces
    cases hrest : text.dropWhile (· = chr ' ') with
    | nil => rfl
    | cons c rest =>
      have hall := List.rdropWhile_eq_nil_iff.1 hnil
      rw [hrest] at hall
      have hc := hall c (List.mem_cons_self ..)
      exact absurd (by simpa using hc) (head_dropWhile_space hrest)

theorem charToByte_space : charToByte (chr ' ') base = -1 :=
  charToByte_of_not_alphanumeric (.inl (by decide))

theorem unsigned_append (h : text ≠ [] ∨ rest.head? ≠ some (chr '-')) :
    unsigned (text ++ rest) = unsigned text ++ rest := by
  cases text with
  | nil =>
    have hrest := h.resolve_left (fun hne => hne rfl)
    unfold unsigned
    rw [List.nil_append, if_neg hrest, if_neg (by simp), List.nil_append]
  | cons c text =>
    unfold unsigned
    rw [List.cons_append, List.head?_cons, List.head?_cons]
    split_ifs <;> rfl

theorem number_eq (base : Int) (text : List Byte) : number base text =
    readDigits base.toNat (digitPrefix base (unsigned (text.dropWhile (· = chr ' ')))) := by
  obtain ⟨spaces, hsplit, hspaces, hnil⟩ := strip_append text
  have hhead : ∀ c ∈ spaces.head?, charToByte c base < 0 := by
    intro c hc
    rw [hspaces c (List.mem_of_mem_head? hc), charToByte_space]
    decide
  have hunsigned : unsigned (strip text ++ spaces) = unsigned (strip text) ++ spaces := by
    refine unsigned_append ?_
    by_cases h : strip text = []
    · rw [hnil h]
      exact .inr (by simp)
    · exact .inl h
  unfold number
  rw [hsplit, hunsigned, digitPrefix_append _ hhead]

theorem isMinus_eq (text : List Byte) :
    isMinus text = decide ((text.dropWhile (· = chr ' ')).head? = some (chr '-')) := by
  obtain ⟨spaces, hsplit, -, hnil⟩ := strip_append text
  unfold isMinus
  rw [hsplit]
  cases hstrip : strip text with
  | nil => rw [hnil hstrip, List.append_nil]
  | cons c rest => rfl

/-- What is no ASCII character is not part of a number, nor is what comes behind it. -/
theorem number_append (text : List Byte) (hrest : ∀ c ∈ rest.head?, 128 ≤ c.toNat) :
    number base (text ++ rest) = number base text ∧ isMinus (text ++ rest) = isMinus text := by
  have hspace : ∀ c ∈ rest.head?, c ≠ chr ' ' := by
    rintro c hc rfl
    exact absurd (hrest _ hc) (by decide)
  have hminus : rest.head? ≠ some (chr '-') := fun h => absurd (hrest _ h) (by decide)
  have hdigit : ∀ c ∈ rest.head?, charToByte c base < 0 := by
    intro c hc
    have hcode := hrest c hc
    rw [charToByte_of_not_alphanumeric (.inr (by omega))]
    decide
  have hdrop : (text ++ rest).dropWhile (· = chr ' ') = text.dropWhile (· = chr ' ') ++ rest := by
    rw [List.dropWhile_append]
    split_ifs with hnil
    · rw [List.isEmpty_iff.1 hnil, List.nil_append]
      cases rest with
      | nil => rfl
      | cons c rest => exact List.dropWhile_cons_of_neg (by simpa using hspace c rfl)
    · rfl
  rw [number_eq, number_eq, isMinus_eq, isMinus_eq, hdrop, unsigned_append (.inr hminus),
    digitPrefix_append _ hdigit]
  refine ⟨rfl, ?_⟩
  cases text.dropWhile (· = chr ' ') with
  | nil => simpa using hminus
  | cons c text => rfl

/-- The bytes of ASCII characters are characters. -/
theorem length_append_of_ascii (hascii : ∀ c ∈ text, c.toNat < 128) (rest : List Byte) :
    length (text ++ rest) = text.length + length rest := by
  have hall : ∀ n < 128, BitVec.ofNat 8 n &&& 0xC0 ≠ 0x80 := by decide
  unfold length
  rw [List.filter_append, List.length_append, List.filter_eq_self.2]
  intro c hc
  have h := hall c.toNat (hascii c hc)
  rw [BitVec.ofNat_toNat, BitVec.setWidth_eq] at h
  exact decide_eq_true h

/-- As many bytes as there are characters have the same number as all bytes. -/
theorem number_chars (base : Int) (str : List Byte) :
    number base (ConvertRow.chars str) = number base str ∧
      isMinus (ConvertRow.chars str) = isMinus str := by
  have hsplit := List.takeWhile_append_dropWhile (p := fun c : Byte => decide (c.toNat < 128)) (l := str)
  generalize hfront : str.takeWhile (fun c : Byte => decide (c.toNat < 128)) = front at hsplit
  generalize hrest : str.dropWhile (fun c : Byte => decide (c.toNat < 128)) = rest at hsplit
  have hascii : ∀ c ∈ front, c.toNat < 128 := by
    intro c hc
    rw [← hfront] at hc
    simpa using List.mem_takeWhile_imp hc
  have hhead : ∀ c ∈ rest.head?, 128 ≤ c.toNat := by
    intro c hc
    have hnot := List.head?_dropWhile_not (fun c : Byte => decide (c.toNat < 128)) str
    rw [hrest, hc] at hnot
    simpa using hnot
  have hchars : ConvertRow.chars str = front ++ rest.take (length rest) := by
    unfold ConvertRow.chars
    rw [← hsplit, length_append_of_ascii hascii, List.take_append]
    rw [List.take_of_length_le (by omega), Nat.add_sub_cancel_left]
  have hhead' : ∀ c ∈ (rest.take (length rest)).head?, 128 ≤ c.toNat := by
    intro c hc
    rw [List.head?_take] at hc
    split_ifs at hc
    · exact absurd hc (by simp)
    · exact hhead c hc
  obtain ⟨hnumber, hminus⟩ := @number_append base _ front hhead
  obtain ⟨hnumber', hminus'⟩ := @number_append base _ front hhead'
  rw [hchars, ← hsplit, hnumber, hminus, hnumber', hminus']
  exact ⟨rfl, rfl⟩

end

/-! ### A numeral as text -/

section

variable {base : Int} {n : ℕ}

theorem digitsText_ne_nil (base n : ℕ) : digitsText base n ≠ [] := by
  unfold digitsText
  rw [Ne, List.map_eq_nil_iff]
  exact writeDigits_ne_nil base n

variable (hbase : ValidBase base)
include hbase

/-- The characters of a numeral are digits and capital letters. -/
theorem digitsText_alphanumeric : ∀ c ∈ digitsText base.toNat n, 48 ≤ c.toNat ∧ c.toNat ≤ 90 := by
  obtain ⟨hlow, hhigh⟩ := hbase
  intro c hc
  obtain ⟨d, hd, rfl⟩ := List.mem_map.1 hc
  have hlt := writeDigits_lt (by omega) hd
  rw [toNat_byteToChar (by omega)]
  split_ifs <;> omega

/-- A text that does not have spaces is not stripped. -/
theorem strip_digitsText : strip (digitsText base.toNat n) = digitsText base.toNat n := by
  have hspace : ∀ c ∈ digitsText base.toNat n, ¬decide (c = chr ' ') = true := by
    intro c hc h
    have hcode := (digitsText_alphanumeric hbase c hc).1
    rw [of_decide_eq_true h] at hcode
    exact absurd hcode (by decide)
  have hfront : (digitsText base.toNat n).dropWhile (· = chr ' ') = digitsText base.toNat n := by
    rw [List.dropWhile_eq_self_iff]
    exact fun hlen => hspace _ (List.getElem_mem hlen)
  unfold strip
  rw [hfront, List.rdropWhile_eq_self_iff]
  exact fun hne => hspace _ (List.getLast_mem hne)

theorem isMinus_digitsText : isMinus (digitsText base.toNat n) = false := by
  unfold isMinus
  rw [strip_digitsText hbase, decide_eq_false_iff_not]
  intro hhead
  have hcode := (digitsText_alphanumeric hbase _ (List.mem_of_mem_head? hhead)).1
  exact absurd hcode (by decide)

/-- The number of a numeral. -/
theorem number_digitsText : number base (digitsText base.toNat n) = n := by
  have hminus := @isMinus_digitsText base n hbase
  unfold isMinus at hminus
  rw [decide_eq_false_iff_not] at hminus
  unfold number unsigned
  rw [if_neg hminus, strip_digitsText hbase]
  unfold digitsText
  rw [digitPrefix_digits hbase, readDigits_writeDigits]
  intro d hd
  obtain ⟨hlow, -⟩ := hbase
  have hlt := writeDigits_lt (by omega) hd
  omega

theorem chars_digitsText : ConvertRow.chars (digitsText base.toNat n) = digitsText base.toNat n := by
  have hascii : ∀ c ∈ digitsText base.toNat n, c.toNat < 128 := by
    intro c hc
    have hcode := (digitsText_alphanumeric hbase c hc).2
    omega
  have hlen := length_append_of_ascii hascii []
  rw [List.append_nil] at hlen
  unfold ConvertRow.chars
  rw [hlen]
  exact List.take_of_length_le (Nat.le_add_right _ _)

end

/-! ### Rows -/

/-- The characters that are read of a text are spaces. -/
def IsBlank (str : List Byte) : Prop := ∀ c ∈ ConvertRow.chars str, c = chr ' '

/-- The first phase finds a text's length, and the second one writes it into the row's range. -/
structure ConvertRow.Filled (row : ConvertRow) (constBases : Bool) (text : List Byte) : Prop where
  sizeOf : row.sizeOf constBases = some ((text.length : Int), true)
  fill : ∀ offset, row.fill offset (offset + text.length) = some (placed offset text)

/-- The row is null, and nothing is written. -/
structure ConvertRow.Null (row : ConvertRow) (constBases : Bool) : Prop where
  sizeOf : row.sizeOf constBases = some (0, false)
  fill : ∀ offset, row.fill offset offset = some []

section

variable {fromBase toBase : Int}

theorem resultText_ne_nil (toBase : Int) (minus : Bool) (n : ℕ) : resultText toBase minus n ≠ [] := by
  unfold resultText
  split_ifs
  · exact digitsText_ne_nil _ _
  · exact List.append_ne_nil_of_right_ne_nil _ (digitsText_ne_nil _ _)
  · exact List.append_ne_nil_of_right_ne_nil _ (digitsText_ne_nil _ _)

theorem isBlank_iff (str : List Byte) : IsBlank str ↔ strip (ConvertRow.chars str) = [] := by
  obtain ⟨spaces, hsplit, hspaces, hnil⟩ := strip_append (ConvertRow.chars str)
  constructor
  · intro hblank
    have hdrop : (ConvertRow.chars str).dropWhile (· = chr ' ') = [] := by
      rw [List.dropWhile_eq_nil_iff]
      exact fun c hc => decide_eq_true (hblank c hc)
    rw [hdrop] at hsplit
    exact (List.append_eq_nil_iff.1 hsplit.symm).1
  · intro hstrip c hc
    rw [hstrip, hnil hstrip, List.append_nil, List.dropWhile_eq_nil_iff] at hsplit
    exact of_decide_eq_true (hsplit c hc)

variable (h : isInvalidBaseRange fromBase toBase = false)
include h

theorem isInvalidBaseRange_eq_false : ValidBase fromBase ∧ 2 ≤ toBase.natAbs ∧ toBase.natAbs ≤ 36 := by
  unfold isInvalidBaseRange at h
  simp only [gt_iff_lt, Bool.or_eq_false_iff, decide_eq_false_iff_not, not_lt] at h
  obtain ⟨⟨⟨hlow, hhigh⟩, hlow'⟩, hhigh'⟩ := h
  exact ⟨⟨hlow, hhigh⟩, hlow', hhigh'⟩

/-- A row that has characters other than spaces has the text of its number. -/
theorem filled (constBases : Bool) {str : List Byte} (hblank : ¬IsBlank str) :
    ConvertRow.Filled ⟨some str, some fromBase, some toBase⟩ constBases
      (resultText toBase (isMinus str) (min (number fromBase str) maxNumber)) := by
  obtain ⟨hfrom, hto⟩ := isInvalidBaseRange_eq_false h
  rw [isBlank_iff] at hblank
  obtain ⟨hnumber, hminus⟩ := number_chars fromBase str
  have hconvert := convert_eq hfrom hto (ConvertRow.chars str)
  rw [hnumber, hminus] at hconvert
  have hpos := List.length_pos_of_ne_nil
    (resultText_ne_nil toBase (isMinus str) (min (number fromBase str) maxNumber))
  constructor
  · unfold ConvertRow.sizeOf
    dsimp only
    rw [h, Bool.and_false, if_neg (by simp), hconvert, if_neg hblank, if_neg (by simp), Option.map_some]
    simp
  · intro offset
    unfold ConvertRow.fill
    dsimp only
    rw [if_pos (by omega), hconvert, if_neg hblank, if_neg (by simp), Option.map_some]
    dsimp only
    rw [if_pos rfl, placed_map, add_sub_cancel_left, sub_self, add_zero]

theorem null (constBases : Bool) {str : List Byte} (hblank : IsBlank str) :
    ConvertRow.Null ⟨some str, some fromBase, some toBase⟩ constBases := by
  obtain ⟨hfrom, hto⟩ := isInvalidBaseRange_eq_false h
  rw [isBlank_iff] at hblank
  constructor
  · unfold ConvertRow.sizeOf
    dsimp only
    rw [h, Bool.and_false, if_neg (by simp), convert_eq hfrom hto, if_pos hblank]
    rfl
  · intro offset
    unfold ConvertRow.fill
    dsimp only
    rw [sub_self, if_neg (by decide)]

/-- The check for an overflow is that of the number. -/
theorem isOverflow_eq (constBases : Bool) (str : List Byte) :
    ConvertRow.isOverflow constBases ⟨some str, some fromBase, some toBase⟩ =
      some (decide (maxNumber < number fromBase str)) := by
  obtain ⟨hfrom, hto⟩ := isInvalidBaseRange_eq_false h
  unfold ConvertRow.isOverflow
  dsimp only
  rw [h, Bool.and_false, if_neg (by simp), convert_eq hfrom hto, (number_chars fromBase str).1]
  by_cases hblank : strip (ConvertRow.chars str) = []
  · -- there is no number
    have hzero : number fromBase str = 0 := by
      rw [← (number_chars fromBase str).1]
      unfold number
      rw [hblank]
      rfl
    rw [if_pos hblank, hzero]
    rfl
  · rw [if_neg hblank]
    by_cases hover : maxNumber < number fromBase str
    · rw [if_pos ⟨rfl, hover⟩, decide_eq_true hover]
      rfl
    · rw [if_neg (fun hboth => hover hboth.2), decide_eq_false hover]
      rfl

omit h in
theorem unsignedValue_le {minus : Bool} {n : ℕ} (hn : n ≤ maxNumber) :
    unsignedValue minus n ≤ maxNumber := by
  unfold maxNumber at hn
  unfold unsignedValue maxNumber
  split_ifs <;> omega

/-- A text without a sign is converted back. -/
theorem filled_back (constBases : Bool) (hpos : 0 < toBase) (minus : Bool) {n : ℕ} (hn : n ≤ maxNumber) :
    ConvertRow.Filled ⟨some (resultText toBase minus n), some toBase, some fromBase⟩ constBases
      (digitsText fromBase.toNat (unsignedValue minus n)) := by
  obtain ⟨⟨hlow, hhigh⟩, hto⟩ := isInvalidBaseRange_eq_false h
  have htoBase : ValidBase toBase := ⟨by omega, by omega⟩
  have hback : isInvalidBaseRange toBase fromBase = false := by
    unfold isInvalidBaseRange
    simp only [gt_iff_lt, Bool.or_eq_false_iff, decide_eq_false_iff_not, not_lt]
    omega
  have htext : resultText toBase minus n = digitsText toBase.toNat (unsignedValue minus n) := if_pos hpos
  have hblank : ¬IsBlank (digitsText toBase.toNat (unsignedValue minus n)) := by
    rw [isBlank_iff, chars_digitsText htoBase, strip_digitsText htoBase]
    exact digitsText_ne_nil _ _
  have hfilled := filled hback constBases hblank
  rw [number_digitsText htoBase, isMinus_digitsText htoBase, min_eq_left (unsignedValue_le hn)] at hfilled
  rw [htext]
  rwa [show resultText fromBase false (unsignedValue minus n) =
    digitsText fromBase.toNat (unsignedValue minus n) from if_pos (by omega)] at hfilled

end

/-- **Conversions are exact.** For every text and all bases, there is an overflow iff the number of the text
does not fit into 64 bits. A row of spaces is null. Every other row has the text of its number, up to the
greatest one, its length from the first phase and its characters in its range from the second one; and if
the text is unsigned, converting it back gives the numeral of the same value. -/
theorem convert_exact {fromBase toBase : Int} (h : isInvalidBaseRange fromBase toBase = false)
    (constBases : Bool) (str : List Byte) :
    let row : ConvertRow := ⟨some str, some fromBase, some toBase⟩
    let n := min (number fromBase str) maxNumber
    row.isOverflow constBases = some (decide (maxNumber < number fromBase str)) ∧
      (IsBlank str → row.Null constBases) ∧
      (¬IsBlank str → row.Filled constBases (resultText toBase (isMinus str) n)) ∧
      (0 < toBase →
        ConvertRow.Filled ⟨some (resultText toBase (isMinus str) n), some toBase, some fromBase⟩ constBases
          (digitsText fromBase.toNat (unsignedValue (isMinus str) n))) :=
  ⟨isOverflow_eq h constBases str, null h constBases, filled h constBases,
    fun hpos => filled_back h constBases hpos _ (min_le_right _ _)⟩

/-- `-15` in base 16, of 64 bits. -/
theorem convert_exact_minusFifteen :
    ConvertRow.Filled ⟨some ("-15".toList.map chr), some 10, some 16⟩ false
      ("FFFFFFFFFFFFFFF1".toList.map chr) := by
  have h := (@convert_exact 10 16 (by decide) false ("-15".toList.map chr)).2.2.1
  have htext : resultText 16 (isMinus ("-15".toList.map chr))
      (min (number 10 ("-15".toList.map chr)) maxNumber) = "FFFFFFFFFFFFFFF1".toList.map chr := by
    decide +kernel
  rw [htext] at h
  refine h fun hblank => ?_
  exact absurd (hblank (chr '-') (by decide)) (by decide)

/-- A row of a space is null, where the numeral of its number is a zero. -/
theorem not_filled_blank : ¬ConvertRow.Filled ⟨some [chr ' '], some 10, some 10⟩ false
    (resultText 10 (isMinus [chr ' ']) (min (number 10 [chr ' ']) maxNumber)) := by
  intro h
  have hsize := h.sizeOf
  have hnull : ConvertRow.sizeOf false ⟨some [chr ' '], some 10, some 10⟩ = some (0, false) := by decide
  rw [hnull] at hsize
  exact absurd hsize (by simp)

end SparkRapids.NumberConverter
