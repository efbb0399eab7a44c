import SparkRapidsJni.Lib.Ascii
import SparkRapidsJni.Lib.WhileLoop

/-!
# `cast_string_to_float.cu`: one row

A warp reads one string, in batches of 32 characters, one for a lane: `string_to_float::operator()`. The
lanes vote (`ballot`) and pass their characters on (`shflDown`); what is not a character is the same for
all of them. The value that is written for the row is left out, the flags `_valid` and `_except` are what
`compute_validity` is called with.

Both loops of the parser read the next batch where the last one is used up. What can still be read
(`batches`) gets smaller with each turn, also from a state behind the end of the row, from where `_blen`
is negative for one turn. So every row is read to an end.

An exit sets the two flags together, with one exception: `inf` and `infinity` with other characters
behind are not valid, but `_except` is not set for them (`InfWithOthers`).
-/

namespace SparkRapids.CastStringToFloat

open Ascii

/-! ### Warps -/

/-- The state of a warp at one row. -/
structure Warp where
  bstart : ℤ
  blen : ℤ
  bpos : ℤ
  c : ℕ → Byte
  valid : Bool
  except : Bool

/-- `__ballot_sync` -/
def ballot (p : ℕ → Bool) : BitVec 32 := BitVec.ofFnLE fun lane : Fin 32 => p lane

/-- `__ffs`: one more than the number of the first bit that is set, or zero. -/
def ffs (mask : BitVec 32) : ℤ := ((List.range 32).find? mask.getLsbD).elim 0 fun lane => lane + 1

/-- `__popc` -/
def popc (mask : BitVec 32) : ℕ := (List.range 32).countP mask.getLsbD

/-- `__shfl_down_sync`: a lane that there is none above keeps its character. -/
def shflDown (c : ℕ → Byte) (delta : ℤ) (lane : ℕ) : Byte :=
  if (lane : ℤ) + delta < 32 then c (lane + delta).toNat else c lane

/-- `c == ch`, for one of the two cases of a letter -/
def isLetter (upper lower : Char) (c : Byte) : Bool := c = chr upper || c = chr lower

/-- `is_whitespace` -/
def isWhitespace (c : Byte) : Bool := c.toNat ≤ 0x1F || c = chr ' '

/-- `_valid = false; _except = true;` -/
def Warp.fail (s : Warp) : Warp := { s with valid := false, except := true }

/-- The position goes on by some characters. -/
def Warp.shift (s : Warp) (count : ℤ) : Warp :=
  { s with bpos := s.bpos + count, c := shflDown s.c count }

section Row

variable (row : List Byte)

/-- `_len` -/
def len : ℤ := row.length

/-- The characters of a batch; the lanes above it have zero. -/
def batchChars (bstart blen : ℤ) (lane : ℕ) : Byte :=
  if (lane : ℤ) < blen then row.getD (bstart + lane).toNat 0 else 0

/-- The batch at `_bstart` is read. -/
def readBatch (s : Warp) : Warp :=
  let blen := min 32 (len row - s.bstart)
  { s with bpos := 0, blen := blen, c := batchChars row s.bstart blen }

/-- The state before the first check. -/
def firstBatch : Warp :=
  let blen := min 32 (len row)
  { bstart := 0, blen := blen, bpos := 0, c := batchChars row 0 blen, valid := true, except := false }

/-! ### Whitespace -/

/-- The whitespace in the batch is skipped. -/
def skipWhitespace (s : Warp) : Warp :=
  let charsLeft := s.blen - s.bpos
  let nonWhitespaceMask := ballot fun lane => lane < charsLeft && !isWhitespace (s.c lane)
  let firstNonWhitespace := ffs nonWhitespaceMask - 1
  if firstNonWhitespace > 0 then s.shift firstNonWhitespace
  else if nonWhitespaceMask = 0 then { s with bpos := s.bpos + charsLeft } -- all whitespace
  else s

/-- One turn of the loop of `remove_leading_whitespace`. -/
def whitespaceTurn (s : Warp) : Warp ⊕ Warp :=
  let s := skipWhitespace s
  if s.bpos = s.blen then
    let s := { s with bstart := s.bstart + s.blen }
    -- nothing left to read?
    if s.bstart = len row then .inl s else .inr (readBatch row s)
  else .inl s

/-- What can be read from a place on. Behind the end there is one turn, which leads back to it. -/
def batches (bstart : ℤ) : ℕ :=
  if bstart < len row then (len row - bstart).toNat + 1 else if len row < bstart then 1 else 0

/-- The measure of both loops: one turn more if the batch is not a new one. -/
def Warp.left (s : Warp) : ℕ :=
  if s.bpos = 0 ∧ s.blen = min 32 (len row - s.bstart) then batches row s.bstart
  else batches row (s.bstart + s.blen) + 1

variable {row}

theorem readBatch_left {s s' : Warp} (hstart : s'.bstart = s.bstart + s.blen)
    (hend : s'.bstart ≠ len row) : (readBatch row s').left row < s.left row := by
  have hnew : (readBatch row s').left row = batches row s'.bstart := if_pos ⟨rfl, rfl⟩
  rw [hnew, Warp.left]
  split_ifs with hfresh
  · -- a whole batch was read
    obtain ⟨-, hblen⟩ := hfresh
    unfold batches
    split_ifs <;> omega
  · rw [hstart]
    exact Nat.lt_succ_self _

/-- The batch and the flags are the same. -/
structure Warp.SameBatch (s s' : Warp) : Prop where
  bstart : s'.bstart = s.bstart
  blen : s'.blen = s.blen
  valid : s'.valid = s.valid
  except : s'.except = s.except

theorem Warp.SameBatch.of_eq {s s' : Warp} (h : s' = s) : s.SameBatch s' := by
  subst h
  exact ⟨rfl, rfl, rfl, rfl⟩

theorem Warp.SameBatch.trans {s s' s'' : Warp} (h : s.SameBatch s') (h' : s'.SameBatch s'') :
    s.SameBatch s'' :=
  ⟨h'.bstart.trans h.bstart, h'.blen.trans h.blen, h'.valid.trans h.valid, h'.except.trans h.except⟩

theorem skipWhitespace_sameBatch (s : Warp) : s.SameBatch (skipWhitespace s) := by
  unfold skipWhitespace
  dsimp only
  split_ifs <;> exact ⟨rfl, rfl, rfl, rfl⟩

theorem whitespaceTurn_left (s s' : Warp) (h : whitespaceTurn row s = .inr s') :
    s'.left row < s.left row := by
  have hsame := skipWhitespace_sameBatch s
  unfold whitespaceTurn at h
  dsimp only at h
  split_ifs at h with hpos hend
  obtain rfl := Sum.inr.inj h
  apply readBatch_left _ hend
  rw [← hsame.bstart, ← hsame.blen]

variable (row)

/-- `remove_leading_whitespace` -/
def removeLeadingWhitespace (s : Warp) : Warp :=
  doWhile (whitespaceTurn row) (Warp.left row) whitespaceTurn_left s

/-! ### Signs and words -/

/-- `check_for_sign`: 1, 0 or -1 for the sign. -/
def checkForSign (s : Warp) : Warp × ℤ :=
  let signMask := ballot fun lane => lane = 0 && (s.c lane = chr '+' || s.c lane = chr '-')
  if signMask ≠ 0 then
    let minusMask := ballot fun lane => lane = 0 && s.c lane = chr '-'
    (s.shift 1, if minusMask ≠ 0 then -1 else 1)
  else (s, 0)

/-- `check_for_nan` -/
def checkForNan (s : Warp) (sign : ℤ) : Warp × Bool :=
  let nanMask := ballot fun lane =>
    (lane = 0 && isLetter 'N' 'n' (s.c lane)) || (lane = 1 && isLetter 'A' 'a' (s.c lane)) ||
      (lane = 2 && isLetter 'N' 'n' (s.c lane))
  if nanMask = 0x7 then
    -- whitespace may follow
    let s := removeLeadingWhitespace row (s.shift 3)
    if s.bpos = len row && sign = 0 then (s, true) else (s.fail, false)
  else (s, false)

/-- The end of `check_for_inf`: only whitespace may follow. -/
def checkBehindInf (s : Warp) : Warp × Bool :=
  let s := removeLeadingWhitespace row s
  if s.bpos = len row then (s, true) else ({ s with valid := false }, true)

/-- `check_for_inf` -/
def checkForInf (s : Warp) : Warp × Bool :=
  let infMask := ballot fun lane =>
    (lane = 0 && isLetter 'I' 'i' (s.c lane)) || (lane = 1 && isLetter 'N' 'n' (s.c lane)) ||
      (lane = 2 && isLetter 'F' 'f' (s.c lane))
  if infMask = 0x7 then
    let s := s.shift 3
    if s.bpos = len row then (s, true)
    else
      -- see if we have the whole word
      let infinityMask := ballot fun lane =>
        (lane = 0 && isLetter 'I' 'i' (s.c lane)) || (lane = 1 && isLetter 'N' 'n' (s.c lane)) ||
          (lane = 2 && isLetter 'I' 'i' (s.c lane)) || (lane = 3 && isLetter 'T' 't' (s.c lane)) ||
          (lane = 4 && isLetter 'Y' 'y' (s.c lane))
      if infinityMask = 0x1f then
        if s.bpos + 5 = len row then ({ s with bpos := s.bpos + 5 }, true)
        else checkBehindInf row (s.shift 5)
      else checkBehindInf row s
  else (s, false)

/-! ### Digits -/

/-- The variables of `parse_digits`, next to the state of the warp. -/
structure Parsing extends Warp where
  digits : ℕ
  realDigits : ℤ
  truncatedDigits : ℤ
  decimal : Bool
  decimalPos : ℤ
  seenValidDigit : Bool
  numChars : ℤ
  firstNonDigit : ℤ

/-- `max_safe_digits` -/
def maxSafeDigits : ℤ := 19

/-- `max_holding` -/
def maxHolding : ℕ := (2 ^ 64 - 1 - 9) / 10

/-- `ipow[i]` -/
def ipow (i : ℕ) : ℕ := 10 ^ i

/-- The sum of the digits of the lanes below `count`, by their places. -/
def warpDigits (c : ℕ → Byte) (count : ℕ) : ℕ :=
  ((List.range count).map fun lane => digit (c lane) * ipow (count - lane - 1)).sum

namespace Parsing

/-- Leading zeros are stripped, if the sum is zero and there is no decimal point. -/
def stripZeros (p : Parsing) : Parsing :=
  let p : Parsing := { p with numChars := p.blen - p.bpos }
  if !p.decimal && p.digits = 0 then
    let zeroMask := ballot fun lane => lane < p.numChars && p.c lane ≠ chr '0'
    -- the mask is 0 if all are zeros
    let nzPos : ℤ := if zeroMask = 0 then p.numChars else ffs zeroMask - 1
    if nzPos > 0 then
      { p with
        toWarp := p.toWarp.shift nzPos
        numChars := p.numChars - nzPos
        seenValidDigit := true }
    else p
  else p

def decimalMask (p : Parsing) : BitVec 32 :=
  ballot fun lane => lane < p.numChars && p.c lane = chr '.'

/-- A decimal point is noted, and its character stripped out. -/
def stripDecimal (p : Parsing) : Parsing :=
  if p.decimalMask ≠ 0 then
    let dpos := ffs p.decimalMask - 1
    { p with
      decimalPos := dpos + p.realDigits
      decimal := true
      c := fun lane => if (lane : ℤ) ≥ dpos then shflDown p.c 1 lane else p.c lane
      numChars := p.numChars - 1 }
  else p

/-- The characters up to the first that is not a digit. -/
def keepDigits (p : Parsing) : Parsing :=
  let nonDigitMask := ballot fun lane => lane < p.numChars && !isDigit (p.c lane)
  let firstNonDigit := ffs nonDigitMask
  { p with
    firstNonDigit := firstNonDigit
    seenValidDigit := p.seenValidDigit || (p.numChars > 0 && firstNonDigit ≠ 1)
    numChars := min p.numChars (if firstNonDigit > 0 then firstNonDigit - 1 else p.numChars) }

/-- The digits that are left of the ones that can be added without a check. -/
def addMore (p : Parsing) (safeCount : ℤ) : Parsing :=
  if safeCount < p.numChars then
    -- we're already past max_holding so we have to start truncating
    if p.digits > maxHolding then
      { p with truncatedDigits := p.truncatedDigits + (p.numChars - safeCount) }
    else
      -- we may be able to add one more digit
      let lastDigit := digit (p.c safeCount.toNat)
      if p.digits * 10 + lastDigit ≤ maxHolding then
        { p with
          digits := p.digits * 10 + lastDigit
          truncatedDigits := p.truncatedDigits + (p.numChars - (safeCount - 1)) }
      else { p with truncatedDigits := p.truncatedDigits + (p.numChars - safeCount) }
  else p

/-- The digits are added to the sum, or truncated. -/
def addDigits (p : Parsing) : Parsing :=
  if p.digits > maxHolding then { p with truncatedDigits := p.truncatedDigits + p.numChars }
  else
    let safeCount := min (maxSafeDigits - p.realDigits) p.numChars
    if safeCount > 0 then
      addMore
        { p with
          digits := (p.digits * ipow safeCount.toNat + warpDigits p.c safeCount.toNat) % 2 ^ 64
          realDigits := p.realDigits + safeCount }
        safeCount
    else addMore p safeCount

/-- The digits and the exponent. -/
def result (p : Parsing) : ℕ × ℤ :=
  if p.digits = 0 then (0, 0)
  else
    let totalDigits := p.realDigits + p.truncatedDigits
    (p.digits, p.truncatedDigits - if p.decimal then totalDigits - p.decimalPos else 0)

/-- The position behind the characters, and behind the decimal point. -/
def advance (p : Parsing) (hasDecimal : Bool) : Parsing :=
  { p with bpos := p.bpos + p.numChars + if hasDecimal then 1 else 0 }

/-- The end of a turn: the next batch, or the end of the digits. -/
def nextDigits (p : Parsing) : (Warp × ℕ × ℤ) ⊕ Parsing :=
  if p.bpos = p.blen then
    let p := { p with bstart := p.bstart + p.blen }
    -- nothing left to read?
    if p.bstart = len row then .inl (p.toWarp, p.result)
    else .inr { p with toWarp := readBatch row p.toWarp }
  else
    let p := { p with c := shflDown p.c p.numChars }
    -- if we encountered a non-digit, we're done
    if p.firstNonDigit ≠ 0 then .inl (p.toWarp, p.result) else .inr p

/-- One turn of the loop of `parse_digits`. -/
def turn (p : Parsing) : (Warp × ℕ × ℤ) ⊕ Parsing :=
  let p := p.stripZeros
  let decimalMask := p.decimalMask
  -- more than one decimal
  if decimalMask ≠ 0 && (p.decimal || popc decimalMask > 1) then .inl (p.toWarp.fail, 0, 0)
  else
    let p := p.stripDecimal.keepDigits
    if p.decimalPos > 0 && p.decimalPos > p.numChars + p.realDigits then .inl (p.toWarp.fail, 0, 0)
    else if p.numChars = 0 && p.blen = len row then
      .inl (if !p.seenValidDigit then p.toWarp.fail else p.toWarp, 0, 0)
    else nextDigits row (p.addDigits.advance (decimalMask ≠ 0))

variable {row}

theorem stripZeros_sameBatch (p : Parsing) : p.SameBatch p.stripZeros.toWarp := by
  unfold stripZeros
  dsimp only
  split_ifs <;> exact ⟨rfl, rfl, rfl, rfl⟩

/-- The characters that are left of the batch. -/
theorem stripZeros_numChars (p : Parsing) :
    p.stripZeros.numChars = p.stripZeros.blen - p.stripZeros.bpos := by
  unfold stripZeros
  dsimp only
  split_ifs
  all_goals first
    | exact sub_sub _ _ _
    | rfl

theorem stripDecimal_sameBatch (p : Parsing) : p.SameBatch p.stripDecimal.toWarp := by
  unfold stripDecimal
  dsimp only
  split_ifs <;> exact ⟨rfl, rfl, rfl, rfl⟩

theorem stripDecimal_bpos (p : Parsing) : p.stripDecimal.bpos = p.bpos := by
  unfold stripDecimal
  dsimp only
  split_ifs <;> rfl

theorem stripDecimal_numChars (p : Parsing) :
    p.stripDecimal.numChars + (if p.decimalMask ≠ 0 then 1 else 0) = p.numChars := by
  unfold stripDecimal
  dsimp only
  split_ifs
  · exact sub_add_cancel _ _
  · exact add_zero _

theorem keepDigits_numChars (p : Parsing) (h : p.keepDigits.firstNonDigit = 0) :
    p.keepDigits.numChars = p.numChars := by
  have hfirst : ¬p.keepDigits.firstNonDigit > 0 := h.not_gt
  have hkept : p.keepDigits.numChars = min p.numChars
    (if p.keepDigits.firstNonDigit > 0 then p.keepDigits.firstNonDigit - 1 else p.numChars) := rfl
  rw [hkept, if_neg hfirst, min_self]

/-- The digits are added next to the state of the warp. -/
structure SameChars (p p' : Parsing) : Prop where
  warp : p'.toWarp = p.toWarp
  numChars : p'.numChars = p.numChars
  firstNonDigit : p'.firstNonDigit = p.firstNonDigit

theorem addMore_sameChars (p : Parsing) (safeCount : ℤ) : p.SameChars (p.addMore safeCount) := by
  unfold addMore
  dsimp only
  split_ifs <;> exact ⟨rfl, rfl, rfl⟩

theorem addDigits_sameChars (p : Parsing) : p.SameChars p.addDigits := by
  unfold addDigits
  dsimp only
  split_ifs
  · exact ⟨rfl, rfl, rfl⟩
  · obtain ⟨hwarp, hchars, hfirst⟩ := addMore_sameChars
      { p with
        digits := (p.digits * ipow (min (maxSafeDigits - p.realDigits) p.numChars).toNat +
          warpDigits p.c (min (maxSafeDigits - p.realDigits) p.numChars).toNat) % 2 ^ 64
        realDigits := p.realDigits + min (maxSafeDigits - p.realDigits) p.numChars }
      (min (maxSafeDigits - p.realDigits) p.numChars)
    exact ⟨hwarp, hchars, hfirst⟩
  · exact addMore_sameChars _ _

/-- The state before the end of a turn. -/
def parsed (p : Parsing) : Parsing :=
  p.stripZeros.stripDecimal.keepDigits.addDigits.advance (p.stripZeros.decimalMask ≠ 0)

theorem parsed_sameBatch (p : Parsing) : p.SameBatch p.parsed.toWarp := by
  have hadded := Warp.SameBatch.of_eq (addDigits_sameChars p.stripZeros.stripDecimal.keepDigits).warp
  have hwarp : p.stripZeros.stripDecimal.toWarp.SameBatch p.parsed.toWarp :=
    ⟨hadded.bstart, hadded.blen, hadded.valid, hadded.except⟩
  exact ((stripZeros_sameBatch p).trans (stripDecimal_sameBatch p.stripZeros)).trans hwarp

/-- Without a character that is not a digit, the batch is used up. -/
theorem parsed_bpos (p : Parsing) (h : p.parsed.firstNonDigit = 0) : p.parsed.bpos = p.parsed.blen := by
  have hadded := addDigits_sameChars p.stripZeros.stripDecimal.keepDigits
  have hfirst : p.stripZeros.stripDecimal.keepDigits.firstNonDigit = 0 :=
    hadded.firstNonDigit.symm.trans h
  have hpos : p.parsed.bpos = p.stripZeros.bpos + p.stripZeros.stripDecimal.numChars +
      if p.stripZeros.decimalMask ≠ 0 then 1 else 0 := by
    have hbpos : p.stripZeros.stripDecimal.keepDigits.addDigits.bpos = p.stripZeros.bpos :=
      (congrArg Warp.bpos hadded.warp).trans (stripDecimal_bpos _)
    have hchars := hadded.numChars.trans (keepDigits_numChars _ hfirst)
    unfold parsed advance
    dsimp only
    rw [hbpos, hchars]
    simp only [decide_eq_true_eq]
  rw [hpos, add_assoc, stripDecimal_numChars, stripZeros_numChars, add_sub_cancel,
    (parsed_sameBatch p).blen, (stripZeros_sameBatch p).blen]

theorem turn_left (p p' : Parsing) (h : p.turn row = .inr p') : p'.left row < p.left row := by
  have hsame := parsed_sameBatch p
  unfold turn at h
  dsimp only at h
  split_ifs at h with hmany hpos hend
  have hnext : nextDigits row p.parsed = .inr p' := h
  unfold nextDigits at hnext
  dsimp only at hnext
  split_ifs at hnext with hused hend' hfirst
  · obtain rfl := Sum.inr.inj hnext
    apply readBatch_left _ hend'
    rw [← hsame.bstart, ← hsame.blen]
  · exact absurd (parsed_bpos p (not_not.1 hfirst)) hused

variable (row)

end Parsing

/-- `parse_digits` -/
def parseDigits (s : Warp) : Warp × ℕ × ℤ :=
  doWhile (Parsing.turn row) (fun p => p.left row) Parsing.turn_left
    { s with
      digits := 0
      realDigits := 0
      truncatedDigits := 0
      decimal := false
      decimalPos := 0
      seenValidDigit := false
      numChars := 0
      firstNonDigit := 0 }

/-! ### The whole row -/

/-- `parse_manual_exp` -/
def parseManualExp (s : Warp) : Warp × ℤ :=
  if s.bpos < s.blen then
    let expMask := ballot fun lane => lane = 0 && isLetter 'E' 'e' (s.c lane)
    if expMask = 0 then (s, 0)
    else
      let expSignMask := ballot fun lane => lane = 1 && (s.c lane = chr '-' || s.c lane = chr '+')
      let minusMask := ballot fun lane => lane = 1 && s.c lane = chr '-'
      let expSign : ℤ := if expSignMask ≠ 0 then if minusMask ≠ 0 then -1 else 1 else 1
      let s := s.shift (if expSignMask ≠ 0 then 2 else 1)
      -- the largest valid exponent for a double is 4 digits
      let numChars := min 4 (s.blen - s.bpos)
      let nonDigitMask := ballot fun lane => lane < numChars && !isDigit (s.c lane)
      let firstNonDigit := ffs nonDigitMask
      let numDigits := if firstNonDigit > 0 then firstNonDigit - 1 else numChars
      if numDigits = 0 then (s.fail, 0)
      else (s.shift numDigits, warpDigits s.c numDigits.toNat * expSign)
  else (s, 0)

/-- `check_trailing_bytes` -/
def checkTrailingBytes (s : Warp) : Warp :=
  let fMask := ballot fun lane =>
    lane = 0 && (isLetter 'F' 'f' (s.c lane) || isLetter 'D' 'd' (s.c lane))
  -- f is a valid character at the end of a float string
  let s := if s.blen - s.bpos > 0 && fMask ≠ 0 then s.shift 1 else s
  if s.blen - s.bpos = 0 then s
  else
    let s := removeLeadingWhitespace row s
    if s.blen - s.bpos > 0 then s.fail else s

/-- The remainder as a floating point number. -/
def convertNumber (s : Warp) : Warp :=
  let parsed := parseDigits row s
  if !parsed.1.valid then parsed.1
  else
    let manual := parseManualExp parsed.1
    if !manual.1.valid then manual.1
    else if parsed.2.1 = 0 then
      -- 0 / -0
      let s := removeLeadingWhitespace row manual.1
      if s.bpos < s.blen then s.fail else s
    else checkTrailingBytes row manual.1

/-- The row behind `check_for_nan`. -/
def behindNan : Warp × Bool :=
  let signed := checkForSign (removeLeadingWhitespace row (firstBatch row))
  checkForNan row signed.1 signed.2

/-- `string_to_float::operator()` of a row that is not null, up to the flags for `compute_validity`. -/
def convert : Warp :=
  let nan := behindNan row
  if nan.2 then nan.1
  else
    let inf := checkForInf row nan.1
    if inf.2 then inf.1 else convertNumber row inf.1

/-- The word `inf` or `infinity` with other characters behind it, after what may stand before it. -/
def InfWithOthers : Prop :=
  (behindNan row).2 = false ∧ (behindNan row).1.valid = true ∧
    (checkForInf row (behindNan row).1).2 = true ∧ (checkForInf row (behindNan row).1).1.valid = false

instance : Decidable (InfWithOthers row) := inferInstanceAs (Decidable (_ ∧ _))

/-! ### The flags -/

variable {row}

/-- The flags are the same. -/
structure Warp.SameFlags (s s' : Warp) : Prop where
  valid : s'.valid = s.valid
  except : s'.except = s.except

/-- The two flags are set together. -/
def Warp.Agree (s : Warp) : Prop := s.except = !s.valid

theorem Warp.SameFlags.agree {s s' : Warp} (h : s.SameFlags s') (hs : s.Agree) : s'.Agree := by
  rw [Agree, h.valid, h.except]
  exact hs

theorem Warp.SameFlags.trans {s s' s'' : Warp} (h : s.SameFlags s') (h' : s'.SameFlags s'') :
    s.SameFlags s'' :=
  ⟨h'.valid.trans h.valid, h'.except.trans h.except⟩

theorem Warp.SameBatch.sameFlags {s s' : Warp} (h : s.SameBatch s') : s.SameFlags s' :=
  ⟨h.valid, h.except⟩

theorem Warp.agree_fail (s : Warp) : s.fail.Agree := rfl

theorem Warp.sameFlags_shift (s : Warp) (count : ℤ) : s.SameFlags (s.shift count) := ⟨rfl, rfl⟩

theorem removeLeadingWhitespace_sameFlags (s : Warp) :
    s.SameFlags (removeLeadingWhitespace row s) := by
  apply doWhile_rule (I := s.SameFlags) (Q := s.SameFlags) _ _ (⟨rfl, rfl⟩ : s.SameFlags s)
  · intro s1 s2 h hturn
    have hskip := h.trans (skipWhitespace_sameBatch s1).sameFlags
    unfold whitespaceTurn at hturn
    dsimp only at hturn
    split_ifs at hturn
    obtain rfl := Sum.inr.inj hturn
    exact ⟨hskip.valid, hskip.except⟩
  · intro s1 s2 h hturn
    have hskip := h.trans (skipWhitespace_sameBatch s1).sameFlags
    unfold whitespaceTurn at hturn
    dsimp only at hturn
    split_ifs at hturn
    · obtain rfl := Sum.inl.inj hturn
      exact ⟨hskip.valid, hskip.except⟩
    · obtain rfl := Sum.inl.inj hturn
      exact hskip

theorem checkForSign_sameFlags (s : Warp) : s.SameFlags (checkForSign s).1 := by
  unfold checkForSign
  dsimp only
  split_ifs <;> exact ⟨rfl, rfl⟩

theorem checkForNan_agree {s : Warp} (hs : s.Agree) (sign : ℤ) :
    (checkForNan row s sign).1.Agree := by
  have hbehind : (removeLeadingWhitespace row (s.shift 3)).Agree :=
    (removeLeadingWhitespace_sameFlags _).agree ((s.sameFlags_shift 3).agree hs)
  unfold checkForNan
  dsimp only
  split_ifs
  · exact hbehind
  · exact Warp.agree_fail _
  · exact hs

/-- `check_for_inf` does not set `_except`; where it finds the word, it may have set `_valid`. -/
theorem checkForInf_flags (s : Warp) :
    (checkForInf row s).1.except = s.except ∧
      ((checkForInf row s).1.valid = s.valid ∨
        (checkForInf row s).2 = true ∧ (checkForInf row s).1.valid = false) := by
  have hbehind : ∀ s' : Warp, s.SameFlags s' →
      (checkBehindInf row s').1.except = s.except ∧
        ((checkBehindInf row s').1.valid = s.valid ∨
          (checkBehindInf row s').2 = true ∧ (checkBehindInf row s').1.valid = false) := by
    intro s' h
    have hskip : s.SameFlags (removeLeadingWhitespace row s') :=
      h.trans (removeLeadingWhitespace_sameFlags s')
    unfold checkBehindInf
    dsimp only
    split_ifs
    · exact ⟨hskip.except, .inl hskip.valid⟩
    · exact ⟨hskip.except, .inr ⟨rfl, rfl⟩⟩
  unfold checkForInf
  dsimp only
  split_ifs
  · exact ⟨rfl, .inl rfl⟩
  · exact ⟨rfl, .inl rfl⟩
  · exact hbehind _ ⟨rfl, rfl⟩
  · exact hbehind _ ⟨rfl, rfl⟩
  · exact ⟨rfl, .inl rfl⟩

theorem parseDigits_agree {s : Warp} (hs : s.Agree) : (parseDigits row s).1.Agree := by
  refine doWhile_rule (I := fun p : Parsing => p.Agree)
    (Q := fun r : Warp × ℕ × ℤ => r.1.Agree) ?_ ?_ hs
  · intro p p' h hturn
    have hparsed := (Parsing.parsed_sameBatch p).sameFlags.agree h
    unfold Parsing.turn at hturn
    dsimp only at hturn
    split_ifs at hturn
    have hnext : Parsing.nextDigits row p.parsed = .inr p' := hturn
    unfold Parsing.nextDigits at hnext
    dsimp only at hnext
    split_ifs at hnext
    · obtain rfl := Sum.inr.inj hnext
      exact hparsed
    · obtain rfl := Sum.inr.inj hnext
      exact hparsed
  · intro p r h hturn
    have hparsed := (Parsing.parsed_sameBatch p).sameFlags.agree h
    -- stripping zeros and the point keeps the flags
    have hkept : p.stripZeros.stripDecimal.keepDigits.Agree :=
      ((Parsing.stripZeros_sameBatch p).trans
        (Parsing.stripDecimal_sameBatch p.stripZeros)).sameFlags.agree h
    unfold Parsing.turn at hturn
    dsimp only at hturn
    split_ifs at hturn
    · obtain rfl := Sum.inl.inj hturn
      exact Warp.agree_fail _
    · obtain rfl := Sum.inl.inj hturn
      exact Warp.agree_fail _
    · obtain rfl := Sum.inl.inj hturn
      exact Warp.agree_fail _
    · obtain rfl := Sum.inl.inj hturn
      exact hkept
    · -- the turn ends with the digits it has parsed
      have hnext : Parsing.nextDigits row p.parsed = .inl r := hturn
      unfold Parsing.nextDigits at hnext
      dsimp only at hnext
      split_ifs at hnext
      · obtain rfl := Sum.inl.inj hnext
        exact hparsed
      · obtain rfl := Sum.inl.inj hnext
        exact hparsed

theorem parseManualExp_agree {s : Warp} (hs : s.Agree) : (parseManualExp s).1.Agree := by
  unfold parseManualExp
  dsimp only
  split_ifs
  all_goals first
    | exact Warp.agree_fail _
    | exact hs

theorem checkTrailingBytes_agree {s : Warp} (hs : s.Agree) : (checkTrailingBytes row s).Agree := by
  have hskip : ∀ s' : Warp, s'.Agree → (removeLeadingWhitespace row s').Agree := fun s' h =>
    (removeLeadingWhitespace_sameFlags s').agree h
  unfold checkTrailingBytes
  dsimp only
  split_ifs
  all_goals first
    | exact Warp.agree_fail _
    | exact hs
    | exact hskip _ hs

theorem convertNumber_agree {s : Warp} (hs : s.Agree) : (convertNumber row s).Agree := by
  have hdigits : (parseDigits row s).1.Agree := parseDigits_agree hs
  have hexp := parseManualExp_agree hdigits
  unfold convertNumber
  dsimp only
  split_ifs
  · exact hdigits
  · exact hexp
  · exact Warp.agree_fail _
  · exact (removeLeadingWhitespace_sameFlags _).agree hexp
  · exact checkTrailingBytes_agree hexp

theorem behindNan_agree : (behindNan row).1.Agree := by
  have hfirst : (firstBatch row).Agree := rfl
  have hsign := (checkForSign_sameFlags (removeLeadingWhitespace row (firstBatch row))).agree
    ((removeLeadingWhitespace_sameFlags _).agree hfirst)
  exact checkForNan_agree hsign _

/-- `_except` says that a row is not valid, except for an infinity with other characters behind it. -/
theorem except_convert_iff :
    (convert row).except = true ↔ (convert row).valid = false ∧ ¬InfWithOthers row := by
  have hnan : (behindNan row).1.Agree := behindNan_agree
  have hinf := @checkForInf_flags row (behindNan row).1
  obtain ⟨hexcept, hvalid⟩ := hinf
  have hagree : ∀ s : Warp, s.Agree → (s.except = true ↔ s.valid = false) := by
    intro s hs
    rw [hs, Bool.not_eq_true']
  unfold convert InfWithOthers
  dsimp only
  by_cases hisNan : (behindNan row).2 = true
  · rw [if_pos hisNan, hagree _ hnan, hisNan]
    simp
  rw [Bool.not_eq_true] at hisNan
  rw [hisNan]
  by_cases hisInf : (checkForInf row (behindNan row).1).2 = true
  · rw [if_neg Bool.false_ne_true, if_pos hisInf, hexcept, hagree _ hnan, hisInf]
    -- the word is found: `_valid` may have been set before, by `check_for_nan`
    rcases hvalid with hvalid | ⟨-, hvalid⟩
    · rw [hvalid]
      cases (behindNan row).1.valid <;> simp
    · rw [hvalid]
      cases (behindNan row).1.valid <;> simp
  · have hsame := hvalid.resolve_right fun h => hisInf h.1
    have hbehind : (checkForInf row (behindNan row).1).1.Agree :=
      Warp.SameFlags.agree ⟨hsame, hexcept⟩ hnan
    rw [if_neg Bool.false_ne_true, if_neg hisInf, hagree _ (convertNumber_agree hbehind)]
    simp [hisInf]

end Row

end SparkRapids.CastStringToFloat
