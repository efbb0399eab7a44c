import SparkRapidsJni.CastString.DecimalExact
import SparkRapidsJni.Lib.DigitRounding

/-!
# `cast_string.cu`: the digits of decimals

`string_to_decimal_kernel` goes through the digits of a row that the scan has accepted, up to the last digit
that the scale keeps, and rounds with the one behind it. Then it appends the zeros that are missing, first up
to the decimal point and then up to the scale. How many there are is computed from the digits that were
counted on the way.
-/

namespace SparkRapids.CastString

open Ascii MachineInt Numerals

/-! ### The code -/

/-- A value of the type, where machine integers wrap around. -/
def IntType.wrapping (T : IntType) (x : Int) : Option Int := some (T.wrap x)

/-- The type of the decimals of a precision, if there is one. -/
def decimalTypeOf (precision : ℕ) : Option DecimalType :=
  if precision ≤ 9 then some .int32
  else if precision ≤ 18 then some .int64
  else if precision ≤ 38 then some .int128
  else none

/-- The loop of `count_digits`. -/
@[grind] def countDigitsLoop : ℕ → Int → ℕ
  | 0, _ => 0
  | n + 1, val => if val = 0 then 0 else countDigitsLoop n (val.tdiv 10) + 1

/-- `count_digits`. There are no more turns than the value is large. -/
def countDigits (val : Int) : ℕ := countDigitsLoop val.natAbs val

/-- The loop of `count_significant_digits`. -/
@[grind] def countSignificantDigitsLoop (numDigits : Int) : List Byte → (count digitsFound : ℕ) → ℕ
  | [], count, _ => count
  | chr :: str, count, digitsFound =>
    if ¬(digitsFound : Int) < numDigits then count
    else if chr = Ascii.chr 'e' ∨ chr = Ascii.chr 'E' then count
    else if chr ≠ Ascii.chr '.' then
      if count ≠ 0 ∨ chr ≠ Ascii.chr '0' then
        countSignificantDigitsLoop numDigits str (count + 1) (digitsFound + 1)
      else countSignificantDigitsLoop numDigits str count (digitsFound + 1)
    else countSignificantDigitsLoop numDigits str count digitsFound

/-- `count_significant_digits` -/
def countSignificantDigits (str : List Byte) (numDigits : Int) : ℕ :=
  countSignificantDigitsLoop numDigits str 0 0

/-- The variables of the march over the digits. The counters count characters of the row, and so they are
`int`s. -/
@[ext] structure March where
  decimalLocation : Int
  numPreciseDigits : ℕ
  totalDigits : ℕ
  threadVal : Int
  foundSigDigit : Bool
  roundingDigits : ℕ
  deriving DecidableEq, Repr

namespace March

/-- The variables before the march. -/
def start (decimalLocation : Int) : March := ⟨decimalLocation, 0, 0, 0, false, 0⟩

section

variable (T : IntType) (positive : Bool)

/-- Rounding with the digit behind the last one. There is no result where `valid` is set to false. -/
def round (newDigit : ℕ) (s : March) : Option March :=
  if newDigit ≥ 5 then
    match willOverflow T T.wrapping s.threadVal 1 positive with
    | some false =>
      let origVal := s.threadVal
      let threadVal := T.wrap (if positive then origVal + 1 else origVal - 1)
      if origVal ≠ 0 ∧ countDigits threadVal > countDigits origVal then
        -- more digits now than before rounding
        some { s with
          threadVal
          totalDigits := s.totalDigits + 1
          numPreciseDigits := s.numPreciseDigits + 1
          decimalLocation := int32 (s.decimalLocation + 1)
          roundingDigits := s.roundingDigits + 1 }
      else some { s with threadVal }
    | _ => none
  else some s

/-- The counters with one more digit. -/
def count (newDigit : ℕ) (s : March) : March :=
  let totalDigits := s.totalDigits + 1
  if s.foundSigDigit ∨ (totalDigits : Int) > s.decimalLocation ∨ newDigit ≠ 0 then
    { s with totalDigits, foundSigDigit := true, numPreciseDigits := s.numPreciseDigits + 1 }
  else { s with totalDigits }

/-- The loop over the characters. -/
def run (precision lastDigit : Int) : (first : Bool) → List Byte → March → Option March
  | _, [], s => some s
  | first, chr :: chars, s =>
    if chr = Ascii.chr '.' then run precision lastDigit false chars s
    else if !isDigit chr then some s
    else
      let newDigit := digit chr
      if (s.numPreciseDigits : Int) + 1 > precision ∨ (s.totalDigits : Int) + 1 > lastDigit then
        s.round T positive newDigit
      else
        match processValue T T.wrapping first s.threadVal newDigit positive with
        | some (true, newVal) =>
          run precision lastDigit false chars { s.count newDigit with threadVal := newVal }
        | _ => none

end

end March

/-- The loops that append zeros. There is no result where a value overflows. -/
@[grind] def padZeros (T : IntType) (positive : Bool) : ℕ → Int → Option Int
  | 0, threadVal => some threadVal
  | n + 1, threadVal =>
    if willOverflowTimesTen T threadVal positive then none
    else padZeros T positive n (T.wrap (threadVal * 10))

/-- The kernel behind the march. -/
def March.finish (T : IntType) (positive : Bool) (precision scale : Int) (significantDigitsInString : ℕ)
    (s : March) : Option Int :=
  let significantPrecedingZeros := if s.decimalLocation < 0 then int32 (-s.decimalLocation) else 0
  let zerosToDecimal := max 0
    (if scale > 0 then int32 (int32 (s.decimalLocation - s.totalDigits) - scale)
      else int32 (s.decimalLocation - s.totalDigits))
  let significantDigitsBeforeDecimal := int32 (significantDigitsInString + zerosToDecimal + s.roundingDigits)
  -- too many digits required to store decimal
  let leadingZeros := (s.totalDigits : Int) - s.numPreciseDigits
  if precision + scale < int32 (s.decimalLocation - leadingZeros) then none
  else
    -- add zero pad until we hit the decimal location
    (padZeros T positive zerosToDecimal.toNat s.threadVal).bind fun threadVal =>
      -- add zero pad to get to scale
      let numPreciseDigits := int32 (s.numPreciseDigits + zerosToDecimal)
      let digitsAfterDecimal :=
        int32 (int32 (numPreciseDigits - significantDigitsBeforeDecimal) + significantPrecedingZeros)
      let digitsNeededAfterDecimal := min (int32 (precision - significantDigitsBeforeDecimal)) (-scale)
      padZeros T positive (digitsNeededAfterDecimal - digitsAfterDecimal).toNat threadVal

/-- The kernel behind the scan, from the first digit on. -/
def decimalFrom (T : IntType) (precision scale : Int) (chars : List Byte) (positive : Bool)
    (decimalLocation : Int) : Option Int :=
  let significantDigitsInString := countSignificantDigits chars decimalLocation
  let lastDigit := int32 (decimalLocation - scale)
  (if lastDigit ≥ 0 then
      (March.start decimalLocation).run T positive precision lastDigit true chars
    else some (March.start decimalLocation)).bind
      (March.finish T positive precision scale significantDigitsInString)

/-- `string_to_decimal_kernel`, of a row that is not null and the bytes behind it: the decimal, or null. There
is no result where a byte behind both is read. -/
def stringToDecimalKernel (T : IntType) (precision scale : Int) (strip : Bool) (row behind : List Byte) :
    Option (Option Int) :=
  (validateAndExponent T strip row behind).map fun validated =>
    validated.bind fun r =>
      decimalFrom T precision scale (row.drop r.firstDigit) r.positive r.decimalLocation

/-! ### Appending zeros -/

section

variable {T : IntType} {pos first : Bool} {a p m : ℕ} {L location : Int} {c : Byte}
  {chars tail ds done kept rest : List Byte} {s : March}

theorem signedNat_mul (pos : Bool) (a b : ℕ) :
    signedNat pos a * (b : Int) = signedNat pos (a * b) := by
  unfold signedNat
  cases pos with
  | true => exact (Nat.cast_mul a b).symm
  | false =>
    show -(a : Int) * b = -((a * b : ℕ) : Int)
    push_cast
    ring

theorem signedNat_zero (pos : Bool) : signedNat pos 0 = 0 := by cases pos <;> rfl

/-- Zeros are appended as long as the value fits. -/
theorem padZeros_eq (hT : T.signed = true) (n : ℕ) (ha : T.Fits (signedNat pos a)) :
    padZeros T pos n (signedNat pos a) =
      if T.Fits (signedNat pos (a * 10 ^ n)) then some (signedNat pos (a * 10 ^ n)) else none := by
  induction n generalizing a with
  | zero =>
    rw [pow_zero, Nat.mul_one, if_pos ha]
    rfl
  | succ n ih =>
    have hten : 10 * signedNat pos a = signedNat pos (a * 10) := by
      rw [mul_comm]
      exact signedNat_mul pos a 10
    have hpow : a * 10 ^ (n + 1) = a * 10 * 10 ^ n := by ring
    have hoverflow := @willOverflowTimesTen_iff T pos _ (side_signedNat (fun _ => hT) a)
    rw [hten] at hoverflow
    rw [padZeros, hpow]
    by_cases hfits : T.Fits (signedNat pos (a * 10))
    · have hwrap : T.wrap (signedNat pos a * 10) = signedNat pos (a * 10) := by
        rw [mul_comm, hten]
        exact Option.some.inj (T.wrap_keeps _ hfits)
      rw [if_neg fun h => hoverflow.1 h hfits, hwrap, ih hfits]
    · have hnot : ¬T.Fits (signedNat pos (a * 10 * 10 ^ n)) := fun h =>
        hfits (fits_signedNat_of_le (Nat.le_mul_of_pos_right _ (by positivity)) h)
      rw [if_pos (hoverflow.2 hfits), if_neg hnot]

/-- Zeros behind zeros. -/
theorem padZeros_bind (n k : ℕ) (v : Int) :
    (padZeros T pos n v).bind (padZeros T pos k) = padZeros T pos (n + k) v := by
  induction n generalizing v with
  | zero => rw [Nat.zero_add]; rfl
  | succ n ih =>
    rw [Nat.add_right_comm, padZeros, padZeros]
    split_ifs
    · rfl
    · exact ih _

theorem padZeros_zero (hT : T.signed = true) (n : ℕ) : padZeros T pos n 0 = some 0 := by
  have h := @padZeros_eq T pos 0 hT n (by rw [signedNat_zero]; exact T.fits_zero)
  rw [Nat.zero_mul, signedNat_zero, if_pos T.fits_zero] at h
  exact h

/-! ### The march over the digits -/

namespace March

/-- The variables behind `k` digits, of which `m` are zeros that do not count. -/
def after (location : Int) (m k : ℕ) (threadVal : Int) : March :=
  ⟨location, k - m, k, threadVal, decide (m < k), 0⟩

theorem processValue_first (d : Int) :
    processValue T T.wrapping true 0 d pos = processValue T T.wrapping false 0 d pos := by
  have hoverflow : willOverflowTimesTen T 0 pos = false := by
    have hmin := T.min_le
    have hmax := T.le_max
    unfold willOverflowTimesTen
    split_ifs
    · have hdiv : T.min.tdiv 10 = -(-T.min / 10) := by
        rw [← Int.tdiv_eq_ediv_of_nonneg (by omega), Int.neg_tdiv, neg_neg]
      exact decide_eq_false (by omega)
    · refine decide_eq_false (not_lt.2 (Int.tdiv_nonneg (by omega) (by decide)))
  unfold processValue
  rw [hoverflow, zero_mul]
  have hzero : T.wrapping 0 = some 0 := T.wrap_keeps 0 T.fits_zero
  rw [hzero]
  rfl

/-- The first digit is like the others. -/
theorem run_first (hs : s.threadVal = 0) :
    run T pos p L first chars s = run T pos p L false chars s := by
  cases first with
  | false => rfl
  | true =>
    cases chars with
    | nil => rfl
    | cons c chars =>
      rw [run, run, hs]
      simp only [processValue_first]

/-- The march goes on behind a point. -/
theorem run_point (hds : IsDigits ds) (chars : List Byte) : run T pos p L false (ds ++ chr '.' :: chars) s =
    run T pos p L false (ds ++ chars) s := by
  induction ds generalizing s with
  | nil =>
    rw [List.nil_append, run, if_pos rfl]
    rfl
  | cons c ds ih =>
    have hds' : IsDigits ds := fun c hc => hds c (List.mem_cons_of_mem _ hc)
    rw [List.cons_append, List.cons_append, run, run]
    simp only [ih hds']

/-- One more digit. -/
theorem run_digit (hT : T.signed = true) (hc : isDigit c = true)
    (hstop : ¬((s.numPreciseDigits : Int) + 1 > p ∨ (s.totalDigits : Int) + 1 > L))
    (hs : s.threadVal = signedNat pos a) (hfits : T.Fits (signedNat pos (a * 10 + digit c))) :
    run T pos p L false (c :: chars) s = run T pos p L false chars
      { s.count (digit c) with threadVal := signedNat pos (a * 10 + digit c) } := by
  have hpoint : c ≠ chr '.' := by
    rintro rfl
    exact absurd hc (by decide)
  have hlt := digit_lt hc
  have hbefore : T.Fits (signedNat pos a) := fits_signedNat_of_le (by omega) hfits
  obtain ⟨w, hprocess, hw⟩ := @processValue_spec T pos false (signedNat pos a) (digit c)
    (by simp) (side_signedNat (fun _ => hT) a) hbefore ⟨by omega, by omega⟩
  rw [appended_signedNat] at hprocess hw
  have hvalue := hprocess T.wrapping T.wrap_keeps
  rw [decide_eq_true hfits, hw hfits] at hvalue
  rw [run, if_neg hpoint, hc, Bool.not_true, if_neg (by simp)]
  dsimp only
  rw [if_neg hstop, hs, hvalue]

theorem count_after (hds : ds = done ++ c :: rest)
    (hm : m = min (leadingZeros (ds.map digit)) location.toNat) (v w : Int) :
    { (after location m done.length v).count (digit c) with threadVal := w } =
      after location m (done.length + 1) w := by
  have hsplit : ds.map digit = done.map digit ++ digit c :: rest.map digit := by
    rw [hds, List.map_append, List.map_cons]
  have hlen : (done.map digit).length = done.length := List.length_map ..
  unfold after count
  dsimp only
  -- is the digit one of those that count, behind the leading zeros or the point?
  by_cases hprecise : m < done.length + 1
  · have hfound : (decide (m < done.length) = true ∨ ((done.length + 1 : ℕ) : Int) > location ∨ digit c ≠ 0) := by
      rcases Nat.lt_or_ge m done.length with hlt | hge
      · exact .inl (decide_eq_true hlt)
      right
      rcases Nat.lt_or_ge done.length (leadingZeros (ds.map digit)) with hlt | hle
      · left
        omega
      · right
        refine @ne_zero_of_leadingZeros_eq _ (done.map digit) (rest.map digit) ?_
        rw [← hsplit, hlen]
        omega
    rw [if_pos hfound]
    ext
    · rfl
    · show done.length - m + 1 = done.length + 1 - m
      omega
    · rfl
    · rfl
    · exact (decide_eq_true hprecise).symm
    · rfl
  · have hzero : digit c = 0 := by
      refine @eq_zero_of_lt_leadingZeros _ (done.map digit) (rest.map digit) ?_
      rw [← hsplit, hlen]
      omega
    have hfound : ¬(decide (m < done.length) = true ∨ ((done.length + 1 : ℕ) : Int) > location ∨ digit c ≠ 0) := by
      rw [decide_eq_true_eq]
      omega
    rw [if_neg hfound]
    ext
    · rfl
    · show done.length - m = done.length + 1 - m
      omega
    · rfl
    · rfl
    · show decide (m < done.length) = decide (m < done.length + 1)
      rw [decide_eq_decide]
      omega
    · rfl

/-- The march over digits that fit, of which there are enough. -/
theorem run_digits (hT : T.signed = true) (hpos : 0 < p) (hds : ds = done ++ (kept ++ rest)) (hdigits : IsDigits ds)
    (hm : m = min (leadingZeros (ds.map digit)) location.toNat)
    (hL : ((done.length + kept.length : ℕ) : Int) ≤ L) (hp : done.length + kept.length ≤ p + m)
    (hfits : T.Fits (signedNat pos (10 ^ p))) :
    run T pos p L false (kept ++ tail)
        (after location m done.length (signedNat pos (readDigits 10 (done.map digit)))) =
      run T pos p L false tail
        (after location m (done.length + kept.length)
          (signedNat pos (readDigits 10 ((done ++ kept).map digit)))) := by
  induction kept generalizing done with
  | nil => rw [List.nil_append, List.length_nil, Nat.add_zero, List.append_nil]
  | cons c kept ih =>
    rw [List.length_cons] at hL hp
    have hc : isDigit c = true := hdigits c (by rw [hds]; simp)
    have hnumber : readDigits 10 ((done ++ [c]).map digit) = readDigits 10 (done.map digit) * 10 + digit c := by
      rw [List.map_append, List.map_singleton, readDigits_concat]
    -- the number is less than a power of its digits that count
    have hlt : readDigits 10 (done.map digit) * 10 + digit c ≤ 10 ^ p := by
      have hall : ∀ d ∈ ds.map digit, d < 10 := by
        intro d hd
        obtain ⟨c, hc, rfl⟩ := List.mem_map.1 hd
        exact digit_lt (hdigits c hc)
      have htake : (ds.map digit).take (done.length + 1) = (done ++ [c]).map digit := by
        rw [hds, ← List.map_take, List.take_length_add_append]
        rfl
      have hbound := @readDigits_take_lt 10 (done.length + 1) (ds.map digit) hall (by rw [hds]; simp)
      rw [htake, hnumber] at hbound
      exact hbound.le.trans (Nat.pow_le_pow_right (by decide) (by omega))
    have hstop : ¬(((after location m done.length
          (signedNat pos (readDigits 10 (done.map digit)))).numPreciseDigits : Int) + 1 > p ∨
        ((after location m done.length
          (signedNat pos (readDigits 10 (done.map digit)))).totalDigits : Int) + 1 > L) := by
      show ¬(((done.length - m : ℕ) : Int) + 1 > p ∨ (done.length : Int) + 1 > L)
      omega
    have hlen : (done ++ [c]).length = done.length + 1 := by simp
    have hmore := @ih (done ++ [c]) (by rw [hds]; simp) (by rw [hlen]; omega) (by rw [hlen]; omega)
    rw [List.cons_append, run_digit hT hc hstop rfl (fits_signedNat_of_le hlt hfits),
      count_after (by rw [hds]; rfl) hm, ← hnumber, ← hlen, hmore, List.append_assoc, hlen,
      List.length_cons, Nat.add_right_comm, ← Nat.add_assoc]
    rfl

/-- The march ends in front of what is no digit. -/
theorem run_end (htail : ∀ c ∈ tail.head?, isDigit c = false ∧ c ≠ chr '.') :
    run T pos p L false tail s = some s := by
  cases tail with
  | nil => rfl
  | cons c tail =>
    obtain ⟨hc, hpoint⟩ := htail c rfl
    rw [run, if_neg hpoint, hc]
    rfl

theorem run_round (hc : isDigit c = true)
    (hstop : (s.numPreciseDigits : Int) + 1 > p ∨ (s.totalDigits : Int) + 1 > L) :
    run T pos p L false (c :: chars) s = s.round T pos (digit c) := by
  have hpoint : c ≠ chr '.' := by
    rintro rfl
    exact absurd hc (by decide)
  rw [run, if_neg hpoint, hc, Bool.not_true, if_neg (by simp)]
  dsimp only
  rw [if_pos hstop]

/-! ### Rounding -/

theorem countDigitsLoop_eq (pos : Bool) {n : ℕ} (h : a ≤ n) :
    countDigitsLoop n (signedNat pos a) = (Nat.digits 10 a).length := by
  induction n generalizing a with
  | zero =>
    obtain rfl : a = 0 := by omega
    rw [Nat.digits_zero]
    rfl
  | succ n ih =>
    have hdiv : (signedNat pos a).tdiv 10 = signedNat pos (a / 10) := by
      have hnat : (a : Int).tdiv 10 = ((a / 10 : ℕ) : Int) := rfl
      unfold signedNat
      cases pos with
      | true => exact hnat
      | false =>
        show (-(a : Int)).tdiv 10 = -((a / 10 : ℕ) : Int)
        rw [Int.neg_tdiv, hnat]
    have hzero : signedNat pos a = 0 ↔ a = 0 := by
      unfold signedNat
      cases pos with
      | true => exact Int.natCast_eq_zero
      | false =>
        show -(a : Int) = 0 ↔ a = 0
        omega
    rw [countDigitsLoop]
    by_cases ha : a = 0
    · rw [if_pos (hzero.2 ha), ha, Nat.digits_zero]
      rfl
    · have hdigits := Nat.digits_def' (by decide : 1 < 10) (Nat.pos_of_ne_zero ha)
      rw [if_neg fun h => ha (hzero.1 h), hdiv, ih (by omega), hdigits, List.length_cons]

theorem countDigits_eq (pos : Bool) (a : ℕ) :
    countDigits (signedNat pos a) = (Nat.digits 10 a).length := by
  have habs : (signedNat pos a).natAbs = a := by
    unfold signedNat
    cases pos with
    | true => exact Int.natAbs_natCast a
    | false =>
      show (-(a : Int)).natAbs = a
      omega
  unfold countDigits
  rw [habs]
  exact countDigitsLoop_eq pos le_rfl

/-- A number gets another digit if the next one is a power of ten. -/
theorem digits_length_lt_iff (a : ℕ) :
    (Nat.digits 10 a).length < (Nat.digits 10 (a + 1)).length ↔ ∃ n, a + 1 = 10 ^ n := by
  constructor
  · intro h
    refine ⟨(Nat.digits 10 a).length, ?_⟩
    have hlt : a < 10 ^ (Nat.digits 10 a).length := Nat.lt_base_pow_length_digits (by decide)
    have hge : ¬a + 1 < 10 ^ (Nat.digits 10 a).length := by
      rw [← Nat.digits_length_le_iff (by decide)]
      omega
    omega
  · rintro ⟨n, hn⟩
    have hle : (Nat.digits 10 a).length ≤ n := (Nat.digits_length_le_iff (by decide) a).2 (by omega)
    have hgt : ¬(Nat.digits 10 (a + 1)).length ≤ n := by
      rw [Nat.digits_length_le_iff (by decide)]
      omega
    omega

/-- Rounding it up adds a digit to a number. -/
def Carries (a : ℕ) : Prop := a ≠ 0 ∧ ∃ n, a + 1 = 10 ^ n

/-- A value with more digits. -/
def carried (threadVal : Int) (s : March) : March where
  decimalLocation := int32 (s.decimalLocation + 1)
  numPreciseDigits := s.numPreciseDigits + 1
  totalDigits := s.totalDigits + 1
  threadVal := threadVal
  foundSigDigit := s.foundSigDigit
  roundingDigits := s.roundingDigits + 1

theorem round_down {d : ℕ} (hd : d < 5) : s.round T pos d = some s := by
  unfold round
  rw [if_neg (by omega)]

/-- Rounding changes the value, or adds a digit to it. -/
theorem round_some {s' : March} {d : ℕ} (h : s.round T pos d = some s') :
    s' = { s with threadVal := s'.threadVal } ∨ s' = s.carried s'.threadVal := by
  unfold round at h
  by_cases hd : d ≥ 5
  · rw [if_pos hd] at h
    split at h
    · dsimp only at h
      generalize T.wrap (if pos = true then s.threadVal + 1 else s.threadVal - 1) = w at h
      split_ifs at h
      · obtain rfl := Option.some.inj h
        exact .inr rfl
      · obtain rfl := Option.some.inj h
        exact .inl rfl
    · exact absurd h (by simp)
  · rw [if_neg hd] at h
    obtain rfl := Option.some.inj h
    exact .inl rfl

/-- Rounding up, where a digit may be added. -/
theorem round_up (hT : T.signed = true) (hs : s.threadVal = signedNat pos a)
    (hfits : T.Fits (signedNat pos (a + 1))) {d : ℕ} (hd : 5 ≤ d) :
    (Carries a → s.round T pos d = some (s.carried (signedNat pos (a + 1)))) ∧
      (¬Carries a → s.round T pos d = some { s with threadVal := signedNat pos (a + 1) }) := by
  have hbefore : T.Fits (signedNat pos a) := fits_signedNat_of_le (Nat.le_succ a) hfits
  have hnext : (if pos = true then signedNat pos a + 1 else signedNat pos a - 1) =
      signedNat pos (a + 1) := by
    unfold signedNat
    cases pos with
    | true => rfl
    | false =>
      show -(a : Int) - 1 = -((a + 1 : ℕ) : Int)
      push_cast
      ring
  have hoverflow := @willOverflow_eq T T.wrapping pos (signedNat pos a) 1 T.wrap_keeps
    (side_signedNat (fun _ => hT) a) hbefore ⟨by decide, by decide⟩
  rw [hnext, decide_eq_false (not_not.2 hfits)] at hoverflow
  have hwrap : T.wrap (signedNat pos (a + 1)) = signedNat pos (a + 1) :=
    Option.some.inj (T.wrap_keeps _ hfits)
  have hne : signedNat pos a ≠ 0 ↔ a ≠ 0 := by
    unfold signedNat
    cases pos with
    | true => exact Int.natCast_ne_zero
    | false =>
      show -(a : Int) ≠ 0 ↔ a ≠ 0
      omega
  -- rounding up adds a digit exactly where the number carries
  have hcarries : (signedNat pos a ≠ 0 ∧ countDigits (signedNat pos (a + 1)) >
      countDigits (signedNat pos a)) ↔ Carries a := by
    rw [hne, countDigits_eq, countDigits_eq, gt_iff_lt, digits_length_lt_iff]
    rfl
  unfold round
  rw [if_pos hd, hs, hoverflow]
  dsimp only
  rw [hnext, hwrap]
  constructor
  · intro h
    rw [if_pos (hcarries.2 h)]
    rfl
  · intro h
    rw [if_neg fun h' => h (hcarries.1 h')]

/-! ### The end of the kernel -/

/-- The values are not out of the range of an `int`. -/
structure InRange (p scale g : ℕ) (s : March) : Prop where
  location : -2147483648 < s.decimalLocation ∧ s.decimalLocation ≤ 2147483647
  padding : -2147483648 ≤ s.decimalLocation - s.totalDigits
  leading : s.decimalLocation - ((s.totalDigits : Int) - s.numPreciseDigits) ≤ 2147483647
  precise : s.numPreciseDigits ≤ s.totalDigits
  significant : (g : Int) + max 0 (s.decimalLocation - s.totalDigits) + s.roundingDigits ≤ 2147483647
  preciseZeros : (s.numPreciseDigits : Int) + max 0 (s.decimalLocation - s.totalDigits) ≤ 2147483647
  after : (s.numPreciseDigits : Int) + max 0 (s.decimalLocation - s.totalDigits) -
    (g + max 0 (s.decimalLocation - s.totalDigits) + s.roundingDigits) + max 0 (-s.decimalLocation) ≤ 2147483647
  parameters : p ≤ 38 ∧ scale ≤ p

/-- The zeros up to the decimal point. -/
def zerosToDecimal (s : March) : Int := max 0 (s.decimalLocation - s.totalDigits)

/-- The zeros behind it. -/
def zerosToScale (p scale g : ℕ) (s : March) : Int :=
  min ((p : Int) - (g + s.zerosToDecimal + s.roundingDigits)) scale -
    (s.numPreciseDigits + s.zerosToDecimal - (g + s.zerosToDecimal + s.roundingDigits) + max 0 (-s.decimalLocation))

theorem finish_eq {scale g : ℕ} (h : s.InRange p scale g) :
    s.finish T pos p (-scale) g =
      if (p : Int) - scale < s.decimalLocation - ((s.totalDigits : Int) - s.numPreciseDigits) then none
      else (padZeros T pos s.zerosToDecimal.toNat s.threadVal).bind
        (padZeros T pos (s.zerosToScale p scale g).toNat) := by
  obtain ⟨⟨hlow, hhigh⟩, hpadding, hleading, hprecise, hsignificant, hzeros, hafter, hp, hscale⟩ := h
  have hpreceding : (if s.decimalLocation < 0 then int32 (-s.decimalLocation) else 0) =
      max 0 (-s.decimalLocation) := by
    by_cases hneg : s.decimalLocation < 0
    · rw [if_pos hneg, int32_of_range (by omega) (by omega)]
      omega
    · rw [if_neg hneg]
      omega
  have hpad : int32 (s.decimalLocation - s.totalDigits) = s.decimalLocation - s.totalDigits :=
    int32_of_range hpadding (by omega)
  have hlead : int32 (s.decimalLocation - ((s.totalDigits : Int) - s.numPreciseDigits)) =
      s.decimalLocation - ((s.totalDigits : Int) - s.numPreciseDigits) :=
    int32_of_range (by omega) (by omega)
  have hnotPositive : ¬-(scale : Int) > 0 := by omega
  unfold finish zerosToScale zerosToDecimal
  dsimp only
  rw [hpreceding, if_neg hnotPositive, hpad, hlead, ← sub_eq_add_neg, neg_neg]
  generalize hz : max 0 (s.decimalLocation - s.totalDigits) = z at *
  have hsig : int32 (g + z + s.roundingDigits) = g + z + s.roundingDigits :=
    int32_of_range (by omega) (by omega)
  have hprec : int32 (s.numPreciseDigits + z) = s.numPreciseDigits + z :=
    int32_of_range (by omega) (by omega)
  have hdiff : int32 (s.numPreciseDigits + z - (g + z + s.roundingDigits)) =
      s.numPreciseDigits + z - (g + z + s.roundingDigits) := int32_of_range (by omega) (by omega)
  have hneeded : int32 (p - (g + z + s.roundingDigits)) = p - (g + z + s.roundingDigits) :=
    int32_of_range (by omega) (by omega)
  rw [hsig, hprec, hdiff, hneeded, int32_of_range (by omega) (by omega)]

end March

/-! ### The significant digits before the point -/

theorem countSignificantDigitsLoop_stop {numDigits : Int} {found : ℕ} (h : ¬(found : Int) < numDigits)
    (str : List Byte) (count : ℕ) : countSignificantDigitsLoop numDigits str count found = count := by
  cases str with
  | nil => rfl
  | cons c str => rw [countSignificantDigitsLoop, if_pos h]

theorem countSignificantDigitsLoop_point {numDigits : Int} (hds : IsDigits ds) (chars : List Byte)
    (count found : ℕ) : countSignificantDigitsLoop numDigits (ds ++ chr '.' :: chars) count found =
      countSignificantDigitsLoop numDigits (ds ++ chars) count found := by
  induction ds generalizing count found with
  | nil =>
    rw [List.nil_append, List.nil_append]
    by_cases hstop : (found : Int) < numDigits
    · rw [countSignificantDigitsLoop, if_neg (not_not.2 hstop), if_neg (by decide), if_neg (by decide)]
    · rw [countSignificantDigitsLoop_stop hstop, countSignificantDigitsLoop_stop hstop]
  | cons c ds ih =>
    have hds' : IsDigits ds := fun c hc => hds c (List.mem_cons_of_mem _ hc)
    rw [List.cons_append, List.cons_append, countSignificantDigitsLoop, countSignificantDigitsLoop]
    simp only [ih hds']

theorem digit_eq_zero_iff (hc : isDigit c = true) : digit c = 0 ↔ c = chr '0' := by
  constructor
  · intro h
    have hrange := isDigit_iff.1 hc
    unfold digit at h
    refine BitVec.eq_of_toNat_eq ?_
    show c.toNat = 48
    omega
  · rintro rfl
    rfl

theorem countSignificantDigitsLoop_eq {numDigits : Int} (hds : IsDigits ds)
    (htail : ∀ c ∈ tail.head?, c = chr 'e' ∨ c = chr 'E') (count found : ℕ) :
    countSignificantDigitsLoop numDigits (ds ++ tail) count found =
      count + (min ds.length (numDigits - found).toNat -
        if count = 0 then leadingZeros (ds.map digit) else 0) := by
  induction ds generalizing count found with
  | nil =>
    rw [List.nil_append, List.length_nil, Nat.zero_min, Nat.zero_sub, Nat.add_zero]
    cases tail with
    | nil => rfl
    | cons c tail =>
      rw [countSignificantDigitsLoop]
      by_cases hstop : (found : Int) < numDigits
      · rw [if_neg (not_not.2 hstop), if_pos (htail c rfl)]
      · rw [if_pos hstop]
  | cons c ds ih =>
    have hds' : IsDigits ds := fun c hc => hds c (List.mem_cons_of_mem _ hc)
    have hc := hds c (List.mem_cons_self ..)
    have hmarker : ¬(c = chr 'e' ∨ c = chr 'E') := by
      rintro (rfl | rfl)
      · exact absurd hc (by decide)
      · exact absurd hc (by decide)
    have hpoint : c ≠ chr '.' := by
      rintro rfl
      exact absurd hc (by decide)
    rw [List.cons_append]
    by_cases hstop : (found : Int) < numDigits
    · rw [countSignificantDigitsLoop, if_neg (not_not.2 hstop), if_neg hmarker, if_pos hpoint, ih hds', ih hds',
        List.length_cons, List.map_cons, leadingZeros_cons, Nat.cast_add, Nat.cast_one]
      -- a zero counts only behind a digit that is not zero
      by_cases hzero : c = chr '0'
      · rw [if_pos ((digit_eq_zero_iff hc).2 hzero)]
        by_cases hcount : count = 0
        · rw [if_neg (by simp [hzero, hcount]), if_pos hcount, if_pos hcount]
          omega
        · rw [if_pos (.inl hcount), if_neg (Nat.succ_ne_zero _), if_neg hcount]
          omega
      · rw [if_neg fun h => hzero ((digit_eq_zero_iff hc).1 h), if_pos (.inr hzero),
          if_neg (Nat.succ_ne_zero _), ite_self]
        omega
    · rw [countSignificantDigitsLoop_stop hstop]
      omega

end

end SparkRapids.CastString
