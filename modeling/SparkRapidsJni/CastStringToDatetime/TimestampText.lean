import SparkRapidsJni.CastStringToDatetime.ParseTimestamp

/-!
# Timestamps as they are written

`TimestampText` are the formats of timestamps with the fields that a text writes, one relation for each
part of a text: what is behind the seconds, behind the minutes, and so on. Each segment of the loop is told
by the digits up to the next separator (`scan_segment`), and so the run of the parser over the rest of a
text is told by the part that the rest writes, from the last part (`scan_legacy`) to the first (`scan_iff`).

An offset that Spark 3.2.0 reads in segments of its own (`WrittenZone.legacy`) may have a third part. It has
no segment, and the parser writes behind its array.
-/

namespace SparkRapids.CastStringToDatetime

open Ascii Numerals CivilDays MachineInt TimeZone ParseState

/-! ### The formats -/

/-- A time zone as it is written. -/
inductive WrittenZone
  | notSpecified
  | zone (tz : TimeZone)
  /-- Right behind the time, for Spark 3.2.0. -/
  | legacy (negative : Bool) (h m : ℕ) (s : Option ℕ)

/-- An offset in segments of its own. -/
inductive LegacyText : List Byte → ℕ → ℕ → Option ℕ → Prop
  | hours {hs : List Byte} (hh : IsNumber 0 2 hs) : LegacyText hs (number hs) 0 none
  | minutes {hs ms : List Byte} {c : Byte} (hh : IsNumber 0 2 hs) (hc : c = chr ':' ∨ c = chr ' ')
    (hm : IsNumber 1 2 ms) : LegacyText (hs ++ c :: ms) (number hs) (number ms) none
  | seconds {hs ms ss : List Byte} {c d : Byte} (hh : IsNumber 0 2 hs) (hc : c = chr ':' ∨ c = chr ' ')
    (hm : IsNumber 1 2 ms) (hd : d = chr ':' ∨ d = chr ' ') (hs' : IsNumber 1 2 ss) :
    LegacyText (hs ++ c :: (ms ++ d :: ss)) (number hs) (number ms) (some (number ss))

section Formats

variable (v : SparkVersion) (endPos : ℕ)

/-- The end of a text, behind the seconds and their fraction. -/
inductive ZonePart : List Byte → WrittenZone → Prop
  | none : ZonePart [] .notSpecified
  | zone {c : Byte} {zs : List Byte} {tz : TimeZone} (hc : isDigit c = false)
    (hsign : v.isSpark320 = true → ¬(c = chr '-' ∨ c = chr '+'))
    (htz : ZoneText v.isSpark320 endPos ((c :: zs).dropWhile isWhitespace) tz) :
    ZonePart (c :: zs) (.zone tz)
  | legacy {c : Byte} {os : List Byte} {h m : ℕ} {s : Option ℕ} (hv : v.isSpark320 = true)
    (hc : c = chr '-' ∨ c = chr '+') (ho : LegacyText os h m s) :
    ZonePart (c :: os) (.legacy (decide (c = chr '-')) h m s)

/-- The first six digits of a fraction, padded with zeros. -/
def microseconds (ds : List Byte) : ℕ := number (ds.take 6) * 10 ^ (6 - ds.length)

/-- The end of a text, behind the seconds: the microseconds and the zone. -/
inductive FractionPart : List Byte → ℕ → WrittenZone → Prop
  | none {chars : List Byte} {z : WrittenZone} (hz : ZonePart v endPos chars z)
    (hdot : chars.head? ≠ some (chr '.')) : FractionPart chars 0 z
  | fraction {ds zs : List Byte} {z : WrittenZone} (hds : ∀ c ∈ ds, isDigit c = true)
    (hz : ZonePart v endPos zs z) : FractionPart (chr '.' :: (ds ++ zs)) (microseconds ds) z

/-- A time of the day, and the zone behind it. -/
structure Clock where
  hour : ℕ
  minute : ℕ
  second : ℕ
  microseconds : ℕ
  zone : WrittenZone

/-- `mm[:ss[.us][zone]]`, behind the hour -/
inductive MinutePart : List Byte → ℕ → ℕ → ℕ → WrittenZone → Prop
  | minute {ms : List Byte} (hm : IsNumber 1 2 ms) : MinutePart ms (number ms) 0 0 .notSpecified
  | second {ms ss tail : List Byte} {us : ℕ} {z : WrittenZone} (hm : IsNumber 1 2 ms)
    (hs : IsNumber 1 2 ss) (htail : FractionPart v endPos tail us z) :
    MinutePart (ms ++ chr ':' :: (ss ++ tail)) (number ms) (number ss) us z

/-- `hh[:mm[:ss[.us][zone]]]` -/
inductive ClockText : List Byte → Clock → Prop
  | hour {hs : List Byte} (hh : IsNumber 1 2 hs) : ClockText hs ⟨number hs, 0, 0, 0, .notSpecified⟩
  | minute {hs text : List Byte} {m s us : ℕ} {z : WrittenZone} (hh : IsNumber 1 2 hs)
    (hm : MinutePart v endPos text m s us z) :
    ClockText (hs ++ chr ':' :: text) ⟨number hs, m, s, us, z⟩

/-- The fields of a timestamp as it is written. -/
structure Timestamp where
  year : Int
  month : ℕ
  day : ℕ
  clock : Clock
  justTime : Bool

/-- Midnight, without a zone. -/
def Clock.midnight : Clock := ⟨0, 0, 0, 0, .notSpecified⟩

/-- A timestamp without the sign of its year. A time alone may not have one, and its `T` may not stand
behind white space if the version says so. -/
inductive UnsignedText (sign matchIssue52351 : Bool) : List Byte → Timestamp → Prop
  | year {ys : List Byte} (hy : IsNumber 4 6 ys) :
    UnsignedText sign matchIssue52351 ys ⟨number ys, 1, 1, .midnight, false⟩
  | month {ys ms : List Byte} (hy : IsNumber 4 6 ys) (hm : IsNumber 1 2 ms) :
    UnsignedText sign matchIssue52351 (ys ++ chr '-' :: ms)
      ⟨number ys, number ms, 1, .midnight, false⟩
  | day {ys ms ds : List Byte} (hy : IsNumber 4 6 ys) (hm : IsNumber 1 2 ms) (hd : IsNumber 1 2 ds) :
    UnsignedText sign matchIssue52351 (ys ++ chr '-' :: (ms ++ chr '-' :: ds))
      ⟨number ys, number ms, number ds, .midnight, false⟩
  | clock {ys ms ds text : List Byte} {sep : Byte} {c : Clock} (hy : IsNumber 4 6 ys)
    (hm : IsNumber 1 2 ms) (hd : IsNumber 1 2 ds) (hsep : sep = chr ' ' ∨ sep = chr 'T')
    (hc : ClockText v endPos text c) :
    UnsignedText sign matchIssue52351 (ys ++ chr '-' :: (ms ++ chr '-' :: (ds ++ sep :: text)))
      ⟨number ys, number ms, number ds, c, false⟩
  | time {text : List Byte} {c : Clock} (hsign : sign = false) (hissue : matchIssue52351 = false)
    (hc : ClockText v endPos text c) :
    UnsignedText sign matchIssue52351 (chr 'T' :: text) ⟨1970, 1, 1, c, true⟩
  | bare {hs text : List Byte} {m s us : ℕ} {z : WrittenZone} (hsign : sign = false)
    (hh : IsNumber 1 2 hs) (hm : MinutePart v endPos text m s us z) :
    UnsignedText sign matchIssue52351 (hs ++ chr ':' :: text)
      ⟨1970, 1, 1, ⟨number hs, m, s, us, z⟩, true⟩

end Formats

/-! ### Segments -/

variable {v : SparkVersion} {endPos : ℕ} {sign issue : Bool} {f : Fields} {i dm : ℕ}
  {ds rest text : List Byte} {o : Except Stop Fields}

/-- The variables of the loop at the start of a segment. -/
def Fields.fresh (f : Fields) (i digitsMilli : ℕ) : ParseState :=
  { f with i, currentSegmentValue := 0, currentSegmentDigits := 0, digitsMilli }

/-- The microseconds padded, if they have as many digits. -/
def Fields.padded (f : Fields) (digitsMilli : ℕ) : Fields :=
  f.set 6 ((· * 10)^[6 - digitsMilli] (f.segments 6))

theorem Fields.set_self {k : ℕ} {x : Int} (h : f.segments k = x) : f.set k x = f := by
  unfold Fields.set
  rw [← h, Function.update_eq_self]

theorem Fields.segments_set_self (f : Fields) (k : ℕ) (x : Int) : (f.set k x).segments k = x :=
  Function.update_self ..

theorem Fields.segments_set_of_ne (f : Fields) {k l : ℕ} (h : k ≠ l) (x : Int) :
    (f.set l x).segments k = f.segments k :=
  Function.update_of_ne h ..

theorem Fields.set_set (f : Fields) (k : ℕ) (x y : Int) : (f.set k x).set k y = f.set k y := by
  unfold Fields.set
  rw [Function.update_idem]

theorem iterate_mul_ten (n : ℕ) (x : Int) : (· * 10)^[n] x = x * 10 ^ n := by
  induction n generalizing x with
  | zero => simp
  | succ n ih =>
    rw [Function.iterate_succ_apply, ih, pow_succ]
    ring

/-- Without a fraction there is nothing to pad. -/
theorem Fields.padded_of_zero (h : f.segments 6 = 0) (dm : ℕ) : f.padded dm = f := by
  unfold Fields.padded
  rw [iterate_mul_ten, h, zero_mul]
  exact Fields.set_self h

namespace ParseState

theorem parseLoop_digits (hds : ∀ c ∈ ds, isDigit c = true) (atStart : Bool) (s : ParseState) :
    parseLoop v endPos sign issue atStart (ds ++ rest) s =
      parseLoop v endPos sign issue (atStart && ds.isEmpty) rest (ds.foldl readDigit s) := by
  induction ds generalizing atStart s with
  | nil => simp
  | cons c ds ih =>
    have hc := hds c (List.mem_cons_self ..)
    rw [List.cons_append, parseLoop, if_pos hc, ih fun c hc => hds c (List.mem_cons_of_mem _ hc)]
    simp

theorem foldl_readDigit {s : ParseState} (hi : s.i ≠ 6) : ds.foldl readDigit s =
    { s with
      currentSegmentValue :=
        ds.foldl (fun x c => int32 (x * 10 + digit c)) s.currentSegmentValue
      currentSegmentDigits := s.currentSegmentDigits + ds.length } := by
  induction ds generalizing s with
  | nil => rfl
  | cons c ds ih =>
    have hread : s.readDigit c = { s with
        currentSegmentValue := int32 (s.currentSegmentValue * 10 + digit c)
        currentSegmentDigits := s.currentSegmentDigits + 1 } := by
      unfold readDigit
      rw [if_neg hi, if_pos (.inl hi)]
    rw [List.foldl_cons, ih (show (s.readDigit c).i ≠ 6 from hi), hread, List.length_cons,
      List.foldl_cons]
    dsimp only
    rw [Nat.add_assoc, Nat.add_comm 1]

theorem foldl_readDigit_microseconds {s : ParseState} (hi : s.i = 6) : ds.foldl readDigit s =
    { s with
      currentSegmentValue := (ds.take (6 - s.currentSegmentDigits)).foldl
        (fun x c => int32 (x * 10 + digit c)) s.currentSegmentValue
      currentSegmentDigits := s.currentSegmentDigits + ds.length
      digitsMilli := s.digitsMilli + ds.length } := by
  induction ds generalizing s with
  | nil => simp
  | cons c ds ih =>
    have hlen : ∀ n, n + 1 + ds.length = n + (c :: ds).length := fun n => by
      rw [List.length_cons]
      omega
    rw [List.foldl_cons, ih (show (s.readDigit c).i = 6 from hi)]
    unfold readDigit
    dsimp only
    rw [if_pos hi, hlen, hlen]
    by_cases hlt : s.currentSegmentDigits < 6
    · obtain ⟨n, hn⟩ : ∃ n, 6 - s.currentSegmentDigits = n + 1 := ⟨5 - s.currentSegmentDigits, by omega⟩
      have hn' : 6 - (s.currentSegmentDigits + 1) = n := by omega
      rw [if_pos (.inr hlt), hn, hn']
      rfl
    · have hzero : 6 - s.currentSegmentDigits = 0 := by omega
      have hzero' : 6 - (s.currentSegmentDigits + 1) = 0 := by omega
      rw [if_neg (by simp [hi, hlt]), hzero, hzero']
      rfl

end ParseState

/-- Up to nine digits have 32 bits. -/
theorem foldl_int32 (hds : ∀ c ∈ ds, isDigit c = true) {n k : ℕ} (hn : n < 10 ^ k)
    (hle : k + ds.length ≤ 9) : ds.foldl (fun (x : Int) c => int32 (x * 10 + digit c)) n =
      ((ds.map digit).foldl (fun n d => n * 10 + d) n : ℕ) := by
  induction ds generalizing n k with
  | nil => rfl
  | cons c ds ih =>
    have hc := digit_lt (hds c (List.mem_cons_self ..))
    rw [List.length_cons] at hle
    have hlt : n * 10 + digit c < 10 ^ (k + 1) := by
      rw [pow_succ]
      omega
    have hbound : 10 ^ (k + 1) ≤ 10 ^ 9 := Nat.pow_le_pow_right (by decide) (by omega)
    have hcast : int32 ((n : Int) * 10 + digit c) = ((n * 10 + digit c : ℕ) : Int) := by
      rw [int32_of_range (by omega) (by omega)]
      push_cast
      rfl
    rw [List.foldl_cons, List.map_cons, List.foldl_cons, hcast,
      ih (fun c hc => hds c (List.mem_cons_of_mem _ hc)) hlt (by omega)]

theorem foldl_int32_number (hds : ∀ c ∈ ds, isDigit c = true) (hle : ds.length ≤ 9) :
    ds.foldl (fun (x : Int) c => int32 (x * 10 + digit c)) 0 = number ds :=
  foldl_int32 hds (k := 0) Nat.one_pos (by omega)

/-- A text is told by its first digits and what is behind them. -/
theorem exists_span (text : List Byte) : ∃ ds rest, text = ds ++ rest ∧
    (∀ c ∈ ds, isDigit c = true) ∧ NoDigit rest := by
  refine ⟨text.takeWhile isDigit, text.dropWhile isDigit, (List.takeWhile_append_dropWhile).symm,
    fun c hc => List.mem_takeWhile_imp hc, fun c hc => ?_⟩
  have hhead := List.head?_dropWhile_not isDigit text
  rw [hc] at hhead
  simpa using hhead

/-! ### One segment -/

theorem length_le_six (h : isValidDigits i ds.length = true) (hi : i ≠ 6) : ds.length ≤ 6 := by
  unfold isValidDigits at h
  simp only [Bool.or_eq_true, Bool.and_eq_true, decide_eq_true_eq] at h
  omega

/-- What is stored for the digits of a segment. -/
theorem storeSegment_digits (f : Fields) (dm : ℕ) (hi : i ≠ 6) (hlt : i < segmentsLen) (hds : ∀ c ∈ ds, isDigit c = true)
    (hvalid : isValidDigits i ds.length = true) : ∃ s : ParseState, s.toFields = f.set i (number ds) ∧
      s.i = i ∧ s.digitsMilli = dm ∧
      (ds.foldl readDigit (f.fresh i dm)).storeSegment = .ok s := by
  rw [foldl_readDigit (s := f.fresh i dm) hi]
  unfold storeSegment
  dsimp only
  rw [show (f.fresh i dm).currentSegmentDigits + ds.length = ds.length from Nat.zero_add _,
    show (f.fresh i dm).i = i from rfl, hvalid, if_neg (by simp), if_pos hlt]
  refine ⟨_, ?_, ?_, ?_, rfl⟩
  · show f.set i (ds.foldl _ 0) = _
    rw [foldl_int32_number hds ((length_le_six hvalid hi).trans (by decide))]
  · rfl
  · rfl

theorem storeSegment_invalid (hi : i ≠ 6) (hvalid : isValidDigits i ds.length = false) :
    (ds.foldl readDigit (f.fresh i dm)).storeSegment = .error .invalid := by
  rw [foldl_readDigit (s := f.fresh i dm) hi]
  unfold storeSegment
  dsimp only
  rw [show (f.fresh i dm).currentSegmentDigits + ds.length = ds.length from Nat.zero_add _,
    show (f.fresh i dm).i = i from rfl, hvalid, if_pos (by simp)]

theorem storeSegment_pad (hi : i ≠ 6) (hlt : i < segmentsLen) (hds : ∀ c ∈ ds, isDigit c = true) :
    (ds.foldl readDigit (f.fresh i dm)).storeSegment.map padMicroseconds =
      if isValidDigits i ds.length then .ok ((f.set i (number ds)).padded dm) else .error .invalid := by
  cases hvalid : isValidDigits i ds.length with
  | false =>
    rw [storeSegment_invalid hi hvalid]
    rfl
  | true =>
    obtain ⟨s, hfields, -, hmilli, hstore⟩ := storeSegment_digits f dm hi hlt hds hvalid
    rw [hstore, if_pos rfl]
    show Except.ok s.padMicroseconds = _
    unfold padMicroseconds Fields.padded
    rw [hfields, hmilli]

theorem nextSegment_digits (hi : i ≠ 6) (hlt : i < segmentsLen) (hds : ∀ c ∈ ds, isDigit c = true) :
    (ds.foldl readDigit (f.fresh i dm)).nextSegment =
      if isValidDigits i ds.length then .ok ((f.set i (number ds)).fresh (i + 1) dm)
      else .error .invalid := by
  unfold nextSegment
  cases hvalid : isValidDigits i ds.length with
  | false =>
    rw [storeSegment_invalid hi hvalid]
    rfl
  | true =>
    obtain ⟨s, hfields, hsi, hmilli, hstore⟩ := storeSegment_digits f dm hi hlt hds hvalid
    rw [hstore, if_pos rfl]
    show Except.ok _ = _
    unfold Fields.fresh
    dsimp only
    rw [hfields, hsi, hmilli]

/-- The run over the rest of a text, from the start of a segment within it. -/
def scanFrom (v : SparkVersion) (endPos : ℕ) (sign issue : Bool) (text : List Byte) (f : Fields)
    (i dm : ℕ) : Except Stop Fields :=
  (f.fresh i dm).scan v endPos sign issue false text

theorem scan_append (hds : ∀ c ∈ ds, isDigit c = true) (atStart : Bool) (s : ParseState) :
    s.scan v endPos sign issue atStart (ds ++ rest) =
      (ds.foldl readDigit s).scan v endPos sign issue (atStart && ds.isEmpty) rest := by
  unfold scan
  rw [parseLoop_digits hds]

/-- The last segment. -/
theorem scan_end (hi : i ≠ 6) (hlt : i < segmentsLen) (hds : ∀ c ∈ ds, isDigit c = true)
    (atStart : Bool) : (f.fresh i dm).scan v endPos sign issue atStart ds =
      if isValidDigits i ds.length then .ok ((f.set i (number ds)).padded dm) else .error .invalid := by
  rw [← List.append_nil ds, scan_append hds, List.append_nil]
  exact storeSegment_pad hi hlt hds

/-- A segment and its separator, where the loop goes on behind it. -/
theorem scan_separator {atStart : Bool} {c : Byte} {s : ParseState} (hc : isDigit c = false) :
    s.scan v endPos sign issue atStart (c :: rest) =
      match s.separator v endPos sign issue atStart c rest with
      | .error e => .error e
      | .ok (s, true) => s.storeSegment.map padMicroseconds
      | .ok (s, false) => s.scan v endPos sign issue false rest := by
  unfold scan
  rw [parseLoop, if_neg (by simp [hc])]
  rcases s.separator v endPos sign issue atStart c rest with e | ⟨s, _ | _⟩
  · rfl
  · rfl
  · rfl

/-- The separators behind a segment with a number in a plain format. -/
def separators : ℕ → List Byte
  | 0 | 1 => [chr '-']
  | 2 => [chr ' ', chr 'T']
  | 3 | 4 => [chr ':']
  | 7 | 8 => [chr ':', chr ' ']
  | _ => []

theorem separator_segment (hi : i ∈ [1, 2, 3, 4, 7, 8]) {c : Byte} {s : ParseState} (hs : s.i = i) :
    s.separator v endPos sign issue false c rest =
      if c ∈ separators i then s.nextSegment.map fun s => (s, false) else .error .invalid := by
  unfold separator separators
  rw [if_neg (by simp), hs]
  simp only [List.mem_cons, List.not_mem_nil, or_false] at hi
  rcases hi with rfl | rfl | rfl | rfl | rfl | rfl
  all_goals simp [segmentsLen]

theorem not_isDigit_of_separators {c : Byte} (hc : c ∈ separators i) : isDigit c = false := by
  unfold separators at hc
  split at hc
  all_goals
    simp only [List.mem_cons, List.not_mem_nil, or_false] at hc
  · subst hc
    decide
  · subst hc
    decide
  · rcases hc with rfl | rfl
    · decide
    · decide
  · subst hc
    decide
  · subst hc
    decide
  · rcases hc with rfl | rfl
    · decide
    · decide
  · rcases hc with rfl | rfl
    · decide
    · decide

/-- The digits that a segment may have, but for the microseconds. -/
def minDigits : ℕ → ℕ
  | 0 => 4
  | 7 => 0
  | _ => 1

def maxDigits : ℕ → ℕ
  | 0 => 6
  | _ => 2

theorem isValidDigits_iff (hi : i ≠ 6) {n : ℕ} :
    isValidDigits i n = true ↔ minDigits i ≤ n ∧ n ≤ maxDigits i := by
  unfold isValidDigits
  simp only [Bool.or_eq_true, Bool.and_eq_true, decide_eq_true_eq]
  rcases eq_or_ne i 0 with rfl | hzero
  · show _ ↔ 4 ≤ n ∧ n ≤ 6
    omega
  have hmax : maxDigits i = 2 := by
    unfold maxDigits
    split
    · exact absurd rfl hzero
    · rfl
  rw [hmax]
  rcases eq_or_ne i 7 with rfl | hseven
  · show _ ↔ 0 ≤ n ∧ n ≤ 2
    omega
  have hmin : minDigits i = 1 := by
    unfold minDigits
    split
    · exact absurd rfl hzero
    · exact absurd rfl hseven
    · rfl
  rw [hmin]
  omega

theorem isNumber_of_valid (hi : i ≠ 6) (hds : ∀ c ∈ ds, isDigit c = true)
    (h : isValidDigits i ds.length = true) : IsNumber (minDigits i) (maxDigits i) ds :=
  ⟨hds, ((isValidDigits_iff hi).1 h).1, ((isValidDigits_iff hi).1 h).2⟩

theorem IsNumber.valid (hi : i ≠ 6) (h : IsNumber (minDigits i) (maxDigits i) ds) :
    isValidDigits i ds.length = true :=
  (isValidDigits_iff hi).2 ⟨h.le_length, h.length_le⟩

/-- A segment is a number, at the end of the text or in front of a separator. -/
theorem scan_segment (hi : i ∈ [1, 2, 3, 4, 7, 8]) (ho : o ≠ .error .invalid) :
    scanFrom v endPos sign issue text f i dm = o ↔
      IsNumber (minDigits i) (maxDigits i) text ∧ o = .ok ((f.set i (number text)).padded dm) ∨
        ∃ ds c rest, text = ds ++ c :: rest ∧ IsNumber (minDigits i) (maxDigits i) ds ∧
          c ∈ separators i ∧
          scanFrom v endPos sign issue rest (f.set i (number ds)) (i + 1) dm = o := by
  have hne : i ≠ 6 := by
    rintro rfl
    exact absurd hi (by decide)
  have hlt : i < segmentsLen := (by decide : ∀ i ∈ [1, 2, 3, 4, 7, 8], i < segmentsLen) i hi
  -- digits are read up to the first other character, which has to be a separator
  have hstep {ds rest : List Byte} {c : Byte} (hds : ∀ c ∈ ds, isDigit c = true)
      (hc : isDigit c = false) : scanFrom v endPos sign issue (ds ++ c :: rest) f i dm =
        if c ∈ separators i ∧ isValidDigits i ds.length = true then
          scanFrom v endPos sign issue rest (f.set i (number ds)) (i + 1) dm
        else .error .invalid := by
    unfold scanFrom
    have hsi : (ds.foldl readDigit (f.fresh i dm)).i = i := by
      rw [foldl_readDigit (s := f.fresh i dm) hne]
      rfl
    rw [scan_append hds, Bool.false_and, scan_separator hc, separator_segment hi hsi,
      nextSegment_digits hne hlt hds]
    by_cases hsep : c ∈ separators i
    · rw [if_pos hsep]
      cases hvalid : isValidDigits i ds.length with
      | false =>
        rw [if_neg (by simp), if_neg (by simp)]
        rfl
      | true =>
        rw [if_pos rfl, if_pos ⟨hsep, rfl⟩]
        rfl
    · rw [if_neg hsep, if_neg fun h => hsep h.1]
  constructor
  · intro h
    obtain ⟨ds, rest, rfl, hds, hrest⟩ := exists_span text
    cases rest with
    | nil =>
      rw [List.append_nil] at h ⊢
      rw [scanFrom, scan_end hne hlt hds] at h
      split_ifs at h with hvalid
      · exact .inl ⟨isNumber_of_valid hne hds hvalid, h.symm⟩
      · exact absurd h.symm ho
    | cons c rest =>
      rw [hstep hds (hrest c rfl)] at h
      split_ifs at h with hvalid
      · exact .inr ⟨ds, c, rest, rfl, isNumber_of_valid hne hds hvalid.2, hvalid.1, h⟩
      · exact absurd h.symm ho
  · rintro (⟨hds, rfl⟩ | ⟨ds, c, rest, rfl, hds, hsep, rfl⟩)
    · rw [scanFrom, scan_end hne hlt hds.digits, if_pos (hds.valid hne)]
    · rw [hstep hds.digits (not_isDigit_of_separators hsep), if_pos ⟨hsep, hds.valid hne⟩]

/-! ### Offsets in segments of their own -/

/-- The segments of an offset, or the write behind them. -/
def Fields.legacy (f : Fields) (h m : ℕ) : Option ℕ → Except Stop Fields
  | none => .ok ((f.set 7 h).set 8 m)
  | some _ => .error .writesOutside

theorem Fields.set_comm (f : Fields) {k l : ℕ} (h : k ≠ l) (x y : Int) :
    (f.set k x).set l y = (f.set l y).set k x := by
  unfold Fields.set
  rw [Function.update_comm h]

theorem Fields.padded_set (f : Fields) {k : ℕ} (h : k ≠ 6) (x : Int) (dm : ℕ) :
    (f.set k x).padded dm = (f.padded dm).set k x := by
  unfold Fields.padded
  rw [Fields.segments_set_of_ne f h.symm, Fields.set_comm f h]

theorem Fields.segments_padded (f : Fields) {k : ℕ} (h : k ≠ 6) (dm : ℕ) :
    (f.padded dm).segments k = f.segments k :=
  Fields.segments_set_of_ne f h _

open Fields (set_self segments_set_of_ne padded_set set_comm)

/-- A third part of the offset is written behind the segments. -/
theorem scan_outside (ho : o ≠ .error .invalid) : scanFrom v endPos sign issue text f 9 dm = o ↔
    IsNumber 1 2 text ∧ o = .error .writesOutside := by
  have hnine : (9 : ℕ) ≠ 6 := by decide
  have hend {ds : List Byte} (hds : ∀ c ∈ ds, isDigit c = true) :
      scanFrom v endPos sign issue ds f 9 dm =
        if isValidDigits 9 ds.length then .error .writesOutside else .error .invalid := by
    unfold scanFrom
    rw [← List.append_nil ds, scan_append hds, List.append_nil]
    show (storeSegment _).map _ = _
    cases hvalid : isValidDigits 9 ds.length with
    | false =>
      rw [storeSegment_invalid hnine hvalid]
      rfl
    | true =>
      rw [foldl_readDigit (s := f.fresh 9 dm) hnine]
      unfold storeSegment
      dsimp only
      rw [show (f.fresh 9 dm).currentSegmentDigits + ds.length = ds.length from Nat.zero_add _,
        show (f.fresh 9 dm).i = 9 from rfl, hvalid, if_neg (by simp), if_neg (by decide)]
      rfl
  constructor
  · intro h
    obtain ⟨ds, rest, rfl, hds, hrest⟩ := exists_span text
    cases rest with
    | nil =>
      rw [List.append_nil] at h ⊢
      rw [hend hds] at h
      split_ifs at h with hvalid
      · exact ⟨isNumber_of_valid hnine hds hvalid, h.symm⟩
      · exact absurd h.symm ho
    | cons c rest =>
      -- a separator behind the ninth segment is invalid
      have hsi : (ds.foldl readDigit (f.fresh 9 dm)).i = 9 := by
        rw [foldl_readDigit (s := f.fresh 9 dm) hnine]
        rfl
      unfold scanFrom at h
      rw [scan_append hds, Bool.false_and, scan_separator (hrest c rfl)] at h
      unfold separator at h
      rw [if_neg (by simp), hsi] at h
      exact absurd h.symm ho
  · rintro ⟨hds, rfl⟩
    rw [hend hds.digits, if_pos (hds.valid (i := 9) hnine)]

theorem scan_legacy (h8 : f.segments 8 = 0) (ho : o ≠ .error .invalid) :
    scanFrom v endPos sign issue text f 7 dm = o ↔
      ∃ h m s, LegacyText text h m s ∧ o = (f.padded dm).legacy h m s := by
  have hsep {c : Byte} : c ∈ [chr ':', chr ' '] ↔ c = chr ':' ∨ c = chr ' ' := by simp
  have hzero : ((f.padded dm).set 7 (number text)).segments 8 = 0 := by
    rw [segments_set_of_ne _ (by decide), Fields.segments_padded f (by decide), h8]
  rw [scan_segment (by decide) ho]
  constructor
  · rintro (⟨hh, rfl⟩ | ⟨hs, c, rest, rfl, hh, hc, hrest⟩)
    · refine ⟨_, _, _, .hours hh, ?_⟩
      rw [padded_set f (by decide)]
      exact congrArg Except.ok (set_self hzero).symm
    rw [scan_segment (by decide) ho] at hrest
    obtain ⟨hm, rfl⟩ | ⟨ms, d, rest, rfl, hm, hd, hrest⟩ := hrest
    · refine ⟨_, _, _, .minutes hh (hsep.1 hc) hm, ?_⟩
      rw [padded_set _ (by decide), padded_set f (by decide)]
      rfl
    · obtain ⟨hs', rfl⟩ := (scan_outside ho).1 hrest
      exact ⟨_, _, _, .seconds hh (hsep.1 hc) hm (hsep.1 hd) hs', rfl⟩
  · rintro ⟨h, m, s, htext, rfl⟩
    cases htext with
    | hours hh =>
      refine .inl ⟨hh, ?_⟩
      rw [padded_set f (by decide)]
      exact congrArg Except.ok (set_self hzero)
    | minutes hh hc hm =>
      refine .inr ⟨_, _, _, rfl, hh, hsep.2 hc, ?_⟩
      rw [scan_segment (by decide) ho]
      refine .inl ⟨hm, ?_⟩
      rw [padded_set _ (by decide), padded_set f (by decide)]
      rfl
    | seconds hh hc hm hd hs' =>
      refine .inr ⟨_, _, _, rfl, hh, hsep.2 hc, ?_⟩
      rw [scan_segment (by decide) ho]
      exact .inr ⟨_, _, _, rfl, hm, hsep.2 hd, (scan_outside ho).2 ⟨hs', rfl⟩⟩

/-! ### Zones -/

/-- The fields with a zone as it is written. The sign of an offset in segments of its own is kept as
Spark 3.2.0 keeps it here: 1 for `+`, and 0 for `-`. -/
def Fields.zoned (f : Fields) : WrittenZone → Except Stop Fields
  | .notSpecified => .ok f
  | .zone tz => .ok { f with tz }
  | .legacy negative h m s =>
    { f with
      hasSignTzForSpark320 := true
      tzSignForSpark320 := if negative then 0 else 1 }.legacy h m s

/-- The run behind the time, where the next character is no digit. -/
def scanZone (v : SparkVersion) (endPos : ℕ) (sign issue : Bool) (c : Byte) (rest : List Byte)
    (f : Fields) (dm : ℕ) : Except Stop Fields :=
  if v.isSpark320 ∧ (c = chr '-' ∨ c = chr '+') then
    scanFrom v endPos sign issue rest
      { f with hasSignTzForSpark320 := true, tzSignForSpark320 := if c = chr '+' then 1 else 0 } 7 dm
  else
    match parseFromTz v.isSpark320 endPos (c :: rest) with
    | .error e => .error e
    | .ok tz =>
      if tz.type = .invalidTz then .error .invalid else .ok (({ f with tz }.set 7 0).padded dm)

theorem scanZone_iff {c : Byte} (h7 : f.segments 7 = 0) (h8 : f.segments 8 = 0)
    (hc : isDigit c = false) (ho : o ≠ .error .invalid) :
    scanZone v endPos sign issue c rest f dm = o ↔
      ∃ z, ZonePart v endPos (c :: rest) z ∧ o = (f.padded dm).zoned z := by
  have hzoned (hc : c = chr '-' ∨ c = chr '+') (h m : ℕ) (s : Option ℕ) :
      (f.padded dm).zoned (.legacy (decide (c = chr '-')) h m s) = ({ f with
        hasSignTzForSpark320 := true
        tzSignForSpark320 := if c = chr '+' then 1 else 0 }.padded dm).legacy h m s := by
    rcases hc with rfl | rfl
    · rfl
    · rfl
  have hset (tz : TimeZone) : ({ f with tz }.set 7 0).padded dm = { f.padded dm with tz } := by
    rw [set_self (f := { f with tz }) h7]
    rfl
  unfold scanZone
  constructor
  · intro h
    -- Spark 3.2 reads a sign as the start of an offset of its own
    by_cases hlegacy : v.isSpark320 ∧ (c = chr '-' ∨ c = chr '+')
    · rw [if_pos hlegacy, scan_legacy (by exact h8) ho] at h
      obtain ⟨h, m, s, htext, rfl⟩ := h
      exact ⟨_, .legacy hlegacy.1 hlegacy.2 htext, (hzoned hlegacy.2 h m s).symm⟩
    · rw [if_neg hlegacy] at h
      obtain ⟨tz, hparse, htz⟩ :=
        parseTz_spec v.isSpark320 endPos ((c :: rest).dropWhile isWhitespace)
      unfold parseFromTz at h
      rw [hparse] at h
      dsimp only at h
      rcases htz with rfl | htz
      · exact absurd h.symm ho
      · rw [if_neg htz.abs_le.2, hset] at h
        exact ⟨.zone tz, .zone hc (fun hv hsign => hlegacy ⟨hv, hsign⟩) htz, h.symm⟩
  · rintro ⟨z, hz, rfl⟩
    cases hz with
    | zone hc hnot htz =>
      rw [if_neg fun h => hnot h.1 h.2]
      unfold parseFromTz
      rw [htz.parse]
      dsimp only
      rw [if_neg htz.abs_le.2, hset]
      rfl
    | legacy hv hc htext =>
      rw [if_pos ⟨hv, hc⟩, scan_legacy (by exact h8) ho]
      exact ⟨_, _, _, htext, hzoned hc _ _ _⟩

theorem separator_endTime {c : Byte} {s : ParseState} (hi : s.i = 5 ∨ s.i = 6) :
    s.separator v endPos sign issue false c rest = s.endTime v endPos c rest := by
  unfold separator
  rcases hi with hi | hi
  · rw [if_neg (by simp), hi]
    rfl
  · rw [if_neg (by simp), hi]
    rfl

theorem endTime_error {c : Byte} {s : ParseState} {e : Stop} (h : s.nextSegment = .error e) :
    s.endTime v endPos c rest = .error e := by
  unfold endTime
  by_cases hlegacy : v.isSpark320 ∧ (c = chr '-' ∨ c = chr '+')
  · rw [if_pos hlegacy, h]
    rfl
  rw [if_neg hlegacy]
  by_cases hdot : c = chr '.' ∧ s.i = 5
  · rw [if_pos hdot, h]
    rfl
  · rw [if_neg hdot, h]

/-- The end of the seconds or of the microseconds. -/
theorem endTime_eq {c : Byte} {s : ParseState} (hi : s.i = 5 ∧ c ≠ chr '.' ∨ s.i = 6) {g : Fields}
    (hnext : s.nextSegment = .ok (g.fresh (s.i + 1) dm)) (hc : isDigit c = false) :
    s.scan v endPos sign issue false (c :: rest) = scanZone v endPos sign issue c rest g dm := by
  have hskip (g : Fields) : (g.fresh (s.i + 1) dm).skipMicroseconds c = g.fresh 7 dm := by
    unfold skipMicroseconds
    rcases hi with ⟨hi, hdot⟩ | hi
    · rw [hi, if_pos ⟨rfl, hdot⟩]
      rfl
    · rw [hi, if_neg fun h => absurd h.1 (by show ¬(6 + 1 = 6); decide)]
  rw [scan_separator hc, separator_endTime (hi.imp_left And.left)]
  unfold endTime scanZone
  rw [hnext]
  by_cases hlegacy : v.isSpark320 ∧ (c = chr '-' ∨ c = chr '+')
  · rw [if_pos hlegacy, if_pos hlegacy]
    have hskip' := hskip { g with
      hasSignTzForSpark320 := true, tzSignForSpark320 := if c = chr '+' then 1 else 0 }
    show scan v endPos sign issue false rest (skipMicroseconds _ c) = _
    exact congrArg _ hskip'
  rw [if_neg hlegacy, if_neg hlegacy, if_neg]
  · dsimp only
    rcases parseFromTz v.isSpark320 endPos (c :: rest) with e | tz
    · rfl
    dsimp only
    by_cases hinvalid : tz.type = .invalidTz
    · rw [if_pos hinvalid, if_pos hinvalid]
    · rw [if_neg hinvalid, if_neg hinvalid]
      have hskip' := hskip { g with tz }
      show (storeSegment (skipMicroseconds _ c)).map _ = _
      exact congrArg (fun s => (storeSegment s).map padMicroseconds) hskip'
  · rintro ⟨rfl, hfive⟩
    rcases hi with ⟨-, hdot⟩ | hi
    · exact hdot rfl
    · rw [hi] at hfive
      exact absurd hfive (by decide)

/-! ### Fractions -/

theorem nextSegment_microseconds (f : Fields) (hds : ∀ c ∈ ds, isDigit c = true) :
    (ds.foldl readDigit (f.fresh 6 0)).nextSegment =
      .ok ((f.set 6 (number (ds.take 6))).fresh 7 ds.length) := by
  have hnumber := foldl_int32_number (fun c hc => hds c (List.mem_of_mem_take hc))
    ((List.length_take_le 6 ds).trans (by decide))
  rw [foldl_readDigit_microseconds (s := f.fresh 6 0) rfl]
  show Except.ok _ = _
  unfold Fields.fresh
  dsimp only
  rw [Nat.zero_add]
  exact congrArg (fun x => Except.ok ((f.set 6 x).fresh 7 ds.length)) hnumber

theorem storeSegment_microseconds (f : Fields) (hds : ∀ c ∈ ds, isDigit c = true) :
    (ds.foldl readDigit (f.fresh 6 0)).storeSegment.map padMicroseconds =
      .ok ((f.set 6 (number (ds.take 6))).padded ds.length) := by
  have hnumber := foldl_int32_number (fun c hc => hds c (List.mem_of_mem_take hc))
    ((List.length_take_le 6 ds).trans (by decide))
  rw [foldl_readDigit_microseconds (s := f.fresh 6 0) rfl]
  show Except.ok (Fields.padded (f.set 6 _) (0 + ds.length)) = _
  rw [Nat.zero_add]
  exact congrArg (fun x => Except.ok ((f.set 6 x).padded ds.length)) hnumber

theorem padded_microseconds (f : Fields) (ds : List Byte) :
    (f.set 6 (number (ds.take 6))).padded ds.length = f.set 6 (microseconds ds) := by
  unfold Fields.padded microseconds
  rw [iterate_mul_ten, Fields.segments_set_self, Fields.set_set]
  push_cast
  rfl

theorem ZonePart.noDigit {z : WrittenZone} (h : ZonePart v endPos rest z) : NoDigit rest := by
  cases h with
  | none => exact noDigit_nil
  | zone hc => exact noDigit_cons hc
  | legacy _ hc =>
    rcases hc with rfl | rfl
    · exact noDigit_cons (by decide)
    · exact noDigit_cons (by decide)

theorem scan_fraction (h7 : f.segments 7 = 0) (h8 : f.segments 8 = 0) (ho : o ≠ .error .invalid) :
    scanFrom v endPos sign issue text f 6 0 = o ↔ ∃ ds zs z, text = ds ++ zs ∧
      (∀ c ∈ ds, isDigit c = true) ∧ ZonePart v endPos zs z ∧
        o = (f.set 6 (microseconds ds)).zoned z := by
  have hend {ds : List Byte} (hds : ∀ c ∈ ds, isDigit c = true) :
      scanFrom v endPos sign issue ds f 6 0 = .ok (f.set 6 (microseconds ds)) := by
    unfold scanFrom
    rw [← List.append_nil ds, scan_append hds, List.append_nil, ← padded_microseconds]
    exact storeSegment_microseconds f hds
  -- the fraction ends at its first other character, and a zone follows
  have hstep {ds rest : List Byte} {c : Byte} (hds : ∀ c ∈ ds, isDigit c = true)
      (hc : isDigit c = false) : scanFrom v endPos sign issue (ds ++ c :: rest) f 6 0 = o ↔
        ∃ z, ZonePart v endPos (c :: rest) z ∧ o = (f.set 6 (microseconds ds)).zoned z := by
    have hsi : (ds.foldl readDigit (f.fresh 6 0)).i = 6 := by
      rw [foldl_readDigit_microseconds (s := f.fresh 6 0) rfl]
      rfl
    have hnext := nextSegment_microseconds f hds
    have h7' : (f.set 6 (number (ds.take 6))).segments 7 = 0 := by
      rw [segments_set_of_ne f (by decide), h7]
    have h8' : (f.set 6 (number (ds.take 6))).segments 8 = 0 := by
      rw [segments_set_of_ne f (by decide), h8]
    unfold scanFrom
    rw [scan_append hds, Bool.false_and, endTime_eq (.inr hsi) (by rw [hsi]; exact hnext) hc,
      scanZone_iff h7' h8' hc ho, padded_microseconds]
  constructor
  · intro h
    obtain ⟨ds, rest, rfl, hds, hrest⟩ := exists_span text
    cases rest with
    | nil =>
      rw [List.append_nil, hend hds] at h
      exact ⟨ds, [], .notSpecified, rfl, hds, .none, h.symm⟩
    | cons c rest =>
      obtain ⟨z, hz, ho⟩ := (hstep hds (hrest c rfl)).1 h
      exact ⟨ds, _, z, rfl, hds, hz, ho⟩
  · rintro ⟨ds, zs, z, rfl, hds, hz, rfl⟩
    have hrest := hz.noDigit
    cases zs with
    | nil =>
      cases hz
      rw [List.append_nil, hend hds]
      rfl
    | cons c rest => exact (hstep hds (hrest c rfl)).2 ⟨z, hz, rfl⟩

theorem foldl_i (f : Fields) (hi : i ≠ 6) (dm : ℕ) (ds : List Byte) :
    (ds.foldl readDigit (f.fresh i dm)).i = i := by
  rw [foldl_readDigit (s := f.fresh i dm) hi]
  rfl

theorem scan_seconds (h6 : f.segments 6 = 0) (h7 : f.segments 7 = 0) (h8 : f.segments 8 = 0)
    (ho : o ≠ .error .invalid) : scanFrom v endPos sign issue text f 5 0 = o ↔
      ∃ ss tail us z, text = ss ++ tail ∧ IsNumber 1 2 ss ∧ FractionPart v endPos tail us z ∧
        o = ((f.set 5 (number ss)).set 6 us).zoned z := by
  have hfive : (5 : ℕ) ≠ 6 := by decide
  have hlt : 5 < segmentsLen := by decide
  have hg {k : ℕ} (hk : k ≠ 5) (h : f.segments k = 0) (x : Int) : (f.set 5 x).segments k = 0 := by
    rw [segments_set_of_ne f hk, h]
  have hzero (x : Int) : (f.set 5 x).set 6 (0 : ℕ) = f.set 5 x :=
    set_self (hg (by decide) h6 x)
  have hpadded (x : Int) : (f.set 5 x).padded 0 = f.set 5 x :=
    Fields.padded_of_zero (hg (by decide) h6 x) 0
  -- the digits of the seconds, up to the next character
  have hstep {ds rest : List Byte} {c : Byte} (hds : ∀ c ∈ ds, isDigit c = true)
      (hc : isDigit c = false) : scanFrom v endPos sign issue (ds ++ c :: rest) f 5 0 =
        if isValidDigits 5 ds.length then
          if c = chr '.' then scanFrom v endPos sign issue rest (f.set 5 (number ds)) 6 0
          else scanZone v endPos sign issue c rest (f.set 5 (number ds)) 0
        else .error .invalid := by
    have hsi := foldl_i f hfive 0 ds
    have hnext := @nextSegment_digits f 5 0 ds hfive hlt hds
    unfold scanFrom
    rw [scan_append hds, Bool.false_and]
    cases hvalid : isValidDigits 5 ds.length with
    | false =>
      rw [hvalid, if_neg (by simp)] at hnext
      rw [scan_separator hc, separator_endTime (.inl hsi), endTime_error hnext, if_neg (by simp)]
    | true =>
      rw [hvalid, if_pos rfl] at hnext
      rw [if_pos rfl]
      by_cases hdot : c = chr '.'
      · rw [if_pos hdot, scan_separator hc, separator_endTime (.inl hsi), hdot]
        unfold endTime
        rw [if_neg fun h => absurd h.2 (by decide), if_pos ⟨rfl, hsi⟩, hnext]
        rfl
      · rw [if_neg hdot]
        exact endTime_eq (.inl ⟨hsi, hdot⟩) (by rw [hsi]; exact hnext) hc
  constructor
  · intro h
    obtain ⟨ds, rest, rfl, hds, hrest⟩ := exists_span text
    cases rest with
    | nil =>
      rw [List.append_nil, scanFrom, scan_end hfive hlt hds] at h
      split_ifs at h with hvalid
      · refine ⟨ds, [], 0, .notSpecified, rfl, isNumber_of_valid hfive hds hvalid,
          .none .none (by simp), ?_⟩
        rw [← h, hpadded, hzero]
        rfl
      · exact absurd h.symm ho
    | cons c rest =>
      rw [hstep hds (hrest c rfl)] at h
      split_ifs at h with hvalid hdot
      · rw [scan_fraction (hg (by decide) h7 _) (hg (by decide) h8 _) ho] at h
        obtain ⟨us, zs, z, rfl, hus, hz, rfl⟩ := h
        rw [hdot]
        exact ⟨ds, _, _, z, rfl, isNumber_of_valid hfive hds hvalid, .fraction hus hz, rfl⟩
      · rw [scanZone_iff (hg (by decide) h7 _) (hg (by decide) h8 _) (hrest c rfl) ho, hpadded] at h
        obtain ⟨z, hz, rfl⟩ := h
        refine ⟨ds, _, 0, z, rfl, isNumber_of_valid hfive hds hvalid, .none hz ?_, ?_⟩
        · exact fun h => hdot (Option.some.inj h)
        · rw [hzero]
      · exact absurd h.symm ho
  · rintro ⟨ss, tail, us, z, rfl, hss, htail, rfl⟩
    have hvalid : isValidDigits 5 ss.length = true := hss.valid (i := 5) hfive
    cases htail with
    | none hz hdot =>
      rw [hzero] at ho ⊢
      have hrest := hz.noDigit
      cases tail with
      | nil =>
        cases hz
        rw [List.append_nil, scanFrom, scan_end hfive hlt hss.digits, if_pos hvalid, hpadded]
        rfl
      | cons c rest =>
        rw [hstep hss.digits (hrest c rfl), if_pos hvalid, if_neg fun h => hdot (congrArg some h),
          scanZone_iff (hg (by decide) h7 _) (hg (by decide) h8 _) (hrest c rfl) ho, hpadded]
        exact ⟨z, hz, rfl⟩
    | fraction hds hz =>
      rw [hstep hss.digits (by decide), if_pos hvalid, if_pos rfl,
        scan_fraction (hg (by decide) h7 _) (hg (by decide) h8 _) ho]
      exact ⟨_, _, z, rfl, hds, hz, rfl⟩

/-! ### Times -/

/-- The segments behind the one at `k` have their initial values. -/
def Fields.Blank (f : Fields) (k : ℕ) : Prop := ∀ l, k < l → l < segmentsLen → f.segments l = 0

theorem Fields.Blank.set {k : ℕ} (h : f.Blank k) {l : ℕ} (hl : l = k + 1) (x : Int) :
    (f.set l x).Blank l := by
  intro j hj hlt
  rw [Fields.segments_set_of_ne f hj.ne', h j (by omega) hlt]

/-- Behind the last segment of a text nothing is changed. -/
theorem Fields.Blank.padded {k : ℕ} (h : f.Blank k) (hk : k < 6) (dm : ℕ) : f.padded dm = f :=
  Fields.padded_of_zero (h 6 hk (by decide)) dm

theorem Fields.Blank.set_self {k l : ℕ} (h : f.Blank k) (hl : k < l) (hlt : l < segmentsLen) :
    f.set l (0 : ℕ) = f :=
  Fields.set_self (h l hl hlt)

theorem scan_minutes (hblank : f.Blank 3) (ho : o ≠ .error .invalid) :
    scanFrom v endPos sign issue text f 4 0 = o ↔ ∃ m s us z, MinutePart v endPos text m s us z ∧
      o = (((f.set 4 (m : ℕ)).set 5 (s : ℕ)).set 6 (us : ℕ)).zoned z := by
  have hcolon {c : Byte} : c ∈ separators 4 ↔ c = chr ':' := by simp [separators]
  have hset (x : Int) : (f.set 4 x).Blank 4 := hblank.set rfl x
  have hseconds {rest : List Byte} (x : Int) :
      scanFrom v endPos sign issue rest (f.set 4 x) 5 0 = o ↔
        ∃ ss tail us z, rest = ss ++ tail ∧ IsNumber 1 2 ss ∧ FractionPart v endPos tail us z ∧
          o = (((f.set 4 x).set 5 (number ss)).set 6 us).zoned z :=
    scan_seconds (hset x 6 (by decide) (by decide)) (hset x 7 (by decide) (by decide))
      (hset x 8 (by decide) (by decide)) ho
  rw [scan_segment (by decide) ho]
  constructor
  · rintro (⟨hm, rfl⟩ | ⟨ms, c, rest, rfl, hm, hc, hrest⟩)
    · refine ⟨_, _, _, _, .minute hm, ?_⟩
      rw [(hset _).padded (by decide), (hset _).set_self (by decide) (by decide),
        (hset _).set_self (by decide) (by decide)]
      rfl
    · obtain ⟨ss, tail, us, z, rfl, hss, htail, rfl⟩ := (hseconds _).1 hrest
      rw [hcolon.1 hc]
      exact ⟨_, _, _, z, .second hm hss htail, rfl⟩
  · rintro ⟨m, s, us, z, htext, rfl⟩
    cases htext with
    | minute hm =>
      refine .inl ⟨hm, ?_⟩
      rw [(hset _).padded (by decide), (hset _).set_self (by decide) (by decide),
        (hset _).set_self (by decide) (by decide)]
      rfl
    | second hm hss htail =>
      exact .inr ⟨_, _, _, rfl, hm, hcolon.2 rfl, (hseconds _).2 ⟨_, _, _, z, rfl, hss, htail, rfl⟩⟩

/-- The fields with a time of the day. -/
def Fields.clocked (f : Fields) (c : Clock) : Except Stop Fields :=
  ((((f.set 3 c.hour).set 4 c.minute).set 5 c.second).set 6 c.microseconds).zoned c.zone

theorem scan_clock (hblank : f.Blank 2) (ho : o ≠ .error .invalid) :
    scanFrom v endPos sign issue text f 3 0 = o ↔
      ∃ c, ClockText v endPos text c ∧ o = f.clocked c := by
  have hcolon {c : Byte} : c ∈ separators 3 ↔ c = chr ':' := by simp [separators]
  have hset (x : Int) : (f.set 3 x).Blank 3 := hblank.set rfl x
  have hhour (hour : ℕ) : .ok ((f.set 3 hour).padded 0) = f.clocked ⟨hour, 0, 0, 0, .notSpecified⟩ := by
    unfold Fields.clocked
    dsimp only
    rw [(hset _).padded (by decide), (hset _).set_self (by decide) (by decide),
      (hset _).set_self (by decide) (by decide), (hset _).set_self (by decide) (by decide)]
    rfl
  rw [scan_segment (by decide) ho]
  constructor
  · rintro (⟨hh, rfl⟩ | ⟨hs, c, rest, rfl, hh, hc, hrest⟩)
    · exact ⟨_, .hour hh, hhour _⟩
    · obtain ⟨m, s, us, z, hm, rfl⟩ := (scan_minutes (hset _) ho).1 hrest
      rw [hcolon.1 hc]
      exact ⟨_, .minute hh hm, rfl⟩
  · rintro ⟨c, htext, rfl⟩
    cases htext with
    | hour hh => exact .inl ⟨hh, (hhour _).symm⟩
    | minute hh hm =>
      exact .inr ⟨_, _, _, rfl, hh, hcolon.2 rfl, (scan_minutes (hset _) ho).2 ⟨_, _, _, _, hm, rfl⟩⟩

/-! ### The text from its first character -/

theorem Fields.Blank.set_of_le {k l : ℕ} (h : f.Blank k) (hl : l ≤ k) (x : Int) : (f.set l x).Blank k := by
  intro j hj hlt
  rw [Fields.segments_set_of_ne f (by omega), h j hj hlt]

theorem clocked_midnight (h : f.Blank 2) : f.clocked .midnight = .ok f := by
  unfold Fields.clocked Clock.midnight
  dsimp only
  rw [h.set_self (by decide) (by decide), h.set_self (by decide) (by decide),
    h.set_self (by decide) (by decide), h.set_self (by decide) (by decide)]
  rfl

theorem scan_day (hblank : f.Blank 2) (ho : o ≠ .error .invalid) :
    scanFrom v endPos sign issue text f 2 0 = o ↔
      IsNumber 1 2 text ∧ o = (f.set 2 (number text)).clocked .midnight ∨
        ∃ ds sep rest c, text = ds ++ sep :: rest ∧ IsNumber 1 2 ds ∧ (sep = chr ' ' ∨ sep = chr 'T') ∧
          ClockText v endPos rest c ∧ o = (f.set 2 (number ds)).clocked c := by
  have hsep {c : Byte} : c ∈ separators 2 ↔ c = chr ' ' ∨ c = chr 'T' := by simp [separators]
  have hset (x : Int) : (f.set 2 x).Blank 2 := hblank.set_of_le le_rfl x
  rw [scan_segment (by decide) ho]
  constructor
  · rintro (⟨hd, rfl⟩ | ⟨ds, c, rest, rfl, hd, hc, hrest⟩)
    · rw [(hset _).padded (by decide), clocked_midnight (hset _)]
      exact .inl ⟨hd, rfl⟩
    · obtain ⟨clock, htext, rfl⟩ := (scan_clock (hset _) ho).1 hrest
      exact .inr ⟨ds, c, rest, clock, rfl, hd, hsep.1 hc, htext, rfl⟩
  · rintro (⟨hd, rfl⟩ | ⟨ds, sep, rest, c, rfl, hd, hc, htext, rfl⟩)
    · refine .inl ⟨hd, ?_⟩
      rw [(hset _).padded (by decide), clocked_midnight (hset _)]
    · exact .inr ⟨ds, sep, rest, rfl, hd, hsep.2 hc, (scan_clock (hset _) ho).2 ⟨c, htext, rfl⟩⟩

/-- The initial fields of a text with a time alone, or with a date. -/
def Fields.start (justTime : Bool) : Fields := { Fields.initial with justTime }

theorem blank_start (justTime : Bool) : (Fields.start justTime).Blank 2 := by
  intro l hl hlt
  exact (by decide : ∀ l < segmentsLen, 2 < l → Fields.initial.segments l = 0) l hlt hl

/-- The fields that the loop leaves behind for a text. -/
def Timestamp.fields (t : Timestamp) : Except Stop Fields :=
  ((((Fields.start t.justTime).set 0 t.year).set 1 t.month).set 2 t.day).clocked t.clock

/-- Behind the first digits, the year ends with `-`, and the hour of a time alone with `:`. -/
theorem separator_first {c : Byte} (hds : ∀ c ∈ ds, isDigit c = true) :
    (ds.foldl readDigit first).separator v endPos sign issue
        (!sign && ds.isEmpty) c rest =
      if (!sign && ds.isEmpty) ∧ c = chr 'T' ∧ !issue then
        .ok ((ds.foldl readDigit ((Fields.start true).fresh 3 0)), false)
      else if c = chr '-' then
        if isValidDigits 0 ds.length then
          .ok (((Fields.start false).set 0 (number ds)).fresh 1 0, false)
        else .error .invalid
      else if c = chr ':' ∧ !sign then
        if isValidDigits 3 ds.length then
          .ok (((Fields.start true).set 3 (number ds)).fresh 4 0, false)
        else .error .invalid
      else .error .invalid := by
  have hfirst : first = (Fields.start false).fresh 0 0 := rfl
  have hzero : (0 : ℕ) ≠ 6 := by decide
  have hthree : (3 : ℕ) ≠ 6 := by decide
  have hsi : (ds.foldl readDigit ((Fields.start false).fresh 0 0)).i = 0 := foldl_i _ hzero _ _
  -- the digits do not depend on the segment
  have htime : { ds.foldl readDigit ((Fields.start false).fresh 0 0) with
      justTime := true, i := 3 } = ds.foldl readDigit ((Fields.start true).fresh 3 0) := by
    rw [foldl_readDigit (show ((Fields.start false).fresh 0 0).i ≠ 6 from hzero),
      foldl_readDigit (show ((Fields.start true).fresh 3 0).i ≠ 6 from hthree)]
    rfl
  rw [hfirst]
  unfold separator
  rw [hsi]
  by_cases hT : (!sign && ds.isEmpty) ∧ c = chr 'T' ∧ !issue
  · rw [if_pos hT, if_pos hT]
    exact congrArg (fun s => Except.ok (s, false)) htime
  rw [if_neg hT, if_neg hT, if_pos (by decide)]
  by_cases hdash : c = chr '-'
  · rw [if_pos hdash, if_pos hdash, nextSegment_digits hzero (by decide) hds]
    cases isValidDigits 0 ds.length with
    | false => rfl
    | true => rfl
  rw [if_neg hdash, if_neg hdash]
  by_cases hcolon : c = chr ':' ∧ !sign
  · rw [if_pos ⟨rfl, hcolon⟩, if_pos hcolon, htime, nextSegment_digits hthree (by decide) hds]
    cases isValidDigits 3 ds.length with
    | false => rfl
    | true => rfl
  · rw [if_neg fun h => hcolon h.2, if_neg hcolon]

/-- What the loop gives for the first segment: a year, with the text behind it, or a time alone. -/
theorem scan_first (ho : o ≠ .error .invalid) :
    first.scan v endPos sign issue (!sign) text = o ↔
      IsNumber 4 6 text ∧ o = .ok ((Fields.start false).set 0 (number text)) ∨
      (∃ ys rest, text = ys ++ chr '-' :: rest ∧ IsNumber 4 6 ys ∧
        scanFrom v endPos sign issue rest ((Fields.start false).set 0 (number ys)) 1 0 = o) ∨
      (sign = false ∧ ∃ hs rest, text = hs ++ chr ':' :: rest ∧ IsNumber 1 2 hs ∧
        scanFrom v endPos sign issue rest ((Fields.start true).set 3 (number hs)) 4 0 = o) ∨
      sign = false ∧ issue = false ∧ ∃ rest, text = chr 'T' :: rest ∧
        scanFrom v endPos sign issue rest (Fields.start true) 3 0 = o := by
  have hend (atStart : Bool) {ds : List Byte} (hds : ∀ c ∈ ds, isDigit c = true) :
      first.scan v endPos sign issue atStart ds =
        if isValidDigits 0 ds.length then .ok ((Fields.start false).set 0 (number ds))
        else .error .invalid := by
    have hpadded : ((Fields.start false).set 0 (number ds)).padded 0 =
        (Fields.start false).set 0 (number ds) :=
      ((blank_start false).set_of_le (Nat.zero_le _) _).padded (by decide) 0
    have hscan := @scan_end v endPos sign issue (Fields.start false) 0 0 ds (by decide) (by decide)
      hds atStart
    rw [hpadded] at hscan
    exact hscan
  constructor
  · intro h
    -- the digits in front, and the character behind them
    obtain ⟨ds, rest, rfl, hds, hrest⟩ := exists_span text
    cases rest with
    | nil =>
      rw [List.append_nil] at h ⊢
      rw [hend _ hds] at h
      split_ifs at h with hvalid
      · exact .inl ⟨isNumber_of_valid (by decide) hds hvalid, h.symm⟩
      · exact absurd h.symm ho
    | cons c rest =>
      rw [scan_append hds, scan_separator (hrest c rfl), separator_first hds] at h
      by_cases hT : (!sign && ds.isEmpty) ∧ c = chr 'T' ∧ !issue
      · rw [if_pos hT] at h
        -- a `T` before all digits: only the time is written
        have hstart : sign = false ∧ ds = [] := by simpa using hT.1
        obtain ⟨hsign, rfl⟩ := hstart
        obtain ⟨-, rfl, hissue⟩ := hT
        exact .inr (.inr (.inr ⟨hsign, by simpa using hissue, rest, rfl, h⟩))
      rw [if_neg hT] at h
      by_cases hdash : c = chr '-'
      · rw [if_pos hdash] at h
        subst hdash
        cases hvalid : isValidDigits 0 ds.length with
        | false =>
          rw [hvalid] at h
          exact absurd h.symm ho
        | true =>
          rw [hvalid] at h
          exact .inr (.inl ⟨ds, rest, rfl, isNumber_of_valid (by decide) hds hvalid, h⟩)
      rw [if_neg hdash] at h
      by_cases hcolon : c = chr ':' ∧ !sign
      · rw [if_pos hcolon] at h
        obtain ⟨rfl, hsign⟩ := hcolon
        cases hvalid : isValidDigits 3 ds.length with
        | false =>
          rw [hvalid] at h
          exact absurd h.symm ho
        | true =>
          rw [hvalid] at h
          exact .inr (.inr (.inl ⟨by simpa using hsign, ds, rest, rfl,
            isNumber_of_valid (i := 3) (by decide) hds hvalid, h⟩))
      · rw [if_neg hcolon] at h
        exact absurd h.symm ho
  · rintro (⟨hy, rfl⟩ | ⟨ys, rest, rfl, hy, rfl⟩ | ⟨rfl, hs, rest, rfl, hh, rfl⟩ |
      ⟨rfl, rfl, rest, rfl, rfl⟩)
    · rw [hend _ hy.digits, if_pos (hy.valid (i := 0) (by decide))]
    · have hne : ys.isEmpty = false := List.isEmpty_eq_false_iff.2 (List.length_pos_iff.1
        ((by decide : 0 < 4).trans_le hy.le_length))
      rw [scan_append hy.digits, scan_separator (by decide), separator_first hy.digits, hne,
        if_neg (by simp), if_pos rfl, if_pos (hy.valid (i := 0) (by decide))]
      rfl
    · rw [scan_append hh.digits, scan_separator (by decide), separator_first hh.digits,
        if_neg fun h => absurd h.2.1 (by decide), if_neg (by decide), if_pos ⟨rfl, rfl⟩,
        if_pos (hh.valid (i := 3) (by decide))]
      rfl
    · -- no digits before the `T`
      have hnil : ∀ c ∈ ([] : List Byte), isDigit c = true := fun c hc => absurd hc List.not_mem_nil
      have hscan := @scan_append v endPos false false [] (chr 'T' :: rest) hnil (!false) first
      rw [List.nil_append] at hscan
      rw [hscan, scan_separator (by decide), separator_first hnil, if_pos ⟨rfl, rfl, rfl⟩]
      rfl

/-- What the run of the parser gives for a text, it gives for the fields that the text writes. -/
theorem scan_iff (ho : o ≠ .error .invalid) :
    first.scan v endPos sign issue (!sign) text = o ↔
      ∃ t, UnsignedText v endPos sign issue text t ∧ o = t.fields := by
  have hyear (y : Int) : ((Fields.start false).set 0 y).Blank 2 := (blank_start false).set_of_le (by decide) y
  have hblank (y m : Int) : (((Fields.start false).set 0 y).set 1 m).Blank 2 :=
    (hyear y).set_of_le (by decide) m
  -- the initial month and day
  have hday (y m : Int) : (((Fields.start false).set 0 y).set 1 m).set 2 (1 : ℕ) =
      ((Fields.start false).set 0 y).set 1 m := by
    refine set_self ?_
    rw [segments_set_of_ne _ (by decide), segments_set_of_ne _ (by decide)]
    rfl
  have hmonth (y : Int) : ((Fields.start false).set 0 y).set 1 (1 : ℕ) = (Fields.start false).set 0 y := by
    refine set_self ?_
    rw [segments_set_of_ne _ (by decide)]
    rfl
  have htime : (((Fields.start true).set 0 1970).set 1 (1 : ℕ)).set 2 (1 : ℕ) = Fields.start true := by
    have hzero : (Fields.start true).set 0 1970 = Fields.start true := set_self rfl
    have hone : (Fields.start true).set 1 (1 : ℕ) = Fields.start true := set_self rfl
    have htwo : (Fields.start true).set 2 (1 : ℕ) = Fields.start true := set_self rfl
    rw [hzero, hone, htwo]
  have hyears (y : Int) : Timestamp.fields ⟨y, 1, 1, .midnight, false⟩ =
      .ok ((Fields.start false).set 0 y) := by
    unfold Timestamp.fields
    dsimp only
    rw [hday, hmonth, clocked_midnight (hyear y)]
  have hyearMonths (y : Int) (m : ℕ) : Timestamp.fields ⟨y, m, 1, .midnight, false⟩ =
      .ok (((Fields.start false).set 0 y).set 1 m) := by
    unfold Timestamp.fields
    dsimp only
    rw [hday, clocked_midnight (hblank y m)]
  have htimes (c : Clock) : Timestamp.fields ⟨1970, 1, 1, c, true⟩ = (Fields.start true).clocked c := by
    unfold Timestamp.fields
    dsimp only
    rw [htime]
  have hmonths {rest : List Byte} (y : Int) := @scan_segment v endPos sign issue
    ((Fields.start false).set 0 y) 1 0 rest o (by decide) ho
  have hdash {c : Byte} : c ∈ separators 1 ↔ c = chr '-' := by simp [separators]
  rw [scan_first ho]
  constructor
  · rintro (⟨hy, rfl⟩ | ⟨ys, rest, rfl, hy, hrest⟩ | ⟨hsign, hs, rest, rfl, hh, hrest⟩ |
      ⟨hsign, hissue, rest, rfl, hrest⟩)
    · exact ⟨_, .year hy, (hyears _).symm⟩
    · obtain ⟨hm, rfl⟩ | ⟨ms, c, rest, rfl, hm, hc, hrest⟩ := (hmonths _).1 hrest
      · refine ⟨_, .month hy hm, ?_⟩
        rw [hyearMonths, (hblank _ _).padded (by decide)]
      rw [hdash.1 hc]
      obtain ⟨hd, rfl⟩ | ⟨ds, sep, text, c, rfl, hd, hsep, htext, rfl⟩ := (scan_day (hblank _ _) ho).1 hrest
      · exact ⟨_, .day hy hm hd, rfl⟩
      · exact ⟨_, .clock hy hm hd hsep htext, rfl⟩
    · obtain ⟨m, s, us, z, hm, rfl⟩ := (scan_minutes ((blank_start true).set rfl _) ho).1 hrest
      exact ⟨_, .bare hsign hh hm, (htimes ⟨number hs, m, s, us, z⟩).symm⟩
    · obtain ⟨c, htext, rfl⟩ := (scan_clock (blank_start true) ho).1 hrest
      exact ⟨_, .time hsign hissue htext, (htimes c).symm⟩
  · rintro ⟨t, htext, rfl⟩
    cases htext with
    | year hy => exact .inl ⟨hy, hyears _⟩
    | month hy hm =>
      refine .inr (.inl ⟨_, _, rfl, hy, (hmonths _).2 (.inl ⟨hm, ?_⟩)⟩)
      rw [hyearMonths, (hblank _ _).padded (by decide)]
    | day hy hm hd =>
      refine .inr (.inl ⟨_, _, rfl, hy, (hmonths _).2 (.inr ⟨_, _, _, rfl, hm, hdash.2 rfl, ?_⟩)⟩)
      exact (scan_day (hblank _ _) ho).2 (.inl ⟨hd, rfl⟩)
    | clock hy hm hd hsep hc =>
      refine .inr (.inl ⟨_, _, rfl, hy, (hmonths _).2 (.inr ⟨_, _, _, rfl, hm, hdash.2 rfl, ?_⟩)⟩)
      exact (scan_day (hblank _ _) ho).2 (.inr ⟨_, _, _, _, rfl, hd, hsep, hc, rfl⟩)
    | time hsign hissue hc =>
      refine .inr (.inr (.inr ⟨hsign, hissue, _, rfl, ?_⟩))
      exact (scan_clock (blank_start true) ho).2 ⟨_, hc, htimes _⟩
    | bare hsign hh hm =>
      refine .inr (.inr (.inl ⟨hsign, _, _, rfl, hh, ?_⟩))
      exact (scan_minutes ((blank_start true).set rfl _) ho).2 ⟨_, _, _, _, hm, htimes _⟩

end SparkRapids.CastStringToDatetime
