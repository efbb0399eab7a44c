import SparkRapidsJni.TimeZone.ThereAndBack

/-!
# Timestamps of seconds and microseconds

`convert_with_timezones_fn` brings the seconds of a row from its time zone to UTC, and puts them together
with the microseconds, where `get_timestamp_overflow` says whether the timestamp fits into 64 bits. It
says so for all seconds but one: the least second that some timestamps have. There it takes the
timestamps that fit for the others.
-/

namespace SparkRapids.TimeZone

/-! ### The check of the source -/

/-- `max_v / micros_per_sec` -/
def maxPositiveSeconds : Int := longMax.tdiv 1000000

/-- `min_v / micros_per_sec - 1` -/
def minNegativeSeconds : Int := longMin.tdiv 1000000 - 1

/-- `get_timestamp_overflow`: whether there is an overflow, and the result. -/
def getTimestampOverflow (seconds microseconds : Int) : Bool × Int :=
  let result := wrap64 (seconds * 1000000 + microseconds)
  if seconds > maxPositiveSeconds ∨ seconds < minNegativeSeconds then (true, result)
  else if seconds > 0 then (microseconds > longMax - seconds * 1000000, result)
  else if seconds = minNegativeSeconds then (microseconds ≥ 224192, result)
  else (false, result)

/-! ### Rows -/

/-- An integer of an `int64_t`. -/
def IsInt64 (x : Int) : Prop := longMin ≤ x ∧ x ≤ longMax

instance (x : Int) : Decidable (IsInt64 x) := inferInstanceAs (Decidable (_ ∧ _))

/-- An integer of an `int32_t`. -/
def IsInt32 (x : Int) : Prop := -2147483648 ≤ x ∧ x ≤ 2147483647

instance (x : Int) : Decidable (IsInt32 x) := inferInstanceAs (Decidable (_ ∧ _))

/-- The table of a zone, in columns, with a first row before all times. -/
structure ZoneTable.Encoded (zone : ZoneTable) : Prop where
  first : longMin ∈ (zone.fixedTransitions.map FixedTransition.tzInstant).head?
  offsets : ∀ t ∈ zone.fixedTransitions, IsInt32 t.utcOffset
  rules : ∀ x ∈ zone.dstRules, IsInt32 x

/-- A row of the columns that `convert_with_timezones_fn` gets. -/
structure TimestampRow where
  seconds : Int
  microseconds : Int
  invalid : Bool
  tzType : TzType
  tzOffset : Int
  zone : ZoneTable
  seconds_range : IsInt64 seconds
  microseconds_range : 0 ≤ microseconds ∧ microseconds ≤ 999999
  tzOffset_range : IsInt32 tzOffset
  /-- where the zone is looked at -/
  zone_encoded : invalid = false → tzType ≠ .fixedTz → zone.Encoded

namespace TimestampRow

/-- The seconds in UTC; `none` where the table of the zone is read outside of its rows. -/
def convertedSeconds (row : TimestampRow) : Option Int :=
  if row.tzType = .fixedTz then some (wrap64 (row.seconds - row.tzOffset))
  else convertTimestamp .seconds row.seconds row.zone true

/-- `convert_with_timezones_fn`: the timestamp of a row, and its bit in the mask. -/
def convertWithTimezones (row : TimestampRow) : Option (Int × Bool) :=
  if row.invalid then some (0, false)
  else row.convertedSeconds.map fun converted =>
    let (overflow, result) := getTimestampOverflow converted row.microseconds
    if overflow then (0, false) else (result, true)

end TimestampRow

/-! ### What is meant -/

/-- The timestamp of seconds and microseconds. -/
def timestampMicros (seconds microseconds : Int) : Int := seconds * 1000000 + microseconds

/-- The check says whether the timestamp fits, and the result is the timestamp if it does. -/
def OverflowExact (seconds microseconds : Int) : Prop :=
  ((getTimestampOverflow seconds microseconds).1 = true ↔
      ¬IsInt64 (timestampMicros seconds microseconds)) ∧
    ((getTimestampOverflow seconds microseconds).1 = false →
      (getTimestampOverflow seconds microseconds).2 = timestampMicros seconds microseconds)

namespace TimestampRow

/-- The offset of the zone of a row. -/
def offset (row : TimestampRow) : Option Int :=
  if row.tzType = .fixedTz then some row.tzOffset else lookUpOffset row.seconds row.zone true

/-- The timestamp of a row in UTC. -/
def utcMicros (row : TimestampRow) : Option Int :=
  row.offset.map fun offset => timestampMicros (row.seconds - offset) row.microseconds

/-- The row is null iff it is invalid or its timestamp does not fit, and its timestamp else. -/
def Exact (row : TimestampRow) : Prop :=
  ∃ output mask, row.convertWithTimezones = some (output, mask) ∧
    (mask = false ↔ row.invalid = true ∨ ∀ micros ∈ row.utcMicros, ¬IsInt64 micros) ∧
    (mask = true → row.utcMicros = some output)

end TimestampRow

/-! ### The check -/

section

variable {seconds microseconds : Int}

section

variable (hm : 0 ≤ microseconds ∧ microseconds ≤ 999999)
include hm

/-- Below the second from which on it may overflow, and above the last one, the check is right. -/
theorem overflowExact_of_ne (hne : seconds ≠ minNegativeSeconds) :
    OverflowExact seconds microseconds := by
  unfold OverflowExact getTimestampOverflow
  dsimp only
  have hmax : maxPositiveSeconds = 9223372036854 := rfl
  have hmin : minNegativeSeconds = -9223372036855 := rfl
  have hwrap : IsInt64 (timestampMicros seconds microseconds) →
      wrap64 (seconds * 1000000 + microseconds) = timestampMicros seconds microseconds :=
    fun h => wrap64_of_range h
  have hfits : IsInt64 (timestampMicros seconds microseconds) ↔
      -9223372036854775808 ≤ seconds * 1000000 + microseconds ∧
        seconds * 1000000 + microseconds ≤ 9223372036854775807 := Iff.rfl
  have hlong : longMax = 9223372036854775807 := rfl
  rw [hmin] at hne
  rw [hmax, hmin, hlong]
  split_ifs with hfar hpos
  · -- far away the timestamp does not fit
    refine ⟨iff_of_true rfl ?_, fun h => absurd h (by simp)⟩
    rw [hfits]
    omega
  · refine ⟨?_, fun h => hwrap ?_⟩
    · rw [decide_eq_true_iff, hfits]
      omega
    · rw [decide_eq_false_iff_not] at h
      rw [hfits]
      omega
  · have hfit : IsInt64 (timestampMicros seconds microseconds) := by
      rw [hfits]
      omega
    exact ⟨iff_of_false (by simp) (not_not_intro hfit), fun _ => hwrap hfit⟩

/-- At the least second the check is the wrong way around. -/
theorem getTimestampOverflow_minNegativeSeconds :
    (getTimestampOverflow minNegativeSeconds microseconds).1 = true ↔
      IsInt64 (timestampMicros minNegativeSeconds microseconds) := by
  have hnot : ¬(minNegativeSeconds > maxPositiveSeconds ∨ minNegativeSeconds < minNegativeSeconds) := by
    decide
  have hneg : ¬minNegativeSeconds > 0 := by decide
  have hfits : IsInt64 (timestampMicros minNegativeSeconds microseconds) ↔
      -9223372036854775808 ≤ -9223372036855 * 1000000 + microseconds ∧
        -9223372036855 * 1000000 + microseconds ≤ 9223372036854775807 := Iff.rfl
  unfold getTimestampOverflow
  dsimp only
  rw [if_neg hnot, if_neg hneg, if_pos rfl, decide_eq_true_iff, hfits]
  omega

theorem overflowExact_iff : OverflowExact seconds microseconds ↔ seconds ≠ minNegativeSeconds := by
  constructor
  · rintro ⟨hoverflow, -⟩ rfl
    rw [getTimestampOverflow_minNegativeSeconds hm] at hoverflow
    exact iff_not_self hoverflow
  · exact overflowExact_of_ne hm

end

/-- Seconds that do not fit into 64 bits come back at the other end, where no timestamp fits either. -/
theorem isInt64_timestampMicros_wrap64 {offset : Int} (hs : IsInt64 seconds) (ho : IsInt32 offset)
    (hm : 0 ≤ microseconds ∧ microseconds ≤ 999999) :
    (IsInt64 (timestampMicros (seconds - offset) microseconds) →
        wrap64 (seconds - offset) = seconds - offset) ∧
      (IsInt64 (timestampMicros (wrap64 (seconds - offset)) microseconds) ↔
        IsInt64 (timestampMicros (seconds - offset) microseconds)) ∧
      (wrap64 (seconds - offset) = minNegativeSeconds ↔ seconds - offset = minNegativeSeconds) := by
  have hmin : minNegativeSeconds = -9223372036855 := rfl
  unfold IsInt64 longMin longMax at hs
  unfold IsInt32 at ho
  -- the seconds are less than once around
  have hwrap : wrap64 (seconds - offset) = seconds - offset ∨
      wrap64 (seconds - offset) = seconds - offset - 2 ^ 64 ∧ seconds - offset ≥ 2 ^ 63 ∨
      wrap64 (seconds - offset) = seconds - offset + 2 ^ 64 ∧ seconds - offset < -2 ^ 63 := by
    unfold wrap64
    rw [Int.bmod_def]
    norm_num
    split_ifs <;> omega
  unfold IsInt64 timestampMicros longMin longMax
  rw [hmin]
  obtain heq | ⟨heq, hfar⟩ | ⟨heq, hfar⟩ := hwrap
  · rw [heq]
    exact ⟨fun _ => rfl, Iff.rfl, Iff.rfl⟩
  · rw [heq]
    omega
  · rw [heq]
    omega

end

/-! ### The rows -/

section

variable {seconds : Int} {zone : ZoneTable}

theorem isInt32_getD {xs : List Int} (h : ∀ x ∈ xs, IsInt32 x) (i : Nat) : IsInt32 (xs.getD i 0) := by
  rw [List.getD_eq_getElem?_getD]
  cases hi : xs[i]? with
  | none => exact (by decide : IsInt32 0)
  | some x => exact h x (List.mem_of_getElem? hi)

/-- The offset of a local time by the rules is one of the offsets of the rules. -/
theorem getOffsetForLocalTime_mem (seconds : Int) (startRule endRule : TransitionRule) :
    getOffsetForLocalTime seconds startRule endRule ∈
      [startRule.offsetBefore, startRule.offsetAfter, endRule.offsetAfter] := by
  unfold getOffsetForLocalTime createTransitionInfo
  dsimp only
  split_ifs <;> simp

/-- Every time has its offset in the table of a zone. -/
theorem ZoneTable.Encoded.lookUpOffset (h : zone.Encoded) (hs : IsInt64 seconds) :
    ∃ offset, lookUpOffset seconds zone true = some offset ∧ IsInt32 offset := by
  obtain ⟨hfirst, hoffsets, hrules⟩ := h
  obtain ⟨first, rest, hcons⟩ : ∃ first rest, zone.fixedTransitions = first :: rest := by
    cases hzone : zone.fixedTransitions with
    | nil => exact absurd (hzone ▸ hfirst) (by simp)
    | cons first rest => exact ⟨first, rest, rfl⟩
  have hlast : ∃ last, (zone.fixedTransitions.map FixedTransition.tzInstant)[
      (zone.fixedTransitions.map FixedTransition.tzInstant).length - 1]? = some last :=
    ⟨_, List.getElem?_eq_getElem (by rw [hcons]; simp)⟩
  obtain ⟨last, hlast⟩ := hlast
  unfold TimeZone.lookUpOffset
  simp only [if_true, hlast, Option.bind_eq_bind, Option.bind_some]
  split_ifs with hbehind hzero
  · -- by the rules
    refine ⟨_, rfl, ?_⟩
    have hmem := getOffsetForLocalTime_mem seconds (createDstRules zone.dstRules).1
      (createDstRules zone.dstRules).2
    simp only [List.mem_cons, List.not_mem_nil, or_false] at hmem
    obtain heq | heq | heq := hmem
    · exact heq ▸ isInt32_getD hrules 4
    · exact heq ▸ isInt32_getD hrules 5
    · exact heq ▸ isInt32_getD hrules 11
  · exact absurd hzero (upperBound_pos hfirst hs.1).ne'
  · -- by the transitions
    have hle := upperBound_le_length (zone.fixedTransitions.map fun t => t.tzInstant) seconds
    have hpos : 0 < upperBound (zone.fixedTransitions.map fun t => t.tzInstant) seconds :=
      upperBound_pos hfirst hs.1
    rw [List.length_map] at hle
    have hget : ∃ t, zone.fixedTransitions[
        upperBound (zone.fixedTransitions.map fun t => t.tzInstant) seconds - 1]? = some t :=
      ⟨_, List.getElem?_eq_getElem (by omega)⟩
    obtain ⟨t, ht⟩ := hget
    refine ⟨t.utcOffset, ?_, hoffsets t (List.mem_of_getElem? ht)⟩
    rw [ht]
    rfl

end

namespace TimestampRow

variable {row : TimestampRow}

/-- A valid row has an offset, and its seconds are those less the offset, in 64 bits. -/
theorem exists_offset (hvalid : row.invalid = false) : ∃ offset, row.offset = some offset ∧
    IsInt32 offset ∧ row.convertedSeconds = some (wrap64 (row.seconds - offset)) := by
  unfold TimestampRow.offset convertedSeconds
  by_cases hfixed : row.tzType = .fixedTz
  · rw [if_pos hfixed, if_pos hfixed]
    exact ⟨_, rfl, row.tzOffset_range, rfl⟩
  · obtain ⟨offset, hoffset, hrange⟩ := (row.zone_encoded hvalid hfixed).lookUpOffset row.seconds_range
    rw [if_neg hfixed, if_neg hfixed]
    refine ⟨offset, hoffset, hrange, ?_⟩
    have hseconds : row.seconds.tdiv TimeUnit.seconds.perSecond = row.seconds := Int.tdiv_one _
    simp only [convertTimestamp, hseconds, hoffset, Option.bind_eq_bind, Option.bind_some, if_true]
    rw [show offset * TimeUnit.seconds.perSecond = offset from Int.mul_one _]
    rfl

theorem exact_of_invalid (hinvalid : row.invalid = true) : row.Exact := by
  refine ⟨0, false, ?_, iff_of_true rfl (.inl hinvalid), fun h => absurd h (by simp)⟩
  unfold convertWithTimezones
  rw [if_pos hinvalid]

theorem exact_iff_of_valid (hvalid : row.invalid = false) {offset : Int} (ho : row.offset = some offset)
    (hrange : IsInt32 offset)
    (hconverted : row.convertedSeconds = some (wrap64 (row.seconds - offset))) :
    row.Exact ↔ OverflowExact (wrap64 (row.seconds - offset)) row.microseconds := by
  obtain ⟨hexact, hfits, -⟩ :=
    isInt64_timestampMicros_wrap64 row.seconds_range hrange row.microseconds_range
  have hutc : row.utcMicros = some (timestampMicros (row.seconds - offset) row.microseconds) := by
    unfold utcMicros
    rw [ho]
    rfl
  unfold Exact convertWithTimezones OverflowExact
  rw [hvalid, if_neg (by simp), hconverted, hutc, hfits]
  simp only [Option.map_some, Option.some.injEq, Option.mem_some_iff, forall_eq', Bool.false_eq_true,
    false_or]
  -- the mask is what the overflow test says
  obtain ⟨overflow, result⟩ := getTimestampOverflow (wrap64 (row.seconds - offset)) row.microseconds
  dsimp only
  cases overflow with
  | true =>
    constructor
    · rintro ⟨output, mask, heq, hmask, -⟩
      obtain ⟨rfl, rfl⟩ := Prod.mk.inj heq
      exact ⟨iff_of_true rfl (hmask.1 rfl), fun h => absurd h (by simp)⟩
    · rintro ⟨hoverflow, -⟩
      exact ⟨0, false, rfl, iff_of_true rfl (hoverflow.1 rfl), fun h => absurd h (by simp)⟩
  | false =>
    constructor
    · rintro ⟨output, mask, heq, hmask, hout⟩
      obtain ⟨rfl, rfl⟩ := Prod.mk.inj heq
      have hfit : IsInt64 (timestampMicros (row.seconds - offset) row.microseconds) := by
        by_contra hnot
        exact absurd (hmask.2 hnot) (by simp)
      refine ⟨iff_of_false (by simp) (not_not_intro hfit), fun _ => ?_⟩
      rw [hexact hfit]
      exact (hout rfl).symm
    · rintro ⟨hoverflow, hout⟩
      have hfit : IsInt64 (timestampMicros (row.seconds - offset) row.microseconds) := by
        by_contra hnot
        exact absurd (hoverflow.2 hnot) (by simp)
      refine ⟨result, true, rfl, iff_of_false (by simp) (not_not_intro hfit), fun _ => ?_⟩
      rw [hout rfl, hexact hfit]

/-- A row is right unless it is valid and its seconds in UTC are the least ones of a timestamp. -/
theorem exact_iff : row.Exact ↔ row.invalid = true ∨
    ∀ offset ∈ row.offset, row.seconds - offset ≠ minNegativeSeconds := by
  cases hvalid : row.invalid with
  | true => exact iff_of_true (exact_of_invalid hvalid) (.inl rfl)
  | false =>
    obtain ⟨offset, ho, hrange, hconverted⟩ := exists_offset hvalid
    obtain ⟨-, -, hleast⟩ :=
      isInt64_timestampMicros_wrap64 row.seconds_range hrange row.microseconds_range
    rw [exact_iff_of_valid hvalid ho hrange hconverted, overflowExact_iff row.microseconds_range, ho,
      Ne, hleast]
    simp

end TimestampRow

/-- **Timestamps that do not fit are found, but for one second.** The check of the seconds and the
microseconds is exact, and so are the rows that are assembled with it, unless the seconds are the least ones
that some timestamps have. -/
theorem timestamps_exact_iff (seconds microseconds : Int) (hm : 0 ≤ microseconds ∧ microseconds ≤ 999999)
    (row : TimestampRow) :
    (OverflowExact seconds microseconds ↔ seconds ≠ minNegativeSeconds) ∧
      (row.Exact ↔ row.invalid = true ∨
        ∀ offset ∈ row.offset, row.seconds - offset ≠ minNegativeSeconds) :=
  ⟨overflowExact_iff hm, TimestampRow.exact_iff⟩

/-- The second before the epoch, and the epoch of a zone that is eight hours ahead. -/
theorem timestamps_exact_epoch : OverflowExact (-1) 999999 ∧
    TimestampRow.Exact ⟨0, 5, false, .fixedTz, 28800, ⟨[], []⟩, by decide, by decide, by decide,
      fun _ h => absurd rfl h⟩ := by
  obtain ⟨hoverflow, hrow⟩ := timestamps_exact_iff (-1) 999999 (by decide) ⟨0, 5, false, .fixedTz, 28800,
    ⟨[], []⟩, by decide, by decide, by decide, fun _ h => absurd rfl h⟩
  refine ⟨hoverflow.2 (by decide), hrow.2 (.inr ?_)⟩
  rintro offset hoffset
  obtain rfl : 28800 = offset := Option.some.inj hoffset
  decide

/-- The least timestamp is taken for an overflow, and the one before it for the greatest one. -/
theorem not_overflowExact_least :
    getTimestampOverflow (-9223372036855) 224192 = (true, -9223372036854775808) ∧
      getTimestampOverflow (-9223372036855) 224191 = (false, 9223372036854775807) ∧
      ¬OverflowExact (-9223372036855) 224192 ∧ ¬OverflowExact (-9223372036855) 224191 := by
  refine ⟨by decide, by decide, fun h => ?_, fun h => ?_⟩
  · exact absurd (h.1.1 (by decide)) (by decide)
  · exact absurd (h.2 (by decide)) (by decide)

end SparkRapids.TimeZone
