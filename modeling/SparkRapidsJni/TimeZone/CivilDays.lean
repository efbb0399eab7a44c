import SparkRapidsJni.Lib.MachineInt
import SparkRapidsJni.TimeZone.DateTimeUtils

/-!
# Civil days in machine integers

`to_epoch_day`, `to_date` and the checks of dates, with the `int32_t` and `uint32_t` of the source. Within
their ranges they are the functions of `DateTimeUtils`: no value that counts wraps around but one, the
product `era * 146097` of `to_date` for the last days, and there the subtraction in 32 bits takes the
wrapping back (`toDate_eq`). So dates and days are in bijection (`toEpochDay_toDate`), in order
(`toEpochDay_lt_iff`) and without gaps (`toEpochDay_next`).
-/

namespace SparkRapids.CivilDays

open Calendar MachineInt

/-! ### The functions of the source -/

/-- `to_epoch_day` -/
def toEpochDay (year month day : Int) : Int :=
  let y := int32 (year - (if month ≤ 2 then 1 else 0))
  let era := (if y ≥ 0 then y else int32 (y - 399)).tdiv 400
  let yoe := uint32 (int32 (y - int32 (era * 400)))
  let doy := uint32 (int32 ((int32 (153 * (if month > 2 then month - 3 else month + 9) + 2)).tdiv 5 +
    day - 1))
  let doe := uint32 (yoe * 365 + yoe / 4 - yoe / 100 + doy)
  -- in `int64_t`, far from its ends
  era * 146097 + doe - 719468

/-- `to_date` -/
def toDate (epochDay : Int) : Int × Int × Int :=
  let z := epochDay + 719468
  let era := int32 ((if z ≥ 0 then z else z - 146096).tdiv 146097)
  -- a product of two `int`
  let doe := uint32 (z - int32 (era * 146097))
  let yoe := uint32 (doe - doe / 1460 + doe / 36524 - doe / 146096) / 365
  let y := int32 (yoe + int32 (era * 400))
  let doy := uint32 (doe - (365 * yoe + yoe / 4 - yoe / 100))
  let mp := uint32 (5 * doy + 2) / 153
  let day := int32 (doy - uint32 (153 * mp + 2) / 5 + 1)
  let month := int32 (if mp < 10 then mp + 3 else uint32 (mp - 9))
  (int32 (y + (if month ≤ 2 then 1 else 0)), month, day)

/-- `is_valid_month_day` -/
def isValidMonthDay (year month day : Int) : Bool :=
  if month < 1 ∨ month > 12 ∨ day < 1 then false
  else day ≤ DateTimeUtils.daysInMonth year month

/-- `is_valid_date_for_date` -/
def isValidDateForDate (year month day : Int) : Bool :=
  if year < -10000000 ∨ year > 10000000 then false else isValidMonthDay year month day

/-- `is_valid_date_for_timestamp` -/
def isValidDateForTimestamp (year month day : Int) : Bool :=
  if year < -300000 ∨ year > 300000 then false else isValidMonthDay year month day

/-! ### Dates -/

/-- The fields of a date, as the source has them. -/
def ofDate (d : Date) : Int × Int × Int := (d.year, d.month, d.day)

theorem isValidMonthDay_iff {year month day : Int} : isValidMonthDay year month day = true ↔
    ∃ d : Date, gregorian.Valid d ∧ ofDate d = (year, month, day) := by
  unfold isValidMonthDay ofDate
  constructor
  · intro h
    split_ifs at h with hrange
    obtain ⟨m, rfl⟩ : ∃ m : ℕ, month = m := ⟨month.toNat, by omega⟩
    obtain ⟨dd, rfl⟩ : ∃ dd : ℕ, day = dd := ⟨day.toNat, by omega⟩
    rw [decide_eq_true_iff, DateTimeUtils.daysInMonth_eq] at h
    refine ⟨⟨year, m, dd⟩, ⟨?_, ?_, ?_, ?_⟩, rfl⟩
    all_goals dsimp only; omega
  · rintro ⟨⟨y, m, dd⟩, ⟨hpos, hle, hday, hlen⟩, hfields⟩
    obtain ⟨rfl, rfl, rfl⟩ : y = year ∧ (m : Int) = month ∧ (dd : Int) = day := by
      simpa using hfields
    dsimp only at hpos hle hday hlen
    rw [if_neg (by omega), decide_eq_true_iff, DateTimeUtils.daysInMonth_eq]
    exact_mod_cast hlen

theorem isValidDateForDate_iff {year month day : Int} (hyear : -10000000 ≤ year ∧ year ≤ 10000000) :
    isValidDateForDate year month day = true ↔
      ∃ d : Date, gregorian.Valid d ∧ ofDate d = (year, month, day) := by
  unfold isValidDateForDate
  rw [if_neg (by omega), isValidMonthDay_iff]

theorem day_le_of_valid {d : Date} (h : gregorian.Valid d) : d.day ≤ 31 := by
  have hday := h.day_le
  unfold monthLength at hday
  split_ifs at hday <;> omega

/-- The day number is computed without wrapping around. -/
theorem toEpochDay_eq {d : Date} (hd : gregorian.Valid d)
    (hyear : -10000000 ≤ d.year ∧ d.year ≤ 10000000) :
    toEpochDay d.year d.month d.day = gregorian.number d := by
  have hpos := hd.one_le_month
  have hle := hd.month_le
  have hday := hd.one_le_day
  have hlast := day_le_of_valid hd
  have hnumber := DateTimeUtils.toEpochDay_eq d.year d.month d.day
  rw [← hnumber]
  unfold toEpochDay DateTimeUtils.toEpochDay
  dsimp only
  -- the year that starts in March, and its era
  obtain ⟨y, hy⟩ : ∃ y : Int, y = d.year - (if (d.month : Int) ≤ 2 then 1 else 0) := ⟨_, rfl⟩
  have hyrange : -10000001 ≤ y ∧ y ≤ 10000000 := by
    rw [hy]
    split_ifs <;> omega
  rw [← hy, int32_of_range (by omega) (by omega), int32_of_range (x := y - 399) (by omega) (by omega)]
  obtain ⟨era, hera⟩ : ∃ era : Int, era = (if y ≥ 0 then y else y - 399).tdiv 400 := ⟨_, rfl⟩
  have heray : era = y / 400 := by
    rw [hera]
    split_ifs with hneg
    · exact Int.tdiv_eq_ediv_of_nonneg hneg
    · exact sub_tdiv_eq_ediv (n := 400) (by decide) (not_le.1 hneg)
  rw [← hera, int32_of_range (x := era * 400) (by omega) (by omega),
    int32_of_range (x := y - era * 400) (by omega) (by omega),
    uint32_of_range (x := y - era * 400) (by omega) (by omega)]
  -- the day of the year
  obtain ⟨mp, hmp⟩ : ∃ mp : Int, mp = if (d.month : Int) > 2 then (d.month : Int) - 3 else d.month + 9 :=
    ⟨_, rfl⟩
  have hmprange : 0 ≤ mp ∧ mp ≤ 11 := by
    rw [hmp]
    split_ifs <;> omega
  rw [← hmp, int32_of_range (x := 153 * mp + 2) (by omega) (by omega),
    Int.tdiv_eq_ediv_of_nonneg (by omega)]
  rw [int32_of_range (x := (153 * mp + 2) / 5 + d.day - 1) (by omega) (by omega),
    uint32_of_range (x := (153 * mp + 2) / 5 + d.day - 1) (by omega) (by omega)]
  obtain ⟨yoe, hyoe⟩ : ∃ yoe : ℕ, (yoe : Int) = y - era * 400 := ⟨(y - era * 400).toNat, by omega⟩
  rw [← hyoe, Int.toNat_natCast, uint32_of_range (by omega) (by omega)]
  omega

/-- The date of a day is the one of `DateTimeUtils`: where the product wraps around, the difference does,
too. -/
theorem toDate_eq {epochDay : Int} (h : -2147483648 ≤ epochDay ∧ epochDay ≤ 2147483647) :
    toDate epochDay = ofDate (gregorianDate epochDay) := by
  rw [← DateTimeUtils.toDate_eq]
  unfold toDate DateTimeUtils.toDate ofDate
  dsimp only
  obtain ⟨z, hz⟩ : ∃ z : Int, z = epochDay + 719468 := ⟨_, rfl⟩
  rw [← hz]
  obtain ⟨era, hera⟩ : ∃ era : Int, era = (if z ≥ 0 then z else z - 146096).tdiv 146097 := ⟨_, rfl⟩
  have heraz : era = z / 146097 := by
    rw [hera]
    split_ifs with hneg
    · exact Int.tdiv_eq_ediv_of_nonneg hneg
    · exact sub_tdiv_eq_ediv (n := 146097) (by decide) (not_le.1 hneg)
  rw [← hera, int32_of_range (x := era) (by omega) (by omega), uint32_sub_int32,
    uint32_of_range (x := z - era * 146097) (by omega) (by omega)]
  obtain ⟨doe, hdoe⟩ : ∃ doe : ℕ, (doe : Int) = z - era * 146097 :=
    ⟨(z - era * 146097).toNat, by omega⟩
  have hdoelt : doe < 146097 := by omega
  rw [← hdoe, Int.toNat_natCast, uint32_of_range (x := doe - doe / 1460 + doe / 36524 - doe / 146096)
    (by omega) (by omega)]
  obtain ⟨yoe, hyoe⟩ : ∃ yoe : ℕ, yoe = (doe - doe / 1460 + doe / 36524 - doe / 146096) / 365 := ⟨_, rfl⟩
  obtain ⟨hyoelt, hstart, hend⟩ := eraDays_yearOfEra hdoelt
  have hyear : yearOfEra doe = yoe := hyoe.symm
  rw [hyear] at hyoelt hstart hend
  have hcast : ((doe : Int) - doe / 1460 + doe / 36524 - doe / 146096) / 365 = yoe := by
    rw [hyoe]
    omega
  rw [hcast, ← hyoe, int32_of_range (x := era * 400) (by omega) (by omega),
    int32_of_range (x := yoe + era * 400) (by omega) (by omega)]
  -- the day of the year
  obtain ⟨doy, hdoy⟩ : ∃ doy : ℕ, doy = doe - (365 * yoe + yoe / 4 - yoe / 100) := ⟨_, rfl⟩
  have hdoyInt : (doe : Int) - (365 * yoe + yoe / 4 - yoe / 100) = doy := by
    unfold eraDays at hstart
    omega
  have hdoylt : doy ≤ 366 := by
    unfold eraDays at hend
    omega
  rw [hdoyInt, ← hdoy, uint32_of_range (x := doy) (by omega) (by omega),
    uint32_of_range (x := 5 * doy + 2) (by omega) (by omega)]
  obtain ⟨mp, hmp⟩ : ∃ mp : ℕ, mp = (5 * doy + 2) / 153 := ⟨_, rfl⟩
  have hmpInt : (5 * (doy : Int) + 2) / 153 = mp := by
    rw [hmp]
    omega
  have hmplt : mp ≤ 11 := by omega
  rw [hmpInt, ← hmp, uint32_of_range (x := 153 * mp + 2) (by omega) (by omega),
    int32_of_range (x := doy - (153 * mp + 2) / 5 + 1) (by omega) (by omega)]
  have hmonth : int32 (if (mp : Int) < 10 then (mp : Int) + 3 else uint32 (mp - 9)) =
      ((if mp < 10 then mp + 3 else mp - 9 : ℕ) : Int) := by
    split_ifs with hInt hNat hNat
    · rw [int32_of_range (by omega) (by omega)]
      omega
    · omega
    · omega
    · rw [uint32_of_range (by omega) (by omega), int32_of_range (by omega) (by omega)]
      omega
  rw [hmonth]
  obtain ⟨month, hmonth⟩ : ∃ month : ℕ, month = if mp < 10 then mp + 3 else mp - 9 := ⟨_, rfl⟩
  have hday : (doy : Int) - (153 * mp + 2) / 5 + 1 = ((doy - (153 * mp + 2) / 5 + 1 : ℕ) : Int) := by
    omega
  have hle : ((month : Int) ≤ 2) = (month ≤ 2) := propext (by omega)
  rw [← hmonth, hday]
  simp only [hle]
  rw [int32_of_range]
  all_goals split_ifs <;> omega

/-! ### Days and dates -/

/-- Whether a year, a month and a day are a date that `is_valid_date_for_date` accepts. -/
def IsDate (a : Int × Int × Int) : Prop := isValidDateForDate a.1 a.2.1 a.2.2 = true

/-- `to_epoch_day` of a date -/
def dayOf (a : Int × Int × Int) : Int := toEpochDay a.1 a.2.1 a.2.2

section

variable {d d' : Date}

theorem isDate_iff {a : Int × Int × Int} : IsDate a ↔
    ∃ d : Date, ofDate d = a ∧ gregorian.Valid d ∧ -10000000 ≤ d.year ∧ d.year ≤ 10000000 := by
  obtain ⟨year, month, day⟩ := a
  unfold IsDate
  dsimp only
  constructor
  · intro h
    have hyear : -10000000 ≤ year ∧ year ≤ 10000000 := by
      by_contra hout
      rw [isValidDateForDate, if_pos (by omega)] at h
      exact absurd h (by simp)
    obtain ⟨d, hd, hfields⟩ := (isValidDateForDate_iff hyear).1 h
    have hfield : d.year = year := congrArg Prod.fst hfields
    exact ⟨d, hfields, hd, by omega, by omega⟩
  · rintro ⟨d, hfields, hd, hyear⟩
    have hfield : d.year = year := congrArg Prod.fst hfields
    exact (isValidDateForDate_iff (by omega)).2 ⟨d, hd, hfields⟩

variable (hd : gregorian.Valid d) (hyear : -10000000 ≤ d.year ∧ d.year ≤ 10000000)
include hd hyear

theorem dayOf_ofDate : dayOf (ofDate d) = gregorian.number d :=
  toEpochDay_eq hd hyear

omit hyear in
/-- The year of a day, roughly. -/
theorem year_bounds {n : Int} (hn : -(365 * n) ≤ gregorian.number d ∧ gregorian.number d ≤ 365 * n)
    (hpos : 2000 ≤ n) : -(n + 2000) ≤ d.year ∧ d.year ≤ n + 2000 := by
  have hle := hd.yearStart_le
  have hlt := hd.number_lt
  have hyear : d.marchYear = d.year - 1 ∨ d.marchYear = d.year := by
    unfold Date.marchYear
    split_ifs
    · exact .inl rfl
    · exact .inr rfl
  unfold yearStart at hle hlt
  have horigin : gregorian.origin = -719468 := rfl
  have hleap : ∀ y, gregorian.leapDays y = y / 4 - y / 100 + y / 400 := fun y => rfl
  rw [horigin, hleap] at hle hlt
  omega

omit hd hyear in
/-- Every day of 32 bits has its date, of which it is the day. -/
theorem dayOf_toDate {epochDay : Int} (h : -2147483648 ≤ epochDay ∧ epochDay ≤ 2147483647) :
    IsDate (toDate epochDay) ∧ dayOf (toDate epochDay) = epochDay := by
  obtain ⟨hvalid, hnumber⟩ := gregorianDate_spec epochDay
  have hyear := year_bounds hvalid (n := 5883517) (by omega) (by omega)
  rw [toDate_eq h]
  refine ⟨isDate_iff.2 ⟨_, rfl, hvalid, by omega, by omega⟩, ?_⟩
  rw [dayOf_ofDate hvalid (by omega), hnumber]

/-- The date of the day of a date is the date again. -/
theorem toDate_dayOf (h : -2147483648 ≤ dayOf (ofDate d) ∧ dayOf (ofDate d) ≤ 2147483647) :
    toDate (dayOf (ofDate d)) = ofDate d := by
  obtain ⟨hvalid, hnumber⟩ := gregorianDate_spec (dayOf (ofDate d))
  have hsame : gregorianDate (dayOf (ofDate d)) = d := by
    rw [← number_inj hvalid hd, hnumber]
    exact dayOf_ofDate hd hyear
  rw [toDate_eq h, hsame]

/-- Days are numbered in the order of their dates. -/
theorem dayOf_lt (hd' : gregorian.Valid d') (hyear' : -10000000 ≤ d'.year ∧ d'.year ≤ 10000000)
    (hlt : d < d') : dayOf (ofDate d) < dayOf (ofDate d') := by
  rw [dayOf_ofDate hd hyear, dayOf_ofDate hd' hyear']
  exact hd.number_strictMono hd' hlt

/-- No number is left out between a date and the next one. -/
theorem dayOf_next (hd' : gregorian.Valid d') (hyear' : -10000000 ≤ d'.year ∧ d'.year ≤ 10000000)
    (hlt : d < d') (hnext : ∀ c, gregorian.Valid c → ¬(d < c ∧ c < d')) :
    dayOf (ofDate d') = dayOf (ofDate d) + 1 := by
  have hdays := hd.number_strictMono hd' hlt
  rw [dayOf_ofDate hd hyear, dayOf_ofDate hd' hyear']
  by_contra hgap
  -- the date of the next number would be between the two
  obtain ⟨hvalid, hnumber⟩ := gregorianDate_spec (gregorian.number d + 1)
  apply hnext _ hvalid
  rw [← number_lt_iff hd hvalid, ← number_lt_iff hvalid hd', hnumber]
  omega

end

end SparkRapids.CivilDays
