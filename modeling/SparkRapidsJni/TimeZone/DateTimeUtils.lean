import SparkRapidsJni.Lib.Calendar
import SparkRapidsJni.Lib.TruncDiv

/-!
# Dates and weekdays of days

The functions of `date_time_utils` that the conversion between time zones uses, and what they are in the
Gregorian calendar. An `int` is an unbounded integer here, but for the day of `to_date`, to which a day
of 64 bits is cut down.
-/

/-- `TZ_TYPE`: what is known of the time zone of a row. -/
inductive SparkRapids.TzType
  | notSpecified
  | fixedTz
  | otherTz
  | invalidTz
  deriving DecidableEq, Repr

namespace SparkRapids.DateTimeUtils

open Calendar

/-! ### The functions of the source -/

/-- `integer_utils::floor_div` -/
def floorDiv (x y : Int) : Int :=
  let quotient := x.tdiv y
  if x.tmod y ≠ 0 ∧ (x < 0 ↔ ¬y < 0) then quotient - 1 else quotient

/-- `is_leap_year` -/
def isLeapYear (year : Int) : Bool :=
  (year.tmod 4 = 0 && year.tmod 100 ≠ 0) || year.tmod 400 = 0

/-- `days_in_month` -/
def daysInMonth (year month : Int) : Int :=
  if month = 2 then if isLeapYear year then 29 else 28
  else if month = 4 ∨ month = 6 ∨ month = 9 ∨ month = 11 then 30 else 31

/-- `to_epoch_day` -/
def toEpochDay (year month day : Int) : Int :=
  let y := year - (if month ≤ 2 then 1 else 0)
  let era := (if y ≥ 0 then y else y - 399).tdiv 400
  let yoe := (y - era * 400).toNat
  let doy := (153 * (if month > 2 then month - 3 else month + 9) + 2).tdiv 5 + day - 1
  let doe := (yoe * 365 + yoe / 4 - yoe / 100 : Nat) + doy
  era * 146097 + doe - 719468

/-- `to_date`, of a day of 32 bits -/
def toDate (epochDay : Int) : Date :=
  let z := epochDay + 719468
  let era := (if z ≥ 0 then z else z - 146096).tdiv 146097
  let doe := (z - era * 146097).toNat
  let yoe := (doe - doe / 1460 + doe / 36524 - doe / 146096) / 365
  let y := yoe + era * 400
  let doy := doe - (365 * yoe + yoe / 4 - yoe / 100)
  let mp := (5 * doy + 2) / 153
  let day := doy - (153 * mp + 2) / 5 + 1
  let month := if mp < 10 then mp + 3 else mp - 9
  ⟨y + (if month ≤ 2 then 1 else 0), month, day⟩

/-- `weekday_from_days` -/
def weekdayFromDays (epochDays : Int) : Int :=
  -- a Monday
  let minMondayDays : Int := -2147483648 - 8
  (epochDays - minMondayDays).tmod 7

/-- `weekday_difference` -/
def weekdayDifference (epochDays expectedWeekday : Int) : Int :=
  let currWeekday := weekdayFromDays epochDays
  let index := (currWeekday + (6 - expectedWeekday)).tmod 7
  6 - index

/-- `previous_weekday_difference` -/
def previousWeekdayDifference (epochDays expectedWeekday : Int) : Int :=
  let currWeekday := weekdayFromDays epochDays
  (currWeekday + (7 - expectedWeekday)).tmod 7

/-- `next_or_same_weekday` -/
def nextOrSameWeekday (epochDays expectedWeekday : Int) : Int :=
  epochDays + weekdayDifference epochDays expectedWeekday

/-- `previous_or_same_weekday` -/
def previousOrSameWeekday (epochDays expectedWeekday : Int) : Int :=
  epochDays - previousWeekdayDifference epochDays expectedWeekday

/-- `get_year` -/
def getYear (seconds : Int) : Int :=
  let days := floorDiv seconds 86400
  -- the days are passed as an `int32_t`
  (toDate (days.bmod (2 ^ 32))).year

/-! ### Weekdays -/

/-- The weekday of a day, from Monday on. -/
def weekday (days : Int) : Int := (days + 3) % 7

/-- The first day from `days` on that is the weekday `w`. -/
def nextOrSame (days w : Int) : Int := days + (w - weekday days) % 7

/-- The last day up to `days` that is the weekday `w`. -/
def previousOrSame (days w : Int) : Int := days - (weekday days - w) % 7

/-- 1970-01-01 was a Thursday. -/
example : weekday 0 = 3 := rfl

variable {days w : Int}

theorem weekday_previousOrSame (hw : 0 ≤ w ∧ w < 7) : weekday (previousOrSame days w) = w := by
  unfold previousOrSame weekday
  omega

theorem nextOrSame_bounds (days w : Int) : days ≤ nextOrSame days w ∧ nextOrSame days w < days + 7 := by
  unfold nextOrSame
  omega

theorem previousOrSame_bounds (days w : Int) :
    previousOrSame days w ≤ days ∧ days < previousOrSame days w + 7 := by
  unfold previousOrSame
  omega

theorem weekdayFromDays_eq (h : -2147483656 ≤ days) : weekdayFromDays days = weekday days := by
  unfold weekdayFromDays weekday
  dsimp only
  rw [Int.tmod_eq_emod_of_nonneg (by omega)]
  omega

theorem nextOrSameWeekday_eq (h : -2147483656 ≤ days) (hw : 0 ≤ w ∧ w < 7) :
    nextOrSameWeekday days w = nextOrSame days w := by
  unfold nextOrSameWeekday weekdayDifference nextOrSame
  rw [weekdayFromDays_eq h]
  unfold weekday
  dsimp only
  rw [Int.tmod_eq_emod_of_nonneg (by omega)]
  omega

theorem previousOrSameWeekday_eq (h : -2147483656 ≤ days) (hw : 0 ≤ w ∧ w < 7) :
    previousOrSameWeekday days w = previousOrSame days w := by
  unfold previousOrSameWeekday previousWeekdayDifference previousOrSame
  rw [weekdayFromDays_eq h]
  unfold weekday
  dsimp only
  rw [Int.tmod_eq_emod_of_nonneg (by omega)]
  omega

/-! ### Dates -/

theorem floorDiv_eq {x y : Int} (hy : 0 < y) : floorDiv x y = x / y := by
  have hdvd : y ∣ x ↔ x.tmod y = 0 := Int.dvd_iff_tmod_eq_zero
  unfold floorDiv
  dsimp only
  rw [Int.tdiv_eq_ediv, Int.sign_eq_one_of_pos hy]
  split_ifs <;> omega

theorem daysInMonth_eq (year : Int) (month : Nat) :
    daysInMonth year month = gregorian.monthLength year month := by
  have hleap : isLeapYear year = true ↔ gregorian.IsLeap year := by
    have hzero : ∀ n : Int, year.tmod n = 0 ↔ n ∣ year := fun n => Int.dvd_iff_tmod_eq_zero.symm
    rw [gregorian_isLeap, isLeapYear]
    simp only [Bool.or_eq_true, Bool.and_eq_true, decide_eq_true_eq, ne_eq, hzero]
    omega
  have hmonths : ∀ k : Nat, (month : Int) = k ↔ month = k := fun k => Int.ofNat_inj
  have htwo := hmonths 2
  have hfour := hmonths 4
  have hsix := hmonths 6
  have hnine := hmonths 9
  have heleven := hmonths 11
  push_cast at htwo hfour hsix hnine heleven
  unfold daysInMonth monthLength
  simp only [htwo, hfour, hsix, hnine, heleven, hleap]
  split_ifs <;> rfl

/-- `to_epoch_day` is the number of a date in the Gregorian calendar. -/
theorem toEpochDay_eq (year : Int) (month day : Nat) :
    toEpochDay year month day = gregorian.number ⟨year, month, day⟩ := by
  have hera : ∀ y : Int, (if y ≥ 0 then y else y - 399).tdiv 400 = y / 400 := by
    intro y
    split_ifs with hy
    · exact Int.tdiv_eq_ediv_of_nonneg hy
    · exact sub_tdiv_eq_ediv (n := 400) (by decide) (not_le.1 hy)
  obtain ⟨y, hy⟩ : ∃ y : Int, y = year - (if month ≤ 2 then 1 else 0) := ⟨_, rfl⟩
  have hmonth : ((month : Int) ≤ 2) = (month ≤ 2) := propext (by omega)
  have hstart : (153 * (if (month : Int) > 2 then (month : Int) - 3 else month + 9) + 2).tdiv 5 =
      monthStart (if 2 < month then month - 3 else month + 9) := by
    rw [Int.tdiv_eq_ediv_of_nonneg (by split_ifs <;> omega), monthStart]
    split_ifs <;> omega
  have hmarch : (⟨year, month, day⟩ : Date).marchYear = y := by
    unfold Date.marchYear
    dsimp only
    rw [hy]
    split_ifs <;> omega
  unfold toEpochDay number yearStart
  dsimp only
  simp only [hmonth]
  have hmarchMonth : (⟨year, month, day⟩ : Date).marchMonth =
    if 2 < month then month - 3 else month + 9 := rfl
  rw [← hy, hera, hstart, hmarch, hmarchMonth]
  show y / 400 * 146097 + (((y - y / 400 * 400).toNat * 365 + (y - y / 400 * 400).toNat / 4 -
      (y - y / 400 * 400).toNat / 100 : Nat) + ((monthStart _ : Int) + day - 1)) - 719468 =
    365 * y + (y / 4 - y / 100 + y / 400) + -719468 + monthStart _ + day - 1
  omega

/-- `to_date` is the Gregorian date of a day. -/
theorem toDate_eq (epochDay : Int) : toDate epochDay = gregorianDate epochDay := by
  have hera : ∀ z : Int, (if z ≥ 0 then z else z - 146096).tdiv 146097 = z / 146097 := by
    intro z
    split_ifs with hz
    · exact Int.tdiv_eq_ediv_of_nonneg hz
    · exact sub_tdiv_eq_ediv (n := 146097) (by decide) (not_le.1 hz)
  have hmod : ∀ z : Int, z - z / 146097 * 146097 = z % 146097 := by
    intro z
    omega
  obtain ⟨hlt, -, -⟩ := eraDays_yearOfEra (n := ((epochDay + 719468) % 146097).toNat) (by omega)
  unfold toDate gregorianDate ofYearDay
  dsimp only
  rw [hera, hmod]
  have hdays : eraDays (yearOfEra ((epochDay + 719468) % 146097).toNat) =
      365 * yearOfEra ((epochDay + 719468) % 146097).toNat +
        yearOfEra ((epochDay + 719468) % 146097).toNat / 4 -
        yearOfEra ((epochDay + 719468) % 146097).toNat / 100 := by
    unfold eraDays
    rw [Nat.div_eq_of_lt hlt, Nat.add_zero]
  rw [hdays]
  rfl

end SparkRapids.DateTimeUtils
