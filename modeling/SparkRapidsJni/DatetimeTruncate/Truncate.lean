import SparkRapidsJni.Lib.Ascii
import SparkRapidsJni.Lib.Grid
import SparkRapidsJni.TimeZone.Timestamps

/-!
# `datetime_truncate.cu`: dates and timestamps down to a unit

A date or a timestamp is truncated by its calendar date: the year, the month and the day of
`cuda::std::chrono::year_month_day`, whose parts are replaced by ones, and the time of the day. A week starts
on Monday and is found without a date, and a microsecond is not truncated.

`cuda::std::chrono::year` is narrower than the years of the inputs. What it holds of a year outside of its
range is not specified, and a parameter here. Every other function of `cuda::std::chrono` is that of the
proleptic Gregorian calendar.
-/

namespace SparkRapids.DatetimeTruncate

open Calendar TimeZone
open Ascii (chr)

/-! ### Calendar types -/

/-- `cuda::std::chrono::year`: the value that is held for a year. It is a 16-bit number. -/
structure ChronoYear where
  year : Int → Int
  year_eq (y : Int) (hlow : -32767 ≤ y) (hhigh : y ≤ 32767) : year y = y
  year_range (y : Int) : -32768 ≤ year y ∧ year y ≤ 32767

/-- `year_month_day{sys_days}` -/
def ChronoYear.yearMonthDay (c : ChronoYear) (days : Int) : Date :=
  { gregorianDate days with year := c.year (gregorianDate days).year }

/-- `sys_days{year_month_day}` -/
def sysDays (ymd : Date) : Int := gregorian.number ymd

/-- `weekday{sys_days}`, from Sunday on. -/
def chronoWeekday (days : Int) : Int := (days + 4) % 7

/-! ### Formats -/

/-- `truncation_format` -/
inductive TruncationFormat
  | year
  | yyyy
  | yy
  | quarter
  | month
  | mm
  | mon
  | week
  | day
  | dd
  | hour
  | minute
  | second
  | millisecond
  | microsecond
  | invalid
  deriving DecidableEq, Repr

/-- `to_upper` -/
def toUpper (c : Byte) : Byte := if chr 'a' ≤ c ∧ c ≤ chr 'z' then c ^^^ 0x20 else c

/-- The formats of `parse_format`, with their names and the sizes of these. -/
def components : List (TruncationFormat × String × ℕ) :=
  [(.year, "YEAR", 4), (.yyyy, "YYYY", 4), (.yy, "YY", 2), (.quarter, "QUARTER", 7), (.month, "MONTH", 5),
    (.mm, "MM", 2), (.mon, "MON", 3), (.week, "WEEK", 4), (.day, "DAY", 3), (.dd, "DD", 2),
    (.hour, "HOUR", 4), (.minute, "MINUTE", 6), (.second, "SECOND", 6), (.millisecond, "MILLISECOND", 11),
    (.microsecond, "MICROSECOND", 11)]

/-- `parse_format` -/
def parseFormat (fmt : List Byte) : TruncationFormat :=
  match components.find? fun comp =>
    fmt.length = comp.2.2 && fmt.map toUpper = (comp.2.1.toList.map chr).take comp.2.2 with
  | some comp => comp.1
  | none => .invalid

/-! ### Truncation -/

/-- The count of an `int32_t` of days. -/
def wrapDays (x : Int) : Int := x.bmod (2 ^ 32)

/-- `trunc_quarter_month` -/
def truncQuarterMonth (month : ℕ) : ℕ :=
  let zeroBasedMonth := month - 1
  zeroBasedMonth / 3 * 3 + 1

/-- `trunc_to_monday` -/
def truncToMonday (daysSinceEpoch : Int) : Int :=
  let monday := 1
  let weekday := chronoWeekday daysSinceEpoch
  -- the difference of weekdays is from 0 to 6
  let daysToSubtract := (weekday - monday) % 7
  if daysToSubtract = 0 then daysSinceEpoch
  else if daysToSubtract > 0 then wrapDays (daysSinceEpoch - daysToSubtract)
  else wrapDays (daysSinceEpoch - 6)

/-- `trunc_date`, in days -/
def truncDate (daysSinceEpoch : Int) (ymd : Date) (fmt : TruncationFormat) : Option Int :=
  match fmt with
  | .year | .yyyy | .yy => some (sysDays ⟨ymd.year, 1, 1⟩)
  | .quarter => some (sysDays ⟨ymd.year, truncQuarterMonth ymd.month, 1⟩)
  | .month | .mm | .mon => some (sysDays ⟨ymd.year, ymd.month, 1⟩)
  | .week => some (truncToMonday daysSinceEpoch)
  | _ => none

/-- The microseconds of a day. -/
def dayMicros : Int := 86400000000

section Code

variable (c : ChronoYear)

/-- `truncate_date_fn`, behind the format: the date, and whether it is valid. -/
def truncateDateTo (daysSinceEpoch : Int) (fmt : TruncationFormat) : Int × Bool :=
  if fmt = .invalid then (0, false)
  else
    let ymd := c.yearMonthDay daysSinceEpoch
    match truncDate daysSinceEpoch ymd fmt with
    | some result => (result, true)
    | none => (0, false)

/-- `truncate_date_fn`, for a row -/
def truncateDate (datetime : Option Int) (format : Option (List Byte)) : Int × Bool :=
  match datetime, format with
  | some daysSinceEpoch, some format => truncateDateTo c daysSinceEpoch (parseFormat format)
  | _, _ => (0, false)

/-- `Timestamp{sys_days{ymd} + floor<unit>(time_since_midnight)}`, of a unit in microseconds -/
def atTime (ymd : Date) (timeSinceMidnight unit : Int) : Int :=
  wrap64 ((sysDays ymd * (dayMicros / unit) + timeSinceMidnight / unit) * unit)

/-- `ts - days_since_epoch`, from 0 on -/
def timeSinceMidnight (ts : Int) : Int :=
  let time := wrap64 (ts - wrap64 (ts / dayMicros * dayMicros))
  if time < 0 then wrap64 (time + dayMicros) else time

/-- `truncate_timestamp_fn`, behind the format: the timestamp, and whether it is valid. -/
def truncateTimestampTo (ts : Int) (fmt : TruncationFormat) : Int × Bool :=
  if fmt = .invalid then (0, false)
  else if fmt = .microsecond then (ts, true)
  else
    let daysSinceEpoch := ts / dayMicros
    let ymd := c.yearMonthDay daysSinceEpoch
    match truncDate daysSinceEpoch ymd fmt with
    | some result => (wrap64 (result * dayMicros), true)
    | none =>
      match fmt with
      | .day | .dd => (wrap64 (sysDays ymd * dayMicros), true)
      | .hour => (atTime ymd (timeSinceMidnight ts) 3600000000, true)
      | .minute => (atTime ymd (timeSinceMidnight ts) 60000000, true)
      | .second => (atTime ymd (timeSinceMidnight ts) 1000000, true)
      | .millisecond => (atTime ymd (timeSinceMidnight ts) 1000, true)
      -- not reached
      | _ => (0, false)

/-- `truncate_timestamp_fn`, for a row -/
def truncateTimestamp (datetime : Option Int) (format : Option (List Byte)) : Int × Bool :=
  match datetime, format with
  | some ts, some format => truncateTimestampTo c ts (parseFormat format)
  | _, _ => (0, false)

end Code

/-! ### What is meant -/

/-- The units of the formats. -/
inductive TruncUnit
  | year
  | quarter
  | month
  | week
  | day
  | hour
  | minute
  | second
  | millisecond
  | microsecond
  deriving DecidableEq, Repr

/-- The unit of a valid format. -/
def TruncationFormat.unit : TruncationFormat → Option TruncUnit
  | year | yyyy | yy => some .year
  | quarter => some .quarter
  | month | mm | mon => some .month
  | week => some .week
  | day | dd => some .day
  | hour => some .hour
  | minute => some .minute
  | second => some .second
  | millisecond => some .millisecond
  | microsecond => some .microsecond
  | invalid => none

namespace TruncUnit

/-- The units of dates. -/
def IsDateUnit (u : TruncUnit) : Prop := u = year ∨ u = quarter ∨ u = month ∨ u = week

/-- The units whose boundaries are found by the date. -/
def UsesDate (u : TruncUnit) : Prop := u ≠ week ∧ u ≠ microsecond

instance (u : TruncUnit) : Decidable u.UsesDate := inferInstanceAs (Decidable (_ ∧ _))

/-- The first days of the months in a set of them. -/
def firstDays (months : Set ℕ) : Set ℤ := {d | ∃ y, ∃ m ∈ months, d = gregorian.number ⟨y, m, 1⟩}

/-- The boundaries of a unit in days, for the units that are not smaller than a day. -/
def dayGrid : TruncUnit → Set ℤ
  | year => firstDays {1}
  | quarter => firstDays {1, 4, 7, 10}
  | month => firstDays (Set.Icc 1 12)
  | week => {d | DateTimeUtils.weekday d = 0}
  | _ => Set.univ

/-- The boundaries of a unit in microseconds. -/
def microsGrid : TruncUnit → Set ℤ
  | hour => {t | (3600000000 : ℤ) ∣ t}
  | minute => {t | (60000000 : ℤ) ∣ t}
  | second => {t | (1000000 : ℤ) ∣ t}
  | millisecond => {t | (1000 : ℤ) ∣ t}
  | microsecond => Set.univ
  | u => (· * dayMicros) '' u.dayGrid

end TruncUnit

end SparkRapids.DatetimeTruncate
