import SparkRapidsJni.Lib.Calendar
import SparkRapidsJni.Lib.TruncDiv

/-!
# Rebasing between calendars

A date is read in one calendar and written in the other one with the same year, month and day.

Days and microseconds are unbounded integers here. For the years that the dates of `cuda::std::chrono`
have, from -32767 to 32767, neither an `int32_t` of days nor an `int64_t` of microseconds overflows.
The conversions of `cuda::std::chrono` are exact for these years, also for a day that its month does
not have: it counts on from the first day of the month.
-/

namespace SparkRapids.DatetimeRebase

/-- `cuda::std::chrono::year_month_day` of a day -/
def yearMonthDay (days : Int) : Date := Calendar.gregorianDate days

/-- `cuda::std::chrono::local_days` of a date -/
def localDays (ymd : Date) : Int := Calendar.gregorian.number ymd

/-! ### Days -/

/-- `days_from_julian` -/
def daysFromJulian (ymd : Date) : Int :=
  let month := ymd.month
  let day := ymd.day
  let year := ymd.year - (if month ≤ 2 then 1 else 0)
  let era := (if year ≥ 0 then year else year - 3).tdiv 4
  let yearOfEra := (year - era * 4).toNat
  let dayOfYear := (153 * (if month > 2 then month - 3 else month + 9) + 2) / 5 + day - 1
  let dayOfEra := yearOfEra * 365 + dayOfYear
  era * 1461 + dayOfEra - 719470

def julianEnd : Date := ⟨1582, 10, 4⟩

def gregorianStart : Date := ⟨1582, 10, 15⟩

/-- The transform of `gregorian_to_julian_days`. -/
def gregorianToJulianDay (daysTs : Int) : Int :=
  let ymd := yearMonthDay daysTs
  -- the same as rebasing from the local date `gregorian_start`
  if ymd > julianEnd ∧ ymd < gregorianStart then -141427
  -- no change since this time
  else if ymd ≥ gregorianStart then daysTs
  else daysFromJulian ymd

/-- `julian_from_days` -/
def julianFromDays (days : Int) : Date :=
  let z := days + 719470
  let era := (if z ≥ 0 then z else z - 1460).tdiv 1461
  let dayOfEra := (z - era * 1461).toNat
  let yearOfEra := (dayOfEra - dayOfEra / 1460) / 365
  let year := yearOfEra + era * 4
  let dayOfYear := dayOfEra - 365 * yearOfEra
  let mp := (5 * dayOfYear + 2) / 153
  let month := if mp < 10 then mp + 3 else mp - 9
  let dayOfMonth := dayOfYear - (153 * mp + 2) / 5 + 1
  ⟨year + (if month ≤ 2 then 1 else 0), month, dayOfMonth⟩

/-- The transform of `julian_to_gregorian_days`. -/
def julianToGregorianDay (daysTs : Int) : Int :=
  -- the Gregorian start day
  if daysTs ≥ -141427 then daysTs
  else localDays (julianFromDays daysTs)

/-! ### Microseconds -/

/-- `time_components` -/
structure TimeComponents where
  hour : Int
  minute : Int
  second : Int
  subsecond : Int

/-- `modulo_time` -/
def moduloTime (time base : Int) : Int := (time.tmod base + base).tmod base

/-- `scale_time` -/
def scaleTime (time base : Int) : Int := (time - (if time < 0 then base - 1 else 0)).tdiv base

def microsPerSecond : Int := 1000000

/-- `get_time_components` -/
def getTimeComponents (micros : Int) : TimeComponents :=
  let subsecond := moduloTime micros microsPerSecond
  -- microseconds to seconds
  let micros := micros.tdiv microsPerSecond - (if micros < 0 ∧ subsecond ≠ 0 then 1 else 0)
  ⟨moduloTime (scaleTime micros 3600) 24, moduloTime (scaleTime micros 60) 60,
    moduloTime micros 60, subsecond⟩

/-- The microseconds of a day and a time. -/
def toMicros (days : Int) (timeparts : TimeComponents) : Int :=
  (days * 24 * 3600 + timeparts.hour * 3600 + timeparts.minute * 60 + timeparts.second) *
    microsPerSecond + timeparts.subsecond

/-- `cuda::std::chrono::floor<days>` of microseconds -/
def floorDays (microsTs : Int) : Int := microsTs / 86400000000

def lastSwitchGregorianTs : Int := -12219292800000000

/-- The transform of `gregorian_to_julian_micros`. -/
def gregorianToJulianMicro (microsTs : Int) : Int :=
  if microsTs ≥ lastSwitchGregorianTs then microsTs
  else
    let ymd := yearMonthDay (floorDays microsTs)
    let timeparts := getTimeComponents microsTs
    let julianDays :=
      if ymd > julianEnd ∧ ymd < gregorianStart then -141427 else daysFromJulian ymd
    toMicros julianDays timeparts

/-- The transform of `julian_to_gregorian_micros`. -/
def julianToGregorianMicro (microsTs : Int) : Int :=
  if microsTs ≥ lastSwitchGregorianTs then microsTs
  else
    let ymd := julianFromDays (floorDays microsTs)
    let timeparts := getTimeComponents microsTs
    toMicros (localDays ymd) timeparts

/-! ### Columns -/

inductive TypeId
  | timestampDays
  | timestampMicroseconds
  | other
  deriving DecidableEq, Repr

/-- A column, with `none` for its nulls. -/
structure Column where
  type : TypeId
  rows : List (Option Int)
  deriving DecidableEq, Repr

/-- A column of the same type and with the same nulls. -/
def Column.transform (input : Column) (f : Int → Int) : Column :=
  ⟨input.type, input.rows.map (Option.map f)⟩

@[simp] theorem Column.transform_type (input : Column) (f : Int → Int) :
    (input.transform f).type = input.type := rfl

/-- `rebase_gregorian_to_julian` -/
def rebaseGregorianToJulian (input : Column) : Except String Column :=
  match input.type with
  | .timestampDays => .ok (input.transform gregorianToJulianDay)
  | .timestampMicroseconds => .ok (input.transform gregorianToJulianMicro)
  | .other => .error "The input must be either day or microsecond timestamps to rebase."

/-- `rebase_julian_to_gregorian` -/
def rebaseJulianToGregorian (input : Column) : Except String Column :=
  match input.type with
  | .timestampDays => .ok (input.transform julianToGregorianDay)
  | .timestampMicroseconds => .ok (input.transform julianToGregorianMicro)
  | .other => .error "The input must be either day or microsecond timestamps to rebase."

example : gregorianToJulianDay (-719162) = -719164 := by decide +kernel

example : julianToGregorianMicro (-62135769600000001) = -62135596800000001 := by decide +kernel

end SparkRapids.DatetimeRebase
