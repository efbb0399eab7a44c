import Mathlib

/-!
# Calendars

Dates, and the calendars that number their days. A calendar is given by its leap days; the years are
counted from 1 March on, so that a leap day is the last day of its year. The number of a day is
strictly monotone in the valid dates (`Calendar.number_lt_iff`).

The Julian and the proleptic Gregorian calendar count the days from 1970-01-01 (Gregorian) on.
`Calendar.dateOf` finds the date of a day in either of them, from the leap days of a cycle of years.
-/

namespace SparkRapids

/-- A date, of some calendar. -/
@[ext] structure Date where
  year : ℤ
  month : ℕ
  day : ℕ
  deriving DecidableEq, Repr

namespace Date

variable {d d' : Date}

/-- Dates are compared by year, month and day, also where they are not valid. -/
instance : LinearOrder Date :=
  LinearOrder.lift' (fun d => toLex (d.year, toLex (d.month, d.day))) fun d d' h => by
    have hfields := toLex.injective h
    have hrest := toLex.injective (Prod.mk.inj hfields).2
    exact Date.ext (Prod.mk.inj hfields).1 (Prod.mk.inj hrest).1 (Prod.mk.inj hrest).2

theorem lt_iff : d < d' ↔ d.year < d'.year ∨
    d.year = d'.year ∧ (d.month < d'.month ∨ d.month = d'.month ∧ d.day < d'.day) := by
  show toLex (d.year, toLex (d.month, d.day)) < toLex (d'.year, toLex (d'.month, d'.day)) ↔ _
  rw [Prod.Lex.toLex_lt_toLex, Prod.Lex.toLex_lt_toLex]

/-- The year that starts on 1 March. -/
def marchYear (d : Date) : ℤ := if d.month ≤ 2 then d.year - 1 else d.year

/-- The month in such a year, from 0 on. -/
def marchMonth (d : Date) : ℕ := if 2 < d.month then d.month - 3 else d.month + 9

end Date

/-- The first day of a month in a year that starts in March. -/
def monthStart (m : ℕ) : ℕ := (153 * m + 2) / 5

theorem monthStart_mono {m n : ℕ} (h : m ≤ n) : monthStart m ≤ monthStart n := by
  unfold monthStart
  omega

/-- A calendar, by the number of its leap days up to the end of February. -/
structure Calendar where
  leapDays : ℤ → ℤ
  /-- the number of 1 March of the year 0 -/
  origin : ℤ
  le_succ (y : ℤ) : leapDays y ≤ leapDays (y + 1)
  succ_le (y : ℤ) : leapDays (y + 1) ≤ leapDays y + 1

namespace Calendar

variable {c : Calendar} {d d' : Date}

def IsLeap (c : Calendar) (y : ℤ) : Prop := c.leapDays (y - 1) < c.leapDays y

instance (y : ℤ) : Decidable (c.IsLeap y) := inferInstanceAs (Decidable (_ < _))

def monthLength (c : Calendar) (y : ℤ) (m : ℕ) : ℕ :=
  if m = 2 then if c.IsLeap y then 29 else 28
  else if m = 4 ∨ m = 6 ∨ m = 9 ∨ m = 11 then 30 else 31

/-- A date that the calendar has. -/
structure Valid (c : Calendar) (d : Date) : Prop where
  one_le_month : 1 ≤ d.month
  month_le : d.month ≤ 12
  one_le_day : 1 ≤ d.day
  day_le : d.day ≤ c.monthLength d.year d.month

/-- The number of the first day of a year that starts in March. -/
def yearStart (c : Calendar) (y : ℤ) : ℤ := 365 * y + c.leapDays y + c.origin

/-- The number of the day of a date. -/
def number (c : Calendar) (d : Date) : ℤ :=
  c.yearStart d.marchYear + monthStart d.marchMonth + d.day - 1

/-! ### Days are numbered in order -/

theorem yearStart_succ (c : Calendar) (y : ℤ) :
    c.yearStart (y + 1) = c.yearStart y + 365 + (c.leapDays (y + 1) - c.leapDays y) := by
  unfold yearStart
  omega

theorem yearStart_mono : Monotone c.yearStart :=
  monotone_int_of_le_succ fun y => by
    rw [yearStart_succ]
    have hle := c.le_succ y
    omega

/-- The months but the last one of a year have the length that their starts say. -/
theorem monthLength_eq {m : ℕ} (hpos : 1 ≤ m) (hle : m ≤ 12) (hm : m ≠ 2) (y : ℤ) :
    monthStart (if 2 < m then m - 3 else m + 9) + c.monthLength y m =
      monthStart ((if 2 < m then m - 3 else m + 9) + 1) := by
  unfold monthLength monthStart
  rw [if_neg hm]
  interval_cases m <;> first | rfl | exact absurd rfl hm

theorem isLeap_iff (y : ℤ) : c.IsLeap (y + 1) ↔ c.leapDays (y + 1) = c.leapDays y + 1 := by
  have hle := c.le_succ y
  have hsucc := c.succ_le y
  unfold IsLeap
  rw [add_sub_cancel_right]
  omega

theorem monthLength_two (y : ℤ) :
    (c.monthLength (y + 1) 2 : ℤ) = 28 + (c.leapDays (y + 1) - c.leapDays y) := by
  have hle := c.le_succ y
  have hsucc := c.succ_le y
  have hleap := isLeap_iff (c := c) y
  unfold monthLength
  rw [if_pos rfl]
  split_ifs with h
  · have heq := hleap.1 h
    omega
  · have hne := mt hleap.2 h
    omega

/-- A leap day is the last day of its year. -/
theorem yearStart_eq (c : Calendar) (y : ℤ) :
    c.yearStart y = c.yearStart (y - 1) + 365 + if c.IsLeap y then 1 else 0 := by
  have hle := c.le_succ (y - 1)
  have hsucc := c.succ_le (y - 1)
  have hyears := yearStart_succ c (y - 1)
  have hleap := isLeap_iff (c := c) (y - 1)
  rw [sub_add_cancel] at hle hsucc hyears hleap
  split_ifs with h
  · have heq := hleap.1 h
    omega
  · have hne := mt hleap.2 h
    omega

theorem number_march (c : Calendar) (y : ℤ) : c.number ⟨y, 3, 1⟩ = c.yearStart y := by
  simp [number, Date.marchYear, Date.marchMonth, monthStart]

theorem number_leapDay (hmonth : d.month = 2) (hday : d.day = 29) :
    c.number d = c.yearStart (d.year - 1) + 365 := by
  have hyear : d.marchYear = d.year - 1 := by
    unfold Date.marchYear
    rw [hmonth, if_pos le_rfl]
  have hstart : monthStart d.marchMonth = 337 := by
    unfold Date.marchMonth
    rw [hmonth]
    rfl
  unfold number
  rw [hyear, hstart, hday]
  omega

section

variable (h : c.Valid d)
include h

/-- A valid date is before the end of its year. -/
theorem Valid.number_lt : c.number d < c.yearStart (d.marchYear + 1) := by
  obtain ⟨hpos, hle, -, hday⟩ := h
  unfold number
  rw [yearStart_succ]
  by_cases hm : d.month = 2
  · -- the last month of the year
    have hyear : d.marchYear + 1 = d.year := by
      unfold Date.marchYear
      rw [hm, if_pos (le_refl 2)]
      omega
    have hstart : monthStart d.marchMonth = 337 := by
      unfold Date.marchMonth
      rw [hm]
      rfl
    have hlen := monthLength_two (c := c) d.marchYear
    rw [hyear] at hlen
    rw [hm] at hday
    rw [hstart, hyear]
    omega
  · have hlen := monthLength_eq (c := c) hpos hle hm d.year
    have hstart : monthStart (d.marchMonth + 1) ≤ monthStart 11 :=
      monthStart_mono (by unfold Date.marchMonth; split_ifs <;> omega)
    have hlast : monthStart 11 = 337 := rfl
    have hleap := c.le_succ d.marchYear
    unfold Date.marchMonth at hstart ⊢
    omega

theorem Valid.yearStart_le : c.yearStart d.marchYear ≤ c.number d := by
  have hday := h.one_le_day
  unfold number
  omega

theorem Valid.number_strictMono (h' : c.Valid d') (hlt : d < d') : c.number d < c.number d' := by
  rw [Date.lt_iff] at hlt
  have hpos := h.one_le_month
  have hle := h.month_le
  have hday := h.day_le
  have hpos' := h'.one_le_month
  have hle' := h'.month_le
  have hday' := h'.one_le_day
  have hyears : d.marchYear < d'.marchYear ∨ d.marchYear = d'.marchYear ∧
      (d.marchMonth < d'.marchMonth ∨ d.marchMonth = d'.marchMonth ∧ d.day < d'.day) := by
    unfold Date.marchYear Date.marchMonth
    split_ifs <;> omega
  rcases hyears with hyear | ⟨hyear, hmonth | ⟨hmonth, hlt⟩⟩
  · calc c.number d < c.yearStart (d.marchYear + 1) := h.number_lt
      _ ≤ c.yearStart d'.marchYear := yearStart_mono hyear
      _ ≤ c.number d' := h'.yearStart_le
  · -- February is the last month, so that `d` is in another one
    have hm : d.month ≠ 2 := by
      intro hm
      unfold Date.marchMonth at hmonth
      rw [hm] at hmonth
      split_ifs at hmonth <;> omega
    have hlen := monthLength_eq (c := c) hpos hle hm d.year
    have hstart : monthStart (d.marchMonth + 1) ≤ monthStart d'.marchMonth := monthStart_mono hmonth
    unfold number
    rw [hyear]
    unfold Date.marchMonth at hlen hstart ⊢
    omega
  · unfold number
    rw [hyear, hmonth]
    omega

theorem number_lt_iff (h' : c.Valid d') : c.number d < c.number d' ↔ d < d' := by
  have hmono : StrictMonoOn c.number {d | c.Valid d} := fun d h d' h' => h.number_strictMono h'
  exact hmono.lt_iff_lt h h'

theorem number_le_iff (h' : c.Valid d') : c.number d ≤ c.number d' ↔ d ≤ d' := by
  rw [← not_lt, number_lt_iff h' h, not_lt]

theorem number_inj (h' : c.Valid d') : c.number d = c.number d' ↔ d = d' := by
  rw [le_antisymm_iff, number_le_iff h h', number_le_iff h' h, ← le_antisymm_iff]

end

/-! ### Dates of days -/

/-- The date of a day of a year that starts in March. -/
def ofYearDay (y : ℤ) (dayOfYear : ℕ) : Date :=
  let mp := (5 * dayOfYear + 2) / 153
  let month := if mp < 10 then mp + 3 else mp - 9
  ⟨y + (if month ≤ 2 then 1 else 0), month, dayOfYear - (153 * mp + 2) / 5 + 1⟩

/-- The month of a day is the one that it is in. -/
theorem monthStart_le (dayOfYear : ℕ) : monthStart ((5 * dayOfYear + 2) / 153) ≤ dayOfYear ∧
    dayOfYear < monthStart ((5 * dayOfYear + 2) / 153 + 1) := by
  unfold monthStart
  omega

section ofYearDay

variable {y : ℤ} {dayOfYear : ℕ}

theorem marchYear_ofYearDay : (ofYearDay y dayOfYear).marchYear = y := by
  unfold ofYearDay Date.marchYear
  dsimp only
  split_ifs <;> omega

theorem marchMonth_ofYearDay (h : dayOfYear ≤ 365) :
    (ofYearDay y dayOfYear).marchMonth = (5 * dayOfYear + 2) / 153 := by
  unfold ofYearDay Date.marchMonth
  dsimp only
  split_ifs <;> omega

theorem number_ofYearDay (h : dayOfYear ≤ 365) :
    c.number (ofYearDay y dayOfYear) = c.yearStart y + dayOfYear := by
  have hstart := (monthStart_le dayOfYear).1
  have hday : (ofYearDay y dayOfYear).day =
      dayOfYear - monthStart ((5 * dayOfYear + 2) / 153) + 1 := rfl
  unfold number
  rw [marchYear_ofYearDay, marchMonth_ofYearDay h, hday]
  omega

theorem valid_ofYearDay (h : c.yearStart y + dayOfYear < c.yearStart (y + 1)) :
    c.Valid (ofYearDay y dayOfYear) := by
  have hsucc := c.succ_le y
  rw [yearStart_succ] at h
  have hmonths := @marchMonth_ofYearDay y dayOfYear (by omega)
  obtain ⟨hstart, hend⟩ := monthStart_le dayOfYear
  have hmonth : (ofYearDay y dayOfYear).month =
    if (5 * dayOfYear + 2) / 153 < 10 then (5 * dayOfYear + 2) / 153 + 3
    else (5 * dayOfYear + 2) / 153 - 9 := rfl
  have hday : (ofYearDay y dayOfYear).day =
    dayOfYear - monthStart ((5 * dayOfYear + 2) / 153) + 1 := rfl
  have hpos : 1 ≤ (ofYearDay y dayOfYear).month := by
    rw [hmonth]
    split_ifs <;> omega
  have hle : (ofYearDay y dayOfYear).month ≤ 12 := by
    rw [hmonth]
    split_ifs <;> omega
  refine ⟨hpos, hle, by rw [hday]; omega, ?_⟩
  by_cases hm : (ofYearDay y dayOfYear).month = 2
  · -- the last month ends with the year
    have hyear : (ofYearDay y dayOfYear).year = y + 1 := by
      show y + (if (ofYearDay y dayOfYear).month ≤ 2 then 1 else 0) = y + 1
      rw [if_pos (by omega)]
    have hlast : (5 * dayOfYear + 2) / 153 = 11 := by
      rw [hm] at hmonth
      split_ifs at hmonth <;> omega
    have hlen := monthLength_two (c := c) y
    have h337 : monthStart 11 = 337 := rfl
    rw [hm, hyear, hday, hlast]
    omega
  · have hlen := monthLength_eq (c := c) hpos hle hm (ofYearDay y dayOfYear).year
    have hmarch : (if 2 < (ofYearDay y dayOfYear).month then (ofYearDay y dayOfYear).month - 3
        else (ofYearDay y dayOfYear).month + 9) = (5 * dayOfYear + 2) / 153 := hmonths
    rw [hmarch] at hlen
    rw [hday]
    omega

end ofYearDay

/-- A day of a cycle of years, counted from 1 March on, and the year that it is in. -/
theorem valid_and_number {days y : ℤ} (hstart : c.yearStart y ≤ days)
    (hend : days < c.yearStart (y + 1)) : c.Valid (ofYearDay y (days - c.yearStart y).toNat) ∧
      c.number (ofYearDay y (days - c.yearStart y).toNat) = days := by
  have hsucc := c.succ_le y
  have hyear := yearStart_succ c y
  refine ⟨valid_ofYearDay (by omega), ?_⟩
  rw [number_ofYearDay (by omega)]
  omega

/-! ### The Julian and the Gregorian calendar -/

/-- The Julian calendar, with 1970-01-01 of the Gregorian one as the day 0. -/
def julian : Calendar where
  leapDays y := y / 4
  origin := -719470
  le_succ y := by omega
  succ_le y := by omega

/-- The proleptic Gregorian calendar, with 1970-01-01 as the day 0. -/
def gregorian : Calendar where
  leapDays y := y / 4 - y / 100 + y / 400
  origin := -719468
  le_succ y := by omega
  succ_le y := by omega

theorem julian_isLeap (y : ℤ) : julian.IsLeap y ↔ 4 ∣ y := by
  unfold IsLeap julian
  dsimp only
  omega

theorem gregorian_isLeap (y : ℤ) : gregorian.IsLeap y ↔ 4 ∣ y ∧ (100 ∣ y → 400 ∣ y) := by
  unfold IsLeap gregorian
  dsimp only
  omega

/-- A Gregorian leap year is a Julian one. -/
theorem Valid.toJulian (h : gregorian.Valid d) : julian.Valid d := by
  obtain ⟨hpos, hle, hday, hlen⟩ := h
  refine ⟨hpos, hle, hday, hlen.trans ?_⟩
  have hleap : gregorian.IsLeap d.year → julian.IsLeap d.year := by
    rw [gregorian_isLeap, julian_isLeap]
    exact And.left
  unfold monthLength
  split_ifs <;> first | exact le_rfl | decide | exact absurd (hleap ‹_›) ‹_›

example : gregorian.number ⟨1970, 1, 1⟩ = 0 := rfl

/-- The calendars part where the Gregorian one starts. -/
example : gregorian.number ⟨1582, 10, 15⟩ = julian.number ⟨1582, 10, 5⟩ := rfl

/-- The days of the first `y` years of a cycle of 400 years. -/
def eraDays (y : ℕ) : ℕ := 365 * y + y / 4 - y / 100 + y / 400

/-- The year of a day of the cycle. -/
def yearOfEra (dayOfEra : ℕ) : ℕ :=
  (dayOfEra - dayOfEra / 1460 + dayOfEra / 36524 - dayOfEra / 146096) / 365

theorem yearOfEra_mono {a b : ℕ} (h : a ≤ b) (hb : b < 146097) : yearOfEra a ≤ yearOfEra b := by
  unfold yearOfEra
  refine Nat.div_le_div_right ?_
  -- only at the last day a leap day is taken off again
  by_cases hlast : b = 146096
  · subst hlast
    omega
  · omega

theorem yearOfEra_eraDays : ∀ y < 400, yearOfEra (eraDays y) = y ∧
    yearOfEra (eraDays (y + 1) - 1) = y := by
  decide +kernel

theorem eraDays_mono : Monotone eraDays :=
  monotone_nat_of_le_succ fun y => by
    unfold eraDays
    omega

theorem eraDays_yearOfEra {n : ℕ} (h : n < 146097) : yearOfEra n < 400 ∧
    eraDays (yearOfEra n) ≤ n ∧ n < eraDays (yearOfEra n + 1) := by
  have hlt : yearOfEra n < 400 := by
    have hmono := yearOfEra_mono (Nat.le_of_lt_succ h) (by decide)
    have hlast : yearOfEra 146096 = 399 := rfl
    omega
  obtain ⟨y, hy⟩ : ∃ y, yearOfEra n = y := ⟨_, rfl⟩
  rw [hy] at hlt ⊢
  refine ⟨hlt, ?_, ?_⟩
  · -- before the year there are the days of the years before it
    by_contra hbefore
    have hpos : y ≠ 0 := by
      rintro rfl
      exact hbefore (Nat.zero_le _)
    have hprev := (yearOfEra_eraDays (y - 1) (by omega)).2
    rw [Nat.sub_add_cancel (by omega)] at hprev
    have hmono := yearOfEra_mono (show n ≤ eraDays y - 1 by omega) (by
      have hend := eraDays_mono hlt.le
      have h400 : eraDays 400 = 146097 := rfl
      omega)
    omega
  · by_contra hafter
    rcases Nat.lt_or_ge (y + 1) 400 with hnext | hend
    · have hmono := yearOfEra_mono (not_lt.1 hafter) h
      have hstart := (yearOfEra_eraDays (y + 1) hnext).1
      omega
    · obtain rfl : y = 399 := by omega
      exact hafter h

/-- The Gregorian date of a day. -/
def gregorianDate (days : ℤ) : Date :=
  let z := days + 719468
  let dayOfEra := (z % 146097).toNat
  ofYearDay (yearOfEra dayOfEra + z / 146097 * 400) (dayOfEra - eraDays (yearOfEra dayOfEra))

theorem yearStart_gregorian {y : ℕ} (h : y ≤ 400) (era : ℤ) :
    gregorian.yearStart (y + era * 400) = 146097 * era + eraDays y - 719468 := by
  unfold yearStart gregorian eraDays
  dsimp only
  omega

/-- Every day has its date. -/
theorem gregorianDate_spec (days : ℤ) :
    gregorian.Valid (gregorianDate days) ∧ gregorian.number (gregorianDate days) = days := by
  obtain ⟨z, hz⟩ : ∃ z, z = days + 719468 := ⟨_, rfl⟩
  obtain ⟨hyear, hle, hlt⟩ := eraDays_yearOfEra (n := (z % 146097).toNat) (by omega)
  have hstart := yearStart_gregorian hyear.le (z / 146097)
  have hend := yearStart_gregorian (show _ + 1 ≤ 400 from hyear) (z / 146097)
  rw [Nat.cast_add_one, add_right_comm] at hend
  have hdiv := Int.mul_ediv_add_emod z 146097
  have hspec := @valid_and_number gregorian days
    (yearOfEra (z % 146097).toNat + z / 146097 * 400) (by omega) (by omega)
  have hday : (days - gregorian.yearStart (yearOfEra (z % 146097).toNat + z / 146097 * 400)).toNat =
      (z % 146097).toNat - eraDays (yearOfEra (z % 146097).toNat) := by
    omega
  rw [hday] at hspec
  unfold gregorianDate
  rwa [← hz]

/-- The Julian date of a day. -/
def julianDate (days : ℤ) : Date :=
  let z := days + 719470
  let dayOfEra := (z % 1461).toNat
  let year := (dayOfEra - dayOfEra / 1460) / 365
  ofYearDay (year + z / 1461 * 4) (dayOfEra - 365 * year)

theorem julianDate_spec (days : ℤ) :
    julian.Valid (julianDate days) ∧ julian.number (julianDate days) = days := by
  obtain ⟨z, hz⟩ : ∃ z, z = days + 719470 := ⟨_, rfl⟩
  obtain ⟨dayOfEra, hdayOfEra⟩ : ∃ n, n = (z % 1461).toNat := ⟨_, rfl⟩
  obtain ⟨year, hyear⟩ : ∃ n, n = (dayOfEra - dayOfEra / 1460) / 365 := ⟨_, rfl⟩
  have hlt : year < 4 := by omega
  have hstart : ∀ y : ℤ, 0 ≤ y → y ≤ 4 →
      julian.yearStart (y + z / 1461 * 4) = 1461 * (z / 1461) + 365 * y + y / 4 - 719470 := by
    intro y hpos hle
    unfold yearStart julian
    dsimp only
    omega
  have hbegin := hstart year (by omega) (by omega)
  have hend := hstart (year + 1) (by omega) (by omega)
  rw [add_right_comm] at hend
  have hdiv := Int.mul_ediv_add_emod z 1461
  have hspec := @valid_and_number julian days (year + z / 1461 * 4)
    (by omega) (by omega)
  have hday : (days - julian.yearStart (year + z / 1461 * 4)).toNat = dayOfEra - 365 * year := by
    omega
  rw [hday] at hspec
  unfold julianDate
  dsimp only
  rwa [← hz, ← hdayOfEra, ← hyear]

end Calendar

end SparkRapids
