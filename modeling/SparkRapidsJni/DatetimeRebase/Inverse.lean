import SparkRapidsJni.DatetimeRebase.Rebase

/-!
# Rebasing there and back

The hybrid calendar is Julian up to 1582-10-04 and Gregorian from 1582-10-15 on, which is the next
day. Rebasing gives a day the date that it has in the other of the hybrid and the proleptic Gregorian
calendar. It is monotone, and undone by the way back, but for the dates that only one calendar has:
the ten days before 1582-10-15, and the Julian leap days that are not Gregorian ones
(`rebase_there_and_back`).
-/

namespace SparkRapids.DatetimeRebase

open Calendar

/-- The date of a day in the calendar that is Julian up to 1582-10-04. -/
def hybridDate (days : Int) : Date :=
  if days < -141427 then julianDate days else gregorianDate days

/-- A 29 February that the Gregorian calendar does not have. -/
def LostDay (d : Date) : Prop := d.month = 2 ∧ d.day = 29 ∧ ¬gregorian.IsLeap d.year

instance (d : Date) : Decidable (LostDay d) := inferInstanceAs (Decidable (_ ∧ _))

/-- The Gregorian dates that the hybrid calendar does not have. -/
def InGap (d : Date) : Prop := julianEnd < d ∧ d < gregorianStart

instance (d : Date) : Decidable (InGap d) := inferInstanceAs (Decidable (_ ∧ _))

/-! ### The formulas of both calendars -/

variable {d d' : Date} {days : Int}

theorem daysFromJulian_eq (h : 1 ≤ d.day) : daysFromJulian d = julian.number d := by
  have hera : ∀ y : Int, (if y ≥ 0 then y else y - 3).tdiv 4 = y / 4 := by
    intro y
    split_ifs with hy
    · exact Int.tdiv_eq_ediv_of_nonneg hy
    · exact sub_tdiv_eq_ediv (n := 4) (by decide) (not_le.1 hy)
  have hyear : d.year - (if d.month ≤ 2 then 1 else 0) = d.marchYear := by
    unfold Date.marchYear
    split_ifs <;> omega
  unfold daysFromJulian number yearStart
  dsimp only
  rw [hera, hyear]
  show d.marchYear / 4 * 1461 + ((d.marchYear - d.marchYear / 4 * 4).toNat * 365 +
      (monthStart d.marchMonth + d.day - 1) : ℕ) - 719470 =
    365 * d.marchYear + d.marchYear / 4 + -719470 + monthStart d.marchMonth + d.day - 1
  omega

theorem julianFromDays_eq (days : Int) : julianFromDays days = julianDate days := by
  have hera : ∀ z : Int, (if z ≥ 0 then z else z - 1460).tdiv 1461 = z / 1461 := by
    intro z
    split_ifs with hz
    · exact Int.tdiv_eq_ediv_of_nonneg hz
    · exact sub_tdiv_eq_ediv (n := 1461) (by decide) (not_le.1 hz)
  have hmod : ∀ z : Int, z - z / 1461 * 1461 = z % 1461 := by
    intro z
    omega
  unfold julianFromDays julianDate ofYearDay
  dsimp only
  rw [hera, hmod]

/-- A Julian date that is not Gregorian is a leap day. -/
theorem lostDay_iff (h : julian.Valid d) : LostDay d ↔ ¬gregorian.Valid d := by
  obtain ⟨hpos, hle, hday, hlen⟩ := h
  constructor
  · rintro ⟨hmonth, hday29, hleap⟩ hvalid
    have hlength' := hvalid.day_le
    rw [hmonth, monthLength, if_pos rfl, if_neg hleap] at hlength'
    omega
  · intro hvalid
    have hlong : gregorian.monthLength d.year d.month < d.day :=
      not_le.1 fun hle' => hvalid ⟨hpos, hle, hday, hle'⟩
    unfold monthLength at hlen hlong
    by_cases hmonth : d.month = 2
    · rw [if_pos hmonth] at hlen hlong
      split_ifs at hlen hlong with hjulian hgregorian
      all_goals first | omega | exact ⟨hmonth, by omega, ‹_›⟩
    · rw [if_neg hmonth] at hlen hlong
      omega

/-- The Gregorian date of the day that `local_days` counts to. -/
def counted (d : Date) : Date := if LostDay d then ⟨d.year, 3, 1⟩ else d

theorem counted_spec (h : julian.Valid d) :
    gregorian.Valid (counted d) ∧ gregorian.number (counted d) = gregorian.number d := by
  unfold counted
  split_ifs with hlost
  · obtain ⟨hmonth, hday, hleap⟩ := hlost
    have hyear := yearStart_eq gregorian d.year
    rw [if_neg hleap] at hyear
    refine ⟨⟨(by decide : 1 ≤ 3), (by decide : 3 ≤ 12), le_rfl, (by decide : 1 ≤ 31)⟩, ?_⟩
    -- the day after 28 February starts the year
    rw [number_march, number_leapDay hmonth hday]
    omega
  · exact ⟨not_not.1 (mt (lostDay_iff h).2 hlost), rfl⟩

theorem julian_number_counted (h : julian.Valid d) :
    julian.number (counted d) = if LostDay d then julian.number d + 1 else julian.number d := by
  unfold counted
  by_cases hlost : LostDay d
  · rw [if_pos hlost, if_pos hlost]
    have hlen := h.day_le
    obtain ⟨hmonth, hday, -⟩ := hlost
    have hleap : julian.IsLeap d.year := by
      by_contra hleap
      rw [hmonth, monthLength, if_pos rfl, if_neg hleap] at hlen
      omega
    have hyear := yearStart_eq julian d.year
    rw [if_pos hleap] at hyear
    rw [number_march, number_leapDay hmonth hday]
    omega
  · rw [if_neg hlost, if_neg hlost]

theorem counted_mono (h' : julian.Valid d') (hlt : d < d') :
    counted d ≤ counted d' := by
  have hle : d' ≤ counted d' := by
    unfold counted
    split_ifs with hlost
    · obtain ⟨hmonth, -, -⟩ := hlost
      exact (Date.lt_iff.2 (by dsimp only; omega)).le
    · exact le_rfl
  refine le_trans ?_ hle
  unfold counted
  split_ifs with hlost
  · -- no date is between a leap day and 1 March
    obtain ⟨hmonth, hday, -⟩ := hlost
    have hday' := h'.one_le_day
    have hlen := h'.day_le
    rw [Date.lt_iff] at hlt
    rw [← not_lt, Date.lt_iff]
    dsimp only
    intro hbefore
    have hyear : d'.year = d.year := by omega
    have hmonth' : d'.month = 2 := by omega
    rw [hmonth', monthLength, if_pos rfl] at hlen
    split_ifs at hlen <;> omega
  · exact hlt.le

/-! ### Days -/

theorem valid_gregorianStart : gregorian.Valid gregorianStart :=
  ⟨by decide, by decide, by decide, by decide⟩

theorem valid_julianEnd : gregorian.Valid julianEnd :=
  ⟨by decide, by decide, by decide, by decide⟩

theorem number_gregorianStart : gregorian.number gregorianStart = -141427 := rfl

theorem number_julianEnd : gregorian.number julianEnd = -141438 := rfl

theorem julian_number_julianEnd : julian.number julianEnd = -141428 := rfl

theorem gregorianStart_le_iff : gregorianStart ≤ gregorianDate days ↔ -141427 ≤ days := by
  obtain ⟨hvalid, hnumber⟩ := gregorianDate_spec days
  rw [← number_le_iff valid_gregorianStart hvalid, hnumber, number_gregorianStart]

theorem le_julianEnd_iff : gregorianDate days ≤ julianEnd ↔ days ≤ -141438 := by
  obtain ⟨hvalid, hnumber⟩ := gregorianDate_spec days
  rw [← number_le_iff hvalid valid_julianEnd, hnumber, number_julianEnd]

theorem inGap_iff : InGap (gregorianDate days) ↔ -141438 < days ∧ days < -141427 := by
  unfold InGap
  rw [← not_le, le_julianEnd_iff, ← not_le, gregorianStart_le_iff, not_le, not_le]

theorem julianDate_le_iff : julianDate days ≤ julianEnd ↔ days ≤ -141428 := by
  obtain ⟨hvalid, hnumber⟩ := julianDate_spec days
  rw [← number_le_iff hvalid valid_julianEnd.toJulian, hnumber, julian_number_julianEnd]

/-- What a day is rebased to, by its place. -/
theorem gregorianToJulianDay_eq (days : Int) : gregorianToJulianDay days =
    if days ≤ -141438 then julian.number (gregorianDate days)
    else if days < -141427 then -141427 else days := by
  have hgap : julianEnd < gregorianDate days ∧ gregorianDate days < gregorianStart ↔ _ :=
    inGap_iff
  have hstart : gregorianStart ≤ gregorianDate days ↔ -141427 ≤ days := gregorianStart_le_iff
  unfold gregorianToJulianDay yearMonthDay
  dsimp only
  by_cases hbefore : days ≤ -141438
  · rw [if_neg (mt hgap.1 (by omega)), if_neg (mt hstart.1 (by omega)), if_pos hbefore,
      daysFromJulian_eq (gregorianDate_spec days).1.one_le_day]
  · rw [if_neg hbefore]
    by_cases hlt : days < -141427
    · rw [if_pos (hgap.2 (by omega)), if_pos hlt]
    · rw [if_neg (mt hgap.1 (by omega)), if_pos (hstart.2 (by omega)), if_neg hlt]

theorem julianToGregorianDay_eq (days : Int) : julianToGregorianDay days =
    if days < -141427 then gregorian.number (julianDate days) else days := by
  unfold julianToGregorianDay localDays
  rw [julianFromDays_eq]
  split_ifs <;> first | rfl | omega

/-- A date is found from its number. -/
theorem gregorianDate_number (h : gregorian.Valid d) : gregorianDate (gregorian.number d) = d := by
  obtain ⟨hvalid, hnumber⟩ := gregorianDate_spec (gregorian.number d)
  exact (number_inj hvalid h).1 hnumber

theorem julianDate_number (h : julian.Valid d) : julianDate (julian.number d) = d := by
  obtain ⟨hvalid, hnumber⟩ := julianDate_spec (julian.number d)
  exact (number_inj hvalid h).1 hnumber

/-- The dates of the Julian days that `local_days` counts to. -/
theorem gregorianDate_rebased (h : days < -141427) :
    gregorianDate (julianToGregorianDay days) = counted (julianDate days) := by
  obtain ⟨hvalid, hnumber⟩ := counted_spec (julianDate_spec days).1
  rw [julianToGregorianDay_eq, if_pos h, ← hnumber, gregorianDate_number hvalid]

theorem julianToGregorianDay_le (h : days < -141427) : julianToGregorianDay days ≤ -141438 := by
  rw [← le_julianEnd_iff, gregorianDate_rebased h]
  have hle := julianDate_le_iff.2 (show days ≤ -141428 by omega)
  unfold counted
  split_ifs with hlost
  · -- 1 March is before the end of its year
    rw [← not_lt, Date.lt_iff] at hle ⊢
    unfold julianEnd at hle ⊢
    dsimp only at hle ⊢
    omega
  · exact hle

theorem lostDay_gregorianDate (days : Int) : ¬LostDay (gregorianDate days) :=
  mt (lostDay_iff (gregorianDate_spec days).1.toJulian).1 (not_not.2 (gregorianDate_spec days).1)

/-- To the Gregorian calendar and back. -/
theorem gregorianToJulianDay_rebased (days : Int) :
    gregorianToJulianDay (julianToGregorianDay days) =
      if LostDay (hybridDate days) then days + 1 else days := by
  unfold hybridDate
  by_cases h : days < -141427
  · obtain ⟨hvalid, hnumber⟩ := julianDate_spec days
    rw [if_pos h, gregorianToJulianDay_eq, if_pos (julianToGregorianDay_le h),
      gregorianDate_rebased h, julian_number_counted hvalid, hnumber]
  · have hsame : julianToGregorianDay days = days := by
      rw [julianToGregorianDay_eq, if_neg h]
    rw [hsame, if_neg h, if_neg (lostDay_gregorianDate days), gregorianToJulianDay_eq,
      if_neg (by omega), if_neg h]

theorem julian_number_lt (h : days ≤ -141438) : julian.number (gregorianDate days) < -141427 := by
  have hvalid := (gregorianDate_spec days).1.toJulian
  have hle := (number_le_iff hvalid valid_julianEnd.toJulian).2 (le_julianEnd_iff.2 h)
  rw [julian_number_julianEnd] at hle
  omega

/-- To the Julian calendar and back. -/
theorem julianToGregorianDay_rebased (h : ¬InGap (gregorianDate days)) :
    julianToGregorianDay (gregorianToJulianDay days) = days := by
  rw [inGap_iff] at h
  rw [gregorianToJulianDay_eq]
  split_ifs with hbefore hlt
  · obtain ⟨hvalid, hnumber⟩ := gregorianDate_spec days
    rw [julianToGregorianDay_eq, if_pos (julian_number_lt hbefore), julianDate_number hvalid.toJulian,
      hnumber]
  · omega
  · rw [julianToGregorianDay_eq, if_neg hlt]

theorem gregorianToJulianDay_mono : Monotone gregorianToJulianDay := by
  intro days days' hle
  rw [gregorianToJulianDay_eq, gregorianToJulianDay_eq]
  by_cases hbefore' : days' ≤ -141438
  · -- both days have the dates of a Gregorian day
    obtain ⟨hvalid, hnumber⟩ := gregorianDate_spec days
    obtain ⟨hvalid', hnumber'⟩ := gregorianDate_spec days'
    rw [if_pos (by omega), if_pos hbefore', number_le_iff hvalid.toJulian hvalid'.toJulian,
      ← number_le_iff hvalid hvalid', hnumber, hnumber']
    exact hle
  · rw [if_neg hbefore']
    by_cases hbefore : days ≤ -141438
    · have hlt := julian_number_lt hbefore
      rw [if_pos hbefore]
      split_ifs <;> omega
    · rw [if_neg hbefore]
      split_ifs <;> omega

theorem julianToGregorianDay_mono : Monotone julianToGregorianDay := by
  intro days days' hle
  by_cases hlt' : days' < -141427
  · rcases hle.eq_or_lt with rfl | hlt
    · exact le_rfl
    obtain ⟨hvalid, hnumber⟩ := julianDate_spec days
    obtain ⟨hvalid', hnumber'⟩ := julianDate_spec days'
    have hdates : julianDate days < julianDate days' := by
      rw [← number_lt_iff hvalid hvalid', hnumber, hnumber']
      exact hlt
    obtain ⟨hcounted, heq⟩ := counted_spec hvalid
    obtain ⟨hcounted', heq'⟩ := counted_spec hvalid'
    rw [julianToGregorianDay_eq, julianToGregorianDay_eq, if_pos (by omega), if_pos hlt', ← heq,
      ← heq', number_le_iff hcounted hcounted']
    exact counted_mono hvalid' hdates
  · have hsame : julianToGregorianDay days' = days' := by
      rw [julianToGregorianDay_eq, if_neg hlt']
    rw [hsame]
    by_cases hlt : days < -141427
    · have hend := julianToGregorianDay_le hlt
      omega
    · rw [julianToGregorianDay_eq, if_neg hlt]
      exact hle

/-! ### Microseconds -/

theorem scaleTime_eq {base : Int} (hbase : 0 < base) (time : Int) :
    scaleTime time base = time / base := by
  unfold scaleTime
  split_ifs with h
  · exact sub_tdiv_eq_ediv hbase h
  · rw [sub_zero, Int.tdiv_eq_ediv_of_nonneg (not_lt.1 h)]

theorem moduloTime_eq {base : Int} (hbase : 0 < base) (time : Int) :
    moduloTime time base = time % base :=
  tmod_add_tmod hbase time

/-- The seconds are rounded down. -/
theorem tdiv_microsPerSecond (micros : Int) :
    micros.tdiv microsPerSecond -
        (if micros < 0 ∧ moduloTime micros microsPerSecond ≠ 0 then 1 else 0) =
      micros / 1000000 := by
  rw [moduloTime_eq (by decide), microsPerSecond, Int.tdiv_eq_ediv]
  have hdvd : (1000000 : Int) ∣ micros ↔ micros % 1000000 = 0 := Int.dvd_iff_emod_eq_zero
  have hsign : Int.sign 1000000 = 1 := rfl
  split_ifs <;> omega

/-- The time of the day is unchanged. -/
theorem toMicros_eq (days micros : Int) : toMicros days (getTimeComponents micros) =
    days * 86400000000 + micros % 86400000000 := by
  unfold toMicros getTimeComponents
  dsimp only
  rw [tdiv_microsPerSecond]
  simp only [moduloTime_eq, scaleTime_eq, microsPerSecond, Nat.ofNat_pos]
  omega

theorem gregorianToJulianMicro_eq (micros : Int) : gregorianToJulianMicro micros =
    gregorianToJulianDay (micros / 86400000000) * 86400000000 + micros % 86400000000 := by
  have hstart : gregorianStart ≤ gregorianDate (micros / 86400000000) ↔
      -141427 ≤ micros / 86400000000 := gregorianStart_le_iff
  unfold gregorianToJulianMicro gregorianToJulianDay floorDays yearMonthDay lastSwitchGregorianTs
  dsimp only
  by_cases h : micros ≥ -12219292800000000
  · have hge := hstart.2 (by omega)
    rw [if_pos h, if_neg (fun hgap => not_lt.2 hge hgap.2), if_pos hge]
    omega
  · rw [if_neg h, toMicros_eq, if_neg (c := _ ≥ gregorianStart) (mt hstart.1 (by omega))]

theorem julianToGregorianMicro_eq (micros : Int) : julianToGregorianMicro micros =
    julianToGregorianDay (micros / 86400000000) * 86400000000 + micros % 86400000000 := by
  unfold julianToGregorianMicro julianToGregorianDay floorDays lastSwitchGregorianTs
  dsimp only
  by_cases h : micros ≥ -12219292800000000
  · rw [if_pos h, if_pos (by omega)]
    omega
  · rw [if_neg h, toMicros_eq, if_neg (by omega)]

/-! ### Columns -/

/-- The units of a timestamp in a day. -/
def unitsPerDay : TypeId → Int
  | .timestampDays => 1
  | _ => 86400000000

/-- The timestamps of both types are rebased by their day, with the time of the day unchanged. -/
theorem rebaseGregorianToJulian_eq {input : Column} (htype : input.type ≠ .other) :
    rebaseGregorianToJulian input = .ok (input.transform fun x =>
      gregorianToJulianDay (x / unitsPerDay input.type) * unitsPerDay input.type +
        x % unitsPerDay input.type) := by
  obtain ⟨type, rows⟩ := input
  cases type with
  | timestampDays => simp [rebaseGregorianToJulian, unitsPerDay]
  | timestampMicroseconds =>
    simp only [rebaseGregorianToJulian, unitsPerDay, ← gregorianToJulianMicro_eq]
  | other => exact absurd rfl htype

theorem rebaseJulianToGregorian_eq {input : Column} (htype : input.type ≠ .other) :
    rebaseJulianToGregorian input = .ok (input.transform fun x =>
      julianToGregorianDay (x / unitsPerDay input.type) * unitsPerDay input.type +
        x % unitsPerDay input.type) := by
  obtain ⟨type, rows⟩ := input
  cases type with
  | timestampDays => simp [rebaseJulianToGregorian, unitsPerDay]
  | timestampMicroseconds =>
    simp only [rebaseJulianToGregorian, unitsPerDay, ← julianToGregorianMicro_eq]
  | other => exact absurd rfl htype

theorem unitsPerDay_pos (type : TypeId) : 0 < unitsPerDay type := by
  cases type <;> decide

/-- A time of the day is not part of the day. -/
theorem day_and_time {u : Int} (hu : 0 < u) (day x : Int) :
    (day * u + x % u) / u = day ∧ (day * u + x % u) % u = x % u := by
  have hnonneg := Int.emod_nonneg x hu.ne'
  have hlt := Int.emod_lt_of_pos x hu
  constructor
  · rw [add_comm, Int.add_mul_ediv_right _ _ hu.ne', Int.ediv_eq_zero_of_lt hnonneg hlt, zero_add]
  · rw [add_comm, Int.add_mul_emod_self_right, Int.emod_emod]

theorem transform_transform (input : Column) (f g : Int → Int) :
    (input.transform f).transform g = input.transform fun x => g (f x) := by
  simp [Column.transform, Function.comp_def]

theorem transform_congr {input : Column} {f g : Int → Int}
    (h : ∀ x, some x ∈ input.rows → f x = g x) : input.transform f = input.transform g := by
  unfold Column.transform
  congr 1
  refine List.map_congr_left fun row hrow => ?_
  cases row with
  | none => rfl
  | some x => exact congrArg some (h x hrow)

theorem transform_id (input : Column) : (input.transform fun x => x) = input := by
  simp [Column.transform]

/-- Rebasing is monotone, keeps the time of the day, and is undone by the way back but for the dates
that only one of the calendars has. -/
theorem rebase_there_and_back (input : Column) (htype : input.type ≠ .other) :
    Monotone gregorianToJulianDay ∧ Monotone julianToGregorianDay ∧
    rebaseGregorianToJulian input = .ok (input.transform fun x =>
      gregorianToJulianDay (x / unitsPerDay input.type) * unitsPerDay input.type +
        x % unitsPerDay input.type) ∧
    rebaseJulianToGregorian input = .ok (input.transform fun x =>
      julianToGregorianDay (x / unitsPerDay input.type) * unitsPerDay input.type +
        x % unitsPerDay input.type) ∧
    ((∀ x, some x ∈ input.rows → gregorianStart ≤ yearMonthDay (x / unitsPerDay input.type)) →
      rebaseGregorianToJulian input = .ok input ∧ rebaseJulianToGregorian input = .ok input) ∧
    (rebaseJulianToGregorian input >>= rebaseGregorianToJulian) = .ok (input.transform fun x =>
      if LostDay (hybridDate (x / unitsPerDay input.type)) then x + unitsPerDay input.type else x) ∧
    ((∀ x, some x ∈ input.rows → ¬InGap (yearMonthDay (x / unitsPerDay input.type))) →
      (rebaseGregorianToJulian input >>= rebaseJulianToGregorian) = .ok input) := by
  have hu := unitsPerDay_pos input.type
  have hsplit : ∀ x, x / unitsPerDay input.type * unitsPerDay input.type +
      x % unitsPerDay input.type = x := fun x => Int.ediv_mul_add_emod x _
  refine ⟨gregorianToJulianDay_mono, julianToGregorianDay_mono, rebaseGregorianToJulian_eq htype,
    rebaseJulianToGregorian_eq htype, ?_, ?_, ?_⟩
  · intro hstart
    rw [rebaseGregorianToJulian_eq htype, rebaseJulianToGregorian_eq htype]
    constructor
    · refine congrArg Except.ok (Eq.trans (transform_congr fun x hx => ?_) (transform_id input))
      have hday := gregorianStart_le_iff.1 (hstart x hx)
      rw [gregorianToJulianDay_eq, if_neg (by omega), if_neg (by omega), hsplit]
    · refine congrArg Except.ok (Eq.trans (transform_congr fun x hx => ?_) (transform_id input))
      have hday := gregorianStart_le_iff.1 (hstart x hx)
      rw [julianToGregorianDay_eq, if_neg (by omega), hsplit]
  · rw [rebaseJulianToGregorian_eq htype]
    show rebaseGregorianToJulian (input.transform _) = _
    rw [@rebaseGregorianToJulian_eq (input.transform _) htype, transform_transform]
    refine congrArg Except.ok (transform_congr fun x _ => ?_)
    rw [Column.transform_type, (day_and_time hu _ x).1, (day_and_time hu _ x).2, gregorianToJulianDay_rebased]
    have hx := hsplit x
    split_ifs
    · rw [add_mul, one_mul]
      omega
    · exact hx
  · -- days of the gap do not come back
    intro hgap
    rw [rebaseGregorianToJulian_eq htype]
    show rebaseJulianToGregorian (input.transform _) = _
    rw [@rebaseJulianToGregorian_eq (input.transform _) htype, transform_transform]
    refine congrArg Except.ok (Eq.trans (transform_congr fun x hx => ?_) (transform_id input))
    rw [Column.transform_type, (day_and_time hu _ x).1, (day_and_time hu _ x).2,
      julianToGregorianDay_rebased (hgap x hx), hsplit]

/-- A day of a column of days, and a null. -/
theorem rebase_there_and_back_days :
    (rebaseJulianToGregorian ⟨.timestampDays, [some (-719164), none]⟩ >>= rebaseGregorianToJulian) =
      .ok ⟨.timestampDays, [some (-719164), none]⟩ :=
  (rebase_there_and_back ⟨.timestampDays, [some (-719164), none]⟩ (by decide)).2.2.2.2.2.1.trans
    (congrArg Except.ok (by decide +kernel))

end SparkRapids.DatetimeRebase
