import SparkRapidsJni.DatetimeTruncate.Truncate

/-!
# Truncation is the floor, for the years that the calendar type holds

The boundaries of a unit are a grid, and a date or a timestamp is truncated to its floor in it. For the
units that are found by the date, this is so iff the year of the input is one that `cuda::std::chrono::year`
holds (`truncate_exact_iff`): another year that is held instead is another date.
-/

namespace SparkRapids.DatetimeTruncate

open Calendar TimeZone Grid DateTimeUtils

/-! ### Floors of days -/

section

variable {y : ℤ} {m d : ℕ}

theorem valid_firstDay (y : ℤ) (hm : 1 ≤ m ∧ m ≤ 12) : gregorian.Valid ⟨y, m, 1⟩ := by
  refine ⟨hm.1, hm.2, le_rfl, ?_⟩
  show 1 ≤ gregorian.monthLength y m
  unfold Calendar.monthLength
  split_ifs <;> omega

/-- The first day of the last month of a set that is not after the date, in the year of the date. -/
theorem isFloor_firstDays {months : Set ℕ} {start : ℕ → ℕ} (hmonths : ∀ m ∈ months, 1 ≤ m ∧ m ≤ 12)
    (hstart : ∀ m, 1 ≤ m → m ≤ 12 → start m ∈ months ∧ start m ≤ m ∧ ∀ m' ∈ months, m' ≤ m → m' ≤ start m)
    (days : ℤ) : IsFloor (TruncUnit.firstDays months) days
      (gregorian.number ⟨(gregorianDate days).year, start (gregorianDate days).month, 1⟩) := by
  obtain ⟨hvalid, hnumber⟩ := gregorianDate_spec days
  generalize gregorianDate days = date at hvalid hnumber
  obtain ⟨hmem, hle, hgreatest⟩ := hstart date.month hvalid.one_le_month hvalid.month_le
  have hfirst := valid_firstDay date.year (hmonths _ hmem)
  refine ⟨⟨⟨date.year, start date.month, hmem, rfl⟩, ?_⟩, ?_⟩
  · rw [← hnumber, number_le_iff hfirst hvalid, ← not_lt, Date.lt_iff]
    have hday := hvalid.one_le_day
    dsimp only
    omega
  · rintro _ ⟨⟨y, m, hm, rfl⟩, hb⟩
    have hvalid' := valid_firstDay y (hmonths m hm)
    rw [← hnumber, number_le_iff hvalid' hvalid, ← not_lt, Date.lt_iff] at hb
    dsimp only at hb
    rw [number_le_iff hvalid' hfirst, ← not_lt, Date.lt_iff]
    dsimp only
    -- in the year of the date, the month is one of the set that is not after the date's
    have hmonth : y = date.year → m ≤ start date.month := fun hy => hgreatest m hm (by omega)
    omega

theorem isFloor_year (days : ℤ) : IsFloor (TruncUnit.dayGrid .year) days
    (gregorian.number ⟨(gregorianDate days).year, 1, 1⟩) := by
  refine @isFloor_firstDays {1} (fun _ => 1) ?_ ?_ days
  · rintro m rfl
    omega
  · intro m hm _
    exact ⟨rfl, hm, fun m' hm' _ => (show m' = 1 from hm').le⟩

theorem isFloor_quarter (days : ℤ) : IsFloor (TruncUnit.dayGrid .quarter) days
    (gregorian.number ⟨(gregorianDate days).year, truncQuarterMonth (gregorianDate days).month, 1⟩) := by
  refine isFloor_firstDays ?_ ?_ days
  · rintro m (rfl | rfl | rfl | rfl) <;> omega
  · intro m hpos hle
    unfold truncQuarterMonth
    dsimp only
    refine ⟨?_, by omega, ?_⟩
    · show _ = 1 ∨ _ = 4 ∨ _ = 7 ∨ _ = 10
      omega
    · rintro m' (rfl | rfl | rfl | rfl) <;> omega

theorem isFloor_month (days : ℤ) : IsFloor (TruncUnit.dayGrid .month) days
    (gregorian.number ⟨(gregorianDate days).year, (gregorianDate days).month, 1⟩) := by
  refine @isFloor_firstDays (Set.Icc 1 12) (fun m => m) (fun m hm => hm) ?_ days
  intro m hpos hle
  exact ⟨⟨hpos, hle⟩, le_rfl, fun m' _ h => h⟩

/-- The last Monday. -/
theorem isFloor_week (days : ℤ) :
    IsFloor (TruncUnit.dayGrid .week) days (previousOrSame days 0) := by
  obtain ⟨hle, hlt⟩ := previousOrSame_bounds days 0
  refine ⟨⟨weekday_previousOrSame (by omega), hle⟩, ?_⟩
  rintro b ⟨hb, hble⟩
  have hweekday : weekday b = 0 := hb
  unfold weekday at hweekday
  unfold previousOrSame weekday
  omega

/-! ### Years that are held -/

/-- The same day and month of other years are other days. -/
theorem number_year_inj (y y' : ℤ) (m d : ℕ) :
    gregorian.number ⟨y, m, d⟩ = gregorian.number ⟨y', m, d⟩ ↔ y = y' := by
  have hstrict : StrictMono gregorian.yearStart := by
    refine strictMono_int_of_lt_succ fun y => ?_
    have hsucc := gregorian.le_succ y
    rw [yearStart_succ]
    omega
  -- behind the start of the year the days are the same
  have hmarch : ∀ y : ℤ, gregorian.number ⟨y, m, d⟩ =
      gregorian.yearStart (Date.marchYear ⟨y, m, d⟩) + (monthStart (Date.marchMonth ⟨0, m, d⟩) + d - 1) := by
    intro y
    unfold Calendar.number
    rw [add_sub_assoc, add_assoc]
    rw [add_sub_assoc]
    rfl
  have hyear : ∀ y : ℤ, Date.marchYear ⟨y, m, d⟩ = if m ≤ 2 then y - 1 else y := fun _ => rfl
  rw [hmarch y, hmarch y', add_left_inj, hstrict.injective.eq_iff, hyear, hyear]
  split_ifs <;> omega

/-- The days of the years that may be held. -/
theorem number_bounds (hy : -32768 ≤ y ∧ y ≤ 32767) (hm : m ≤ 12) (hd : d ≤ 31) :
    -13000000 ≤ gregorian.number ⟨y, m, d⟩ ∧ gregorian.number ⟨y, m, d⟩ ≤ 13000000 := by
  unfold Calendar.number Calendar.yearStart Date.marchYear Date.marchMonth monthStart gregorian
  dsimp only
  split_ifs <;> omega

end

/-! ### The results of the code -/

section

variable {c : ChronoYear} {s : List Byte} {u : TruncUnit} {fmt : TruncationFormat} {days ts r : ℤ}

/-- The time of the day is right, even where the start of the day does not fit. -/
theorem timeSinceMidnight_eq (ts : ℤ) : timeSinceMidnight ts = ts % dayMicros := by
  have hday : dayMicros = 86400000000 := rfl
  have hsub : wrap64 (ts - wrap64 (ts / dayMicros * dayMicros)) =
      wrap64 (ts - ts / dayMicros * dayMicros) := by
    unfold wrap64
    exact Int.sub_bmod_bmod
  have hmod : ts - ts / dayMicros * dayMicros = ts % dayMicros := by
    rw [hday]
    omega
  have hwrap : wrap64 (ts % dayMicros) = ts % dayMicros := by
    refine wrap64_of_range ⟨?_, ?_⟩
    · rw [hday]
      unfold longMin
      omega
    · rw [hday]
      unfold longMax
      omega
  unfold timeSinceMidnight
  dsimp only
  rw [hsub, hmod, hwrap, if_neg (by rw [hday]; omega)]

/-- The date of a unit, by the date of the input. -/
def dateOf (c : ChronoYear) (days : ℤ) : TruncUnit → ℤ
  | .year => sysDays ⟨(c.yearMonthDay days).year, 1, 1⟩
  | .quarter => sysDays ⟨(c.yearMonthDay days).year, truncQuarterMonth (c.yearMonthDay days).month, 1⟩
  | .month => sysDays ⟨(c.yearMonthDay days).year, (c.yearMonthDay days).month, 1⟩
  | .week => truncToMonday days
  | _ => sysDays (c.yearMonthDay days)

/-- The timestamp of a unit. -/
def timestampOf (c : ChronoYear) (ts : ℤ) : TruncUnit → ℤ
  | .hour => atTime (c.yearMonthDay (ts / dayMicros)) (timeSinceMidnight ts) 3600000000
  | .minute => atTime (c.yearMonthDay (ts / dayMicros)) (timeSinceMidnight ts) 60000000
  | .second => atTime (c.yearMonthDay (ts / dayMicros)) (timeSinceMidnight ts) 1000000
  | .millisecond => atTime (c.yearMonthDay (ts / dayMicros)) (timeSinceMidnight ts) 1000
  | .microsecond => ts
  | u => wrap64 (dateOf c (ts / dayMicros) u * dayMicros)

theorem truncateDateTo_eq (h : fmt.unit = some u) (hu : u.IsDateUnit) (days : ℤ) :
    truncateDateTo c days fmt = (dateOf c days u, true) := by
  obtain rfl | rfl | rfl | rfl := hu <;> cases fmt <;> cases h <;> rfl

theorem truncateTimestampTo_eq (h : fmt.unit = some u) (ts : ℤ) :
    truncateTimestampTo c ts fmt = (timestampOf c ts u, true) := by
  cases fmt <;> cases h <;> rfl

/-- The days of a Monday fit if they are to. -/
theorem truncToMonday_eq (hfits : IsInt32 (previousOrSame days 0)) :
    truncToMonday days = previousOrSame days 0 := by
  obtain ⟨hlow, hhigh⟩ := hfits
  unfold previousOrSame weekday at hlow hhigh ⊢
  unfold truncToMonday chronoWeekday wrapDays
  dsimp only
  split_ifs
  · omega
  · rw [Int.bmod_eq_of_le] <;> omega
  · omega

/-! ### Floors of timestamps -/

/-- The timestamp of a day and a time is right iff the day is. -/
theorem wrap64_eq_iff {n n' t : ℤ} (hn : -13000000 ≤ n ∧ n ≤ 13000000) (ht : 0 ≤ t ∧ t < dayMicros) :
    wrap64 (n * dayMicros + t) = n' * dayMicros + t ↔ n = n' := by
  have hday : dayMicros = 86400000000 := rfl
  have hwrap : wrap64 (n * dayMicros + t) = n * dayMicros + t := by
    refine wrap64_of_range ⟨?_, ?_⟩
    · rw [hday] at ht ⊢
      unfold longMin
      omega
    · rw [hday] at ht ⊢
      unfold longMax
      omega
  rw [hwrap, add_left_inj]
  exact mul_left_inj' (by rw [hday]; norm_num)

/-- A unit of which a day has a whole number. -/
theorem floor_unit {unit day : ℤ} (hunit : 0 < unit) (hdvd : unit ∣ day) (ts : ℤ) :
    ts / unit * unit = ts / day * day + ts % day / unit * unit := by
  obtain ⟨k, rfl⟩ := hdvd
  have hsplit : ts = ts % (unit * k) + ts / (unit * k) * k * unit := by
    have h := Int.emod_add_mul_ediv ts (unit * k)
    linarith
  have hdiv : ts / unit = ts % (unit * k) / unit + ts / (unit * k) * k := by
    conv_lhs => rw [hsplit]
    exact Int.add_mul_ediv_right _ _ hunit.ne'
  rw [hdiv]
  ring

/-- The year of the input is held, where it is used. -/
def Holds (c : ChronoYear) (u : TruncUnit) (days : ℤ) : Prop :=
  u.UsesDate → c.year (gregorianDate days).year = (gregorianDate days).year

theorem holds_iff (hu : u.UsesDate) :
    Holds c u days ↔ c.year (gregorianDate days).year = (gregorianDate days).year :=
  ⟨fun h => h hu, fun h _ => h⟩

/-- A day of the held year is the one of the year iff the year is held. -/
theorem sysDays_eq_iff (hu : u.UsesDate) (m d : ℕ) :
    sysDays ⟨c.year (gregorianDate days).year, m, d⟩ =
        gregorian.number ⟨(gregorianDate days).year, m, d⟩ ↔ Holds c u days := by
  rw [holds_iff hu]
  exact number_year_inj _ _ m d

theorem gregorianDate_bounds (days : ℤ) :
    1 ≤ (gregorianDate days).month ∧ (gregorianDate days).month ≤ 12 ∧ (gregorianDate days).day ≤ 31 := by
  obtain ⟨hvalid, -⟩ := gregorianDate_spec days
  refine ⟨hvalid.one_le_month, hvalid.month_le, hvalid.day_le.trans ?_⟩
  unfold Calendar.monthLength
  split_ifs <;> omega

theorem truncQuarterMonth_le {m : ℕ} (h : m ≤ 12) : truncQuarterMonth m ≤ 12 := by
  unfold truncQuarterMonth
  dsimp only
  omega

/-- Dates are truncated to their floor iff the year is held. -/
theorem dateOf_eq_iff (hu : u.IsDateUnit) (hr : IsFloor u.dayGrid days r) (hfits : IsInt32 r) :
    dateOf c days u = r ↔ Holds c u days := by
  obtain rfl | rfl | rfl | rfl := hu
  · obtain rfl := hr.unique (isFloor_year days)
    exact sysDays_eq_iff (by decide) _ _
  · obtain rfl := hr.unique (isFloor_quarter days)
    exact sysDays_eq_iff (by decide) _ _
  · obtain rfl := hr.unique (isFloor_month days)
    exact sysDays_eq_iff (by decide) _ _
  · obtain rfl := hr.unique (isFloor_week days)
    exact iff_of_true (truncToMonday_eq hfits) fun hu => absurd rfl hu.1

/-- A timestamp of a held year is right iff the year is held. -/
theorem wrap64_sysDays_iff (hu : u.UsesDate) {m d : ℕ} (hm : m ≤ 12) (hd : d ≤ 31) {t : ℤ}
    (ht : 0 ≤ t ∧ t < dayMicros) :
    wrap64 (sysDays ⟨c.year (gregorianDate days).year, m, d⟩ * dayMicros + t) =
        gregorian.number ⟨(gregorianDate days).year, m, d⟩ * dayMicros + t ↔ Holds c u days := by
  have h := @wrap64_eq_iff _ (gregorian.number ⟨(gregorianDate days).year, m, d⟩) t
    (number_bounds (c.year_range (gregorianDate days).year) hm hd) ht
  exact h.trans (sysDays_eq_iff hu m d)

/-- The same without a time. -/
theorem wrap64_sysDays_iff' (hu : u.UsesDate) {m d : ℕ} (hm : m ≤ 12) (hd : d ≤ 31) :
    wrap64 (sysDays ⟨c.year (gregorianDate days).year, m, d⟩ * dayMicros) =
        gregorian.number ⟨(gregorianDate days).year, m, d⟩ * dayMicros ↔ Holds c u days := by
  have h := @wrap64_sysDays_iff c u days hu m d hm hd 0 ⟨le_rfl, by decide⟩
  rwa [add_zero, add_zero] at h

/-- The day and the units of it. -/
theorem atTime_eq_iff (hu : u.UsesDate) {unit : ℤ} (hunit : 0 < unit) (hdvd : unit ∣ dayMicros)
    (hr : IsFloor {t | unit ∣ t} ts r) :
    atTime (c.yearMonthDay (ts / dayMicros)) (timeSinceMidnight ts) unit = r ↔
      Holds c u (ts / dayMicros) := by
  obtain ⟨-, hmonth, hday⟩ := gregorianDate_bounds (ts / dayMicros)
  obtain ⟨-, hnumber⟩ := gregorianDate_spec (ts / dayMicros)
  obtain rfl := hr.unique (isFloor_multiples hunit ts)
  have hpos : 0 < dayMicros := by decide
  have hmod := Int.emod_nonneg ts hpos.ne'
  have hlt := Int.emod_lt_of_pos ts hpos
  have htime : 0 ≤ ts % dayMicros / unit * unit ∧ ts % dayMicros / unit * unit < dayMicros :=
    ⟨mul_nonneg (Int.ediv_nonneg hmod hunit.le) hunit.le,
      (Int.ediv_mul_le _ hunit.ne').trans_lt hlt⟩
  have hiff := @wrap64_sysDays_iff c u (ts / dayMicros) hu _ _ hmonth hday _ htime
  have hdate : gregorian.number ⟨(gregorianDate (ts / dayMicros)).year,
      (gregorianDate (ts / dayMicros)).month, (gregorianDate (ts / dayMicros)).day⟩ = ts / dayMicros :=
    hnumber
  rw [hdate, ← floor_unit hunit hdvd ts] at hiff
  rw [← hiff]
  -- a day has a whole number of units
  have hat : atTime (c.yearMonthDay (ts / dayMicros)) (timeSinceMidnight ts) unit =
      wrap64 (sysDays (c.yearMonthDay (ts / dayMicros)) * dayMicros + ts % dayMicros / unit * unit) := by
    unfold atTime
    rw [timeSinceMidnight_eq, add_mul, mul_assoc, Int.ediv_mul_cancel hdvd]
  rw [hat]
  rfl

/-- Timestamps are truncated to their floor iff the year is held. -/
theorem timestampOf_eq_iff (hr : IsFloor u.microsGrid ts r) (hfits : IsInt64 r) :
    timestampOf c ts u = r ↔ Holds c u (ts / dayMicros) := by
  have hpos : 0 < dayMicros := by decide
  obtain ⟨-, hmonth, hday⟩ := gregorianDate_bounds (ts / dayMicros)
  cases u with
  | year =>
    obtain rfl := hr.unique ((isFloor_year _).scale hpos)
    exact wrap64_sysDays_iff' (by decide) (by omega) (by omega)
  | quarter =>
    obtain rfl := hr.unique ((isFloor_quarter _).scale hpos)
    exact wrap64_sysDays_iff' (by decide) (truncQuarterMonth_le hmonth) (by omega)
  | month =>
    obtain rfl := hr.unique ((isFloor_month _).scale hpos)
    exact wrap64_sysDays_iff' (by decide) hmonth (by omega)
  | week =>
    obtain rfl := hr.unique ((isFloor_week _).scale hpos)
    -- Mondays are found without a year
    refine iff_of_true ?_ fun hu => absurd rfl hu.1
    have hfits' : IsInt32 (previousOrSame (ts / dayMicros) 0) := by
      obtain ⟨hlow, hhigh⟩ := hfits
      unfold longMin dayMicros at hlow
      unfold longMax dayMicros at hhigh
      unfold IsInt32
      unfold dayMicros
      omega
    show wrap64 (truncToMonday (ts / dayMicros) * dayMicros) = _
    rw [truncToMonday_eq hfits']
    exact wrap64_of_range hfits
  | day =>
    obtain ⟨-, hnumber⟩ := gregorianDate_spec (ts / dayMicros)
    have hself : IsFloor (TruncUnit.dayGrid .day) (ts / dayMicros) (ts / dayMicros) :=
      isFloor_self (Set.mem_univ _)
    obtain rfl := hr.unique (hself.scale hpos)
    have hiff := @wrap64_sysDays_iff' c .day (ts / dayMicros) (by decide) _ _ hmonth hday
    have hdate : gregorian.number ⟨(gregorianDate (ts / dayMicros)).year,
        (gregorianDate (ts / dayMicros)).month, (gregorianDate (ts / dayMicros)).day⟩ = ts / dayMicros :=
      hnumber
    rw [hdate] at hiff
    exact hiff
  | hour => exact atTime_eq_iff (by decide) (by norm_num) (by decide) hr
  | minute => exact atTime_eq_iff (by decide) (by norm_num) (by decide) hr
  | second => exact atTime_eq_iff (by decide) (by norm_num) (by decide) hr
  | millisecond => exact atTime_eq_iff (by decide) (by norm_num) (by decide) hr
  | microsecond =>
    obtain rfl := hr.unique (isFloor_self (Set.mem_univ ts))
    exact iff_of_true rfl fun hu => absurd rfl hu.2

/-! ### Floors and their years -/

theorem exists_dayFloor (u : TruncUnit) (days : ℤ) : ∃ r, IsFloor u.dayGrid days r := by
  cases u with
  | year => exact ⟨_, isFloor_year days⟩
  | quarter => exact ⟨_, isFloor_quarter days⟩
  | month => exact ⟨_, isFloor_month days⟩
  | week => exact ⟨_, isFloor_week days⟩
  | day | hour | minute | second | millisecond | microsecond =>
    exact ⟨days, isFloor_self (Set.mem_univ days)⟩

theorem exists_microsFloor (u : TruncUnit) (ts : ℤ) : ∃ r, IsFloor u.microsGrid ts r := by
  have hpos : 0 < dayMicros := by decide
  have hday : ∀ u : TruncUnit, ∃ r, IsFloor ((· * dayMicros) '' u.dayGrid) ts r := by
    intro u
    obtain ⟨r, hr⟩ := exists_dayFloor u (ts / dayMicros)
    exact ⟨_, hr.scale hpos⟩
  cases u with
  | year => exact hday .year
  | quarter => exact hday .quarter
  | month => exact hday .month
  | week => exact hday .week
  | day => exact hday .day
  | hour => exact ⟨_, isFloor_multiples (by norm_num) ts⟩
  | minute => exact ⟨_, isFloor_multiples (by norm_num) ts⟩
  | second => exact ⟨_, isFloor_multiples (by norm_num) ts⟩
  | millisecond => exact ⟨_, isFloor_multiples (by norm_num) ts⟩
  | microsecond => exact ⟨ts, isFloor_self (Set.mem_univ ts)⟩

/-- The start of a year is a boundary of every unit that is found by the date. -/
theorem dayGrid_of_year (hu : u.UsesDate) : TruncUnit.dayGrid .year ⊆ u.dayGrid := by
  rintro _ ⟨y, m, hm, rfl⟩
  obtain rfl : m = 1 := hm
  cases u with
  | year => exact ⟨y, 1, rfl, rfl⟩
  | quarter => exact ⟨y, 1, .inl rfl, rfl⟩
  | month => exact ⟨y, 1, ⟨le_rfl, by norm_num⟩, rfl⟩
  | week => exact absurd rfl hu.1
  | day | hour | minute | second | millisecond | microsecond => exact Set.mem_univ _

theorem microsGrid_of_year (hu : u.UsesDate) : TruncUnit.microsGrid .year ⊆ u.microsGrid := by
  have hday : ∀ u : TruncUnit, u.UsesDate → (· * dayMicros) '' TruncUnit.dayGrid .year ⊆
      (· * dayMicros) '' u.dayGrid := fun u hu => Set.image_mono (dayGrid_of_year hu)
  have hunit : ∀ unit : ℤ, unit ∣ dayMicros →
      (· * dayMicros) '' TruncUnit.dayGrid .year ⊆ {t | unit ∣ t} := by
    rintro unit hdvd _ ⟨days, -, rfl⟩
    exact hdvd.mul_left days
  cases u with
  | year => exact hday .year hu
  | quarter => exact hday .quarter hu
  | month => exact hday .month hu
  | week => exact absurd rfl hu.1
  | day => exact hday .day hu
  | hour => exact hunit _ (by decide)
  | minute => exact hunit _ (by decide)
  | second => exact hunit _ (by decide)
  | millisecond => exact hunit _ (by decide)
  | microsecond => exact absurd rfl hu.2

theorem number_year_eq {y y' : ℤ} (h : gregorian.number ⟨y, 1, 1⟩ = gregorian.number ⟨y', 1, 1⟩) : y = y' :=
  (number_year_inj y y' 1 1).1 h

/-- The floor is in the year of the input. -/
theorem Holds.dayFloor (h : Holds c u days) (hr : IsFloor u.dayGrid days r) : Holds c u r := by
  intro hu
  have hyear := isFloor_year days
  have hle := hr.le_of_mem (dayGrid_of_year hu hyear.mem) hyear.le
  have heq := number_year_eq ((hyear.between hle hr.le).unique (isFloor_year r))
  rw [← heq]
  exact h hu

theorem Holds.microsFloor (h : Holds c u (ts / dayMicros)) (hr : IsFloor u.microsGrid ts r) :
    Holds c u (r / dayMicros) := by
  intro hu
  have hpos : 0 < dayMicros := by decide
  have hyear := (isFloor_year (ts / dayMicros)).scale hpos
  have hle := hr.le_of_mem (microsGrid_of_year hu hyear.mem) hyear.le
  have hunique := (hyear.between hle hr.le).unique ((isFloor_year (r / dayMicros)).scale hpos)
  have heq := number_year_eq (mul_right_cancel₀ hpos.ne' hunique)
  rw [← heq]
  exact h hu

end

/-! ### The columns -/

section

variable {c : ChronoYear} {s : List Byte} {u : TruncUnit}

theorem truncateDate_iff (h : (parseFormat s).unit = some u) (hu : u.IsDateUnit) {days r : ℤ}
    (hr : IsFloor u.dayGrid days r) (hfits : IsInt32 r) :
    truncateDate c (some days) (some s) = (r, true) ↔ Holds c u days := by
  unfold truncateDate
  dsimp only
  rw [truncateDateTo_eq h hu, ← dateOf_eq_iff hu hr hfits, Prod.mk.injEq]
  exact and_iff_left rfl

theorem truncateTimestamp_iff (h : (parseFormat s).unit = some u) {ts r : ℤ}
    (hr : IsFloor u.microsGrid ts r) (hfits : IsInt64 r) :
    truncateTimestamp c (some ts) (some s) = (r, true) ↔ Holds c u (ts / dayMicros) := by
  unfold truncateTimestamp
  dsimp only
  rw [truncateTimestampTo_eq h, ← timestampOf_eq_iff hr hfits, Prod.mk.injEq]
  exact and_iff_left rfl

end

/-- A truncation of the values `x` is exact at `x`: it gives the floor, of which it gives the floor itself,
and no less than for a smaller value at which it is exact. -/
structure ExactAt (trunc : ℤ → ℤ × Bool) (grid : Set ℤ) (x r : ℤ) : Prop where
  floor : trunc x = (r, true)
  idem : trunc r = (r, true)
  mono : ∀ y q, IsFloor grid y q → trunc y = (q, true) → y ≤ x → (trunc y).1 ≤ (trunc x).1

/-- **Truncation is the floor iff the year is held.** Every date and timestamp has a floor in the grid of
the unit of a valid format. If it is representable, it is what the input is truncated to, and truncation is
idempotent and monotone there, iff the year of the input is one that the calendar type holds or the unit is
found without a date. -/
theorem truncate_exact_iff (c : ChronoYear) {s : List Byte} {u : TruncUnit}
    (h : (parseFormat s).unit = some u) :
    (u.IsDateUnit → ∀ days, ∃ r, IsFloor u.dayGrid days r ∧ (IsInt32 r →
        (ExactAt (fun days => truncateDate c (some days) (some s)) u.dayGrid days r ↔ Holds c u days))) ∧
      ∀ ts, ∃ r, IsFloor u.microsGrid ts r ∧ (IsInt64 r →
        (ExactAt (fun ts => truncateTimestamp c (some ts) (some s)) u.microsGrid ts r ↔
          Holds c u (ts / dayMicros))) := by
  constructor
  · intro hu days
    obtain ⟨r, hr⟩ := exists_dayFloor u days
    refine ⟨r, hr, fun hfits => ⟨fun hexact => ?_, fun hholds => ?_⟩⟩
    · exact (truncateDate_iff h hu hr hfits).1 hexact.floor
    · have hfloor := (truncateDate_iff h hu hr hfits).2 hholds
      refine ⟨hfloor, (truncateDate_iff h hu hr.idem hfits).2 (hholds.dayFloor hr), ?_⟩
      intro y q hq hy hle
      rw [hfloor, hy]
      exact hq.mono hr hle
  · intro ts
    obtain ⟨r, hr⟩ := exists_microsFloor u ts
    refine ⟨r, hr, fun hfits => ⟨fun hexact => ?_, fun hholds => ?_⟩⟩
    · exact (truncateTimestamp_iff h hr hfits).1 hexact.floor
    · have hfloor := (truncateTimestamp_iff h hr hfits).2 hholds
      refine ⟨hfloor, (truncateTimestamp_iff h hr.idem hfits).2 (hholds.microsFloor hr), ?_⟩
      intro y q hq hy hle
      rw [hfloor, hy]
      exact hq.mono hr hle

/-- A year that is held as a `short`. -/
def shortYear : ChronoYear where
  year y := y.bmod (2 ^ 16)
  year_eq y hlow hhigh := Int.bmod_eq_of_le (by omega) (by omega)
  year_range y := by
    have hle := Int.le_bmod (x := y) (m := 2 ^ 16) (by norm_num)
    have hlt := Int.bmod_lt (x := y) (m := 2 ^ 16) (by norm_num)
    omega

/-- The quarter of the last microsecond of 1969. -/
theorem truncate_exact_iff_quarter : ∃ r, IsFloor (TruncUnit.microsGrid .quarter) (-1) r ∧ (IsInt64 r →
    (ExactAt (fun ts => truncateTimestamp shortYear (some ts) (some ("Quarter".toList.map Ascii.chr)))
      (TruncUnit.microsGrid .quarter) (-1) r ↔ Holds shortYear .quarter (-1 / dayMicros))) :=
  (@truncate_exact_iff shortYear ("Quarter".toList.map Ascii.chr) .quarter (by decide)).2 (-1)

/-- In the year 32768 an hour is truncated to one of the year -32768. -/
theorem not_exactAt_hour :
    let ts := gregorian.number ⟨32768, 7, 1⟩ * dayMicros + 3600000001
    let r := gregorian.number ⟨32768, 7, 1⟩ * dayMicros + 3600000000
    IsFloor (TruncUnit.microsGrid .hour) ts r ∧ IsInt64 r ∧
      truncateTimestamp shortYear (some ts) (some ("HOUR".toList.map Ascii.chr)) =
        (gregorian.number ⟨-32768, 7, 1⟩ * dayMicros + 3600000000, true) ∧
      ¬ExactAt (fun ts => truncateTimestamp shortYear (some ts) (some ("HOUR".toList.map Ascii.chr)))
        (TruncUnit.microsGrid .hour) ts r := by
  intro ts r
  have hvalue : truncateTimestamp shortYear (some ts) (some ("HOUR".toList.map Ascii.chr)) =
      (gregorian.number ⟨-32768, 7, 1⟩ * dayMicros + 3600000000, true) := by decide +kernel
  refine ⟨?_, by decide, hvalue, fun hexact => ?_⟩
  · have hfloor := isFloor_multiples (show (0 : ℤ) < 3600000000 by norm_num) ts
    rwa [show ts / 3600000000 * 3600000000 = r by decide] at hfloor
  · have hfloor := hexact.floor
    rw [hvalue] at hfloor
    exact absurd hfloor (by decide)

end SparkRapids.DatetimeTruncate
