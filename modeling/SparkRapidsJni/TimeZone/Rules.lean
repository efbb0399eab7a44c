import SparkRapidsJni.TimeZone.Convert
import SparkRapidsJni.Lib.Timeline

/-!
# The transitions of a time zone

The transitions of a zone of Java, in UTC and in local time, as a timeline: the transitions of the list,
and those that the two rules make every year. `ZoneRules.Valid` says what is known of the zones that
`loadData` encodes. The yearly transitions of the source are those of the rules
(`createTransitionInfo_eq`), and the year of a second is the one in which the transitions around it are
(`getOffset_eq`).
-/

namespace SparkRapids.TimeZone

open Calendar DateTimeUtils

/-! ### Rules of Java -/

namespace ZoneOffsetTransitionRule

/-- The day of the transition of a year: from the day of the month on, or back from it if the day is
counted from the end of the month. -/
def day (rule : ZoneOffsetTransitionRule) (year : Int) : Int :=
  if rule.dayOfMonthIndicator < 0 then
    let length : Int := gregorian.monthLength year rule.month.toNat
    let date := gregorian.number
      ⟨year, rule.month.toNat, (length + 1 + rule.dayOfMonthIndicator).toNat⟩
    rule.dayOfWeek.elim date fun w => previousOrSame date (w - 1)
  else
    let date := gregorian.number ⟨year, rule.month.toNat, rule.dayOfMonthIndicator.toNat⟩
    rule.dayOfWeek.elim date fun w => nextOrSame date (w - 1)

/-- The second of the transition of a year, in UTC. -/
def epochSecond (rule : ZoneOffsetTransitionRule) (year : Int) : Int :=
  86400 * rule.day year + timeDiffComparedToMidnight rule - rule.offsetBefore

/-- What the fields of a rule can be. -/
structure Valid (rule : ZoneOffsetTransitionRule) : Prop where
  month : 1 ≤ rule.month ∧ rule.month ≤ 12
  dayOfMonth : -28 ≤ rule.dayOfMonthIndicator ∧ rule.dayOfMonthIndicator ≤ 31
  dayOfMonth_ne : rule.dayOfMonthIndicator ≠ 0
  dayOfWeek : ∀ w ∈ rule.dayOfWeek, 1 ≤ w ∧ w ≤ 7
  notMidnight : rule.isMidnightEndOfDay = false

end ZoneOffsetTransitionRule

/-- The first second of a year. -/
def yearStart (year : Int) : Int := 86400 * gregorian.number ⟨year, 1, 1⟩

/-! ### Timelines of zones -/

/-- The time from which on an offset is set, in UTC or in local time: there it is the end of the gap or
of the overlap. -/
def transitionTime (isLocal : Bool) (epochSecond before after : Int) : Int :=
  if isLocal then epochSecond + max before after else epochSecond

/-- The yearly transitions of two rules: the first one of a year at the even numbers. -/
def yearly (isLocal : Bool) (rule0 rule1 : ZoneOffsetTransitionRule) (j : Int) : Int × Int :=
  let rule := if j % 2 = 0 then rule0 else rule1
  (transitionTime isLocal (rule.epochSecond (j / 2)) rule.offsetBefore rule.offsetAfter,
    rule.offsetAfter)

namespace ZoneRules

/-- The transitions of a zone. -/
def timeline (z : ZoneRules) (isLocal : Bool) : Timeline where
  fixed :=
    if z.isFixedOffset then [(longMin, z.offset)]
    else (longMin, (z.transitions.head?.elim 0 (·.offsetBefore))) ::
      z.transitions.map fun t =>
        (transitionTime isLocal t.epochSecond t.offsetBefore t.offsetAfter, t.offsetAfter)
  periodic :=
    if z.isFixedOffset then none
    else match z.transitionRules with
      | [rule0, rule1] => some (yearly isLocal rule0 rule1)
      | _ => none

/-- The zones of Java. The offsets of the rules chain, no transition of a rule is within 24 hours of the
boundary of a year, and the rules continue the list: its last offset is the one that they have there. -/
structure Valid (z : ZoneRules) : Prop where
  transitions_ne : z.isFixedOffset = false → z.transitions ≠ []
  range : ∀ t ∈ z.transitions, ∀ isLocal,
    longMin ≤ transitionTime isLocal t.epochSecond t.offsetBefore t.offsetAfter
  sorted : ∀ isLocal, z.transitions.Pairwise fun t t' =>
    transitionTime isLocal t.epochSecond t.offsetBefore t.offsetAfter ≤
      transitionTime isLocal t'.epochSecond t'.offsetBefore t'.offsetAfter
  chain : z.transitions.IsChain fun t t' => t'.offsetBefore = t.offsetAfter
  rules_length : z.transitionRules = [] ∨ z.transitionRules.length = 2
  rule : ∀ rule ∈ z.transitionRules, rule.Valid
  rules_chain : ∀ rule0 rule1, z.transitionRules = [rule0, rule1] →
    rule1.offsetBefore = rule0.offsetAfter ∧ rule0.offsetBefore = rule1.offsetAfter
  rules_order : ∀ rule0 rule1, z.transitionRules = [rule0, rule1] →
    ∀ year, rule0.epochSecond year < rule1.epochSecond year
  inYear : ∀ rule ∈ z.transitionRules, ∀ year isLocal,
    yearStart year + 86400 ≤
        transitionTime isLocal (rule.epochSecond year) rule.offsetBefore rule.offsetAfter ∧
      transitionTime isLocal (rule.epochSecond year) rule.offsetBefore rule.offsetAfter + 86400 ≤
        yearStart (year + 1)
  meets : ∀ rule0 rule1, z.transitionRules = [rule0, rule1] → ∀ last ∈ z.transitions.getLast?, ∀ j,
    last.epochSecond < (yearly false rule0 rule1 j).1 ↔
      last.epochSecond + max last.offsetBefore last.offsetAfter < (yearly true rule0 rule1 j).1
  continues : ∀ rule0 rule1, z.transitionRules = [rule0, rule1] →
    ∀ last ∈ z.transitions.getLast?, ∀ j, (yearly false rule0 rule1 j).1 ≤ last.epochSecond →
      last.epochSecond < (yearly false rule0 rule1 (j + 1)).1 →
      (yearly false rule0 rule1 j).2 = last.offsetAfter

end ZoneRules

/-! ### Yearly transitions of the source -/

/-- A rule as the source decodes it. -/
def transitionRule (rule : ZoneOffsetTransitionRule) : TransitionRule :=
  ⟨rule.month, rule.dayOfMonthIndicator, rule.dayOfWeek.elim (-1) (· - 1),
    timeDiffComparedToMidnight rule, rule.offsetBefore, rule.offsetAfter⟩

theorem createDstRules_eq (rule0 rule1 : ZoneOffsetTransitionRule) :
    createDstRules ([rule0, rule1].flatMap dstIntegers) =
      (transitionRule rule0, transitionRule rule1) := rfl

/-- The days that the weekdays are counted from. -/
theorem number_ge {year : Int} (hyear : -5877600 ≤ year) (month day : Nat) (hday : 1 ≤ day) :
    -2147483656 ≤ gregorian.number ⟨year, month, day⟩ := by
  have hmarch : year - 1 ≤ (⟨year, month, day⟩ : Date).marchYear := by
    unfold Date.marchYear
    dsimp only
    split_ifs <;> omega
  have hstart := yearStart_mono (c := gregorian) hmarch
  have heq : gregorian.yearStart (year - 1) =
    365 * (year - 1) + ((year - 1) / 4 - (year - 1) / 100 + (year - 1) / 400) + -719468 := rfl
  unfold number
  dsimp only
  omega

/-- The transition of a year is the one of the rule. -/
theorem createTransitionInfo_eq {rule : ZoneOffsetTransitionRule} (h : rule.Valid) {year : Int}
    (hyear : -5877600 ≤ year) : createTransitionInfo year (transitionRule rule) =
      ⟨rule.epochSecond year, rule.offsetBefore, rule.offsetAfter⟩ := by
  obtain ⟨⟨hmonth, -⟩, ⟨hlow, -⟩, hne, hdow, -⟩ := h
  have hmonth' : rule.month = (rule.month.toNat : Int) := (Int.toNat_of_nonneg (by omega)).symm
  have hdays : (createTransitionInfo year (transitionRule rule)).utcSeconds =
      rule.day year * 86400 + timeDiffComparedToMidnight rule - rule.offsetBefore := by
    unfold createTransitionInfo transitionRule ZoneOffsetTransitionRule.day
    dsimp only
    congr 3
    -- a negative day counts from the end of the month
    by_cases hneg : rule.dayOfMonthIndicator < 0
    · have hlen : daysInMonth year rule.month =
          gregorian.monthLength year rule.month.toNat := by
        rw [hmonth', daysInMonth_eq, Int.toNat_natCast]
      have hlong : 28 ≤ gregorian.monthLength year rule.month.toNat := by
        unfold monthLength
        split_ifs <;> decide
      obtain ⟨dom, hdom⟩ : ∃ dom : Nat, (gregorian.monthLength year rule.month.toNat : Int) + 1 +
          rule.dayOfMonthIndicator = dom := ⟨_, (Int.toNat_of_nonneg (by omega)).symm⟩
      have hge := number_ge hyear rule.month.toNat dom (by omega)
      rw [if_neg (by omega), if_pos hneg, hlen, hdom, Int.toNat_natCast, hmonth',
        toEpochDay_eq, Int.toNat_natCast]
      cases hw : rule.dayOfWeek with
      | none => rfl
      | some w =>
        have hrange := hdow w hw
        have hweek : 0 ≤ w - 1 ∧ w - 1 < 7 := by omega
        exact (if_pos hweek.1).trans (previousOrSameWeekday_eq hge hweek)
    · obtain ⟨dom, hdom⟩ : ∃ dom : Nat, rule.dayOfMonthIndicator = dom :=
        ⟨_, (Int.toNat_of_nonneg (by omega)).symm⟩
      have hge := number_ge hyear rule.month.toNat dom (by omega)
      rw [if_pos (by omega), if_neg hneg, hdom, Int.toNat_natCast, hmonth', toEpochDay_eq,
        Int.toNat_natCast]
      cases hw : rule.dayOfWeek with
      | none => rfl
      | some w =>
        have hrange := hdow w hw
        have hweek : 0 ≤ w - 1 ∧ w - 1 < 7 := by omega
        exact (if_pos hweek.1).trans (nextOrSameWeekday_eq hge hweek)
  have hinfo : createTransitionInfo year (transitionRule rule) =
    ⟨(createTransitionInfo year (transitionRule rule)).utcSeconds, rule.offsetBefore,
      rule.offsetAfter⟩ := rfl
  rw [hinfo, hdays, ZoneOffsetTransitionRule.epochSecond, Int.mul_comm]

/-! ### Years of seconds -/

theorem yearStart_le_iff {year day : Int} :
    gregorian.number ⟨year, 1, 1⟩ ≤ day ↔ year ≤ (gregorianDate day).year := by
  obtain ⟨hvalid, hnumber⟩ := gregorianDate_spec day
  have hfirst : gregorian.Valid ⟨year, 1, 1⟩ :=
    ⟨le_rfl, (by decide : 1 ≤ 12), le_rfl, (by decide : 1 ≤ 31)⟩
  rw [← hnumber, number_le_iff hfirst hvalid, hnumber, ← not_lt, Date.lt_iff]
  have hmonth := hvalid.one_le_month
  have hday := hvalid.one_le_day
  dsimp only
  omega

/-- The year of a second is the one between whose starts it is. -/
theorem getYear_spec {seconds : Int} (h : -185000000000000 ≤ seconds ∧ seconds ≤ 185000000000000) :
    yearStart (getYear seconds) ≤ seconds ∧ seconds < yearStart (getYear seconds + 1) ∧
      -5877500 ≤ getYear seconds := by
  have hwrap : (seconds / 86400).bmod (2 ^ 32) = seconds / 86400 := by
    rw [Int.bmod_eq_of_le] <;> omega
  have hyear : getYear seconds = (gregorianDate (seconds / 86400)).year := by
    unfold getYear
    dsimp only
    rw [floorDiv_eq (by decide), hwrap, toDate_eq]
  have hstart := (@yearStart_le_iff _ (seconds / 86400)).2 hyear.le
  have hend := mt (@yearStart_le_iff (getYear seconds + 1) (seconds / 86400)).1
    (by omega)
  have hlow : gregorian.number ⟨-5877500, 1, 1⟩ ≤ seconds / 86400 := by
    have heq : gregorian.number ⟨-5877500, 1, 1⟩ = -2147432321 := by decide +kernel
    omega
  rw [yearStart_le_iff, ← hyear] at hlow
  unfold yearStart
  exact ⟨by omega, by omega, hlow⟩

end SparkRapids.TimeZone
