import SparkRapidsJni.TimeZone.DateTimeUtils

/-!
# Conversion between time zones

`loadData` encodes the rules of a time zone of Java as a list of transitions and up to two rules for the
years behind them, and `convert_timestamp` looks up the offset for a timestamp. An `int64_t` is an
integer here; only the timestamp that is returned is cut down to 64 bits.
-/

namespace SparkRapids.TimeZone

open DateTimeUtils

/-! ### Time zones of Java -/

/-- `ZoneOffsetTransition` -/
structure ZoneOffsetTransition where
  epochSecond : Int
  offsetBefore : Int
  offsetAfter : Int

def ZoneOffsetTransition.isGap (t : ZoneOffsetTransition) : Bool := t.offsetAfter > t.offsetBefore

/-- `ZoneOffsetTransitionRule.TimeDefinition` -/
inductive TimeDefinition
  | utc
  | wall
  | standard
  deriving DecidableEq, Repr

/-- `ZoneOffsetTransitionRule` -/
structure ZoneOffsetTransitionRule where
  month : Int
  dayOfMonthIndicator : Int
  /-- from 1 (Monday) to 7 (Sunday) -/
  dayOfWeek : Option Int
  /-- the second of the day -/
  localTime : Int
  isMidnightEndOfDay : Bool
  timeDefinition : TimeDefinition
  standardOffset : Int
  offsetBefore : Int
  offsetAfter : Int

/-- `ZoneRules` -/
structure ZoneRules where
  isFixedOffset : Bool
  /-- the offset now -/
  offset : Int
  transitions : List ZoneOffsetTransition
  transitionRules : List ZoneOffsetTransitionRule

/-! ### Encoding -/

/-- A row of the table of transitions. -/
structure FixedTransition where
  utcInstant : Int
  tzInstant : Int
  utcOffset : Int
  deriving DecidableEq, Repr

/-- The transitions and the integers of the rules of a time zone. -/
structure ZoneTable where
  fixedTransitions : List FixedTransition
  dstRules : List Int
  deriving DecidableEq, Repr

/-- `Long.MIN_VALUE` -/
def longMin : Int := -9223372036854775808

/-- `getTransitionRuleTimeDiffComparedToMidnight` -/
def timeDiffComparedToMidnight (rule : ZoneOffsetTransitionRule) : Int :=
  match rule.timeDefinition with
  | .utc => rule.localTime + rule.offsetBefore
  | .standard => rule.localTime + rule.offsetBefore - rule.standardOffset
  | .wall => rule.localTime

/-- The row of a transition. -/
def fixedTransition (t : ZoneOffsetTransition) : FixedTransition :=
  if t.isGap then ⟨t.epochSecond, t.epochSecond + t.offsetAfter, t.offsetAfter⟩
  else ⟨t.epochSecond, t.epochSecond + t.offsetBefore, t.offsetAfter⟩

/-- The integers of a rule. -/
def dstIntegers (rule : ZoneOffsetTransitionRule) : List Int :=
  [rule.month, rule.dayOfMonthIndicator, rule.dayOfWeek.elim (-1) (· - 1),
    timeDiffComparedToMidnight rule, rule.offsetBefore, rule.offsetAfter]

/-- `loadData`, for the rules of one zone -/
def loadData (zoneRules : ZoneRules) : Except String ZoneTable :=
  let transitions := zoneRules.transitions.mergeSort fun a b => a.epochSecond ≤ b.epochSecond
  if zoneRules.isFixedOffset then .ok ⟨[⟨longMin, longMin, zoneRules.offset⟩], []⟩
  else
    match transitions with
    | [] => .error "IndexOutOfBoundsException"
    | first :: _ =>
      -- the first offset, before any transition
      let data := ⟨longMin, longMin, first.offsetBefore⟩ :: transitions.map fixedTransition
      let rules := zoneRules.transitionRules
      if rules ≠ [] ∧ rules.length ≠ 2 then .error "DST rules size is not 2."
      else if rules.any (·.isMidnightEndOfDay) then
        .error "Unsupported midnight end of day for DST rules."
      else .ok ⟨data, rules.flatMap dstIntegers⟩

/-! ### Yearly transitions -/

/-- `transition_rule` -/
structure TransitionRule where
  month : Int
  dom : Int
  dow : Int
  timeDiffComparedToMidnight : Int
  offsetBefore : Int
  offsetAfter : Int

/-- `transition_info` -/
structure TransitionInfo where
  utcSeconds : Int
  offsetBefore : Int
  offsetAfter : Int

/-- `transition_info::is_gap` -/
def TransitionInfo.isGap (info : TransitionInfo) : Bool := info.offsetAfter > info.offsetBefore

/-- `create_transition_info` -/
def createTransitionInfo (year : Int) (rule : TransitionRule) : TransitionInfo :=
  let days :=
    if rule.dom > 0 then
      let days := toEpochDay year rule.month rule.dom
      if rule.dow ≥ 0 then nextOrSameWeekday days rule.dow else days
    else
      -- from the last day of the month on
      let dayOfMonth := daysInMonth year rule.month + 1 + rule.dom
      let days := toEpochDay year rule.month dayOfMonth
      if rule.dow ≥ 0 then previousOrSameWeekday days rule.dow else days
  let localSeconds := days * 86400 + rule.timeDiffComparedToMidnight
  ⟨localSeconds - rule.offsetBefore, rule.offsetBefore, rule.offsetAfter⟩

/-- `get_offset_for_utc_time` -/
def getOffsetForUtcTime (seconds : Int) (startRule endRule : TransitionRule) : Int :=
  let year := getYear seconds
  let info0 := createTransitionInfo year startRule
  let info1 := createTransitionInfo year endRule
  if seconds < info0.utcSeconds then info0.offsetBefore
  else if seconds ≥ info0.utcSeconds ∧ seconds < info1.utcSeconds then info0.offsetAfter
  else info1.offsetAfter

/-- `get_offset_for_local_time` -/
def getOffsetForLocalTime (seconds : Int) (startRule endRule : TransitionRule) : Int :=
  let year := getYear seconds
  let info0 := createTransitionInfo year startRule
  let info1 := createTransitionInfo year endRule
  if info0.isGap then
    -- the first rule is a gap, the second one an overlap
    if seconds < info0.utcSeconds + info0.offsetAfter then info0.offsetBefore
    else if seconds ≥ info0.utcSeconds + info0.offsetAfter ∧
        seconds < info1.utcSeconds + info1.offsetBefore then info0.offsetAfter
    else info1.offsetAfter
  else
    -- the first rule is an overlap, the second one a gap
    if seconds < info0.utcSeconds + info0.offsetBefore then info0.offsetBefore
    else if seconds ≥ info0.utcSeconds + info0.offsetBefore ∧
        seconds < info1.utcSeconds + info1.offsetAfter then info0.offsetAfter
    else info1.offsetAfter

/-- `create_dst_rules` -/
def createDstRules (ldv : List Int) : TransitionRule × TransitionRule :=
  let element i := ldv.getD i 0
  (⟨element 0, element 1, element 2, element 3, element 4, element 5⟩,
    ⟨element 6, element 7, element 8, element 9, element 10, element 11⟩)

/-! ### Conversion -/

/-- The type of a timestamp. -/
inductive TimeUnit
  | seconds
  | milliseconds
  | microseconds
  | nanoseconds
  deriving DecidableEq, Repr

def TimeUnit.perSecond : TimeUnit → Int
  | seconds => 1
  | milliseconds => 1000
  | microseconds => 1000000
  | nanoseconds => 1000000000

/-- A number of an `int64_t`. -/
def wrap64 (x : Int) : Int := x.bmod (2 ^ 64)

/-- `thrust::upper_bound`, of times that do not decrease -/
def upperBound (times : List Int) (x : Int) : Nat := (times.takeWhile (· ≤ x)).length

/-- The offset of a timestamp, by the rules or by the transitions. -/
def lookUpOffset (epochSeconds : Int) (zone : ZoneTable) (toUtc : Bool) : Option Int := do
  let transitionTimes := zone.fixedTransitions.map fun t => if toUtc then t.tzInstant else t.utcInstant
  let lastTransitionValue ← transitionTimes[transitionTimes.length - 1]?
  if zone.dstRules.length > 0 ∧ epochSeconds > lastTransitionValue then
    let (rule1, rule2) := createDstRules zone.dstRules
    -- search in local time, or in UTC time
    return if toUtc then getOffsetForLocalTime epochSeconds rule1 rule2
      else getOffsetForUtcTime epochSeconds rule1 rule2
  else
    let idx := upperBound transitionTimes epochSeconds
    if idx = 0 then none
    else
      let t ← zone.fixedTransitions[idx - 1]?
      return t.utcOffset

/-- `convert_timestamp`; `none` where it reads outside of the transitions -/
def convertTimestamp (unit : TimeUnit) (timestamp : Int) (zone : ZoneTable) (toUtc : Bool) :
    Option Int := do
  -- `duration_cast` truncates
  let epochSeconds := timestamp.tdiv unit.perSecond
  let offset ← lookUpOffset epochSeconds zone toUtc
  let offset := offset * unit.perSecond
  return wrap64 (if toUtc then timestamp - offset else timestamp + offset)

end SparkRapids.TimeZone
