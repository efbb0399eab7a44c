import SparkRapidsJni.TimeZone.InForce

/-!
# To local time and back

Where the local time of an instant is repeated by an overlap, the conversion to UTC takes the earlier of
the two instants. So every instant comes back but those in the later pass of an overlap
(`latest_local`).
-/

namespace SparkRapids.TimeZone

open Calendar DateTimeUtils

/-! ### Passes of an overlap -/

namespace ZoneRules

/-- The transition in force has its overlap still running: the local time was there before. -/
def InLaterPass (z : ZoneRules) (s : Int) : Prop :=
  ∃ p x x', (z.timeline false).Latest s p x ∧ (z.timeline true).At p x' ∧ s + x.2 < x'.1

/-- A transition is ahead whose overlap has the local time again. -/
def InEarlierPass (z : ZoneRules) (s : Int) : Prop :=
  ∃ p x q y, (z.timeline false).Latest s p x ∧ (z.timeline false).At q y ∧ s < y.1 ∧
    y.1 + y.2 ≤ s + x.2

end ZoneRules

section Local

variable {z : ZoneRules} {rule0 rule1 : ZoneOffsetTransitionRule} {s : Int} {k : Nat} {j : Int}
  {p : Timeline.Place} {x x' y : Int × Int} {last : ZoneOffsetTransition}

/-- A transition of the list but the first one. -/
theorem ZoneRules.timeline_succ (isLocal : Bool)
    (hy : (z.timeline isLocal).fixed[k + 1]? = some y) :
    z.isFixedOffset = false ∧ ∃ t, z.transitions[k]? = some t ∧ t.entry isLocal = y := by
  cases hfixed : z.isFixedOffset with
  | true => simp [timeline, hfixed] at hy
  | false =>
    simp only [timeline, hfixed, Bool.false_eq_true, if_false, List.getElem?_cons_succ,
      List.getElem?_map, Option.map_eq_some_iff] at hy
    exact ⟨rfl, hy⟩

theorem ZoneRules.timeline_at {t : ZoneOffsetTransition} (hfixed : z.isFixedOffset = false)
    (ht : z.transitions[k]? = some t) (isLocal : Bool) :
    (z.timeline isLocal).At (.fixed (k + 1)) (t.entry isLocal) := by
  show (z.timeline isLocal).fixed[k + 1]? = some (t.entry isLocal)
  simp only [timeline, hfixed, Bool.false_eq_true, if_false, List.getElem?_cons_succ,
    List.getElem?_map, ht]
  rfl

/-- The offset before a transition is the one of the transition before. -/
theorem ZoneRules.Valid.chain_fixed (hz : z.Valid) {t : ZoneOffsetTransition}
    (hx : (z.timeline false).fixed[k]? = some x) (hfixed : z.isFixedOffset = false)
    (ht : z.transitions[k]? = some t) : t.offsetBefore = x.2 := by
  cases k with
  | zero =>
    simp only [timeline, hfixed, Bool.false_eq_true, if_false, List.getElem?_cons_zero,
      Option.some.injEq] at hx
    rw [← hx, List.head?_eq_getElem?, ht]
    rfl
  | succ k =>
    obtain ⟨-, t', ht', rfl⟩ := timeline_succ false hx
    obtain ⟨hlt, rfl⟩ := List.getElem?_eq_some_iff.1 ht
    obtain ⟨hlt', rfl⟩ := List.getElem?_eq_some_iff.1 ht'
    exact List.isChain_iff_getElem.1 hz.chain k hlt

/-- The same transition in local time. -/
theorem ZoneRules.Valid.exists_local (hz : z.Valid) (hx : (z.timeline false).At p x) :
    ∃ x', (z.timeline true).At p x' ∧ x'.2 = x.2 := by
  cases p with
  | fixed k =>
    cases k with
    | zero =>
      have hfirst : (z.timeline true).fixed[0]? = (z.timeline false).fixed[0]? := by
        unfold timeline
        split_ifs <;> rfl
      exact ⟨x, hfirst.trans hx, rfl⟩
    | succ k =>
      obtain ⟨hfixed, t, ht, rfl⟩ := timeline_succ false hx
      exact ⟨t.entry true, timeline_at hfixed ht true, rfl⟩
  | periodic j =>
    obtain ⟨f, hf, rfl, hbefore⟩ := hx
    obtain ⟨hfixed, rule0, rule1, hr, rfl⟩ := periodic_eq_some hf
    refine ⟨yearly true rule0 rule1 j, ⟨_, timeline_periodic hfixed hr true, rfl, ?_⟩, rfl⟩
    obtain ⟨last, hlast⟩ := hz.exists_last hfixed
    intro last' hlast'
    obtain rfl := Option.mem_unique hlast' (timeline_getLast hfixed hlast true)
    exact (hz.le_last_iff hr hlast true j).2 (hbefore _ (timeline_getLast hfixed hlast false))

/-- The yearly transition in force in UTC is not followed by one in local time before it ends. -/
theorem ZoneRules.Valid.lt_yearly_local (hz : z.Valid) (hr : z.transitionRules = [rule0, rule1])
    (hnext : s < (yearly false rule0 rule1 (j + 1)).1) {j' : Int} (hj' : j < j') :
    s + (yearly false rule0 rule1 j).2 < (yearly true rule0 rule1 j').1 := by
  have hle : (yearly true rule0 rule1 (j + 1)).1 ≤ (yearly true rule0 rule1 j').1 :=
    (hz.yearly_strictMono hr true).monotone (Int.add_one_le_iff.2 hj')
  have hlocal := hz.yearly_local hr j
  have hmax := le_max_left (yearly false rule0 rule1 j).2 (yearly false rule0 rule1 (j + 1)).2
  omega

/-- Behind the list, the transition in force has the offset of a yearly one. -/
theorem ZoneRules.Valid.latest_last (hz : z.Valid) (hfixed : z.isFixedOffset = false)
    (hr : z.transitionRules = [rule0, rule1]) (hlast : last ∈ z.transitions.getLast?)
    (h : (z.timeline false).Latest s p (last.entry false)) :
    ∃ j, (yearly false rule0 rule1 j).1 ≤ s ∧ s < (yearly false rule0 rule1 (j + 1)).1 ∧
      (yearly false rule0 rule1 j).2 = last.offsetAfter := by
  obtain ⟨year, hstart, hend⟩ := exists_year s
  obtain ⟨j, hle, hnext, -⟩ := hz.exists_yearly hr false hstart hend
  have hlastLe : last.epochSecond ≤ s := h.le
  refine ⟨j, hle, hnext, hz.continues rule0 rule1 hr last hlast j (not_lt.1 fun hlt => ?_)
    (hlastLe.trans_lt hnext)⟩
  -- a yearly transition behind the list would be in force
  have hat : (z.timeline false).At (.periodic j) (yearly false rule0 rule1 j) := by
    refine ⟨_, timeline_periodic hfixed hr false, rfl, fun last' hlast' => ?_⟩
    obtain rfl := Option.mem_unique hlast' (timeline_getLast hfixed hlast false)
    exact hlt
  cases p with
  | fixed k => exact absurd hle (not_le.2 (h.next (.periodic j) _ trivial hat))
  | periodic j' =>
    obtain ⟨f, hf, -, hbefore⟩ := h.isAt
    exact absurd (hbefore _ (timeline_getLast hfixed hlast false)) (lt_irrefl _)

/-- The transition in force in local time is the one of the instant, unless its overlap is running. -/
theorem ZoneRules.Valid.latest_local (hz : z.Valid) (h : (z.timeline false).Latest s p x)
    (hat : (z.timeline true).At p x') (hle : x'.1 ≤ s + x.2) :
    (z.timeline true).Latest (s + x.2) p x' := by
  cases p with
  | periodic j =>
    obtain ⟨f, hf, rfl, hbefore⟩ := h.isAt
    obtain ⟨hfixed, rule0, rule1, hr, rfl⟩ := periodic_eq_some hf
    have hnext : s < (yearly false rule0 rule1 (j + 1)).1 :=
      h.next (.periodic (j + 1)) _ (Int.lt_succ j) ⟨_, hf, rfl, fun last hlast =>
        (hbefore last hlast).trans (hz.yearly_lt_succ hr j)⟩
    refine ⟨hat, hle, fun p' y hp' hy => ?_⟩
    cases p' with
    | fixed k => exact absurd hp' not_false
    | periodic j' =>
      obtain ⟨f', hf', rfl, -⟩ := hy
      obtain rfl := Option.some.inj ((timeline_periodic hfixed hr true).symm.trans hf')
      exact hz.lt_yearly_local hr hnext hp'
  | fixed k =>
    have hnext : ∀ y, (z.timeline true).fixed[k + 1]? = some y → s + x.2 < y.1 := by
      intro y hy
      obtain ⟨hfixed, t, ht, rfl⟩ := timeline_succ true hy
      have hchain := hz.chain_fixed h.isAt hfixed ht
      have hlt : s < t.epochSecond :=
        h.next (.fixed (k + 1)) _ (Nat.lt_succ_self k) (timeline_at hfixed ht false)
      show s + x.2 < t.epochSecond + max t.offsetBefore t.offsetAfter
      have hmax := le_max_left t.offsetBefore t.offsetAfter
      omega
    refine (hz.timeline_valid true).latest_fixed hat hle hnext fun j y hy => ?_
    obtain ⟨f, hf, rfl, hbefore⟩ := hy
    obtain ⟨hfixed, rule0, rule1, hr, rfl⟩ := periodic_eq_some hf
    obtain ⟨last, hlast⟩ := hz.exists_last hfixed
    have hlastLocal := timeline_getLast hfixed hlast true
    by_cases hk : k + 1 < (z.timeline true).fixed.length
    · have hsucc := List.getElem?_eq_getElem hk
      calc s + x.2 < _ := hnext _ hsucc
        _ ≤ (last.entry true).1 := (hz.timeline_valid true).le_last hsucc hlastLocal
        _ < _ := hbefore _ hlastLocal
    · -- the last one of the list
      have hlen : (z.timeline true).fixed.length = (z.timeline false).fixed.length := by
        simp [timeline, hfixed]
      have hget : (z.timeline false).fixed[k]? = some x := h.isAt
      have hlt := (List.getElem?_eq_some_iff.1 hget).1
      have hlastUtc := timeline_getLast hfixed hlast false
      rw [List.getLast?_eq_getElem?, show (z.timeline false).fixed.length - 1 = k by omega] at hlastUtc
      obtain rfl := Option.mem_unique hget hlastUtc
      obtain ⟨j0, hle0, hnext0, hoffset⟩ := hz.latest_last hfixed hr hlast h
      have hlt' : s < (yearly false rule0 rule1 j).1 := by
        refine h.next (.periodic j) _ trivial ⟨_, timeline_periodic hfixed hr false, rfl, ?_⟩
        intro last' hlast'
        obtain rfl := Option.mem_unique hlast' (timeline_getLast hfixed hlast false)
        exact (hz.le_last_iff hr hlast true j).1 (hbefore _ hlastLocal)
      have hj : j0 < j := (hz.yearly_strictMono hr false).lt_iff_lt.1 (hle0.trans_lt hlt')
      have hbehind := hz.lt_yearly_local hr hnext0 hj
      rwa [hoffset] at hbehind

end Local

/-! ### Timestamps -/

section Convert

variable {z : ZoneRules} {table : ZoneTable} {unit : TimeUnit} {ts : Int} {toUtc : Bool}

/-- `Long.MAX_VALUE` -/
def longMax : Int := 9223372036854775807

/-- The timestamps whose second is not cut to the one of a transition behind it, and whose year is found. -/
structure ZoneRules.Exact (z : ZoneRules) (unit : TimeUnit) (ts : Int) (toUtc : Bool) : Prop where
  range : longMin ≤ ts ∧ ts ≤ longMax
  cut : 0 ≤ ts ∨ unit.perSecond ∣ ts ∨
    ∀ p x, (z.timeline toUtc).At p x → x.1 ≠ ts / unit.perSecond + 1
  year : z.transitionRules ≠ [] → -185000000000000 * unit.perSecond ≤ ts ∧
    ts ≤ 185000000000000 * unit.perSecond

theorem TimeUnit.perSecond_pos (unit : TimeUnit) : 0 < unit.perSecond := by cases unit <;> decide

/-- `duration_cast` goes up to the next second below zero. -/
theorem tdiv_perSecond (unit : TimeUnit) (ts : Int) :
    ts.tdiv unit.perSecond = ts / unit.perSecond ∨
      ¬(0 ≤ ts ∨ unit.perSecond ∣ ts) ∧
        ts.tdiv unit.perSecond = ts / unit.perSecond + 1 := by
  have hpos := unit.perSecond_pos
  rw [Int.tdiv_eq_ediv, Int.sign_eq_one_of_pos hpos]
  split_ifs with h
  · exact .inl (Int.add_zero _)
  · exact .inr ⟨h, rfl⟩

theorem wrap64_of_range (h : longMin ≤ ts ∧ ts ≤ longMax) :
    wrap64 ts = ts := by
  obtain ⟨hlow, hhigh⟩ := h
  unfold longMin at hlow
  unfold longMax at hhigh
  unfold wrap64
  rw [Int.bmod_eq_of_le] <;> omega

/-- The offset of the latest transition is added or subtracted. -/
theorem ZoneRules.Valid.convertTimestamp_spec (hz : z.Valid) (htable : loadData z = .ok table)
    (h : z.Exact unit ts toUtc) :
    ∃ p x, (z.timeline toUtc).Latest (ts / unit.perSecond) p x ∧
      convertTimestamp unit ts table toUtc = some (wrap64 (if toUtc then
        ts - x.2 * unit.perSecond else ts + x.2 * unit.perSecond)) := by
  have hpos := unit.perSecond_pos
  have hbetween : longMin ≤ ts.tdiv unit.perSecond := by
    refine Int.le_tdiv_of_mul_le hpos ?_
    calc longMin * unit.perSecond ≤ longMin * 1 :=
          mul_le_mul_of_nonpos_left hpos (show longMin ≤ 0 by decide)
      _ ≤ ts := by rw [mul_one]; exact h.range.1
  have hyear : z.transitionRules ≠ [] → -185000000000000 ≤ ts.tdiv unit.perSecond ∧
      ts.tdiv unit.perSecond ≤ 185000000000000 := by
    intro hr
    obtain ⟨hlow, hhigh⟩ := h.year hr
    refine ⟨Int.le_tdiv_of_mul_le hpos hlow, ?_⟩
    calc ts.tdiv unit.perSecond ≤ (185000000000000 * unit.perSecond).tdiv unit.perSecond :=
          Int.tdiv_le_tdiv hpos hhigh
      _ = 185000000000000 := Int.mul_tdiv_cancel _ hpos.ne'
  obtain ⟨p, x, hlatest, hlook⟩ := hz.lookUpOffset_spec toUtc htable hbetween hyear
  refine ⟨p, x, ?_, ?_⟩
  · rcases tdiv_perSecond unit ts with heq | ⟨hnot, heq⟩
    · rwa [heq] at hlatest
    · have hcut := (or_assoc.2 h.cut).resolve_left hnot
      rw [heq] at hlatest
      simpa using hlatest.pred hcut
  · simp only [convertTimestamp, hlook, Option.bind_eq_bind, Option.bind_some]
    rfl

/-- The offset of the instant is the one of its local time, unless the local time was there before. -/
theorem ZoneRules.Valid.convertTimestamp_back (hz : z.Valid) (htable : loadData z = .ok table)
    {p : Timeline.Place} {x : Int × Int}
    (hlatest : (z.timeline false).Latest (ts / unit.perSecond) p x)
    (h : z.Exact unit ts false)
    (hlocal : z.Exact unit (ts + x.2 * unit.perSecond) true)
    (hpass : ¬z.InLaterPass (ts / unit.perSecond)) :
    convertTimestamp unit ts table false = some (ts + x.2 * unit.perSecond) ∧
      convertTimestamp unit (ts + x.2 * unit.perSecond) table true = some ts := by
  obtain ⟨x', hat, hx⟩ := hz.exists_local hlatest.isAt
  have hle : x'.1 ≤ ts / unit.perSecond + x.2 :=
    not_lt.1 fun hlt => hpass ⟨p, x, x', hlatest, hat, hlt⟩
  have hlatest' := hz.latest_local hlatest hat hle
  obtain ⟨q, y, hy, hconvert⟩ := hz.convertTimestamp_spec htable h
  obtain ⟨q', y', hy', hconvert'⟩ := hz.convertTimestamp_spec htable hlocal
  rw [Int.add_mul_ediv_right _ _ unit.perSecond_pos.ne'] at hy'
  obtain rfl := hlatest.unique hy
  obtain rfl := hlatest'.unique hy'
  refine ⟨?_, ?_⟩
  · rw [hconvert, if_neg Bool.false_ne_true, wrap64_of_range hlocal.range]
  · rw [hconvert', if_pos rfl, hx, Int.add_sub_cancel, wrap64_of_range h.range]

/-- **Conversion between time zones.** The offset in force at the instant is added, and the one of the
latest transition whose gap or overlap has ended is subtracted. What is converted to local time comes back
but in the later pass of an overlap. -/
theorem convertTimestamp_inForce {z : ZoneRules} (hz : z.Valid) :
    ∃ table, loadData z = .ok table ∧
      (∀ unit ts toUtc, z.Exact unit ts toUtc →
        ∃ p x, (z.timeline toUtc).Latest (ts / unit.perSecond) p x ∧
          convertTimestamp unit ts table toUtc = some (wrap64 (if toUtc then
            ts - x.2 * unit.perSecond else ts + x.2 * unit.perSecond))) ∧
      ∀ unit ts p x, (z.timeline false).Latest (ts / unit.perSecond) p x →
        z.Exact unit ts false → z.Exact unit (ts + x.2 * unit.perSecond) true →
        ¬z.InLaterPass (ts / unit.perSecond) →
          convertTimestamp unit ts table false = some (ts + x.2 * unit.perSecond) ∧
            convertTimestamp unit (ts + x.2 * unit.perSecond) table true = some ts := by
  obtain ⟨table, htable, -⟩ := hz.loadData_spec
  refine ⟨table, htable, fun unit ts toUtc h => hz.convertTimestamp_spec htable h, ?_⟩
  intro unit ts p x hlatest h hlocal hpass
  exact hz.convertTimestamp_back htable hlatest h hlocal hpass

end Convert

/-! ### Zones -/

/-- The second Sunday of March at two, and the first one of November. -/
def newYorkRules : ZoneOffsetTransitionRule × ZoneOffsetTransitionRule :=
  (⟨3, 8, some 7, 7200, false, .wall, -18000, -18000, -14400⟩,
    ⟨11, 1, some 7, 7200, false, .wall, -18000, -14400, -18000⟩)

/-- New York, from 2007 on. -/
def newYork : ZoneRules where
  isFixedOffset := false
  offset := -18000
  transitions := [⟨1173596400, -18000, -14400⟩, ⟨1194156000, -14400, -18000⟩]
  transitionRules := [newYorkRules.1, newYorkRules.2]

/-- The years of the calendar start in March. -/
theorem yearStart_eq (year : Int) :
    yearStart year = 86400 * (gregorian.yearStart (year - 1) + 306) := by
  have hnumber : gregorian.number ⟨year, 1, 1⟩ = gregorian.yearStart (year - 1) + 306 := by
    simp [number, Date.marchYear, Date.marchMonth, monthStart]
  rw [yearStart, hnumber]

theorem yearStart_mono {year year' : Int} (h : year ≤ year') : yearStart year ≤ yearStart year' := by
  have hmono := Calendar.yearStart_mono (c := gregorian) (Int.sub_le_sub_right h 1)
  rw [yearStart_eq, yearStart_eq]
  omega

/-- The transitions of a year are in March and in November. -/
theorem newYorkRules_bounds (year : Int) :
    yearStart year + 86400 * 65 ≤ newYorkRules.1.epochSecond year ∧
      newYorkRules.1.epochSecond year ≤ yearStart year + 86400 * 75 ∧
      yearStart year + 86400 * 303 ≤ newYorkRules.2.epochSecond year ∧
      newYorkRules.2.epochSecond year + 86400 * 50 ≤ yearStart (year + 1) := by
  have hmarch := nextOrSame_bounds (gregorian.number ⟨year, 3, 8⟩) 6
  have hnovember := nextOrSame_bounds (gregorian.number ⟨year, 11, 1⟩) 6
  have heq0 : newYorkRules.1.epochSecond year =
    86400 * nextOrSame (gregorian.number ⟨year, 3, 8⟩) 6 + 7200 - -18000 := rfl
  have heq1 : newYorkRules.2.epochSecond year =
    86400 * nextOrSame (gregorian.number ⟨year, 11, 1⟩) 6 + 7200 - -14400 := rfl
  have hnumber0 : gregorian.number ⟨year, 3, 8⟩ = gregorian.yearStart year + 8 - 1 := by
    simp [number, Date.marchYear, Date.marchMonth, monthStart]
  have hnumber1 : gregorian.number ⟨year, 11, 1⟩ = gregorian.yearStart year + 245 := by
    simp [number, Date.marchYear, Date.marchMonth, monthStart]
  have hsucc := gregorian.yearStart_succ (year - 1)
  have hle := gregorian.le_succ (year - 1)
  have hsucc_le := gregorian.succ_le (year - 1)
  rw [Int.sub_add_cancel] at hsucc hle hsucc_le
  rw [yearStart_eq, yearStart_eq, Int.add_sub_cancel]
  omega

theorem newYork_rules {rule0 rule1 : ZoneOffsetTransitionRule}
    (h : newYork.transitionRules = [rule0, rule1]) :
    rule0 = newYorkRules.1 ∧ rule1 = newYorkRules.2 := by
  obtain ⟨h0, h⟩ := List.cons.inj h
  exact ⟨h0.symm, (List.cons.inj h).1.symm⟩

theorem newYork_last {last : ZoneOffsetTransition} (h : last ∈ newYork.transitions.getLast?) :
    last = ⟨1194156000, -14400, -18000⟩ := (Option.some.inj h).symm

/-- In local time, the transitions of New York are four hours earlier. -/
theorem newYork_yearly (j : Int) : (yearly true newYorkRules.1 newYorkRules.2 j).1 =
    (yearly false newYorkRules.1 newYorkRules.2 j).1 + -14400 := by
  unfold yearly
  dsimp only
  split_ifs <;> rfl

theorem newYork_valid : newYork.Valid where
  transitions_ne _ := by decide
  range := by decide
  sorted := by decide
  chain := by decide
  rules_length := .inr rfl
  rule rule hrule := by
    rcases List.mem_pair.1 hrule with rfl | rfl
    · exact ⟨by decide, by decide, by decide, by decide, rfl⟩
    · exact ⟨by decide, by decide, by decide, by decide, rfl⟩
  rules_chain rule0 rule1 h := by
    obtain ⟨rfl, rfl⟩ := newYork_rules h
    exact ⟨rfl, rfl⟩
  rules_order rule0 rule1 h year := by
    obtain ⟨rfl, rfl⟩ := newYork_rules h
    have hbounds := newYorkRules_bounds year
    omega
  inYear rule hrule year isLocal := by
    have hbounds := newYorkRules_bounds year
    have hlocal : ∀ second, transitionTime isLocal second rule.offsetBefore rule.offsetAfter =
        second ∨ transitionTime isLocal second rule.offsetBefore rule.offsetAfter = second + -14400 := by
      intro second
      cases isLocal with
      | false => exact .inl rfl
      | true => rcases List.mem_pair.1 hrule with rfl | rfl <;> exact .inr rfl
    have hlocal' := hlocal (rule.epochSecond year)
    rcases List.mem_pair.1 hrule with rfl | rfl <;> omega
  meets rule0 rule1 h last hlast j := by
    obtain ⟨rfl, rfl⟩ := newYork_rules h
    obtain rfl := newYork_last hlast
    have hmax : max (-14400) (-18000 : Int) = -14400 := rfl
    rw [newYork_yearly]
    dsimp only
    omega
  continues rule0 rule1 h last hlast j hle hlt := by
    obtain ⟨rfl, rfl⟩ := newYork_rules h
    obtain rfl := newYork_last hlast
    obtain ⟨year, rfl | rfl⟩ := j.even_or_odd'
    · -- the one of 2007 was in force before the last transition, and those of other years were not
      rw [yearly_even] at hle
      rw [yearly_odd] at hlt
      have hle' : newYorkRules.1.epochSecond year ≤ 1194156000 := hle
      have hlt' : 1194156000 < newYorkRules.2.epochSecond year := hlt
      have hbounds := newYorkRules_bounds year
      have hlow : yearStart 2007 = 1167609600 := by decide +kernel
      have hhigh : yearStart 2008 = 1199145600 := by decide +kernel
      have hlast : newYorkRules.2.epochSecond 2007 = 1194156000 := by decide +kernel
      rcases lt_trichotomy year 2007 with hyear | rfl | hyear
      · have hmono := yearStart_mono (show year + 1 ≤ 2007 by omega)
        omega
      · omega
      · have hmono := yearStart_mono (show 2008 ≤ year by omega)
        omega
    · rw [yearly_odd]
      rfl

/-- A summer's day of New York. -/
theorem convertTimestamp_inForce_newYork : ∃ table, loadData newYork = .ok table ∧
    ∃ p x, (newYork.timeline false).Latest 1720000000 p x ∧
      convertTimestamp .microseconds 1720000000500000 table false =
        some (wrap64 (1720000000500000 + x.2 * 1000000)) := by
  obtain ⟨table, htable, hconvert, -⟩ := convertTimestamp_inForce newYork_valid
  have hexact : newYork.Exact .microseconds 1720000000500000 false :=
    ⟨by decide, .inl (by decide), fun _ => by decide⟩
  exact ⟨table, htable, hconvert .microseconds 1720000000500000 false hexact⟩

/-- A zone that sets its clock back by an hour. -/
def setBack : ZoneRules where
  isFixedOffset := false
  offset := 0
  transitions := [⟨1000000, 3600, 0⟩]
  transitionRules := []

theorem setBack_valid : setBack.Valid where
  transitions_ne _ := by decide
  range := by decide
  sorted := by decide
  chain := by decide
  rules_length := .inl rfl
  rule _ hrule := absurd hrule List.not_mem_nil
  rules_chain _ _ h := absurd h (List.cons_ne_nil _ _).symm
  rules_order _ _ h := absurd h (List.cons_ne_nil _ _).symm
  inYear _ hrule := absurd hrule List.not_mem_nil
  meets _ _ h := absurd h (List.cons_ne_nil _ _).symm
  continues _ _ h := absurd h (List.cons_ne_nil _ _).symm

/-- The instant of the transition comes back an hour too early, and nothing is ahead of it. -/
theorem convertTimestamp_repeated : ¬∀ (z : ZoneRules) (table : ZoneTable), z.Valid →
    loadData z = .ok table → ∀ unit ts localTimestamp,
      ¬z.InEarlierPass (ts / unit.perSecond) →
      convertTimestamp unit ts table false = some localTimestamp →
        convertTimestamp unit localTimestamp table true = some ts := by
  intro h
  have htable : loadData setBack =
      .ok ⟨[⟨longMin, longMin, 3600⟩, ⟨1000000, 1003600, 0⟩], []⟩ := by
    simp only [loadData, setBack, List.mergeSort_singleton]
    decide
  have hahead : ¬setBack.InEarlierPass (1000000 / TimeUnit.seconds.perSecond) := by
    rintro ⟨p, x, q, y, -, hy, hlt, -⟩
    cases q with
    | periodic j =>
      obtain ⟨f, hf, -⟩ := hy
      exact absurd hf (Option.some_ne_none f).symm
    | fixed k =>
      have hmem : y ∈ [(longMin, 3600), (1000000, 0)] := List.mem_of_getElem? hy
      have hle : ∀ y ∈ [(longMin, (3600 : Int)), (1000000, 0)], y.1 ≤ 1000000 := by decide
      exact absurd hlt (not_lt.2 (hle y hmem))
  have hback := h setBack _ setBack_valid htable .seconds 1000000 1000000 hahead (by decide)
  exact absurd hback (by decide)

end SparkRapids.TimeZone
