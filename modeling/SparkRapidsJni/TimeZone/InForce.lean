import SparkRapidsJni.TimeZone.Rules

/-!
# The offset in force

`convert_timestamp` finds the offset of the latest transition: by the rules behind the last transition of
the list (`getOffset_spec`), and in the list else (`lookUpOffset_spec`). To UTC, the latest transition is
the one whose gap or overlap has ended. So a timestamp comes back from local time unless an overlap
comes after it in which its local time is repeated (`latest_local`).
-/

namespace SparkRapids.TimeZone

open Calendar DateTimeUtils

/-! ### Yearly transitions -/

section Yearly

variable {z : ZoneRules} {rule0 rule1 : ZoneOffsetTransitionRule} {isLocal : Bool} {year s : Int}

theorem yearly_even (isLocal : Bool) (rule0 rule1 : ZoneOffsetTransitionRule) (year : Int) :
    yearly isLocal rule0 rule1 (2 * year) =
      (transitionTime isLocal (rule0.epochSecond year) rule0.offsetBefore rule0.offsetAfter,
        rule0.offsetAfter) := by
  have hdiv : 2 * year / 2 = year := by omega
  have hmod : 2 * year % 2 = 0 := by omega
  simp only [yearly, hmod, hdiv, if_true]

theorem yearly_odd (isLocal : Bool) (rule0 rule1 : ZoneOffsetTransitionRule) (year : Int) :
    yearly isLocal rule0 rule1 (2 * year + 1) =
      (transitionTime isLocal (rule1.epochSecond year) rule1.offsetBefore rule1.offsetAfter,
        rule1.offsetAfter) := by
  have hdiv : (2 * year + 1) / 2 = year := by omega
  have hmod : (2 * year + 1) % 2 = 1 := by omega
  simp only [yearly, hmod, hdiv, one_ne_zero, if_false]

theorem ZoneRules.Valid.yearly_lt_succ (hz : z.Valid) (hr : z.transitionRules = [rule0, rule1])
    (j : Int) : (yearly isLocal rule0 rule1 j).1 < (yearly isLocal rule0 rule1 (j + 1)).1 := by
  obtain ⟨hchain, hchain'⟩ := hz.rules_chain rule0 rule1 hr
  obtain ⟨year, rfl | rfl⟩ := j.even_or_odd'
  · have horder := hz.rules_order rule0 rule1 hr year
    rw [yearly_even, yearly_odd]
    cases isLocal with
    | false => exact horder
    | true =>
      -- the offsets of the two rules are the same ones
      show rule0.epochSecond year + max _ _ < rule1.epochSecond year + max _ _
      rw [hchain, hchain', max_comm]
      exact Int.add_lt_add_right horder _
  · -- the new year is between the two
    have hend := (hz.inYear rule1 (by simp [hr]) year isLocal).2
    have hstart := (hz.inYear rule0 (by simp [hr]) (year + 1) isLocal).1
    have hnext : 2 * year + 1 + 1 = 2 * (year + 1) := by ring
    rw [hnext, yearly_even, yearly_odd]
    dsimp only
    omega

theorem ZoneRules.Valid.yearly_strictMono (hz : z.Valid) (hr : z.transitionRules = [rule0, rule1])
    (isLocal : Bool) : StrictMono fun j => (yearly isLocal rule0 rule1 j).1 :=
  strictMono_int_of_lt_succ fun j => hz.yearly_lt_succ hr j

/-- The offset before a transition is the one of the transition before. -/
theorem ZoneRules.Valid.yearly_local (hz : z.Valid) (hr : z.transitionRules = [rule0, rule1])
    (j : Int) : (yearly true rule0 rule1 (j + 1)).1 = (yearly false rule0 rule1 (j + 1)).1 +
      max (yearly false rule0 rule1 j).2 (yearly false rule0 rule1 (j + 1)).2 := by
  obtain ⟨hchain, hchain'⟩ := hz.rules_chain rule0 rule1 hr
  obtain ⟨year, rfl | rfl⟩ := j.even_or_odd'
  · rw [yearly_odd, yearly_odd, yearly_even]
    exact congrArg (rule1.epochSecond year + max · rule1.offsetAfter) hchain
  · have hnext : 2 * year + 1 + 1 = 2 * (year + 1) := by ring
    rw [hnext, yearly_even, yearly_even, yearly_odd]
    exact congrArg (rule0.epochSecond (year + 1) + max · rule0.offsetAfter) hchain'

/-- The offset at a time of a year. -/
def offsetInYear (isLocal : Bool) (rule0 rule1 : ZoneOffsetTransitionRule) (year s : Int) : Int :=
  if s < (yearly isLocal rule0 rule1 (2 * year)).1 then rule0.offsetBefore
  else if s < (yearly isLocal rule0 rule1 (2 * year + 1)).1 then rule0.offsetAfter
  else rule1.offsetAfter

/-- The latest yearly transition up to a time is in its year, or the last one of the year before. -/
theorem ZoneRules.Valid.exists_yearly (hz : z.Valid) (hr : z.transitionRules = [rule0, rule1])
    (isLocal : Bool) (hstart : yearStart year ≤ s) (hend : s < yearStart (year + 1)) :
    ∃ j, (yearly isLocal rule0 rule1 j).1 ≤ s ∧ s < (yearly isLocal rule0 rule1 (j + 1)).1 ∧
      (yearly isLocal rule0 rule1 j).2 = offsetInYear isLocal rule0 rule1 year s := by
  unfold offsetInYear
  split_ifs with hfirst hsecond
  · have hlast := (hz.inYear rule1 (by simp [hr]) (year - 1) isLocal).2
    have hnext : 2 * (year - 1) + 1 + 1 = 2 * year := by ring
    rw [Int.sub_add_cancel] at hlast
    refine ⟨2 * (year - 1) + 1, ?_, by rwa [hnext], ?_⟩
    · rw [yearly_odd]
      dsimp only
      omega
    · rw [yearly_odd]
      exact (hz.rules_chain rule0 rule1 hr).2.symm
  · exact ⟨2 * year, not_lt.1 hfirst, hsecond, by rw [yearly_even]⟩
  · have hlast := (hz.inYear rule0 (by simp [hr]) (year + 1) isLocal).1
    have hnext : 2 * year + 1 + 1 = 2 * (year + 1) := by ring
    refine ⟨2 * year + 1, not_lt.1 hsecond, ?_, by rw [yearly_odd]⟩
    rw [hnext, yearly_even]
    dsimp only
    omega

/-- Every second is in a year. -/
theorem exists_year (s : Int) : ∃ year, yearStart year ≤ s ∧ s < yearStart (year + 1) := by
  refine ⟨(gregorianDate (s / 86400)).year, ?_, ?_⟩
  · have hstart := (@yearStart_le_iff _ (s / 86400)).2 le_rfl
    unfold yearStart
    omega
  · have hend := mt (@yearStart_le_iff ((gregorianDate (s / 86400)).year + 1) (s / 86400)).1
      (by omega)
    unfold yearStart
    omega

/-- `get_offset_for_utc_time` and `get_offset_for_local_time` -/
theorem ZoneRules.Valid.getOffset_eq (hz : z.Valid) (hr : z.transitionRules = [rule0, rule1])
    (isLocal : Bool) (h : -185000000000000 ≤ s ∧ s ≤ 185000000000000) :
    (if isLocal then getOffsetForLocalTime s (transitionRule rule0) (transitionRule rule1)
      else getOffsetForUtcTime s (transitionRule rule0) (transitionRule rule1)) =
      offsetInYear isLocal rule0 rule1 (getYear s) s := by
  obtain ⟨hchain, hchain'⟩ := hz.rules_chain rule0 rule1 hr
  have hyear := (getYear_spec h).2.2
  have hinfo0 := createTransitionInfo_eq (hz.rule rule0 (by simp [hr]))
    (show -5877600 ≤ getYear s by omega)
  have hinfo1 := createTransitionInfo_eq (hz.rule rule1 (by simp [hr]))
    (show -5877600 ≤ getYear s by omega)
  unfold offsetInYear
  rw [yearly_even, yearly_odd]
  unfold transitionTime
  cases isLocal with
  | false =>
    simp only [getOffsetForUtcTime, hinfo0, hinfo1, Bool.false_eq_true, if_false]
    split_ifs <;> first | rfl | omega
  | true =>
    simp only [getOffsetForLocalTime, hinfo0, hinfo1, TransitionInfo.isGap, if_true, decide_eq_true_eq]
    split_ifs <;> first | rfl | omega

end Yearly

/-! ### Timelines of the zones -/

section Timelines

variable {z : ZoneRules} {rule0 rule1 : ZoneOffsetTransitionRule} {isLocal : Bool} {s : Int}
  {last : ZoneOffsetTransition}

/-- The transition of a timeline. -/
def ZoneOffsetTransition.entry (t : ZoneOffsetTransition) (isLocal : Bool) : Int × Int :=
  (transitionTime isLocal t.epochSecond t.offsetBefore t.offsetAfter, t.offsetAfter)

theorem ZoneRules.timeline_getLast (hfixed : z.isFixedOffset = false)
    (hlast : last ∈ z.transitions.getLast?) (isLocal : Bool) :
    last.entry isLocal ∈ (z.timeline isLocal).fixed.getLast? := by
  have hlast' : z.transitions.getLast? = some last := hlast
  simp only [timeline, hfixed, Bool.false_eq_true, if_false, List.getLast?_cons, List.getLast?_map,
    hlast', Option.map_some, Option.getD_some, Option.mem_some_iff]
  rfl

theorem ZoneRules.timeline_periodic (hfixed : z.isFixedOffset = false)
    (hr : z.transitionRules = [rule0, rule1]) (isLocal : Bool) :
    (z.timeline isLocal).periodic = some (yearly isLocal rule0 rule1) := by
  simp only [timeline, hfixed, hr, Bool.false_eq_true, if_false]

/-- A zone has yearly transitions only if it has two rules. -/
theorem ZoneRules.periodic_eq_some {f : Int → Int × Int} (hf : (z.timeline isLocal).periodic = some f) :
    z.isFixedOffset = false ∧
      ∃ rule0 rule1, z.transitionRules = [rule0, rule1] ∧ f = yearly isLocal rule0 rule1 := by
  unfold timeline at hf
  split_ifs at hf with hfixed
  split at hf
  · next rule0 rule1 hr => exact ⟨by simpa using hfixed, rule0, rule1, hr, (Option.some.inj hf).symm⟩
  · exact absurd hf (by simp)

theorem ZoneRules.Valid.exists_last (hz : z.Valid) (hfixed : z.isFixedOffset = false) :
    ∃ last, last ∈ z.transitions.getLast? :=
  ⟨_, List.getLast?_eq_some_getLast (hz.transitions_ne hfixed)⟩

/-- In local time, the same yearly transitions are behind the list. -/
theorem ZoneRules.Valid.le_last_iff (hz : z.Valid) (hr : z.transitionRules = [rule0, rule1])
    (hlast : last ∈ z.transitions.getLast?) (isLocal : Bool) (j : Int) :
    (last.entry isLocal).1 < (yearly isLocal rule0 rule1 j).1 ↔
      last.epochSecond < (yearly false rule0 rule1 j).1 := by
  cases isLocal with
  | false => exact Iff.rfl
  | true => exact (hz.meets rule0 rule1 hr last hlast j).symm

theorem ZoneRules.Valid.timeline_valid (hz : z.Valid) (isLocal : Bool) :
    (z.timeline isLocal).Valid := by
  refine ⟨?_, fun f hf => ?_, fun f hf x hx j hle hlt => ?_⟩
  · unfold timeline
    split_ifs with hfixed
    · exact List.pairwise_singleton _ _
    · refine List.pairwise_cons.2 ⟨fun x hx => ?_, ?_⟩
      · obtain ⟨t, ht, rfl⟩ := List.mem_map.1 hx
        exact hz.range t ht isLocal
      · exact List.pairwise_map.2 (hz.sorted isLocal)
  · obtain ⟨-, rule0, rule1, hr, rfl⟩ := periodic_eq_some hf
    exact hz.yearly_strictMono hr isLocal
  · obtain ⟨hfixed, rule0, rule1, hr, rfl⟩ := periodic_eq_some hf
    obtain ⟨last, hlast⟩ := hz.exists_last hfixed
    obtain rfl := Option.mem_unique hx (timeline_getLast hfixed hlast isLocal)
    rw [hz.le_last_iff hr hlast] at hlt
    rw [← not_lt, hz.le_last_iff hr hlast, not_lt] at hle
    exact hz.continues rule0 rule1 hr last hlast j hle hlt

end Timelines

/-! ### The lookup -/

section Lookup

variable {z : ZoneRules} {table : ZoneTable} {s : Int} {times : List Int} {n : Nat}

/-- The last entry that is not behind a time, and the next one. -/
theorem upperBound_spec (times : List Int) (s : Int) :
    (∀ i < upperBound times s, ∀ x ∈ times[i]?, x ≤ s) ∧
      ∀ x ∈ times[upperBound times s]?, s < x := by
  have hsplit := List.takeWhile_append_dropWhile (p := fun x => decide (x ≤ s)) (l := times)
  refine ⟨fun i hi x hx => ?_, fun x hx => ?_⟩
  · have hget : times[i]? = (times.takeWhile fun x => decide (x ≤ s))[i]? := by
      conv_lhs => rw [← hsplit]
      exact List.getElem?_append_left hi
    rw [hget] at hx
    simpa using List.mem_takeWhile_imp (List.mem_of_getElem? hx)
  · have hget : times[upperBound times s]? = (times.dropWhile fun x => decide (x ≤ s)).head? :=
      calc times[upperBound times s]?
          = (times.takeWhile (fun x => decide (x ≤ s)) ++ times.dropWhile fun x => decide (x ≤ s))[
              (times.takeWhile fun x => decide (x ≤ s)).length]? := by rw [hsplit]; rfl
        _ = (times.dropWhile fun x => decide (x ≤ s)).head? := by
          rw [List.getElem?_append_right le_rfl, Nat.sub_self, List.head?_eq_getElem?]
    rw [hget] at hx
    have hnot := List.head?_dropWhile_not (fun x => decide (x ≤ s)) times
    rw [hx] at hnot
    simpa using hnot

/-- The first entry is not behind any time. -/
theorem upperBound_pos {first : Int} (hfirst : first ∈ times.head?) (hle : first ≤ s) :
    0 < upperBound times s := by
  cases times with
  | nil => exact absurd hfirst (by simp)
  | cons x times =>
    obtain rfl : x = first := by simpa using hfirst
    simp [upperBound, hle]

/-- `loadData` encodes the transitions of both timelines, and the two rules. -/
theorem ZoneRules.Valid.loadData_spec (hz : z.Valid) : ∃ table, loadData z = .ok table ∧
    (∀ toUtc : Bool, table.fixedTransitions.map
      (fun t => (if toUtc then t.tzInstant else t.utcInstant, t.utcOffset)) =
        (z.timeline toUtc).fixed) ∧
    table.dstRules = if z.isFixedOffset then [] else z.transitionRules.flatMap dstIntegers := by
  cases hfixed : z.isFixedOffset with
  | true =>
    refine ⟨⟨[⟨longMin, longMin, z.offset⟩], []⟩, by simp only [loadData, hfixed, if_true],
      fun toUtc => ?_, rfl⟩
    simp only [timeline, hfixed, if_true, List.map_cons, List.map_nil, ite_self]
  | false =>
    obtain ⟨first, rest, htransitions⟩ := List.exists_cons_of_ne_nil (hz.transitions_ne hfixed)
    have hsorted : z.transitions.mergeSort (fun a b => a.epochSecond ≤ b.epochSecond) =
        z.transitions := by
      refine List.mergeSort_of_pairwise ((hz.sorted false).imp fun {t t'} hle => ?_)
      exact decide_eq_true hle
    have hlen : ¬(z.transitionRules ≠ [] ∧ z.transitionRules.length ≠ 2) := by
      rintro ⟨hne, hlen⟩
      exact hz.rules_length.elim hne hlen
    have hmidnight : z.transitionRules.any (·.isMidnightEndOfDay) = false := by
      rw [List.any_eq_false]
      exact fun rule hrule => by simp [(hz.rule rule hrule).notMidnight]
    refine ⟨⟨⟨longMin, longMin, first.offsetBefore⟩ :: z.transitions.map fixedTransition,
      z.transitionRules.flatMap dstIntegers⟩, ?_, fun toUtc => ?_, rfl⟩
    · simp only [loadData, hsorted, hfixed, Bool.false_eq_true, if_false]
      simp only [htransitions, if_neg hlen, hmidnight, Bool.false_eq_true, if_false]
    · -- the local time of a row is the end of the gap or of the overlap
      have hrow : ∀ t : ZoneOffsetTransition, (if toUtc then (fixedTransition t).tzInstant
          else (fixedTransition t).utcInstant, (fixedTransition t).utcOffset) =
            (transitionTime toUtc t.epochSecond t.offsetBefore t.offsetAfter, t.offsetAfter) := by
        intro t
        unfold fixedTransition transitionTime ZoneOffsetTransition.isGap
        simp only [decide_eq_true_eq]
        split_ifs with hutc hgap hgap
        · exact congrArg (t.epochSecond + ·, t.offsetAfter) (max_eq_right_of_lt hgap).symm
        · exact congrArg (t.epochSecond + ·, t.offsetAfter) (max_eq_left (not_lt.1 hgap)).symm
        · rfl
        · rfl
      simp only [timeline, hfixed, htransitions, List.head?_cons, Option.elim_some, List.map_cons,
        ite_self, Bool.false_eq_true, if_false, List.map_map, hrow, Function.comp_def]

theorem upperBound_le_length (times : List Int) (s : Int) : upperBound times s ≤ times.length :=
  (List.takeWhile_sublist _).length_le

theorem ZoneRules.timeline_head (z : ZoneRules) (isLocal : Bool) :
    longMin ∈ ((z.timeline isLocal).fixed.map Prod.fst).head? := by
  unfold timeline
  split_ifs <;> rfl

/-- The integers of the rules are those of two rules. -/
theorem ZoneRules.Valid.exists_rules (hz : z.Valid) {table : ZoneTable}
    (hrules : table.dstRules = if z.isFixedOffset then [] else z.transitionRules.flatMap dstIntegers)
    (hlen : table.dstRules.length > 0) : z.isFixedOffset = false ∧ ∃ rule0 rule1,
      z.transitionRules = [rule0, rule1] ∧
        createDstRules table.dstRules = (transitionRule rule0, transitionRule rule1) := by
  cases hfixed : z.isFixedOffset with
  | true => simp [hrules, hfixed] at hlen
  | false =>
    simp only [hfixed, Bool.false_eq_true, if_false] at hrules
    rcases hz.rules_length with hnil | htwo
    · simp [hrules, hnil] at hlen
    · obtain ⟨rule0, rule1, hr⟩ := List.length_eq_two.1 htwo
      exact ⟨rfl, rule0, rule1, hr, by rw [hrules, hr, createDstRules_eq]⟩

/-- The offset that is looked up is the one of the latest transition. -/
theorem ZoneRules.Valid.lookUpOffset_spec (hz : z.Valid) {table : ZoneTable} (toUtc : Bool)
    (htable : loadData z = .ok table) (hlow : longMin ≤ s)
    (hyear : z.transitionRules ≠ [] → -185000000000000 ≤ s ∧ s ≤ 185000000000000) :
    ∃ p x, (z.timeline toUtc).Latest s p x ∧ lookUpOffset s table toUtc = some x.2 := by
  obtain ⟨table', htable', hfixed, hrules⟩ := hz.loadData_spec
  obtain rfl : table = table' := Except.ok.inj (htable.symm.trans htable')
  have hvalid := hz.timeline_valid toUtc
  have htimes : (table.fixedTransitions.map fun t => if toUtc then t.tzInstant else t.utcInstant) =
      (z.timeline toUtc).fixed.map Prod.fst := by
    rw [← hfixed toUtc, List.map_map]
    rfl
  obtain ⟨last, hlast⟩ : ∃ last, last ∈ (z.timeline toUtc).fixed.getLast? := by
    refine ⟨_, List.getLast?_eq_some_getLast fun hnil => ?_⟩
    simpa [hnil] using z.timeline_head toUtc
  have hlastTime : ((z.timeline toUtc).fixed.map Prod.fst)[
      ((z.timeline toUtc).fixed.map Prod.fst).length - 1]? = some last.1 := by
    rw [← List.getLast?_eq_getElem?, List.getLast?_map, Option.mem_def.1 hlast, Option.map_some]
  unfold lookUpOffset
  simp only [htimes, hlastTime, Option.bind_eq_bind, Option.bind_some]
  by_cases hbehind : table.dstRules.length > 0 ∧ s > last.1
  · -- by the rules
    rw [if_pos hbehind]
    obtain ⟨hlen, hlt⟩ := hbehind
    obtain ⟨hoffset, rule0, rule1, hr, hcreate⟩ := hz.exists_rules hrules hlen
    have hrange := hyear (by simp [hr])
    obtain ⟨hstart, hend, -⟩ := getYear_spec hrange
    obtain ⟨j, hle, hnext, heq⟩ := hz.exists_yearly hr toUtc hstart hend
    obtain ⟨p, x, hlatest, hx⟩ := hvalid.exists_latest_periodic
      (ZoneRules.timeline_periodic hoffset hr toUtc) hlast hlt hle hnext
    refine ⟨p, x, hlatest, ?_⟩
    rw [hcreate, hx, heq, ← hz.getOffset_eq hr toUtc hrange]
    cases toUtc <;> rfl
  · -- in the list, before any yearly transition
    have hperiodic : ∀ j x', (z.timeline toUtc).At (.periodic j) x' → s < x'.1 := by
      rintro j _ ⟨f, hf, rfl, hbefore⟩
      obtain ⟨hoffset, rule0, rule1, hr, -⟩ := ZoneRules.periodic_eq_some hf
      have hlen : table.dstRules.length > 0 := by
        simp [hrules, hoffset, hr, dstIntegers]
      exact (not_lt.1 fun hlt => hbehind ⟨hlen, hlt⟩).trans_lt (hbefore last hlast)
    obtain ⟨hbelow, habove⟩ := upperBound_spec ((z.timeline toUtc).fixed.map Prod.fst) s
    have hpos := upperBound_pos (z.timeline_head toUtc) hlow
    have hlen := upperBound_le_length ((z.timeline toUtc).fixed.map Prod.fst) s
    rw [if_neg hbehind, if_neg hpos.ne']
    generalize upperBound ((z.timeline toUtc).fixed.map Prod.fst) s = n at hbelow habove hpos hlen
    rw [List.length_map] at hlen
    obtain ⟨k, rfl⟩ : ∃ k, n = k + 1 := ⟨n - 1, by omega⟩
    obtain ⟨x, hx⟩ : ∃ x, (z.timeline toUtc).fixed[k]? = some x :=
      ⟨_, List.getElem?_eq_getElem (show k < (z.timeline toUtc).fixed.length by omega)⟩
    refine ⟨.fixed k, x, hvalid.latest_fixed hx ?_ (fun x' hx' => ?_) hperiodic, ?_⟩
    · exact hbelow k (Nat.lt_succ_self k) _ (by rw [List.getElem?_map, hx]; rfl)
    · exact habove _ (by rw [List.getElem?_map, hx']; rfl)
    · rw [Nat.add_sub_cancel]
      have hrow := hx
      rw [← hfixed toUtc, List.getElem?_map, Option.map_eq_some_iff] at hrow
      obtain ⟨t, ht, heq⟩ := hrow
      rw [ht, ← heq]
      rfl

end Lookup

end SparkRapids.TimeZone
