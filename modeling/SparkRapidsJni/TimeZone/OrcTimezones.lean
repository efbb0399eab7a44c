import SparkRapidsJni.Lib.Timeline

/-!
# ORC time zones

`convert_timezones` takes the timestamps of a column from the zone of an ORC writer to the one of a reader.
A zone is a raw offset and a table of transitions, as `java.util.TimeZone` has them: from the first to the
last transition the offset is the one of the latest transition, and outside of the table the raw one.

`get_transition_index` searches with `upper_bound`, which goes on behind an exact match. So the test for
one never succeeds, and at the last transition the search ends behind the table, where the raw offset is
taken (`findsOffset_iff`).
-/

namespace SparkRapids.OrcTimezones

/-! ### The code -/

/-- `thrust::upper_bound`, in times that ascend: the number of those before the first one that is above. -/
def upperBound (times : List Int64) (x : Int64) : ℕ := times.findIdx (x < ·)

/-- `get_transition_index`; `none` where it reads outside of the offsets -/
def getTransitionIndex (transitions : List Int64) (timeMs : Int64) (offsets : List Int32)
    (rawOffset : Int32) : Option Int32 :=
  -- fixed offset timezone, no transitions
  if transitions = [] then some rawOffset
  else
    let index := upperBound transitions timeMs
    match transitions[index]? with
    -- after the transition table
    | none => some rawOffset
    | some iter =>
      if iter = timeMs then offsets[index]?
      -- prior to the transition table
      else if index = 0 then some rawOffset
      else offsets[index - 1]?

/-- The columns of a table of transitions, in milliseconds. -/
structure TzInfoTable where
  transitions : List Int64
  offsets : List Int32

/-- What a thread computes for a timestamp. -/
structure Conversion where
  writerOffsetMillis : Int32
  readerOffsetMillis : Int32
  adjustedMilliseconds : Int64
  readerAdjustedOffset : Int32
  finalResult : Int64
  deriving DecidableEq

/-- `convert_timestamp_between_timezones`; without a table there are no transitions -/
def convertTimestampBetweenTimezones (ts : Int64) (writer : Option TzInfoTable)
    (writerRawOffset : Int32) (reader : Option TzInfoTable) (readerRawOffset : Int32) :
    Option Conversion := do
  let writerTrans := writer.elim [] (·.transitions)
  let writerOffsets := writer.elim [] (·.offsets)
  let readerTrans := reader.elim [] (·.transitions)
  let readerOffsets := reader.elim [] (·.offsets)
  -- `duration_cast` truncates
  let epochMillis := ts / 1000
  let writerOffsetMillis ← getTransitionIndex writerTrans epochMillis writerOffsets writerRawOffset
  let readerOffsetMillis ← getTransitionIndex readerTrans epochMillis readerOffsets readerRawOffset
  let adjustedMilliseconds := epochMillis + (writerOffsetMillis - readerOffsetMillis).toInt64
  let readerAdjustedOffset ←
    getTransitionIndex readerTrans adjustedMilliseconds readerOffsets readerRawOffset
  let finalOffsetMillis := writerOffsetMillis - readerAdjustedOffset
  let epochUs := ts
  let finalResult := epochUs + finalOffsetMillis.toInt64 * 1000
  return ⟨writerOffsetMillis, readerOffsetMillis, adjustedMilliseconds, readerAdjustedOffset, finalResult⟩

/-- The type of a column. -/
inductive TypeId
  | timestampMicroseconds
  | other
  deriving DecidableEq

/-- A column of numbers, with its null mask. -/
structure Column where
  type : TypeId
  data : List Int64
  nullMask : Option (List Bool)
  nullCount : ℕ

/-- `convert_timezones`, with an error of its check; `none` where a thread reads outside of a table. All
rows are converted, those that are null as well. -/
def convertTimezones (input : Column) (writerTzInfoTable : Option TzInfoTable) (writerRawOffset : Int32)
    (readerTzInfoTable : Option TzInfoTable) (readerRawOffset : Int32) : Except String (Option Column) :=
  if input.type = .timestampMicroseconds then
    let results := input.data.mapM fun timestamp =>
      (convertTimestampBetweenTimezones timestamp writerTzInfoTable writerRawOffset readerTzInfoTable
        readerRawOffset).map Conversion.finalResult
    .ok (results.map fun data => { input with data := data })
  else .error "Input column must be of type TIMESTAMP_MICROSECONDS"

/-! ### Zones -/

/-- A zone as the code gets it: one offset for each transition, and the transitions strictly ascend. -/
structure OrcZone where
  table : Option TzInfoTable
  rawOffset : Int32
  length_eq : ∀ t ∈ table, t.offsets.length = t.transitions.length
  sorted : ∀ t ∈ table, t.transitions.Pairwise (· < ·)

namespace OrcZone

variable (zone : OrcZone)

def transitions : List Int64 := zone.table.elim [] (·.transitions)

def offsets : List Int32 := zone.table.elim [] (·.offsets)

/-- The transitions of a zone. -/
def timeline : Timeline where
  fixed := List.zipWith (fun time offset => (time.toInt, offset.toInt)) zone.transitions zone.offsets
  periodic := none

/-- An instant from the first to the last transition. -/
def Inside (x : ℤ) : Prop :=
  (∃ first ∈ zone.timeline.fixed.head?, first.1 ≤ x) ∧ ∃ last ∈ zone.timeline.fixed.getLast?, x ≤ last.1

instance (x : ℤ) : Decidable (zone.Inside x) := by
  unfold Inside
  infer_instance

/-- The offset of a zone at an instant: the one of the latest transition up to it, or the raw one outside
of the table. -/
def offsetAt (x : ℤ) : ℤ :=
  if zone.Inside x then
    ((zone.timeline.fixed.filter (·.1 ≤ x)).getLast?).elim zone.rawOffset.toInt (·.2)
  else zone.rawOffset.toInt

/-- The last transition is at an instant, and does not set the raw offset. -/
def EndsAt (x : ℤ) : Prop :=
  ∃ last ∈ zone.timeline.fixed.getLast?, last.1 = x ∧ last.2 ≠ zone.rawOffset.toInt

/-- `get_transition_index` finds the offset of an instant. -/
def FindsOffset (x : Int64) : Prop :=
  ∃ offset, getTransitionIndex zone.transitions x zone.offsets zone.rawOffset = some offset ∧
    offset.toInt = zone.offsetAt x.toInt

end OrcZone

/-! ### What a conversion should be -/

/-- The milliseconds of a timestamp. -/
def millis (ts : Int64) : ℤ := ts.toInt.tdiv 1000

/-- What is added to a timestamp: `W(t) - R(t + W(t) - R(t))` milliseconds. -/
def shift (writer reader : OrcZone) (t : ℤ) : ℤ :=
  writer.offsetAt t - reader.offsetAt (t + (writer.offsetAt t - reader.offsetAt t))

/-- The offsets of a conversion are those of the zones, and the milliseconds between them are added to the
timestamp. Between zones with the same offsets it stays as it is. -/
structure Conversion.Exact (writer reader : OrcZone) (ts : Int64) (c : Conversion) : Prop where
  writerOffset : c.writerOffsetMillis.toInt = writer.offsetAt (millis ts)
  readerOffset : c.readerOffsetMillis.toInt = reader.offsetAt (millis ts)
  adjusted : c.adjustedMilliseconds.toInt =
    millis ts + (writer.offsetAt (millis ts) - reader.offsetAt (millis ts))
  readerAdjusted : c.readerAdjustedOffset.toInt = reader.offsetAt
    (millis ts + (writer.offsetAt (millis ts) - reader.offsetAt (millis ts)))
  result : c.finalResult.toInt = ts.toInt + 1000 * shift writer reader (millis ts)
  identity : (∀ x, writer.offsetAt x = reader.offsetAt x) → c.finalResult = ts

/-- The conversion of a timestamp is exact. -/
def ConvertsExactly (writer reader : OrcZone) (ts : Int64) : Prop :=
  ∃ c, convertTimestampBetweenTimezones ts writer.table writer.rawOffset reader.table
    reader.rawOffset = some c ∧ c.Exact writer reader ts

/-- No table ends where it is looked up, and nothing overflows. -/
structure Regular (writer reader : OrcZone) (ts : Int64) : Prop where
  writer_ends : ¬writer.EndsAt (millis ts)
  reader_ends : ¬reader.EndsAt (millis ts)
  adjusted_ends : ¬reader.EndsAt
    (millis ts + (writer.offsetAt (millis ts) - reader.offsetAt (millis ts)))
  difference : ∃ d : Int32, d.toInt = writer.offsetAt (millis ts) - reader.offsetAt (millis ts)
  finalDifference : ∃ d : Int32, d.toInt = shift writer reader (millis ts)
  result : ∃ r : Int64, r.toInt = ts.toInt + 1000 * shift writer reader (millis ts)

/-! ### Where the search ends -/

section Search

variable {transitions : List Int64} {x next : Int64} {offsets : List Int32} {rawOffset : Int32} {n : ℕ}

/-- From the last transition on the raw offset is found. -/
theorem getTransitionIndex_behind (h : ∀ time ∈ transitions, time ≤ x) :
    getTransitionIndex transitions x offsets rawOffset = some rawOffset := by
  have hindex : upperBound transitions x = transitions.length :=
    List.findIdx_eq_length_of_false fun time ht => decide_eq_false (Int64.not_lt.2 (h time ht))
  unfold getTransitionIndex
  dsimp only
  rw [hindex, List.getElem?_eq_none (Nat.le_refl _)]
  exact ite_self _

/-- Up to there, the offset is the one before the first transition that is above. -/
theorem getTransitionIndex_before (hnext : transitions[n]? = some next) (hlt : x < next)
    (hbelow : ∀ j < n, ∀ time ∈ transitions[j]?, time ≤ x) :
    getTransitionIndex transitions x offsets rawOffset =
      if n = 0 then some rawOffset else offsets[n - 1]? := by
  obtain ⟨hn, heq⟩ := List.getElem?_eq_some_iff.1 hnext
  have hindex : upperBound transitions x = n := by
    refine (List.findIdx_eq hn).2 ⟨decide_eq_true (heq ▸ hlt), fun j hj => decide_eq_false ?_⟩
    exact Int64.not_lt.2 (hbelow j hj _ (List.getElem?_eq_getElem _))
  -- what is above is not a match
  have hne : next ≠ x := fun h => Int64.lt_irrefl (h ▸ hlt)
  unfold getTransitionIndex
  dsimp only
  rw [hindex, hnext, if_neg (List.ne_nil_of_length_pos (by omega))]
  dsimp only
  rw [if_neg hne]

end Search

/-! ### Look-ups -/

namespace OrcZone

variable {zone : OrcZone} {x : ℤ} {k : ℕ} {p : Timeline.Place} {e : ℤ × ℤ}

theorem length_offsets (zone : OrcZone) : zone.offsets.length = zone.transitions.length := by
  unfold offsets transitions
  cases h : zone.table with
  | none => rfl
  | some t => exact zone.length_eq t h

theorem transitions_sorted (zone : OrcZone) : zone.transitions.Pairwise (· < ·) := by
  unfold transitions
  cases h : zone.table with
  | none => exact List.Pairwise.nil
  | some t => exact zone.sorted t h

theorem length_fixed (zone : OrcZone) : zone.timeline.fixed.length = zone.transitions.length := by
  unfold timeline
  rw [List.length_zipWith, length_offsets, Nat.min_self]

/-- The entries of the timeline are those of the two columns. -/
theorem getElem?_fixed (zone : OrcZone) (hk : k < zone.transitions.length) :
    ∃ time offset, zone.transitions[k]? = some time ∧ zone.offsets[k]? = some offset ∧
      zone.timeline.fixed[k]? = some (time.toInt, offset.toInt) := by
  have hk' : k < zone.offsets.length := by rwa [length_offsets]
  refine ⟨_, _, List.getElem?_eq_getElem hk, List.getElem?_eq_getElem hk', ?_⟩
  unfold timeline
  rw [List.getElem?_zipWith, List.getElem?_eq_getElem hk, List.getElem?_eq_getElem hk']

theorem fixed_sorted (zone : OrcZone) : zone.timeline.fixed.Pairwise (·.1 < ·.1) := by
  rw [List.pairwise_iff_getElem]
  intro i j hi hj hij
  rw [length_fixed] at hi hj
  obtain ⟨time, offset, htime, -, hfixed⟩ := zone.getElem?_fixed hi
  obtain ⟨time', offset', htime', -, hfixed'⟩ := zone.getElem?_fixed hj
  rw [(List.getElem?_eq_some_iff.1 hfixed).2, (List.getElem?_eq_some_iff.1 hfixed').2]
  have hlt := List.pairwise_iff_getElem.1 zone.transitions_sorted i j hi hj hij
  rw [(List.getElem?_eq_some_iff.1 htime).2, (List.getElem?_eq_some_iff.1 htime').2] at hlt
  exact Int64.lt_iff_toInt_lt.1 hlt

theorem timeline_valid (zone : OrcZone) : zone.timeline.Valid where
  sorted := zone.fixed_sorted.imp fun h => h.le
  strictMono _ h := nomatch h
  continues _ h := nomatch h

theorem not_periodic {j : ℤ} : ¬zone.timeline.At (.periodic j) e := by
  rintro ⟨f, hf, -⟩
  exact nomatch hf

/-- From the first transition on there is a latest one. -/
theorem exists_latest (zone : OrcZone) {first : ℤ × ℤ} (hfirst : first ∈ zone.timeline.fixed.head?) (hle : first.1 ≤ x) :
    ∃ p e, zone.timeline.Latest x p e ∧
      (zone.timeline.fixed.filter (·.1 ≤ x)).getLast? = some e := by
  have hmem : first ∈ zone.timeline.fixed.filter (·.1 ≤ x) :=
    List.mem_filter.2 ⟨List.mem_of_mem_head? hfirst, decide_eq_true hle⟩
  have hne := List.ne_nil_of_mem hmem
  obtain ⟨hfixed, hex⟩ := List.mem_filter.1 (List.getLast_mem hne)
  obtain ⟨k, hk⟩ := List.getElem?_of_mem hfixed
  refine ⟨.fixed k, _, ⟨hk, of_decide_eq_true hex, ?_⟩, List.getLast?_eq_some_getLast hne⟩
  rintro (k' | j) x' hbefore hat
  · by_contra hnot
    -- an entry behind it would be one of those up to the instant
    have hx' : x' ∈ zone.timeline.fixed.filter (·.1 ≤ x) :=
      List.mem_filter.2 ⟨List.mem_of_getElem? hat, decide_eq_true (not_lt.1 hnot)⟩
    have hsorted : (zone.timeline.fixed.filter (·.1 ≤ x)).Pairwise (·.1 ≤ ·.1) :=
      (zone.timeline_valid.sorted).filter _
    have hle' := hsorted.rel_getLast_of_rel_getLast_getLast hx' le_rfl
    obtain ⟨hk1, heq⟩ := List.getElem?_eq_some_iff.1 hk
    obtain ⟨hk2, rfl⟩ := List.getElem?_eq_some_iff.1 hat
    have hlt := List.pairwise_iff_getElem.1 zone.fixed_sorted _ _ hk1 hk2 hbefore
    rw [heq] at hlt
    exact lt_irrefl _ (hlt.trans_le hle')
  · exact absurd hat not_periodic

/-- The offset in the table is the one of the latest transition. -/
theorem offsetAt_of_latest (hin : zone.Inside x) (h : zone.timeline.Latest x p e) :
    zone.offsetAt x = e.2 := by
  obtain ⟨first, hfirst, hle⟩ := hin.1
  obtain ⟨p', e', hlatest, hlast⟩ := zone.exists_latest hfirst hle
  unfold offsetAt
  rw [if_pos hin, hlast, h.unique hlatest]
  rfl

theorem offsetAt_of_outside (hout : ¬zone.Inside x) : zone.offsetAt x = zone.rawOffset.toInt :=
  if_neg hout

/-- Between two transitions an instant is inside of the table. -/
theorem inside_of_between {i j : ℕ} {e e' : ℤ × ℤ} (hi : zone.timeline.fixed[i]? = some e)
    (hle : e.1 ≤ x) (hj : zone.timeline.fixed[j]? = some e') (hle' : x ≤ e'.1) : zone.Inside x := by
  have hlen := (List.getElem?_eq_some_iff.1 hi).1
  have hpos : 0 < zone.timeline.fixed.length := by omega
  have hfirst : zone.timeline.fixed[0]? = some zone.timeline.fixed[0] := List.getElem?_eq_getElem hpos
  have hlast : zone.timeline.fixed.getLast? = some (zone.timeline.fixed.getLast
      (List.ne_nil_of_length_pos hpos)) := List.getLast?_eq_some_getLast _
  refine ⟨⟨_, List.head?_eq_getElem?.trans hfirst, ?_⟩, _, hlast,
    hle'.trans (zone.timeline_valid.le_last hj hlast)⟩
  rcases Nat.eq_zero_or_pos i with rfl | hpos
  · rw [← Option.some.inj (hi.symm.trans hfirst)]
    exact hle
  · obtain ⟨hi', rfl⟩ := List.getElem?_eq_some_iff.1 hi
    exact (List.pairwise_iff_getElem.1 zone.fixed_sorted _ _ _ _ hpos).le.trans hle

/-- From the last transition on, the raw offset is the right one unless the table ends there. -/
theorem offsetAt_behind (hbehind : ∀ e ∈ zone.timeline.fixed, e.1 ≤ x) :
    zone.offsetAt x = zone.rawOffset.toInt ↔ ¬zone.EndsAt x := by
  cases hlast : zone.timeline.fixed.getLast? with
  | none =>
    have hnil := List.getLast?_eq_none_iff.1 hlast
    have hout : ¬zone.Inside x := by
      rintro ⟨⟨first, hfirst, -⟩, -⟩
      rw [hnil] at hfirst
      exact nomatch hfirst
    refine iff_of_true (offsetAt_of_outside hout) ?_
    rintro ⟨last, hmem, -⟩
    exact nomatch hlast.symm.trans hmem
  | some last =>
    have hends : zone.EndsAt x ↔ last.1 = x ∧ last.2 ≠ zone.rawOffset.toInt := by
      unfold EndsAt
      simp only [hlast, Option.mem_def, Option.some.injEq, exists_eq_left']
    rw [hends]
    rcases (hbehind last (List.mem_of_getLast? hlast)).eq_or_lt with heq | hlt
    · -- the table ends at the instant
      have hget : zone.timeline.fixed[zone.timeline.fixed.length - 1]? = some last :=
        List.getLast?_eq_getElem?.symm.trans hlast
      have hlatest : zone.timeline.Latest x (.fixed (zone.timeline.fixed.length - 1)) last := by
        refine zone.timeline_valid.latest_fixed hget heq.le (fun x' hx' => ?_)
          fun j x' hat => absurd hat not_periodic
        have hlen := (List.getElem?_eq_some_iff.1 hx').1
        omega
      rw [offsetAt_of_latest (zone.inside_of_between hget heq.le hget heq.ge) hlatest]
      exact ⟨fun h hends => hends.2 h, fun h => not_not.1 fun hne => h ⟨heq, hne⟩⟩
    · have hout : ¬zone.Inside x := by
        rintro ⟨-, last', hlast', hle⟩
        rw [Option.mem_unique hlast' hlast] at hle
        exact not_le.2 hlt hle
      exact iff_of_true (offsetAt_of_outside hout) fun hends => hlt.ne hends.1

/-- Before a transition, no table ends. -/
theorem not_endsAt_of_lt {n : ℕ} {next : ℤ × ℤ} (hnext : zone.timeline.fixed[n]? = some next)
    (hlt : x < next.1) : ¬zone.EndsAt x := by
  rintro ⟨last, hlast, heq, -⟩
  exact (hlt.trans_le (zone.timeline_valid.le_last hnext hlast)).ne heq.symm

theorem offsetAt_before_first {first : ℤ × ℤ} (hfirst : zone.timeline.fixed[0]? = some first)
    (hlt : x < first.1) : zone.offsetAt x = zone.rawOffset.toInt := by
  refine offsetAt_of_outside ?_
  rintro ⟨⟨first', hfirst', hle⟩, -⟩
  rw [List.head?_eq_getElem?, hfirst] at hfirst'
  rw [← Option.some.inj hfirst'] at hle
  exact not_le.2 hlt hle

theorem offsetAt_between {n : ℕ} {next : ℤ × ℤ} (hget : zone.timeline.fixed[n]? = some e)
    (hle : e.1 ≤ x) (hnext : zone.timeline.fixed[n + 1]? = some next) (hlt : x < next.1) :
    zone.offsetAt x = e.2 := by
  refine offsetAt_of_latest (zone.inside_of_between hget hle hnext hlt.le)
    (zone.timeline_valid.latest_fixed hget hle (fun x' hx' => ?_) fun j x' hat => absurd hat not_periodic)
  rwa [← Option.some.inj (hnext.symm.trans hx')]

theorem findsOffset_iff_eq {x : Int64} {offset : Int32}
    (h : getTransitionIndex zone.transitions x zone.offsets zone.rawOffset = some offset) :
    zone.FindsOffset x ↔ offset.toInt = zone.offsetAt x.toInt := by
  unfold FindsOffset
  simp only [h, Option.some.injEq, exists_eq_left']

/-- The offset of an instant is found unless the table ends there, with another offset than the raw one. -/
theorem findsOffset_iff (zone : OrcZone) (x : Int64) : zone.FindsOffset x ↔ ¬zone.EndsAt x.toInt := by
  by_cases hbehind : ∀ time ∈ zone.transitions, time ≤ x
  · rw [findsOffset_iff_eq (getTransitionIndex_behind hbehind), eq_comm]
    refine offsetAt_behind fun e he => ?_
    obtain ⟨k, hk⟩ := List.getElem?_of_mem he
    have hlen := (List.getElem?_eq_some_iff.1 hk).1
    rw [length_fixed] at hlen
    obtain ⟨time, offset, htime, -, hfixed⟩ := zone.getElem?_fixed hlen
    rw [← Option.some.inj (hfixed.symm.trans hk)]
    exact Int64.le_iff_toInt_le.1 (hbehind time (List.mem_of_getElem? htime))
  · -- the first transition that is above
    have hexists : ∃ n : ℕ, ∃ next, zone.transitions[n]? = some next ∧ x < next := by
      push Not at hbehind
      obtain ⟨next, hmem, hlt⟩ := hbehind
      obtain ⟨n, hn⟩ := List.getElem?_of_mem hmem
      exact ⟨n, next, hn, Int64.not_le.1 hlt⟩
    obtain ⟨next, hnext, hlt⟩ := Nat.find_spec hexists
    have hbelow : ∀ j < Nat.find hexists, ∀ time ∈ zone.transitions[j]?, time ≤ x :=
      fun j hj time ht => Int64.not_lt.1 fun hlt => Nat.find_min hexists hj ⟨time, ht, hlt⟩
    have hget := @getTransitionIndex_before _ _ _ zone.offsets zone.rawOffset _ hnext hlt hbelow
    obtain ⟨next', offset, hnext', -, hfixed⟩ :=
      zone.getElem?_fixed (List.getElem?_eq_some_iff.1 hnext).1
    obtain rfl := Option.some.inj (hnext'.symm.trans hnext)
    have hlt' := Int64.lt_iff_toInt_lt.1 hlt
    refine iff_of_true ?_ (not_endsAt_of_lt hfixed hlt')
    cases hn : Nat.find hexists with
    | zero =>
      rw [hn] at hget hfixed
      exact (findsOffset_iff_eq hget).2 (offsetAt_before_first hfixed hlt').symm
    | succ n =>
      rw [hn] at hget hfixed hbelow
      have hlen := (List.getElem?_eq_some_iff.1 hfixed).1
      rw [length_fixed] at hlen
      obtain ⟨time, offset', htime, hoffset', hfixed'⟩ := zone.getElem?_fixed (Nat.lt_of_succ_lt hlen)
      have hle := Int64.le_iff_toInt_le.1 (hbelow n (Nat.lt_succ_self n) time htime)
      rw [if_neg (Nat.succ_ne_zero n), Nat.add_sub_cancel, hoffset'] at hget
      exact (findsOffset_iff_eq hget).2 (offsetAt_between hfixed' hle hfixed hlt').symm

/-- Nothing outside of the offsets is read. -/
theorem exists_getTransitionIndex (zone : OrcZone) (x : Int64) : ∃ offset,
    getTransitionIndex zone.transitions x zone.offsets zone.rawOffset = some offset := by
  have hget : ∀ k < zone.transitions.length, ∃ offset, zone.offsets[k]? = some offset := fun k hk => by
    obtain ⟨-, offset, -, hoffset, -⟩ := zone.getElem?_fixed hk
    exact ⟨offset, hoffset⟩
  unfold getTransitionIndex
  dsimp only
  by_cases hnil : zone.transitions = []
  · exact ⟨_, if_pos hnil⟩
  · rw [if_neg hnil]
    cases hiter : zone.transitions[upperBound zone.transitions x]? with
    | none => exact ⟨_, rfl⟩
    | some iter =>
      have hindex := (List.getElem?_eq_some_iff.1 hiter).1
      dsimp only
      split_ifs
      · exact hget _ hindex
      · exact ⟨_, rfl⟩
      · exact hget _ (by omega)

end OrcZone

/-! ### Conversions -/

section Conversions

variable {writer reader : OrcZone} {ts : Int64}

theorem toInt_div_1000 (ts : Int64) : (ts / 1000).toInt = millis ts :=
  Int64.toInt_div_of_ne_right ts 1000 (by decide)

theorem millis_bounds (ts : Int64) : -2 ^ 54 ≤ millis ts ∧ millis ts < 2 ^ 54 := by
  have hle := ts.le_toInt
  have hlt := ts.toInt_lt
  have hdiv := Int.mul_tdiv_add_tmod ts.toInt 1000
  have hgt := Int.lt_tmod_of_pos ts.toInt (show (0 : ℤ) < 1000 by decide)
  have hrem := Int.tmod_lt_of_pos ts.toInt (show (0 : ℤ) < 1000 by decide)
  unfold millis
  omega

/-- A conversion always has a result, and its steps are those of the code. -/
theorem exists_conversion (writer reader : OrcZone) (ts : Int64) : ∃ c,
    convertTimestampBetweenTimezones ts writer.table writer.rawOffset reader.table
      reader.rawOffset = some c ∧
    getTransitionIndex writer.transitions (ts / 1000) writer.offsets writer.rawOffset =
      some c.writerOffsetMillis ∧
    getTransitionIndex reader.transitions (ts / 1000) reader.offsets reader.rawOffset =
      some c.readerOffsetMillis ∧
    c.adjustedMilliseconds = ts / 1000 + (c.writerOffsetMillis - c.readerOffsetMillis).toInt64 ∧
    getTransitionIndex reader.transitions c.adjustedMilliseconds reader.offsets reader.rawOffset =
      some c.readerAdjustedOffset ∧
    c.finalResult = ts + (c.writerOffsetMillis - c.readerAdjustedOffset).toInt64 * 1000 := by
  obtain ⟨w, hw⟩ := writer.exists_getTransitionIndex (ts / 1000)
  obtain ⟨r, hr⟩ := reader.exists_getTransitionIndex (ts / 1000)
  obtain ⟨r', hr'⟩ := reader.exists_getTransitionIndex (ts / 1000 + (w - r).toInt64)
  refine ⟨⟨w, r, _, r', ts + (w - r').toInt64 * 1000⟩, ?_, hw, hr, rfl, hr', rfl⟩
  unfold OrcZone.transitions OrcZone.offsets at hw hr hr'
  unfold convertTimestampBetweenTimezones
  simp only [hw, hr, hr', Option.bind_eq_bind, Option.bind_some]
  rfl

/-- A difference of offsets, in 32 bits. -/
theorem toInt_sub_cases (a b : Int32) : (a - b).toInt = a.toInt - b.toInt ∨
    (a - b).toInt = a.toInt - b.toInt - 2 ^ 32 ∨ (a - b).toInt = a.toInt - b.toInt + 2 ^ 32 := by
  have ha := a.le_toInt
  have ha' := a.toInt_lt
  have hb := b.le_toInt
  have hb' := b.toInt_lt
  rw [Int32.toInt_sub, Int.bmod_def]
  split_ifs <;> omega

theorem toInt_sub_eq_iff (a b : Int32) :
    (a - b).toInt = a.toInt - b.toInt ↔ ∃ d : Int32, d.toInt = a.toInt - b.toInt := by
  constructor
  · exact fun h => ⟨_, h⟩
  · rintro ⟨d, hd⟩
    have hle := d.le_toInt
    have hlt := d.toInt_lt
    rw [Int32.toInt_sub, ← hd, Int.bmod_eq_of_le] <;> omega

/-- The instant of the second look-up is the one to look up where the difference does not overflow. -/
theorem adjusted_eq_iff (a b : Int32) :
    (ts / 1000 + (a - b).toInt64).toInt = millis ts + (a.toInt - b.toInt) ↔
      ∃ d : Int32, d.toInt = a.toInt - b.toInt := by
  have hmillis := millis_bounds ts
  have hle := (a - b).le_toInt
  have hlt := (a - b).toInt_lt
  have hadd : (ts / 1000 + (a - b).toInt64).toInt = millis ts + (a - b).toInt := by
    rw [Int64.toInt_add, toInt_div_1000, Int32.toInt_toInt64, Int.bmod_eq_of_le] <;> omega
  rw [← toInt_sub_eq_iff, hadd]
  exact add_right_inj _

/-- The result is exact where neither the difference nor the sum overflows. -/
theorem result_eq_iff (a b : Int32) :
    (ts + (a - b).toInt64 * 1000).toInt = ts.toInt + 1000 * (a.toInt - b.toInt) ↔
      (∃ d : Int32, d.toInt = a.toInt - b.toInt) ∧
        ∃ r : Int64, r.toInt = ts.toInt + 1000 * (a.toInt - b.toInt) := by
  have hts := ts.le_toInt
  have hts' := ts.toInt_lt
  have hle := (a - b).le_toInt
  have hlt := (a - b).toInt_lt
  have hmul : ((a - b).toInt64 * 1000).toInt = 1000 * (a - b).toInt := by
    rw [Int64.toInt_mul, Int32.toInt_toInt64, show (1000 : Int64).toInt = 1000 from rfl,
      Int.bmod_eq_of_le] <;> omega
  rw [← toInt_sub_eq_iff, Int64.toInt_add, hmul]
  constructor
  · intro h
    refine ⟨?_, _, Int64.toInt_add .. |>.trans (hmul ▸ h)⟩
    -- a thousand times a multiple of `2 ^ 32` is no multiple of `2 ^ 64`
    rw [Int.bmod_def] at h
    rcases toInt_sub_cases a b with heq | heq | heq
    · exact heq
    · split_ifs at h <;> omega
    · split_ifs at h <;> omega
  · rintro ⟨hd, r, hr⟩
    have hrle := r.le_toInt
    have hrlt := r.toInt_lt
    rw [hd, ← hr, Int.bmod_eq_of_le] <;> omega

theorem convertsExactly_iff_regular (writer reader : OrcZone) (ts : Int64) :
    ConvertsExactly writer reader ts ↔ Regular writer reader ts := by
  obtain ⟨c, hc, hw, hr, hadjusted, hr', hresult⟩ := exists_conversion writer reader ts
  have hwriter := (OrcZone.findsOffset_iff_eq hw).symm.trans (writer.findsOffset_iff (ts / 1000))
  have hreader := (OrcZone.findsOffset_iff_eq hr).symm.trans (reader.findsOffset_iff (ts / 1000))
  have hreader' := (OrcZone.findsOffset_iff_eq hr').symm.trans
    (reader.findsOffset_iff c.adjustedMilliseconds)
  rw [toInt_div_1000] at hwriter hreader
  have hsum := @adjusted_eq_iff ts c.writerOffsetMillis c.readerOffsetMillis
  have hfinal := @result_eq_iff ts c.writerOffsetMillis c.readerAdjustedOffset
  rw [← hadjusted] at hsum
  rw [← hresult] at hfinal
  have hiff : ConvertsExactly writer reader ts ↔ c.Exact writer reader ts := by
    unfold ConvertsExactly
    simp only [hc, Option.some.injEq, exists_eq_left']
  rw [hiff]
  constructor
  · rintro ⟨hw, hr, ha, hr', hresult, -⟩
    rw [ha] at hreader' hsum
    rw [hw, hr] at hsum
    rw [hw, hr'] at hfinal
    obtain ⟨hd, hfits⟩ := hfinal.1 hresult
    exact ⟨hwriter.1 hw, hreader.1 hr, hreader'.1 hr', hsum.1 rfl, hd, hfits⟩
  · rintro ⟨hw, hr, hr', hd, hd', hresult⟩
    have hw := hwriter.2 hw
    have hr := hreader.2 hr
    rw [hw, hr] at hsum
    have ha := hsum.2 hd
    rw [ha] at hreader'
    have hr' := hreader'.2 hr'
    rw [hw, hr'] at hfinal
    have hfinal := hfinal.2 ⟨hd', hresult⟩
    refine ⟨hw, hr, ha, hr', hfinal, fun h => Int64.toInt_inj.1 ?_⟩
    rw [hfinal, h (millis ts), sub_self, add_zero, sub_self, mul_zero, add_zero]

/-- Offsets are found, and timestamps converted exactly, unless the table of a zone ends where it is looked
up, or an offset or the result overflows. The rows of a column are converted one by one, and its null mask is
kept. -/
theorem convertTimezones_exact_iff (zone writer reader : OrcZone) (x ts : Int64) (input : Column) :
    (zone.FindsOffset x ↔ ¬zone.EndsAt x.toInt) ∧
    (ConvertsExactly writer reader ts ↔ Regular writer reader ts) ∧
    ∃ data,
      List.Forall₂ (fun ts result => ∃ c, convertTimestampBetweenTimezones ts writer.table
        writer.rawOffset reader.table reader.rawOffset = some c ∧ c.finalResult = result)
        input.data data ∧
      convertTimezones input writer.table writer.rawOffset reader.table reader.rawOffset =
        if input.type = .timestampMicroseconds then .ok (some { input with data := data })
        else .error "Input column must be of type TIMESTAMP_MICROSECONDS" := by
  choose c hc _ using exists_conversion writer reader
  refine ⟨zone.findsOffset_iff x, convertsExactly_iff_regular writer reader ts,
    input.data.map fun ts => (c ts).finalResult, ?_, ?_⟩
  · rw [List.forall₂_map_right_iff, List.forall₂_same]
    exact fun ts _ => ⟨c ts, hc ts, rfl⟩
  · have hmap : input.data.mapM (fun ts => (convertTimestampBetweenTimezones ts writer.table
        writer.rawOffset reader.table reader.rawOffset).map Conversion.finalResult) =
        some (input.data.map fun ts => (c ts).finalResult) := by
      simp only [hc, Option.map_some]
      exact List.mapM_pure
    unfold convertTimezones
    rw [hmap]
    rfl

/-- The last two transitions of Africa/Casablanca. -/
def casablanca : OrcZone where
  table := some ⟨[2138234400000, 2141863200000], [0, 3600000]⟩
  rawOffset := 0
  length_eq := by
    intro t ht
    obtain rfl := Option.some.inj ht
    rfl
  sorted := by
    intro t ht
    obtain rfl := Option.some.inj ht
    decide

/-- A zone without transitions. -/
def utc : OrcZone where
  table := none
  rawOffset := 0
  length_eq _ h := nomatch h
  sorted _ h := nomatch h

/-- From the last transition on, Casablanca is an hour ahead. At that instant the raw offset is found, and
the timestamp stays as it is. -/
theorem not_convertsExactly_casablanca : ¬casablanca.FindsOffset 2141863200000 ∧
    ¬ConvertsExactly casablanca utc 2141863200000000 := by
  have hends : casablanca.EndsAt 2141863200000 := ⟨(2141863200000, 3600000), rfl, rfl, by decide⟩
  refine ⟨fun h => (casablanca.findsOffset_iff _).1 h hends, fun h => ?_⟩
  exact ((convertsExactly_iff_regular _ _ _).1 h).writer_ends hends

end Conversions

end SparkRapids.OrcTimezones
