import Mathlib

/-!
# Timelines of transitions

A transition sets an offset from its time on. A timeline has a list of transitions, and may have a
periodic sequence of them that goes on for ever in both directions: of these the ones behind the last
one of the list count. The offset in force at a time is the one of the latest transition up to it
(`Timeline.Latest`), which there is at most one of (`Timeline.Latest.unique`).

Where the periodic transitions continue the ones of the list, the offset behind the list is the one of
the latest periodic transition, whether it counts or not (`Timeline.exists_latest_periodic`).
-/

namespace SparkRapids

/-- Transitions, of a time and an offset each. -/
structure Timeline where
  fixed : List (ℤ × ℤ)
  periodic : Option (ℤ → ℤ × ℤ)

namespace Timeline

/-- The place of a transition. -/
inductive Place
  | fixed (k : ℕ)
  | periodic (j : ℤ)

/-- The order of the transitions. -/
def Place.Before : Place → Place → Prop
  | fixed k, fixed k' => k < k'
  | fixed _, periodic _ => True
  | periodic _, fixed _ => False
  | periodic j, periodic j' => j < j'

theorem Place.trichotomy (p p' : Place) : p.Before p' ∨ p = p' ∨ p'.Before p := by
  cases p with
  | fixed k =>
    cases p' with
    | fixed k' =>
      simp only [Before, fixed.injEq]
      exact lt_trichotomy k k'
    | periodic j' => exact .inl trivial
  | periodic j =>
    cases p' with
    | fixed k' => exact .inr (.inr trivial)
    | periodic j' =>
      simp only [Before, periodic.injEq]
      exact lt_trichotomy j j'

variable {tl : Timeline} {t : ℤ} {p p' : Place} {x x' last : ℤ × ℤ} {f : ℤ → ℤ × ℤ}

/-- The timeline has the transition `x` at a place. -/
def At (tl : Timeline) : Place → ℤ × ℤ → Prop
  | .fixed k, x => tl.fixed[k]? = some x
  | .periodic j, x => ∃ f, tl.periodic = some f ∧ f j = x ∧ ∀ last ∈ tl.fixed.getLast?, last.1 < x.1

theorem At.unique (h : tl.At p x) (h' : tl.At p x') : x = x' := by
  cases p with
  | fixed k => exact Option.some.inj (h.symm.trans h')
  | periodic j =>
    obtain ⟨f, hf, rfl, -⟩ := h
    obtain ⟨f', hf', rfl, -⟩ := h'
    rw [Option.some.inj (hf.symm.trans hf')]

/-- The latest transition up to a time. -/
structure Latest (tl : Timeline) (t : ℤ) (p : Place) (x : ℤ × ℤ) : Prop where
  isAt : tl.At p x
  le : x.1 ≤ t
  next : ∀ p' x', p.Before p' → tl.At p' x' → t < x'.1

theorem Latest.unique (h : tl.Latest t p x) (h' : tl.Latest t p' x') : x = x' := by
  rcases p.trichotomy p' with hbefore | rfl | hafter
  · exact absurd h'.le (not_le.2 (h.next p' x' hbefore h'.isAt))
  · exact h.isAt.unique h'.isAt
  · exact absurd h.le (not_le.2 (h'.next p x hafter h.isAt))

/-- Where no transition is at a time, the latest one is before it. -/
theorem Latest.pred (h : tl.Latest t p x) (hne : ∀ p x, tl.At p x → x.1 ≠ t) :
    tl.Latest (t - 1) p x := by
  have hle := h.le
  have hx := hne p x h.isAt
  refine ⟨h.isAt, by omega, fun p' x' hp' hx' => ?_⟩
  have hlt := h.next p' x' hp' hx'
  omega

/-- The list is in order, and continued by the periodic transitions. -/
structure Valid (tl : Timeline) : Prop where
  sorted : tl.fixed.Pairwise (·.1 ≤ ·.1)
  strictMono : ∀ f, tl.periodic = some f → StrictMono fun j => (f j).1
  continues : ∀ f, tl.periodic = some f → ∀ last ∈ tl.fixed.getLast?, ∀ j,
    (f j).1 ≤ last.1 → last.1 < (f (j + 1)).1 → (f j).2 = last.2

theorem Valid.le_last (h : tl.Valid) {k : ℕ} (hx : tl.fixed[k]? = some x)
    (hlast : last ∈ tl.fixed.getLast?) : x.1 ≤ last.1 := by
  obtain ⟨hlt, rfl⟩ := List.getElem?_eq_some_iff.1 hx
  rw [List.getLast?_eq_getElem?, Option.mem_def, List.getElem?_eq_some_iff] at hlast
  obtain ⟨hlt', rfl⟩ := hlast
  rcases (Nat.le_sub_one_of_lt hlt).eq_or_lt with hk | hk
  · simp only [← hk, le_refl]
  · exact List.pairwise_iff_getElem.1 h.sorted _ _ _ _ hk

/-- A transition of the list is the latest one up to the next of the list. -/
theorem Valid.latest_fixed (h : tl.Valid) {k : ℕ} (hx : tl.fixed[k]? = some x) (hle : x.1 ≤ t)
    (hnext : ∀ x', tl.fixed[k + 1]? = some x' → t < x'.1)
    (hperiodic : ∀ j x', tl.At (.periodic j) x' → t < x'.1) : tl.Latest t (.fixed k) x := by
  refine ⟨hx, hle, fun p' x' hp' hx' => ?_⟩
  cases p' with
  | periodic j => exact hperiodic j x' hx'
  | fixed k' =>
    have hk : k + 1 ≤ k' := hp'
    obtain ⟨hlt', rfl⟩ := List.getElem?_eq_some_iff.1 hx'
    have hlt := hnext _ (List.getElem?_eq_getElem (show k + 1 < tl.fixed.length by omega))
    rcases hk.eq_or_lt with rfl | hk
    · exact hlt
    · exact hlt.trans_le (List.pairwise_iff_getElem.1 h.sorted _ _ _ _ hk)

/-- Behind the list, the offset is the one of the latest periodic transition. -/
theorem Valid.exists_latest_periodic (h : tl.Valid) (hf : tl.periodic = some f)
    (hlast : last ∈ tl.fixed.getLast?) (hlt : last.1 < t) {j : ℤ} (hle : (f j).1 ≤ t)
    (hnext : t < (f (j + 1)).1) : ∃ p x, tl.Latest t p x ∧ x.2 = (f j).2 := by
  have hmono := (h.strictMono f hf).monotone
  have hbehind : ∀ j', j + 1 ≤ j' → t < (f j').1 := fun j' hj' => hnext.trans_le (hmono hj')
  by_cases hcounts : last.1 < (f j).1
  · refine ⟨.periodic j, f j, ⟨⟨f, hf, rfl, fun last' hlast' => ?_⟩, hle, fun p' x' hp' hx' => ?_⟩,
      rfl⟩
    · rwa [Option.mem_unique hlast' hlast]
    · cases p' with
      | fixed k => exact absurd hp' not_false
      | periodic j' =>
        obtain ⟨f', hf', rfl, -⟩ := hx'
        obtain rfl := Option.some.inj (hf.symm.trans hf')
        exact hbehind j' hp'
  · -- the last transition of the list has the same offset
    have hget : tl.fixed[tl.fixed.length - 1]? = some last := by
      rw [← List.getLast?_eq_getElem?]
      exact hlast
    refine ⟨.fixed (tl.fixed.length - 1), last, h.latest_fixed hget hlt.le (fun x' hx' => ?_)
      (fun j' x' hx' => ?_), (h.continues f hf last hlast j (not_lt.1 hcounts) (hlt.trans hnext)).symm⟩
    · have hlen := (List.getElem?_eq_some_iff.1 hx').1
      omega
    · obtain ⟨f', hf', rfl, hbefore⟩ := hx'
      obtain rfl := Option.some.inj (hf.symm.trans hf')
      refine hbehind j' (not_lt.1 fun hj' => ?_)
      have hle' := hmono (Int.lt_add_one_iff.1 hj')
      exact hcounts ((hbefore last hlast).trans_le hle')

end Timeline

end SparkRapids
