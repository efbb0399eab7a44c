import Mathlib

/-!
# Suprema of groups, by segments

Rows are in the order of their labels, and the rows of a label are a group. The rows are cut into
segments of `k`, whatever the groups are, and each segment is scanned on its own (`Scan`): what it has
of a group is put out behind the last row of the group, and what it has of its last group is kept.

The supremum of a group is what was put out for it and what was kept of it (`groupSup_segments`): a
segment that the group goes beyond has kept all that it has of the group.
-/

namespace SparkRapids.Segments

variable {α : Type*} [SemilatticeSup α] [OrderBot α] {label : ℕ → ℕ} {value : ℕ → α}
  {n k e g i j : ℕ}

/-- The supremum of the rows of a label among some rows. -/
def groupSup (label : ℕ → ℕ) (value : ℕ → α) (rows : Finset ℕ) (g : ℕ) : α :=
  (rows.filter (label · = g)).sup value

theorem le_groupSup {rows : Finset ℕ} (hj : j ∈ rows) (hg : label j = g) :
    value j ≤ groupSup label value rows g :=
  Finset.le_sup (f := value) (Finset.mem_filter.2 ⟨hj, hg⟩)

theorem groupSup_le {rows : Finset ℕ} {a : α} (h : ∀ j ∈ rows, label j = g → value j ≤ a) :
    groupSup label value rows g ≤ a :=
  Finset.sup_le fun j hj => h j (Finset.mem_filter.1 hj).1 (Finset.mem_filter.1 hj).2

theorem groupSup_mono {rows rows' : Finset ℕ} (h : rows ⊆ rows') :
    groupSup label value rows g ≤ groupSup label value rows' g :=
  groupSup_le fun _ hj hg => le_groupSup (h hj) hg

/-! ### Last rows of groups -/

/-- The labels do not decrease. -/
def Sorted (label : ℕ → ℕ) (n : ℕ) : Prop := ∀ i j, i ≤ j → j < n → label i ≤ label j

/-- The last row of its group. -/
def IsLast (label : ℕ → ℕ) (n i : ℕ) : Prop := i < n ∧ (i + 1 = n ∨ label (i + 1) ≠ label i)

instance : Decidable (IsLast label n i) := inferInstanceAs (Decidable (_ ∧ _))

theorem exists_isLast (label : ℕ → ℕ) (hj : j < n) : ∃ e, IsLast label n e ∧ label e = label j := by
  -- the greatest row of the group
  have hne : ((Finset.range n).filter (label · = label j)).Nonempty :=
    ⟨j, Finset.mem_filter.2 ⟨Finset.mem_range.2 hj, rfl⟩⟩
  obtain ⟨e, he, hmax⟩ := Finset.exists_max_image _ id hne
  obtain ⟨hlt, heq⟩ := Finset.mem_filter.1 he
  rw [Finset.mem_range] at hlt
  refine ⟨e, ⟨hlt, ?_⟩, heq⟩
  by_contra hnot
  push Not at hnot
  have hmem : e + 1 ∈ (Finset.range n).filter (label · = label j) :=
    Finset.mem_filter.2 ⟨Finset.mem_range.2 (by omega), hnot.2.trans heq⟩
  exact absurd (hmax _ hmem) (by simp)

/-- Behind the last row of a group is no other row of it. -/
theorem IsLast.le (h : IsLast label n e) (hsorted : Sorted label n) (hj : j < n)
    (heq : label j = label e) : j ≤ e := by
  by_contra hlt
  obtain ⟨-, hend | hne⟩ := h
  · omega
  · have hle := hsorted e (e + 1) (by omega) (by omega)
    have hle' := hsorted (e + 1) j (by omega) hj
    omega

theorem IsLast.unique (h : IsLast label n e) (h' : IsLast label n i) (hsorted : Sorted label n)
    (heq : label e = label i) : e = i :=
  le_antisymm (h'.le hsorted h.1 heq) (h.le hsorted h'.1 heq.symm)

/-! ### Scans -/

/-- The state of a scan. -/
structure Scan (α : Type*) where
  prev : ℕ
  acc : α
  out : List (ℕ × α)

namespace Scan

/-- A row joins the group, or the group is put out and the row starts the next one. -/
def step (label : ℕ → ℕ) (value : ℕ → α) (s : Scan α) (i : ℕ) : Scan α :=
  if label i = s.prev then ⟨label i, s.acc ⊔ value i, s.out⟩
  else ⟨label i, value i, s.out ++ [(s.prev, s.acc)]⟩

/-- The scan of `m` rows from `first` on. -/
def scan (label : ℕ → ℕ) (value : ℕ → α) (first m : ℕ) : Scan α :=
  (List.range' first m).foldl (step label value) ⟨label first, ⊥, []⟩

variable {first m : ℕ}

theorem scan_succ : scan label value first (m + 1) =
    step label value (scan label value first m) (first + m) := by
  unfold scan
  rw [List.range'_1_concat, List.foldl_append]
  rfl

theorem prev_scan : (scan label value first (m + 1)).prev = label (first + m) := by
  rw [scan_succ]
  unfold step
  split_ifs <;> rfl

/-- What is kept is what the scan has of the group of its last row. -/
theorem acc_scan (value : ℕ → α) (hsorted : Sorted label n) (hm : first + m < n) :
    (scan label value first (m + 1)).acc =
      groupSup label value (Finset.Ico first (first + m + 1)) (label (first + m)) := by
  induction m with
  | zero =>
    rw [scan_succ]
    simp [scan, step, groupSup, Finset.filter_singleton]
  | succ m ih =>
    have ih := ih (by omega)
    have hrows : Finset.Ico first (first + (m + 1) + 1) =
        insert (first + (m + 1)) (Finset.Ico first (first + m + 1)) :=
      (Finset.insert_Ico_right_eq_Ico_add_one (by omega)).symm
    rw [scan_succ, step, prev_scan, hrows, groupSup, Finset.filter_insert, if_pos rfl,
      Finset.sup_insert]
    split_ifs with heq
    · rw [ih, heq, sup_comm]
      rfl
    · -- the rows before are of smaller labels
      have hempty : (Finset.Ico first (first + m + 1)).filter
          (label · = label (first + (m + 1))) = ∅ := by
        refine Finset.filter_eq_empty_iff.2 fun j hj hj' => heq ?_
        have hbound := Finset.mem_Ico.1 hj
        have hle := hsorted j (first + m) (by omega) (by omega)
        have hle' := hsorted (first + m) (first + (m + 1)) (by omega) hm
        omega
      rw [hempty, Finset.sup_empty, sup_bot_eq]

/-- What is put out is what the scan has of the groups that end in it. -/
theorem mem_out_scan (hsorted : Sorted label n) (hm : first + m < n) {x : ℕ × α} :
    x ∈ (scan label value first (m + 1)).out ↔ ∃ i, first ≤ i ∧ i < first + m ∧ IsLast label n i ∧
      x = (label i, groupSup label value (Finset.Ico first (i + 1)) (label i)) := by
  induction m with
  | zero =>
    rw [scan_succ]
    simp only [scan, step, List.range'_zero, List.foldl_nil, Nat.add_zero, if_true, List.not_mem_nil,
      false_iff]
    rintro ⟨i, hle, hlt, -⟩
    omega
  | succ m ih =>
    have ih := ih (by omega)
    have hacc := acc_scan value hsorted (show first + m < n by omega)
    rw [scan_succ, step, prev_scan]
    -- the last row so far ends its group if the next row starts another one
    have hlast : IsLast label n (first + m) ↔ label (first + (m + 1)) ≠ label (first + m) := by
      unfold IsLast
      rw [Nat.add_assoc]
      omega
    split_ifs with heq
    · rw [ih]
      constructor
      · rintro ⟨i, hle, hlt, hi, rfl⟩
        exact ⟨i, hle, by omega, hi, rfl⟩
      · rintro ⟨i, hle, hlt, hi, rfl⟩
        rcases Nat.lt_or_ge i (first + m) with hi' | hi'
        · exact ⟨i, hle, hi', hi, rfl⟩
        · obtain rfl : i = first + m := by omega
          exact absurd heq (hlast.1 hi)
    · rw [List.mem_append, List.mem_singleton, ih, hacc]
      constructor
      · rintro (⟨i, hle, hlt, hi, rfl⟩ | rfl)
        · exact ⟨i, hle, by omega, hi, rfl⟩
        · exact ⟨first + m, by omega, by omega, hlast.2 heq, rfl⟩
      · rintro ⟨i, hle, hlt, hi, rfl⟩
        rcases Nat.lt_or_ge i (first + m) with hi' | hi'
        · exact .inl ⟨i, hle, hi', hi, rfl⟩
        · obtain rfl : i = first + m := by omega
          exact .inr rfl

/-- Where the last row ends its group, what is kept is put out as well. -/
theorem mem_out_close (value : ℕ → α) (hsorted : Sorted label n) (hm : first + m < n) {x : ℕ × α} :
    x ∈ (scan label value first (m + 1)).out ++
        (if IsLast label n (first + m) then
          [(label (first + m), (scan label value first (m + 1)).acc)] else []) ↔
      ∃ i, first ≤ i ∧ i ≤ first + m ∧ IsLast label n i ∧
        x = (label i, groupSup label value (Finset.Ico first (i + 1)) (label i)) := by
  rw [List.mem_append, mem_out_scan hsorted hm, acc_scan value hsorted hm]
  constructor
  · rintro (⟨i, hle, hlt, hi, rfl⟩ | hx)
    · exact ⟨i, hle, hlt.le, hi, rfl⟩
    · split_ifs at hx with hlast
      · exact ⟨first + m, by omega, le_rfl, hlast, List.mem_singleton.1 hx⟩
      · exact absurd hx List.not_mem_nil
  · rintro ⟨i, hle, hle', hi, rfl⟩
    rcases hle'.eq_or_lt with rfl | hlt
    · exact .inr (by rw [if_pos hi]; exact List.mem_singleton_self _)
    · exact .inl ⟨i, hle, hlt, hi, rfl⟩

/-- The scan of a segment puts out what it has of the groups that end in it. -/
theorem mem_out_segment (value : ℕ → α) {t : ℕ} (hk : 0 < k) (hsorted : Sorted label n)
    (hend : min ((t + 1) * k) n = t * k + m + 1) {x : ℕ × α} :
    x ∈ (scan label value (t * k) (m + 1)).out ++
        (if IsLast label n (t * k + m) then
          [(label (t * k + m), (scan label value (t * k) (m + 1)).acc)] else []) ↔
      ∃ e, e / k = t ∧ IsLast label n e ∧
        x = (label e, groupSup label value (Finset.Ico (e / k * k) (e + 1)) (label e)) := by
  have hsucc : (t + 1) * k = t * k + k := Nat.succ_mul t k
  rw [mem_out_close value hsorted (by omega)]
  constructor
  · rintro ⟨e, hle, hle', he, rfl⟩
    have hdiv : e / k = t := Nat.div_eq_of_lt_le (by omega) (by omega)
    exact ⟨e, hdiv, he, by rw [hdiv]⟩
  · rintro ⟨e, rfl, he, rfl⟩
    have hle := Nat.div_mul_le_self e k
    have hlt := Nat.lt_mul_div_succ e hk
    have hlast := he.1
    rw [Nat.mul_comm] at hlt
    exact ⟨e, hle, by omega, he, rfl⟩

end Scan

/-- The supremum of a group is the one up to its last row. -/
theorem IsLast.groupSup_eq (h : IsLast label n e) (hsorted : Sorted label n) :
    groupSup label value (Finset.Ico 0 (e + 1)) (label e) =
      groupSup label value (Finset.range n) (label e) := by
  have hlt := h.1
  apply le_antisymm
  · refine groupSup_mono fun j hj => Finset.mem_range.2 ?_
    have hj' := (Finset.mem_Ico.1 hj).2
    omega
  · refine groupSup_le fun j hj hlabel => le_groupSup (Finset.mem_Ico.2 ⟨Nat.zero_le j, ?_⟩) hlabel
    exact Nat.lt_succ_of_le (h.le hsorted (Finset.mem_range.1 hj) hlabel)

/-! ### Segments -/

/-- The last row of a segment. -/
def lastRow (n k t : ℕ) : ℕ := min ((t + 1) * k) n - 1

/-- The rows of a segment. -/
def rows (n k t : ℕ) : Finset ℕ := Finset.Ico (t * k) (min ((t + 1) * k) n)

/-- The labels of the last rows are in order. -/
theorem Sorted.lastRow (hsorted : Sorted label n) (hn : 0 < n) :
    Sorted (fun t => label (lastRow n k t)) ((n + k - 1) / k) := by
  intro t t' hle _
  have hmul := Nat.mul_le_mul_right k (Nat.add_le_add_right hle 1)
  refine hsorted _ _ ?_ ?_ <;> unfold Segments.lastRow <;> omega

/-- A segment has a first and a last row. -/
theorem segment_bounds {t : ℕ} (hk : 0 < k) (ht : t < (n + k - 1) / k) :
    ∃ m, min ((t + 1) * k) n = t * k + m + 1 ∧ lastRow n k t = t * k + m ∧ t * k + m < n := by
  rw [Nat.lt_div_iff_mul_lt hk] at ht
  have hsucc : (t + 1) * k = t * k + k := Nat.succ_mul t k
  have hmul : k * t = t * k := Nat.mul_comm k t
  unfold lastRow
  refine ⟨min ((t + 1) * k) n - 1 - t * k, ?_, ?_, ?_⟩ <;> omega

/-- Behind the last segment there are no rows. -/
theorem segment_empty {t : ℕ} (hk : 0 < k) (ht : (n + k - 1) / k ≤ t) :
    min ((t + 1) * k) n - t * k = 0 := by
  rw [Nat.div_le_iff_le_mul hk] at ht
  omega

theorem groupSup_apply {ι : Type*} {value : ℕ → ι → ℕ} {rows : Finset ℕ} {i : ι} :
    groupSup label value rows g i = groupSup label (fun j => value j i) rows g :=
  Finset.sup_apply _ _ _

/-- What is put out for a group, and what the segments have kept of it. -/
theorem groupSup_segments (hsorted : Sorted label n) (hlast : IsLast label n e) {kept : ℕ → α}
    (hle : ∀ t < (n + k - 1) / k, kept t ≤ groupSup label value (rows n k t) (label (lastRow n k t)))
    (heq : ∀ t < (n + k - 1) / k, ¬IsLast label n (lastRow n k t) →
      kept t = groupSup label value (rows n k t) (label (lastRow n k t))) (hk : 0 < k) :
    groupSup label value (Finset.Ico (e / k * k) (e + 1)) (label e) ⊔
        groupSup (fun t => label (lastRow n k t)) kept (Finset.range ((n + k - 1) / k)) (label e) =
      groupSup label value (Finset.range n) (label e) := by
  have hen : e < n := hlast.1
  apply le_antisymm
  · refine sup_le (groupSup_mono fun j hj => ?_) (groupSup_le fun t ht hlabel => ?_)
    · rw [Finset.mem_Ico] at hj
      exact Finset.mem_range.2 (by omega)
    · calc kept t ≤ groupSup label value (rows n k t) (label (lastRow n k t)) :=
            hle t (Finset.mem_range.1 ht)
        _ ≤ groupSup label value (Finset.range n) (label e) := by
          rw [hlabel]
          refine groupSup_mono fun j hj => Finset.mem_range.2 ?_
          exact (Finset.mem_Ico.1 hj).2.trans_le (min_le_right _ _)
  · refine groupSup_le fun j hj hlabel => ?_
    rw [Finset.mem_range] at hj
    have hje : j ≤ e := hlast.le hsorted hj hlabel
    have hseg := Nat.div_add_mod j k
    have hmod := Nat.mod_lt j hk
    rw [Nat.mul_comm] at hseg
    rcases (Nat.div_le_div_right (c := k) hje).eq_or_lt with hsame | hbefore
    · -- in the segment of the last row
      refine (le_groupSup (Finset.mem_Ico.2 ⟨?_, by omega⟩) hlabel).trans le_sup_left
      rw [← hsame]
      omega
    · -- in a segment that the group goes beyond
      have hend : (j / k + 1) * k ≤ e / k * k := Nat.mul_le_mul_right k hbefore
      have hend' := Nat.div_mul_le_self e k
      have hsucc : (j / k + 1) * k = j / k * k + k := Nat.succ_mul _ _
      have hrow : lastRow n k (j / k) = (j / k + 1) * k - 1 := by
        unfold lastRow
        rw [min_eq_left (by omega)]
      have hlow := hsorted j (lastRow n k (j / k)) (by omega) (by omega)
      have hhigh := hsorted (lastRow n k (j / k)) e (by omega) hen
      have hlabel' : label (lastRow n k (j / k)) = label e := by omega
      have ht : j / k < (n + k - 1) / k := by
        rw [Nat.lt_div_iff_mul_lt hk]
        omega
      have hnot : ¬IsLast label n (lastRow n k (j / k)) := fun h => by
        have hle' := h.le hsorted hen hlabel'.symm
        omega
      have hmem : j ∈ rows n k (j / k) := by
        refine Finset.mem_Ico.2 ⟨by omega, lt_min (by omega) hj⟩
      calc value j ≤ groupSup label value (rows n k (j / k)) (label (lastRow n k (j / k))) :=
            le_groupSup hmem (hlabel.trans hlabel'.symm)
        _ = kept (j / k) := (heq _ ht hnot).symm
        _ ≤ groupSup (fun t => label (lastRow n k t)) kept (Finset.range ((n + k - 1) / k)) (label e) :=
          @le_groupSup _ _ _ (fun t => label (lastRow n k t)) _ _ _ _ (Finset.mem_range.2 ht) hlabel'
        _ ≤ _ := le_sup_right

end SparkRapids.Segments
