import Mathlib

/-!
# Sorting labelled segments

The rows of a table carry labels, and the rows of one label lie one behind the other. A sort by the label
first leaves each segment where it is, and only changes the order of the rows in it
(`segment_perm`).
-/

namespace SparkRapids.SegmentedSort

variable {β γ : Type*} {table sorted : List (ℕ × β)} {i a n : ℕ}

/-- Where the entries with a property are the ones of a segment, it is filtered out. -/
theorem filter_eq_segment {l : List γ} {p : γ → Bool} {a n : ℕ}
    (h : ∀ k x, l[k]? = some x → (p x = true ↔ a ≤ k ∧ k < a + n)) :
    l.filter p = (l.drop a).take n := by
  have hbefore : (l.take a).filter p = [] := by
    rw [List.filter_eq_nil_iff]
    intro x hx hp
    obtain ⟨k, hk⟩ := List.getElem?_of_mem hx
    have hlt := (List.getElem?_eq_some_iff.1 hk).1
    rw [List.length_take] at hlt
    rw [List.getElem?_take_of_lt (by omega)] at hk
    have := (h k x hk).1 hp
    omega
  have hsegment : ((l.drop a).take n).filter p = (l.drop a).take n := by
    rw [List.filter_eq_self]
    intro x hx
    obtain ⟨k, hk⟩ := List.getElem?_of_mem hx
    have hlt := (List.getElem?_eq_some_iff.1 hk).1
    rw [List.length_take] at hlt
    rw [List.getElem?_take_of_lt (by omega), List.getElem?_drop] at hk
    exact (h (a + k) x hk).2 ⟨by omega, by omega⟩
  have hbehind : ((l.drop a).drop n).filter p = [] := by
    rw [List.filter_eq_nil_iff]
    intro x hx hp
    obtain ⟨k, hk⟩ := List.getElem?_of_mem hx
    rw [List.getElem?_drop, List.getElem?_drop] at hk
    have := (h _ x hk).1 hp
    omega
  calc l.filter p
      = (l.take a ++ ((l.drop a).take n ++ (l.drop a).drop n)).filter p := by
        rw [List.take_append_drop, List.take_append_drop]
    _ = (l.drop a).take n := by
        rw [List.filter_append, List.filter_append, hbefore, hsegment, hbehind, List.nil_append,
          List.append_nil]

/-- The labels stay where they are. -/
theorem map_fst_eq (hperm : sorted.Perm table) (htable : table.Pairwise (·.1 ≤ ·.1))
    (hsorted : sorted.Pairwise (·.1 ≤ ·.1)) : sorted.map Prod.fst = table.map Prod.fst :=
  (hperm.map Prod.fst).eq_of_pairwise (fun _ _ _ _ => Nat.le_antisymm) (List.pairwise_map.2 hsorted)
    (List.pairwise_map.2 htable)

/-- So a segment has the same rows, in another order. -/
theorem segment_perm (hperm : sorted.Perm table) (htable : table.Pairwise (·.1 ≤ ·.1))
    (hsorted : sorted.Pairwise (·.1 ≤ ·.1))
    (hlabel : ∀ k label, (table.map Prod.fst)[k]? = some label → (label = i ↔ a ≤ k ∧ k < a + n)) :
    ((sorted.drop a).take n).Perm ((table.drop a).take n) := by
  have hfilter : ∀ l : List (ℕ × β), l.map Prod.fst = table.map Prod.fst →
      l.filter (fun row => row.1 = i) = (l.drop a).take n := by
    intro l hl
    refine filter_eq_segment fun k row hk => ?_
    rw [decide_eq_true_iff]
    refine hlabel k row.1 ?_
    rw [← hl, List.getElem?_map, hk]
    rfl
  rw [← hfilter sorted (map_fst_eq hperm htable hsorted), ← hfilter table rfl]
  exact hperm.filter _

end SparkRapids.SegmentedSort
