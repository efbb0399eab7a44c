import Mathlib.Algebra.Order.BigOperators.Group.Finset
import Std.Data.ExtTreeSet.Lemmas

/-!
# Ordered maps and sets over a linear order

`Std.ExtTreeMap` and `Std.ExtTreeSet` are the model of `std::map` and `std::set`. Their lookup
lemmas are stated with the comparison function; over a linear order that comparison is equality,
and the lemmas here say so, in the form the proofs rewrite with.
-/

namespace Std.ExtTreeMap

variable {κ β : Type*} [LinearOrder κ] (m : ExtTreeMap κ β)

theorem getElem?_insert_eq (k a : κ) (v : β) :
    (m.insert k v)[a]? = if k = a then some v else m[a]? := by
  rw [getElem?_insert]
  simp only [compare_eq_iff_eq]

theorem getElem?_erase_eq (k a : κ) : (m.erase k)[a]? = if k = a then none else m[a]? := by
  rw [getElem?_erase]
  simp only [compare_eq_iff_eq]

theorem getElem?_modify_eq (k a : κ) (f : β → β) :
    (m.modify k f)[a]? = if k = a then m[a]?.map f else m[a]? := by
  rw [getElem?_modify]
  simp only [compare_eq_iff_eq]
  split
  · next h => rw [h]
  · rfl

variable {m}

theorem mem_toList_iff {k : κ} {v : β} : (k, v) ∈ m.toList ↔ m[k]? = some v :=
  mem_toList_iff_getElem?_eq_some

theorem eq_empty_iff_getElem? : m = ∅ ↔ ∀ k : κ, m[k]? = none := by
  constructor
  · rintro rfl k
    exact getElem?_empty
  · intro h
    ext k v
    rw [h k, getElem?_empty]

/-! ### Sums over the entries -/

/-- The sum of `g` over the values of a map. -/
def sumValues (m : ExtTreeMap κ β) (g : β → ℕ) : ℕ :=
  ∑ k ∈ m.keys.toFinset, m[k]?.elim 0 g

/-- The sum may be taken over any keys that include those of the map. -/
theorem sumValues_eq_sum {g : β → ℕ} {K : Finset κ} (hK : ∀ k v, m[k]? = some v → k ∈ K) :
    m.sumValues g = ∑ k ∈ K, m[k]?.elim 0 g := by
  refine Finset.sum_subset ?_ ?_
  · intro k hk
    rw [List.mem_toFinset, mem_keys] at hk
    exact hK k m[k] (getElem?_eq_some_getElem hk)
  · intro k _ hk
    rw [List.mem_toFinset, mem_keys] at hk
    rw [getElem?_eq_none hk]
    rfl

theorem mem_keys_toFinset {k : κ} {v : β} (h : m[k]? = some v) : k ∈ m.keys.toFinset := by
  rw [List.mem_toFinset, mem_keys]
  exact mem_iff_isSome_getElem?.2 (by rw [h]; rfl)

/-- Two maps that agree in what they add up to at every key have the same sum. -/
theorem sumValues_congr {m' : ExtTreeMap κ β} {g : β → ℕ}
    (h : ∀ k : κ, m'[k]?.elim 0 g = m[k]?.elim 0 g) : m'.sumValues g = m.sumValues g := by
  rw [sumValues_eq_sum (K := m.keys.toFinset ∪ m'.keys.toFinset) fun k v hk =>
      Finset.mem_union_right _ (mem_keys_toFinset hk),
    sumValues_eq_sum (K := m.keys.toFinset ∪ m'.keys.toFinset) fun k v hk =>
      Finset.mem_union_left _ (mem_keys_toFinset hk)]
  exact Finset.sum_congr rfl fun k _ => h k

/-- A change at one key changes the sum by the difference of the values there. -/
theorem sumValues_update {m' : ExtTreeMap κ β} {g : β → ℕ} {a : κ}
    (h : ∀ k : κ, a ≠ k → m'[k]? = m[k]?) :
    m'.sumValues g + m[a]?.elim 0 g = m.sumValues g + m'[a]?.elim 0 g := by
  let K : Finset κ := {a} ∪ (m.keys.toFinset ∪ m'.keys.toFinset)
  have ha : a ∈ K := Finset.mem_union_left _ (Finset.mem_singleton_self a)
  have hm : ∀ k v, m[k]? = some v → k ∈ K := fun k v hk =>
    Finset.mem_union_right _ (Finset.mem_union_left _ (mem_keys_toFinset hk))
  have hm' : ∀ k v, m'[k]? = some v → k ∈ K := fun k v hk =>
    Finset.mem_union_right _ (Finset.mem_union_right _ (mem_keys_toFinset hk))
  rw [sumValues_eq_sum hm, sumValues_eq_sum hm', ← Finset.add_sum_erase K _ ha,
    ← Finset.add_sum_erase K _ ha]
  have hrest : ∑ k ∈ K.erase a, m'[k]?.elim 0 g = ∑ k ∈ K.erase a, m[k]?.elim 0 g := by
    refine Finset.sum_congr rfl fun k hk => ?_
    rw [h k (Ne.symm (Finset.ne_of_mem_erase hk))]
  rw [hrest]
  omega

end Std.ExtTreeMap

namespace Std.ExtTreeSet

variable {κ : Type*} [LinearOrder κ] {s : ExtTreeSet κ}

theorem mem_insert_iff {k a : κ} : a ∈ s.insert k ↔ k = a ∨ a ∈ s := by
  rw [mem_insert, compare_eq_iff_eq]

theorem mem_erase_iff {k a : κ} : a ∈ s.erase k ↔ k ≠ a ∧ a ∈ s := by
  rw [mem_erase, ne_eq, compare_eq_iff_eq]

theorem nodup_toList (s : ExtTreeSet κ) : s.toList.Nodup :=
  s.distinct_toList.imp fun h heq => h (compare_eq_iff_eq.2 heq)

end Std.ExtTreeSet
