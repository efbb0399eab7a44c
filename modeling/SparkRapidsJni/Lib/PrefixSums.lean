import Mathlib

/-!
# Prefix sums and their segments

Segments lie one behind the other, each one from the prefix sum of the sizes before it on. An index
is in one of them only (`exists_segment`, `segment_unique`).

Where a segment is made of segments of one size, the inner ones lie one behind the other as well
(`exclusiveScan_nested`).
-/

namespace SparkRapids.PrefixSums

/-- `thrust::exclusive_scan` -/
def exclusiveScan (size : ℕ → ℕ) (k : ℕ) : ℕ := ∑ i ∈ Finset.range k, size i

variable {size : ℕ → ℕ} {n i j k : ℕ}

theorem exclusiveScan_succ (size : ℕ → ℕ) (k : ℕ) :
    exclusiveScan size (k + 1) = exclusiveScan size k + size k :=
  Finset.sum_range_succ size k

theorem exclusiveScan_mono (size : ℕ → ℕ) : Monotone (exclusiveScan size) :=
  monotone_nat_of_le_succ fun k => by
    rw [exclusiveScan_succ]
    exact Nat.le_add_right ..

theorem exclusiveScan_congr {size' : ℕ → ℕ} (h : ∀ i < k, size i = size' i) :
    exclusiveScan size k = exclusiveScan size' k :=
  Finset.sum_congr rfl fun i hi => h i (Finset.mem_range.1 hi)

/-- Over a list, it is the sum of the entries before. -/
theorem exclusiveScan_getD (sizes : List ℕ) (k : ℕ) :
    exclusiveScan (fun i => sizes.getD i 0) k = (sizes.take k).sum := by
  induction k with
  | zero => rfl
  | succ k ih =>
    rw [exclusiveScan_succ, ih, List.take_add_one, List.sum_append]
    refine congrArg _ ?_
    rw [List.getD_eq_getElem?_getD]
    cases sizes[k]? with
    | none => rfl
    | some size => simp

theorem exists_segment (h : i < exclusiveScan size n) :
    ∃ k < n, ∃ j < size k, i = exclusiveScan size k + j := by
  induction n with
  | zero => exact absurd h (Nat.not_lt_zero i)
  | succ n ih =>
    rcases Nat.lt_or_ge i (exclusiveScan size n) with hlt | hge
    · obtain ⟨k, hk, hj⟩ := ih hlt
      exact ⟨k, by omega, hj⟩
    · rw [exclusiveScan_succ] at h
      exact ⟨n, Nat.lt_succ_self n, i - exclusiveScan size n, by omega, by omega⟩

theorem segment_unique {k' j' : ℕ} (hj : j < size k) (hj' : j' < size k')
    (h : exclusiveScan size k + j = exclusiveScan size k' + j') : k = k' ∧ j = j' := by
  have hend : ∀ {a b}, a < b → exclusiveScan size a + size a ≤ exclusiveScan size b := by
    intro a b hlt
    rw [← exclusiveScan_succ]
    exact exclusiveScan_mono size hlt
  rcases Nat.lt_trichotomy k k' with hlt | rfl | hgt
  · have := hend hlt
    omega
  · exact ⟨rfl, by omega⟩
  · have := hend hgt
    omega

/-- The indices are those of the segments, one segment after the other. -/
theorem range_exclusiveScan (size : ℕ → ℕ) (n : ℕ) : List.range (exclusiveScan size n) =
    (List.range n).flatMap fun k => (List.range (size k)).map fun j => exclusiveScan size k + j := by
  induction n with
  | zero => rfl
  | succ n ih =>
    rw [exclusiveScan_succ, List.range_add, ih, List.range_succ, List.flatMap_append,
      List.flatMap_singleton]

/-- Segments of `count r` segments of the size `inner r` each. -/
theorem exclusiveScan_nested {count inner : ℕ → ℕ} {r : ℕ}
    (hsize : ∀ r' ≤ r, ∀ j' < count r', size (exclusiveScan count r' + j') = inner r')
    (hj : j ≤ count r) :
    exclusiveScan size (exclusiveScan count r + j) =
      exclusiveScan (fun r => count r * inner r) r + j * inner r := by
  induction r generalizing j with
  | zero =>
    induction j with
    | zero => simp [exclusiveScan]
    | succ j ih =>
      rw [← Nat.add_assoc, exclusiveScan_succ, ih (by omega), hsize 0 le_rfl j (by omega),
        Nat.add_one_mul, Nat.add_assoc]
  | succ r ih =>
    have ih := ih (j := count r) (fun r' hr' => hsize r' (by omega)) le_rfl
    rw [← exclusiveScan_succ, ← exclusiveScan_succ] at ih
    induction j with
    | zero => simpa using ih
    | succ j ihj =>
      rw [← Nat.add_assoc, exclusiveScan_succ, ihj (by omega), hsize (r + 1) le_rfl j (by omega),
        Nat.add_one_mul, Nat.add_assoc]

end SparkRapids.PrefixSums
