import SparkRapidsJni.Lib.PrefixSums

/-!
# Lists that are cut into segments

A list and offsets into it: segment `k` is what is between the offsets `k` and `k + 1`. If lists are joined,
cutting at the prefix sums of their lengths gives them back (`segmentOf_flatMap`).
-/

namespace SparkRapids.PrefixSums

variable {α : Type*} {values : List α} {offsets : ℕ → ℕ} {n k : ℕ}

/-- The values between two offsets. -/
def segmentOf (values : List α) (offsets : ℕ → ℕ) (k : ℕ) : List α :=
  (values.take (offsets (k + 1))).drop (offsets k)

theorem length_segmentOf (h : offsets (k + 1) ≤ values.length) :
    (segmentOf values offsets k).length = offsets (k + 1) - offsets k := by
  rw [segmentOf, List.length_drop, List.length_take, Nat.min_eq_left h]

theorem length_flatMap_range (text : ℕ → List α) (n : ℕ) :
    ((List.range n).flatMap text).length = exclusiveScan (fun i => (text i).length) n := by
  induction n with
  | zero => rfl
  | succ n ih =>
    rw [List.range_succ, List.flatMap_append, List.length_append, ih, List.flatMap_singleton,
      exclusiveScan_succ]

/-- The lists before are as long as the offset says. -/
theorem segmentOf_flatMap (text : ℕ → List α) (hk : k < n) :
    segmentOf ((List.range n).flatMap text) (exclusiveScan fun i => (text i).length) k = text k := by
  obtain ⟨m, rfl⟩ := Nat.exists_eq_add_of_lt hk
  rw [segmentOf, show k + m + 1 = k + 1 + m by omega, List.range_add, List.flatMap_append,
    ← length_flatMap_range text (k + 1), List.take_left, ← length_flatMap_range, List.range_succ,
    List.flatMap_append, List.drop_left, List.flatMap_singleton]

end SparkRapids.PrefixSums
