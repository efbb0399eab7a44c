import Mathlib

/-!
# Binary search

`lowerBound` halves a range until nothing is left of it. If the entries below a value are the first ones
of the range, it finds the first entry that is not (`lowerBound_eq`).
-/

namespace SparkRapids.BinarySearch

variable {β : Type*} [LT β] [DecidableLT β] {a : ℤ → β} {x : β} {first r : ℤ} {len : ℕ}

/-- `lower_bound`, of `len` entries from `first` on -/
def lowerBound (a : ℤ → β) (x : β) (first : ℤ) (len : ℕ) : ℤ :=
  if len = 0 then first
  else
    let half := len / 2
    if a (first + half) < x then lowerBound a x (first + half + 1) (len - half - 1)
    else lowerBound a x first half
termination_by len
decreasing_by all_goals omega

theorem le_lowerBound (a : ℤ → β) (x : β) (first : ℤ) (len : ℕ) : first ≤ lowerBound a x first len := by
  fun_induction lowerBound a x first len with
  | case1 first => exact le_rfl
  | case2 first len hlen half hlt ih => omega
  | case3 first len hlen half hge ih => exact ih

theorem lowerBound_eq (hfirst : first ≤ r) (hlast : r ≤ first + len)
    (hbelow : ∀ i, first ≤ i → i < r → a i < x)
    (habove : ∀ i, r ≤ i → i < first + len → ¬a i < x) : lowerBound a x first len = r := by
  fun_induction lowerBound a x first len with
  | case1 first => omega
  | case2 first len hlen half hlt ih =>
    -- the entry in the middle is below, so the place is behind it
    have hmid : first + half < r := by
      by_contra hle
      exact habove _ (not_lt.1 hle) (by omega) hlt
    apply ih
    · omega
    · omega
    · intro i hi hir
      exact hbelow i (by omega) hir
    · intro i hi hlast
      exact habove i hi (by omega)
  | case3 first len hlen half hge ih =>
    have hmid : r ≤ first + half := by
      by_contra hlt
      exact hge (hbelow _ (by omega) (not_le.1 hlt))
    apply ih
    · exact hfirst
    · exact hmid
    · exact hbelow
    · intro i hi hlast
      exact habove i hi (by omega)

end SparkRapids.BinarySearch
