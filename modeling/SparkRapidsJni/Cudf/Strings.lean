import SparkRapidsJni.Lib.Ascii
import SparkRapidsJni.Lib.PrefixSums

/-!
# `cudf`: strings columns

The library `cudf` is not part of this repository. What is used of it is an argument here, with what its
documentation says: `make_offsets_child_column` makes offsets of sizes, and throws where they do not fit.

The build script sets `CUDF_LARGE_STRINGS_DISABLED`, so there are fewer than `2 ^ 31 - 1` characters in a
column.
-/

namespace SparkRapids.Cudf

open PrefixSums

/-- The value of a `size_type`: it wraps around. -/
def toSizeType (n : ℤ) : ℤ := n.bmod (2 ^ 32)

/-- A strings column that is made: characters and offsets. -/
structure Strings where
  chars : ℤ → Byte
  offsets : ℕ → ℤ

/-- The characters of a row. -/
def Strings.str (strings : Strings) (k : ℕ) : List Byte :=
  (List.range (strings.offsets (k + 1) - strings.offsets k).toNat).map fun (i : ℕ) =>
    strings.chars (strings.offsets k + i)

theorem Strings.str_eq {strings : Strings} {k n : ℕ}
    (h : strings.offsets (k + 1) - strings.offsets k = n) :
    strings.str k = (List.range n).map fun (i : ℕ) => strings.chars (strings.offsets k + i) := by
  rw [str, h, Int.toNat_natCast]

/-- The sizes before a row, or of all rows. -/
def total (sizes : ℕ → ℤ) (k : ℕ) : ℤ := ∑ i ∈ Finset.range k, sizes i

theorem total_succ (sizes : ℕ → ℤ) (k : ℕ) : total sizes (k + 1) = total sizes k + sizes k :=
  Finset.sum_range_succ sizes k

theorem total_natCast (sizes : ℕ → ℕ) (k : ℕ) :
    total (fun i => sizes i) k = exclusiveScan sizes k := (Nat.cast_sum ..).symm

theorem total_eq_exclusiveScan {sizes : ℕ → ℤ} {k : ℕ} (h : ∀ i < k, 0 ≤ sizes i) :
    total sizes k = exclusiveScan (fun i => (sizes i).toNat) k := by
  rw [← total_natCast]
  exact Finset.sum_congr rfl fun i hi => (Int.toNat_of_nonneg (h i (Finset.mem_range.mp hi))).symm

/-- `cudf::strings::detail::make_offsets_child_column`: the offsets of rows with so many characters, or
none where it throws. -/
class MakeOffsets where
  makeOffsets (sizes : ℕ → ℤ) (size : ℕ) : Option (ℕ → ℤ)
  /-- The offsets are the sums of the sizes. -/
  offsets_eq : ∀ {sizes : ℕ → ℤ} {size : ℕ} {offsets : ℕ → ℤ},
    makeOffsets sizes size = some offsets → ∀ k ≤ size, offsets k = total sizes k
  /-- It throws if the characters are too many. -/
  isSome_iff : ∀ {sizes : ℕ → ℤ} {size : ℕ}, (∀ k < size, 0 ≤ sizes k) →
    ((makeOffsets sizes size).isSome ↔ total sizes size < 2 ^ 31 - 1)

/-- The offsets are apart by the sizes. -/
theorem MakeOffsets.sub_eq [MakeOffsets] {sizes : ℕ → ℤ} {size : ℕ} {offsets : ℕ → ℤ}
    (h : makeOffsets sizes size = some offsets) {k : ℕ} (hk : k < size) :
    offsets (k + 1) - offsets k = sizes k := by
  rw [offsets_eq h _ hk, offsets_eq h k hk.le, total_succ, add_sub_cancel_left]

/-- It adds up the sizes. -/
instance : MakeOffsets where
  makeOffsets sizes size := if total sizes size < 2 ^ 31 - 1 then some (total sizes) else none
  offsets_eq h k _ := by
    split_ifs at h
    rw [Option.some.inj h]
  isSome_iff _ := by
    split_ifs with h
    · exact iff_of_true rfl h
    · exact iff_of_false Bool.false_ne_true h

end SparkRapids.Cudf
