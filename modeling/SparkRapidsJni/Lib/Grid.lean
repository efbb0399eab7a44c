import Mathlib

/-!
# Rounding down to a grid

A grid is a set of points, and the floor of `x` is the greatest of them that is not above `x`. It is unique,
monotone in `x` and idempotent, whatever the grid is. The grids of the multiples of a number have floors by
division, and a grid of larger units has the floors that the grid of its units has (`IsFloor.scale`).
-/

namespace SparkRapids.Grid

section Order

variable {α : Type*} [PartialOrder α] {grid : Set α} {x y r q : α}

/-- The greatest point of the grid that is not above `x`. -/
def IsFloor (grid : Set α) (x r : α) : Prop := IsGreatest {b ∈ grid | b ≤ x} r

section

variable (h : IsFloor grid x r)
include h

theorem IsFloor.mem : r ∈ grid := h.1.1

theorem IsFloor.le : r ≤ x := h.1.2

theorem IsFloor.le_of_mem (hy : y ∈ grid) (hle : y ≤ x) : y ≤ r := h.2 ⟨hy, hle⟩

theorem IsFloor.unique (h' : IsFloor grid x q) : r = q := IsGreatest.unique h h'

theorem IsFloor.mono (h' : IsFloor grid y q) (hle : x ≤ y) : r ≤ q :=
  h'.le_of_mem h.mem (h.le.trans hle)

/-- From the floor on there is no other point up to `x`. -/
theorem IsFloor.between (hr : r ≤ y) (hy : y ≤ x) : IsFloor grid y r :=
  ⟨⟨h.mem, hr⟩, fun _ hb => h.le_of_mem hb.1 (hb.2.trans hy)⟩

end

theorem isFloor_self (h : x ∈ grid) : IsFloor grid x x := ⟨⟨h, le_rfl⟩, fun _ hb => hb.2⟩

theorem IsFloor.idem (h : IsFloor grid x r) : IsFloor grid r r := h.between le_rfl h.le

end Order

/-! ### Grids of integers -/

section Int

variable {grid : Set ℤ} {x r u : ℤ}

theorem isFloor_multiples (hu : 0 < u) (x : ℤ) : IsFloor {b | u ∣ b} x (x / u * u) := by
  refine ⟨⟨dvd_mul_left u _, Int.ediv_mul_le x hu.ne'⟩, ?_⟩
  rintro b ⟨⟨k, rfl⟩, hle⟩
  rw [mul_comm]
  refine Int.mul_le_mul_of_nonneg_right ?_ hu.le
  exact (Int.le_ediv_iff_mul_le hu).2 (by rwa [mul_comm])

/-- A grid of units, in a finer one. -/
theorem IsFloor.scale (hu : 0 < u) (h : IsFloor grid (x / u) r) :
    IsFloor ((· * u) '' grid) x (r * u) := by
  refine ⟨⟨⟨r, h.mem, rfl⟩, (Int.le_ediv_iff_mul_le hu).1 h.le⟩, ?_⟩
  rintro _ ⟨⟨b, hb, rfl⟩, hle⟩
  exact Int.mul_le_mul_of_nonneg_right (h.le_of_mem hb ((Int.le_ediv_iff_mul_le hu).2 hle)) hu.le

end Int

end SparkRapids.Grid
