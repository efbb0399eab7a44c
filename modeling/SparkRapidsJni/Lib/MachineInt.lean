import Mathlib

/-!
# Machine integers of 32 bits

The arithmetic of `int32_t` and `uint32_t` on the integers: a result is wrapped around.
-/

namespace SparkRapids.MachineInt

/-- The `int32_t` that is congruent to an integer. -/
def int32 (x : Int) : Int := x.bmod (2 ^ 32)

/-- The `uint32_t` that is congruent to an integer. -/
def uint32 (x : Int) : Int := x % 2 ^ 32

variable {x : Int}

theorem int32_of_range (hle : -2147483648 ≤ x) (hlt : x < 2147483648) : int32 x = x :=
  Int.bmod_eq_of_le (by omega) (by omega)

theorem uint32_of_range (hle : 0 ≤ x) (hlt : x < 4294967296) : uint32 x = x :=
  Int.emod_eq_of_lt hle hlt

/-- Wrapping a term of a difference does not change what the difference is in 32 bits. -/
theorem uint32_sub_int32 (x y : Int) : uint32 (x - int32 y) = uint32 (x - y) := by
  have hwrap : int32 y % 2 ^ 32 = y % 2 ^ 32 := by
    unfold int32
    rw [show (2 : Int) ^ 32 = ((2 ^ 32 : ℕ) : Int) by norm_num, Int.bmod_emod]
  unfold uint32
  rw [Int.sub_emod, hwrap, ← Int.sub_emod]

end SparkRapids.MachineInt
