/-
  Integers of C.

  `toInt32` is the conversion to a signed type of 32 bits, which keeps the
  lowest 32 bits.
-/
import Mathlib.Algebra.Group.Int.Defs
import Mathlib.Algebra.Group.Nat.Defs

namespace Lib

/-- The conversion to a 32-bit `int`. -/
def toInt32 (z : ℤ) : ℤ := z.bmod (2 ^ 32)

theorem toInt32_eq_self {z : ℤ} (h₁ : -2 ^ 31 ≤ z) (h₂ : z < 2 ^ 31) : toInt32 z = z :=
  Int.bmod_eq_of_le_mul_two (by omega) (by omega)

/-- A counter that wraps. -/
theorem toInt32_add_one (z : ℤ) : toInt32 (toInt32 z + 1) = toInt32 (z + 1) := by
  rw [toInt32, toInt32, toInt32, Int.bmod_add_bmod]

theorem toInt32_lt (z : ℤ) : toInt32 z < 2 ^ 31 := by
  have h := Int.bmod_lt (x := z) (m := 2 ^ 32) (by decide)
  exact h

end Lib
