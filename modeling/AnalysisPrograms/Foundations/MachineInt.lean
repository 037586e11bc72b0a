import Mathlib.Algebra.Ring.Int.Defs
import Mathlib.Algebra.Ring.Nat

namespace Foundations.MachineInt

def toInt32 (x : ℤ) : ℤ := Int.bmod x (2 ^ 32)

theorem toInt32_cases (x : ℤ) :
    toInt32 x = x % 2 ^ 32 ∧ x % 2 ^ 32 < 2 ^ 31 ∨
      toInt32 x = x % 2 ^ 32 - 2 ^ 32 ∧ 2 ^ 31 ≤ x % 2 ^ 32 := by
  unfold toInt32
  rw [Int.bmod_def]
  split
  · omega
  · omega

theorem toInt32_lt (x : ℤ) : toInt32 x < 2 ^ 31 := by
  have h := toInt32_cases x
  omega

theorem toInt32_le {x : ℤ} (hx : 0 ≤ x) : toInt32 x ≤ x := by
  have h := toInt32_cases x
  omega

theorem toInt32_eq {x : ℤ} (hx : 0 ≤ x) (hx' : x < 2 ^ 31) : toInt32 x = x := by
  have h := toInt32_cases x
  omega

theorem toInt32_eq_iff (x y : ℤ) : toInt32 x = toInt32 y ↔ 2 ^ 32 ∣ x - y := by
  rw [toInt32, toInt32, Int.bmod_eq_bmod_iff_bmod_sub_eq_zero, ← Int.dvd_iff_bmod_eq_zero]
  norm_cast

end Foundations.MachineInt
