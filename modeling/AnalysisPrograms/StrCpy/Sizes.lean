import AnalysisPrograms.StrCpy.Program

namespace AnalysisPrograms.StrCpy

open Foundations.BlockMoves Foundations.Indices Foundations.MachineInt

theorem sshiftRight_sign (x : BitVec 64) :
    x.sshiftRight 63 = if x.toInt < 0 then BitVec.allOnes 64 else 0#64 := by
  have hlow : -2 ^ 63 ≤ x.toInt := BitVec.le_toInt x
  have hhigh : x.toInt < 2 ^ 63 := BitVec.toInt_lt
  apply BitVec.eq_of_toInt_eq
  rw [BitVec.toInt_sshiftRight, Int.shiftRight_eq_div_pow]
  split
  · rw [BitVec.toInt_allOnes]
    omega
  · rw [BitVec.toInt_zero]
    omega

theorem abs_toInt {x : ℤ} (hlow : -2 ^ 63 < x) (hhigh : x < 2 ^ 63) :
    (abs (BitVec.ofInt 64 x)).toInt = x.natAbs := by
  have hx : (BitVec.ofInt 64 x).toInt = x := by
    rw [BitVec.toInt_ofInt]
    apply Int.bmod_eq_of_le
    · omega
    · omega
  rw [abs, sshiftRight_sign, hx]
  by_cases hneg : x < 0
  · have hmin : BitVec.ofInt 64 x ≠ BitVec.intMin 64 := by
      intro heq
      rw [heq, BitVec.toInt_intMin] at hx
      omega
    rw [if_pos hneg, BitVec.xor_allOnes, ← BitVec.neg_one_eq_allOnes, BitVec.sub_neg,
      ← BitVec.neg_eq_not_add, BitVec.toInt_neg_of_ne_intMin hmin, hx]
    omega
  · rw [if_neg hneg, BitVec.xor_zero, BitVec.sub_zero, hx]
    omega

theorem toSize_eq {x : ℤ} (h : 0 ≤ x) (h' : x < 2 ^ 64) : toSize x = x := Int.emod_eq_of_lt h h'

theorem sizes_eq {n : ℤ} (h : 0 ≤ n) (h' : n < 2 ^ 31) : sizes n = ⟨n / 8, n / 8 * 8, n % 8⟩ := by
  have hquotient : toInt32 (toSize n / 8) = n / 8 := by
    rw [toSize_eq h (by omega), toInt32_eq (by omega) (by omega)]
  rw [sizes, hquotient, toSize_eq h (by omega), toSize_eq (by omega : 0 ≤ n / 8) (by omega),
    toSize_eq (by omega : 0 ≤ n / 8 * 8) (by omega), toInt32_eq (by omega : 0 ≤ n / 8 * 8)
    (by omega), toInt32_eq (by omega : 0 ≤ n % 8) (by omega)]

theorem sizes_neg_one : sizes (-1) = ⟨-1, -8, 7⟩ := rfl

section Copies

variable {m : Memory} {d s n : ℤ}

theorem copyUp_eq (h : 0 ≤ n) (h' : n < 2 ^ 31) (hdir : d ≤ s ∨ s + n ≤ d) :
    copyUp m d s (sizes n) = moved m d s 0 n := by
  have hwords : (upTo 0 (n / 8)).foldl (moveAt 8 d s) (moved m d s 0 ((8 : ℕ) * 0)) = moved m d s 0
      ((8 : ℕ) * (n / 8)) :=
    moves_up (by omega) (by omega) (by omega)
  have hbytes : (upTo (n / 8 * 8) (n / 8 * 8 + n % 8)).foldl (moveAt 1 d s)
      (moved m d s 0 ((1 : ℕ) * (n / 8 * 8))) =
        moved m d s 0 ((1 : ℕ) * (n / 8 * 8 + n % 8)) :=
    moves_up (by omega) (by omega) (by omega)
  rw [moved_empty (by omega), show ((8 : ℕ) : ℤ) * (n / 8) = n / 8 * 8 by omega] at hwords
  rw [show ((1 : ℕ) : ℤ) * (n / 8 * 8) = n / 8 * 8 by omega,
    show ((1 : ℕ) : ℤ) * (n / 8 * 8 + n % 8) = n by omega] at hbytes
  rw [sizes_eq h h', copyUp, hwords, hbytes]
  by_cases hrem : n % 8 > 0
  · exact if_pos hrem
  · rw [show n / 8 * 8 = n by omega]
    exact if_neg hrem

theorem copyDown_eq (h : 0 ≤ n) (h' : n < 2 ^ 31) (hdir : s ≤ d) :
    copyDown m d s (sizes n) = moved m d s 0 n := by
  have hwords : (upTo 0 (n / 8)).reverse.foldl (moveAt 8 d s) (moved m d s ((8 : ℕ) * (n / 8)) n) =
      moved m d s ((8 : ℕ) * 0) n :=
    moves_down (by omega) (by omega) hdir
  have hbytes : (upTo (n / 8 * 8) (n / 8 * 8 + n % 8)).reverse.foldl (moveAt 1 d s)
      (moved m d s ((1 : ℕ) * (n / 8 * 8 + n % 8)) n) = moved m d s ((1 : ℕ) * (n / 8 * 8)) n :=
    moves_down (by omega) (by omega) hdir
  rw [moved_empty (by omega),
    show ((1 : ℕ) : ℤ) * (n / 8 * 8) = (8 : ℕ) * (n / 8) by omega] at hbytes
  rw [sizes_eq h h', copyDown, hbytes]
  by_cases hrem : n % 8 > 0
  · rw [if_pos hrem, hwords]
    rfl
  · rw [moved_empty (by omega)] at hwords
    rw [if_neg hrem, hwords]
    rfl

end Copies

end AnalysisPrograms.StrCpy
