import Mathlib.Algebra.Group.Int.Defs
import Mathlib.Algebra.Group.Nat.Defs
import Mathlib.Data.Nat.Notation
import Mathlib.Tactic.Basic

namespace Foundations.Decimal

def digit (d : ℕ) : UInt8 := UInt8.ofNat (48 + d)

def numeral (n : ℕ) : List UInt8 :=
  if n < 10 then [digit n] else numeral (n / 10) ++ [digit (n % 10)]
termination_by n

def isDigit (b : UInt8) : Bool := decide (48 ≤ b.toNat ∧ b.toNat ≤ 57)

def value (ds : List UInt8) : ℕ := ds.foldl (fun v d => 10 * v + (d.toNat - 48)) 0

theorem toNat_digit {d : ℕ} (h : d < 10) : (digit d).toNat = 48 + d := by
  rw [digit, UInt8.toNat_ofNat']
  omega

theorem isDigit_digit {d : ℕ} (h : d < 10) : isDigit (digit d) = true := by
  rw [isDigit, toNat_digit h, decide_eq_true_iff]
  omega

theorem isDigit_of_mem_numeral {n : ℕ} {b : UInt8} (h : b ∈ numeral n) : isDigit b = true := by
  induction n using numeral.induct with
  | case1 n hn =>
    rw [numeral, if_pos hn, List.mem_singleton] at h
    rw [h]
    exact isDigit_digit hn
  | case2 n hn ih =>
    rw [numeral, if_neg hn] at h
    rcases List.mem_append.mp h with h | h
    · exact ih h
    · rw [List.mem_singleton.mp h]
      exact isDigit_digit (Nat.mod_lt n (by omega))

theorem numeral_ne_nil (n : ℕ) : numeral n ≠ [] := by
  rw [numeral]
  split
  · exact List.cons_ne_nil _ _
  · exact List.append_ne_nil_of_right_ne_nil _ (List.cons_ne_nil _ _)

theorem value_concat (ds : List UInt8) (d : UInt8) :
    value (ds ++ [d]) = 10 * value ds + (d.toNat - 48) := by
  rw [value, List.foldl_append]
  rfl

theorem value_numeral (n : ℕ) : value (numeral n) = n := by
  induction n using numeral.induct with
  | case1 n hn =>
    rw [numeral, if_pos hn]
    change 10 * 0 + ((digit n).toNat - 48) = n
    rw [toNat_digit hn]
    omega
  | case2 n hn ih =>
    rw [numeral, if_neg hn, value_concat, ih, toNat_digit (Nat.mod_lt n (by omega))]
    omega

theorem length_numeral_le {n k : ℕ} (h : n < 10 ^ (k + 1)) : (numeral n).length ≤ k + 1 := by
  induction k generalizing n with
  | zero =>
    rw [numeral, if_pos (by omega)]
    exact Nat.le_refl 1
  | succ k ih =>
    rw [numeral]
    split
    · exact Nat.succ_le_succ (Nat.zero_le _)
    · rw [List.length_append, List.length_singleton]
      have hdiv : n / 10 < 10 ^ (k + 1) :=
        Nat.div_lt_of_lt_mul (by rwa [Nat.pow_succ, Nat.mul_comm] at h)
      exact Nat.succ_le_succ (ih hdiv)

def digitSum (n : ℕ) : ℕ := if n < 10 then n else digitSum (n / 10) + n % 10
termination_by n

theorem digitSum_le (n : ℕ) : digitSum n ≤ n := by
  induction n using digitSum.induct with
  | case1 n hn => exact Nat.le_of_eq (by rw [digitSum, if_pos hn])
  | case2 n hn ih =>
    rw [digitSum, if_neg hn]
    omega

theorem digitSum_eq_self_iff (n : ℕ) : digitSum n = n ↔ n < 10 := by
  by_cases hn : n < 10
  · rw [digitSum, if_pos hn]
    exact iff_of_true rfl hn
  · have hle := digitSum_le (n / 10)
    rw [digitSum, if_neg hn]
    omega

theorem ten_mul_digitSum_iff (n : ℕ) : 10 * digitSum n = n ↔ n % 10 = 0 ∧ n < 100 := by
  have hself := digitSum_eq_self_iff (n / 10)
  rw [digitSum]
  by_cases hn : n < 10
  · rw [if_pos hn]
    omega
  · rw [if_neg hn]
    omega

end Foundations.Decimal
