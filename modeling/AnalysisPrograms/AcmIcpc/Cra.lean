import Mathlib.Algebra.Order.Group.Unbundled.Int
import Mathlib.Data.Int.Order.Basic
import Mathlib.Data.Nat.Choose.Vandermonde
import AnalysisPrograms.Foundations.Indices

namespace AnalysisPrograms.Cra

open Foundations.Indices
open Nat (choose factorial)

def calcFactorial (n : ℤ) : ℤ := (upTo 0 n).foldl (fun factorial i => factorial * (i + 1)) 1

def divide (x y : ℤ) : Option ℤ := if y = 0 then none else some (x.fdiv y)

def cra1 (r a : ℤ) : Option ℤ :=
  if ¬r ≥ a then none
  else if r = a then some 1
  else do
    let rFac := calcFactorial r
    let aFac := calcFactorial a
    let raFac := calcFactorial (r - a)
    divide (← divide rFac aFac) raFac

/-- A failed assertion is `none`; the bound is on the depth of the calls. -/
def cra2 : ℕ → ℤ → ℤ → Option ℤ
  | 0, _, _ => none
  | depth + 1, r, a =>
    if ¬r ≥ a then none
    else if r = a then some 1
    else if a = 1 then some r
    else do return (← cra2 depth (r - 1) a) + (← cra2 depth (r - 1) (a - 1))

def e7Loop (call : ℤ → ℤ → Option ℤ) (r a : ℤ) : List ℤ → ℤ → Option ℤ
  | [], result => some result
  | i :: is, result =>
    if r - a < i + 1 then some result
    else do
      let left ← call a (i + 1)
      let right ← call (r - a) (i + 1)
      e7Loop call r a is (result + left * right)

def craE7 : ℕ → ℤ → ℤ → Option ℤ
  | 0, _, _ => none
  | depth + 1, r, a =>
    if ¬r ≥ a then none
    else if r = a then some 1
    else if a = 1 then some r
    else e7Loop (craE7 depth) r a (upTo 0 a) 1

variable {r a : ℕ}

theorem calcFactorial_eq (n : ℕ) : calcFactorial n = factorial n := by
  have hrange : upTo 0 (n : ℤ) = (List.range n).map fun k : ℕ => (k : ℤ) := by
    simp [upTo]
  rw [calcFactorial, hrange, List.foldl_map]
  induction n with
  | zero => rfl
  | succ n ih =>
    rw [List.range_succ, List.foldl_append, ih (by simp [upTo]), List.foldl_cons, List.foldl_nil,
      Nat.factorial_succ]
    push_cast
    ring

theorem divide_exact {x y : ℕ} (hy : 0 < y) : divide (x * y : ℕ) y = some (x : ℤ) := by
  have hne : (y : ℤ) ≠ 0 := by omega
  rw [divide, if_neg hne, Int.fdiv_eq_ediv_of_nonneg _ (by omega)]
  push_cast
  rw [Int.mul_ediv_cancel _ hne]

theorem cra1_eq (h : a ≤ r) : cra1 r a = some (choose r a : ℤ) := by
  by_cases heq : r = a
  · subst heq
    simp [cra1]
  · have hge : (r : ℤ) ≥ a := by omega
    have hne : ¬(r : ℤ) = a := by omega
    have hsub : (r : ℤ) - a = (r - a : ℕ) := by omega
    have hfac : factorial r = choose r a * factorial (r - a) * factorial a := by
      rw [← Nat.choose_mul_factorial_mul_factorial h]
      ring
    simp only [cra1, hge, hne, hsub, calcFactorial_eq, not_true_eq_false, ↓reduceIte]
    rw [hfac, divide_exact (Nat.factorial_pos a)]
    exact divide_exact (Nat.factorial_pos (r - a))

theorem head_eq {rest : Option ℤ} (h : a ≤ r)
    (hrest : r ≠ a → a ≠ 1 → rest = some (choose r a : ℤ)) :
    (if ¬(r : ℤ) ≥ a then none else if (r : ℤ) = a then some 1
      else if (a : ℤ) = 1 then some (r : ℤ) else rest) = some (choose r a : ℤ) := by
  rw [if_neg (by omega)]
  by_cases heq : r = a
  · rw [if_pos (by omega), heq, Nat.choose_self]
    rfl
  · rw [if_neg (by omega)]
    by_cases hone : a = 1
    · rw [if_pos (by omega), hone, Nat.choose_one_right]
    · rw [if_neg (by omega)]
      exact hrest heq hone

theorem cra2_eq {depth : ℕ} (ha : 1 ≤ a) (h : a ≤ r) (hd : r ≤ depth) :
    cra2 depth r a = some (choose r a : ℤ) := by
  induction depth generalizing r a with
  | zero => omega
  | succ depth ih =>
    rw [cra2]
    apply head_eq h
    intro hne hone
    have hr : (r : ℤ) - 1 = (r - 1 : ℕ) := by omega
    have ha' : (a : ℤ) - 1 = (a - 1 : ℕ) := by omega
    have hpascal : choose r a = choose (r - 1) a + choose (r - 1) (a - 1) := by
      rw [Nat.choose_eq_choose_pred_add (by omega) (by omega), Nat.add_comm]
    rw [hr, ha', ih ha (by omega) (by omega), ih (by omega) (by omega) (by omega), hpascal]
    push_cast
    rfl

def partialSum (r a i : ℕ) : ℕ := ∑ j ∈ Finset.range (i + 1), choose a j * choose (r - a) j

theorem partialSum_full (h : a ≤ r) : partialSum r a a = choose r a := by
  have hr : r = a + (r - a) := by omega
  rw [hr, Nat.add_choose_eq, ← hr, Finset.Nat.sum_antidiagonal_eq_sum_range_succ_mk, partialSum,
    ← Finset.sum_range_reflect]
  apply Finset.sum_congr rfl
  intro j hj
  rw [Finset.mem_range] at hj
  rw [show a + 1 - 1 - j = a - j by omega, Nat.choose_symm (by omega)]

theorem partialSum_stop {i : ℕ} (hi : r - a < i + 1) (hia : i ≤ a) :
    partialSum r a i = partialSum r a a := by
  apply Finset.sum_subset (Finset.range_subset_range.mpr (by omega))
  intro j _ hj
  rw [Finset.mem_range] at hj
  rw [Nat.choose_eq_zero_of_lt (by omega : r - a < j), Nat.mul_zero]

theorem e7Loop_eq {call : ℤ → ℤ → Option ℤ} (h : a ≤ r)
    (hleft : ∀ i : ℕ, i + 1 ≤ a → call a (i + 1 : ℕ) = some (choose a (i + 1) : ℤ))
    (hright : ∀ i : ℕ, i + 1 ≤ r - a →
      call (r - a : ℕ) (i + 1 : ℕ) = some (choose (r - a) (i + 1) : ℤ))
    {lo count : ℕ} (hcount : lo + count = a) :
    e7Loop call r a ((List.range' lo count).map fun k : ℕ => (k : ℤ)) (partialSum r a lo) =
      some (partialSum r a a : ℤ) := by
  induction count generalizing lo with
  | zero =>
    obtain rfl : lo = a := by omega
    rfl
  | succ count ih =>
    have hsub : (r : ℤ) - a = (r - a : ℕ) := by omega
    have hnext : (lo : ℤ) + 1 = (lo + 1 : ℕ) := by omega
    rw [List.range'_succ, List.map_cons, e7Loop, hsub, hnext]
    by_cases hstop : r - a < lo + 1
    · rw [if_pos (by omega), partialSum_stop hstop (by omega)]
    · have hsum : (partialSum r a lo : ℤ) + choose a (lo + 1) * choose (r - a) (lo + 1) =
          partialSum r a (lo + 1) := by
        rw [partialSum, partialSum, Finset.sum_range_succ _ (lo + 1)]
        push_cast
        rfl
      rw [if_neg (by omega), hleft lo (by omega), hright lo (by omega)]
      simp only [Option.bind_eq_bind, Option.bind_some, hsum]
      exact ih (by omega)

theorem craE7_eq {depth : ℕ} (ha : 1 ≤ a) (h : a ≤ r) (hd : r ≤ depth) :
    craE7 depth r a = some (choose r a : ℤ) := by
  induction depth generalizing r a with
  | zero => omega
  | succ depth ih =>
    rw [craE7]
    apply head_eq h
    intro hne hone
    have hrange : upTo 0 (a : ℤ) = (List.range' 0 (a - 0)).map fun k : ℕ => (k : ℤ) :=
      upTo_natCast 0 a
    have hstart : (1 : ℤ) = partialSum r a 0 := by simp [partialSum]
    rw [hrange, hstart, ← partialSum_full h]
    -- both calls are on a smaller first argument, `a` and `r - a`
    apply e7Loop_eq h
    · exact fun i hi => ih (by omega) hi (by omega)
    · exact fun i hi => ih (by omega) hi (by omega)
    · omega

theorem combination_formulas_agree (r a : ℤ) (ha : 1 ≤ a) (h : a ≤ r) :
    cra1 r a = some (choose r.toNat a.toNat : ℤ) ∧
      ∃ depth, ∀ more, depth ≤ more →
        cra2 more r a = some (choose r.toNat a.toNat : ℤ) ∧
        craE7 more r a = some (choose r.toNat a.toNat : ℤ) := by
  obtain ⟨a, rfl⟩ : ∃ k : ℕ, a = k := ⟨a.toNat, by omega⟩
  obtain ⟨r, rfl⟩ : ∃ k : ℕ, r = k := ⟨r.toNat, by omega⟩
  have ha' : 1 ≤ a := by omega
  have h' : a ≤ r := by omega
  refine ⟨cra1_eq h', r, fun more hmore => ⟨cra2_eq ha' h' hmore, craE7_eq ha' h' hmore⟩⟩

theorem combinations_of_ten : cra1 10 4 = some 210 ∧
    ∃ depth, ∀ more, depth ≤ more → cra2 more 10 4 = some 210 ∧ craE7 more 10 4 = some 210 :=
  combination_formulas_agree 10 4 (by decide) (by decide)

end AnalysisPrograms.Cra
