import Mathlib.Data.Finset.Erase
import Mathlib.Data.Finset.SDiff
import Mathlib.Data.Int.Basic
import Mathlib.Order.Bounds.Defs

namespace Foundations.IntegerRuns

variable {S M M' : Finset ℤ} {a x lo hi : ℤ} {n best : ℕ}

def Run (S : Finset ℤ) (a : ℤ) (n : ℕ) : Prop := ∀ k : ℕ, k < n → a + k ∈ S

theorem Run.le_of_meets (h : Run S a n) (hlo : lo - 1 ∉ S) (hhi : hi + 1 ∉ S) {k : ℕ} (hk : k < n)
    (hkl : lo ≤ a + k) (hkh : a + k ≤ hi) : (n : ℤ) ≤ hi - lo + 1 := by
  by_contra hlong
  by_cases ha : a < lo
  · apply hlo
    have hmem := h (lo - 1 - a).toNat (by omega)
    rwa [show a + ((lo - 1 - a).toNat : ℤ) = lo - 1 by omega] at hmem
  · apply hhi
    have hmem := h (hi + 1 - a).toNat (by omega)
    rwa [show a + ((hi + 1 - a).toNat : ℤ) = hi + 1 by omega] at hmem

structure Swept (S M : Finset ℤ) (best : ℕ) : Prop where
  sub : M ⊆ S
  linked : ∀ x ∈ S, x + 1 ∈ S → (x ∈ M ↔ x + 1 ∈ M)
  attained : ∃ a, Run S a best
  bound : ∀ a n, Run (S \ M) a n → n ≤ best

theorem swept_start (S : Finset ℤ) : Swept S S 0 := by
  refine ⟨Finset.Subset.refl S, fun x hx hx' => iff_of_true hx hx',
    ⟨0, fun k hk => absurd hk (Nat.not_lt_zero k)⟩, ?_⟩
  intro a n h
  by_contra hn
  have hmem := h 0 (by omega)
  rw [Finset.sdiff_self] at hmem
  exact Finset.notMem_empty _ hmem

theorem Swept.take (h : Swept S M best) (hle : lo ≤ hi) (hin : ∀ x, lo ≤ x → x ≤ hi → x ∈ S)
    (hlo : lo - 1 ∉ S) (hhi : hi + 1 ∉ S) (hM : ∀ x, x ∈ M' ↔ x ∈ M ∧ ¬(lo ≤ x ∧ x ≤ hi)) :
    Swept S M' (max best (hi - lo + 1).toNat) := by
  refine ⟨fun x hx => h.sub ((hM x).mp hx).1, ?_, ?_, ?_⟩
  · intro x hx hx'
    have hleft : x + 1 ≠ lo := fun heq => hlo (by rwa [← heq, Int.add_sub_cancel])
    have hright : x ≠ hi := fun heq => hhi (by rwa [← heq])
    rw [hM, hM, h.linked x hx hx']
    apply and_congr_right
    intro _
    omega
  · rcases Nat.le_total best (hi - lo + 1).toNat with hbest | hbest
    · rw [Nat.max_eq_right hbest]
      exact ⟨lo, fun k hk => hin _ (by omega) (by omega)⟩
    · rw [Nat.max_eq_left hbest]
      exact h.attained
  · intro a n hrun
    have hS : Run S a n := fun k hk => (Finset.mem_sdiff.mp (hrun k hk)).1
    by_cases hmeet : ∃ k : ℕ, k < n ∧ lo ≤ a + k ∧ a + k ≤ hi
    · obtain ⟨k, hk, hkl, hkh⟩ := hmeet
      have hn := hS.le_of_meets hlo hhi hk hkl hkh
      omega
    · have hn : n ≤ best := by
        apply h.bound a n
        intro k hk
        have hmem := Finset.mem_sdiff.mp (hrun k hk)
        refine Finset.mem_sdiff.mpr ⟨hmem.1, fun hin => hmem.2 ((hM _).mpr ⟨hin, ?_⟩)⟩
        intro hwithin
        exact hmeet ⟨k, hk, hwithin⟩
      omega

theorem Swept.again (h : Swept S M best) (hx : x ∈ S) : Swept S M (max best 1) := by
  refine ⟨h.sub, h.linked, ?_, fun a n hrun => (h.bound a n hrun).trans (Nat.le_max_left _ _)⟩
  rcases Nat.le_total best 1 with hbest | hbest
  · rw [Nat.max_eq_right hbest]
    refine ⟨x, fun k hk => ?_⟩
    rwa [Nat.lt_one_iff.mp hk, Int.natCast_zero, Int.add_zero]
  · rw [Nat.max_eq_left hbest]
    exact h.attained

theorem Swept.isGreatest (h : Swept S M best) (hM : M = ∅) :
    IsGreatest {n | ∃ a, Run S a n} best := by
  refine ⟨h.attained, ?_⟩
  rintro n ⟨a, hrun⟩
  apply h.bound a n
  rwa [hM, Finset.sdiff_empty]

structure Consumed (M : Finset ℤ) (key delta : ℤ) (m : ℕ) (M' : Finset ℤ) : Prop where
  members : ∀ i : ℕ, i < m → key + delta * i ∈ M
  stop : key + delta * m ∉ M
  rest : ∀ x, x ∈ M' ↔ x ∈ M ∧ ∀ i : ℕ, i < m → x ≠ key + delta * i

section Consumed

variable {key delta : ℤ} {m : ℕ}

theorem walk_zero (key delta : ℤ) : key + delta * (0 : ℕ) = key := by
  rw [Int.natCast_zero, Int.mul_zero, Int.add_zero]

theorem walk_succ (key delta : ℤ) (i : ℕ) :
    key + delta * (i + 1 : ℕ) = key + delta + delta * i := by
  rw [Int.natCast_add, Int.mul_add, Int.natCast_one, Int.mul_one]
  omega

theorem consumed_none (h : key ∉ M) : Consumed M key delta 0 M := by
  refine ⟨fun i hi => absurd hi (Nat.not_lt_zero i), ?_, ?_⟩
  · rwa [walk_zero]
  · intro x
    exact (and_iff_left fun i hi => absurd hi (Nat.not_lt_zero i)).symm

theorem Consumed.cons (h : Consumed (M.erase key) (key + delta) delta m M') (hdelta : delta ≠ 0)
    (hkey : key ∈ M) : Consumed M key delta (m + 1) M' := by
  refine ⟨?_, ?_, ?_⟩
  · rw [Nat.forall_lt_succ_left]
    refine ⟨by rwa [walk_zero], ?_⟩
    intro i hi
    rw [walk_succ]
    exact Finset.mem_of_mem_erase (h.members i hi)
  · intro hmem
    rw [walk_succ] at hmem
    apply h.stop
    apply Finset.mem_erase_of_ne_of_mem _ hmem
    rw [← walk_succ]
    intro heq
    have hzero : delta * (m + 1 : ℕ) = 0 := by omega
    rcases Int.mul_eq_zero.mp hzero with hz | hz
    · exact hdelta hz
    · omega
  · intro x
    rw [h.rest, Finset.mem_erase, Nat.forall_lt_succ_left, walk_zero, and_assoc, and_left_comm]
    simp only [walk_succ]

end Consumed

end Foundations.IntegerRuns
