import Mathlib.GroupTheory.Perm.Cycle.Basic
import Mathlib.GroupTheory.Perm.Support

namespace Foundations.CycleHop

open Equiv Equiv.Perm

variable {α : Type} [DecidableEq α] {σ : Perm α} {i j x : α}

def hop (σ : Perm α) (j : α) : Perm α := σ * swap j (σ j)

theorem hop_self (σ : Perm α) (j : α) : hop σ j j = σ (σ j) := by
  rw [hop, mul_apply, swap_apply_left]

theorem hop_image (σ : Perm α) (j : α) : hop σ j (σ j) = σ j := by
  rw [hop, mul_apply, swap_apply_right]

theorem hop_of_ne (hj : x ≠ j) (himage : x ≠ σ j) : hop σ j x = σ x := by
  rw [hop, mul_apply, swap_apply_of_ne_of_ne hj himage]

theorem hop_fixed (hx : σ x = x) : hop σ j x = x := by
  by_cases himage : x = σ j
  · rw [himage, hop_image]
  · by_cases hj : x = j
    · exact absurd (hj ▸ hx.symm) himage
    · rw [hop_of_ne hj himage, hx]

theorem card_support_hop_lt [Fintype α] (hj : σ j ≠ j) :
    (hop σ j).support.card < σ.support.card := by
  have hswap : hop σ j = swap (σ j) (σ (σ j)) * σ := by
    rw [hop, swap_apply_apply, inv_mul_cancel_right]
  rw [hswap]
  apply card_support_swap_mul
  exact fun heq => hj (σ.injective heq)

theorem sameCycle_hop [Finite α] (h : SameCycle σ j i) : i = σ j ∨ SameCycle (hop σ j) j i := by
  obtain ⟨k, rfl⟩ := h.exists_nat_pow_eq
  induction k with
  | zero => exact .inr (SameCycle.refl _ _)
  | succ k ih =>
    rw [pow_succ', mul_apply]
    have hnext : SameCycle (hop σ j) j (σ (σ j)) := by
      rw [← hop_self]
      exact sameCycle_apply_right.mpr (SameCycle.refl _ _)
    rcases ih ⟨k, rfl⟩ with heq | hsame
    · rw [heq]
      exact .inr hnext
    · by_cases himage : (σ ^ k) j = σ j
      · rw [himage]
        exact .inr hnext
      · by_cases hj : (σ ^ k) j = j
        · rw [hj]
          exact .inl rfl
        · rw [← hop_of_ne hj himage]
          exact .inr (sameCycle_apply_right.mpr hsame)

end Foundations.CycleHop
