import Mathlib.Logic.Function.Basic
import Mathlib.Tactic.Ring
import AnalysisPrograms.Foundations.Indices

namespace Foundations.BlockMoves

open Indices

variable {β : Type} {m : ℤ → β} {d s z lo hi : ℤ} {w : ℕ}

def move (w : ℕ) (m : ℤ → β) (dest src : ℤ) : ℤ → β :=
  fun a => if dest ≤ a ∧ a < dest + w then m (src + (a - dest)) else m a

def moved (m : ℤ → β) (d s lo hi : ℤ) : ℤ → β :=
  fun a => if d + lo ≤ a ∧ a < d + hi then m (s + (a - d)) else m a

theorem moved_inside {a : ℤ} (h : lo ≤ a) (h' : a < hi) :
    moved m d s lo hi (d + a) = m (s + a) := by
  rw [moved, if_pos (by omega), add_sub_cancel_left]

theorem moved_outside {a : ℤ} (h : a < d + lo ∨ d + hi ≤ a) : moved m d s lo hi a = m a :=
  if_neg (by omega)

theorem moved_empty (h : hi ≤ lo) : moved m d s lo hi = m := by
  funext a
  exact moved_outside (by omega)

theorem move_extend {k lo' hi' : ℤ}
    (hnew : ∀ a, lo' ≤ a ∧ a < hi' ↔ lo ≤ a ∧ a < hi ∨ k ≤ a ∧ a < k + w)
    (hsource : ∀ a, k ≤ a → a < k + w → s + a < d + lo ∨ d + hi ≤ s + a) :
    move w (moved m d s lo hi) (d + k) (s + k) = moved m d s lo' hi' := by
  funext a
  have hat := hnew (a - d)
  have hread := hsource (a - d)
  by_cases hin : d + k ≤ a ∧ a < d + k + w
  · rw [move, if_pos hin, moved_outside (by omega), moved, if_pos (by omega)]
    congr 1
    omega
  · rw [move, if_neg hin, moved, moved]
    split_ifs with hleft hright hright
    · rfl
    · omega
    · omega
    · rfl

theorem move_forward (hle : lo ≤ hi) (h : d ≤ s ∨ s + (hi + w) ≤ d + lo) :
    move w (moved m d s lo hi) (d + hi) (s + hi) = moved m d s lo (hi + w) := by
  apply move_extend
  · intro a
    omega
  · intro a _ _
    omega

theorem move_backward (hle : lo ≤ hi) (h : s ≤ d) :
    move w (moved m d s lo hi) (d + (lo - w)) (s + (lo - w)) = moved m d s (lo - w) hi := by
  apply move_extend
  · intro a
    omega
  · intro a _ _
    omega

def moveAt (w : ℕ) (d s : ℤ) (m : ℤ → β) (i : ℤ) : ℤ → β := move w m (d + w * i) (s + w * i)

theorem block_succ (w : ℕ) (i : ℤ) : (w : ℤ) * (i + 1) = w * i + w := by ring

theorem block_mono {i j : ℤ} (w : ℕ) (h : i ≤ j) : (w : ℤ) * i ≤ w * j :=
  Int.mul_le_mul_of_nonneg_left h (Int.natCast_nonneg w)

theorem moves_up (hle : lo ≤ hi) (hz : z ≤ w * lo) (h : d ≤ s ∨ s + w * hi ≤ d + z) :
    (upTo lo hi).foldl (moveAt w d s) (moved m d s z (w * lo)) = moved m d s z (w * hi) := by
  obtain ⟨k, rfl⟩ := Int.le.dest hle
  clear hle
  induction k with
  | zero =>
    rw [upTo_empty (by omega), Int.natCast_zero, Int.add_zero]
    rfl
  | succ k ih =>
    rw [Int.natCast_succ, ← Int.add_assoc, block_succ] at h ⊢
    have hstart : (w : ℤ) * lo ≤ w * (lo + k) := block_mono w (by omega)
    rw [upTo_succ (by omega), List.foldl_append, ih (by omega)]
    exact move_forward (by omega) (by omega)

theorem moves_down (hle : lo ≤ hi) (hz : w * hi ≤ z) (h : s ≤ d) :
    (upTo lo hi).reverse.foldl (moveAt w d s) (moved m d s (w * hi) z) = moved m d s
      (w * lo) z := by
  obtain ⟨k, rfl⟩ := Int.le.dest hle
  clear hle
  induction k with
  | zero =>
    rw [upTo_empty (by omega), Int.natCast_zero, Int.add_zero]
    rfl
  | succ k ih =>
    rw [Int.natCast_succ, ← Int.add_assoc, block_succ] at hz ⊢
    have hblock : moveAt w d s (moved m d s (w * (lo + k) + w) z) (lo + k) = moved m d s
        (w * (lo + k)) z := by
      have hback := move_backward (m := m) (w := w) hz h
      rwa [Int.add_sub_cancel] at hback
    rw [upTo_succ (by omega), List.reverse_append, List.reverse_singleton, List.singleton_append,
      List.foldl_cons, hblock]
    exact ih (by omega)

theorem moveAt_one (d s : ℤ) (m : ℤ → β) (i : ℤ) :
    moveAt 1 d s m i = Function.update m (d + i) (m (s + i)) := by
  funext a
  rw [moveAt, move, Int.natCast_one, Int.one_mul, Function.update_apply]
  by_cases ha : a = d + i
  · rw [if_pos (by omega), if_pos ha, ha, Int.sub_self, Int.add_zero]
  · rw [if_neg (by omega), if_neg ha]

theorem foldl_moveAt_one_outside {is : List ℤ} {a : ℤ} (h : ∀ i ∈ is, a ≠ d + i) :
    is.foldl (moveAt 1 d s) m a = m a := by
  induction is generalizing m with
  | nil => rfl
  | cons i is ih =>
    rw [List.foldl_cons, ih fun j hj => h j (List.mem_cons_of_mem i hj), moveAt_one,
      Function.update_of_ne (h i List.mem_cons_self)]

theorem foldl_moveAt_one_eq_iff {is : List ℤ} (hnodup : is.Nodup) :
    is.foldl (moveAt 1 d s) m = m ↔ ∀ i ∈ is, m (d + i) = m (s + i) := by
  induction is generalizing m with
  | nil => exact iff_of_true rfl nofun
  | cons i is ih =>
    obtain ⟨hi, hnodup⟩ := List.nodup_cons.mp hnodup
    have hout : ∀ j ∈ is, d + i ≠ d + j := by
      intro j hj heq
      exact hi (Int.add_left_cancel heq ▸ hj)
    have hsame : m (d + i) = m (s + i) → moveAt 1 d s m i = m := by
      intro heq
      rw [moveAt_one, ← heq, Function.update_eq_self]
    rw [List.foldl_cons]
    constructor
    · intro h
      have hat := congrFun h (d + i)
      rw [foldl_moveAt_one_outside hout, moveAt_one, Function.update_self] at hat
      rw [hsame hat.symm] at h
      intro j hj
      rcases List.mem_cons.mp hj with rfl | hj
      · exact hat.symm
      · exact (ih hnodup).mp h j hj
    · intro h
      rw [hsame (h i List.mem_cons_self)]
      exact (ih hnodup).mpr fun j hj => h j (List.mem_cons_of_mem i hj)

end Foundations.BlockMoves
