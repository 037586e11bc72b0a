import Mathlib.Data.Nat.Notation
import Mathlib.Tactic.Basic

namespace Foundations.Bytes

variable {α : Type}

def slice (m : ℕ → α) (i n : ℕ) : List α := (List.range n).map fun k => m (i + k)

def blit (m : ℕ → α) (i : ℕ) (xs : List α) : ℕ → α :=
  fun k => if k < i then m k else (xs[k - i]?).getD (m k)

@[simp] theorem length_slice (m : ℕ → α) (i n : ℕ) : (slice m i n).length = n := by
  simp [slice]

@[simp] theorem slice_zero (m : ℕ → α) (i : ℕ) : slice m i 0 = [] := rfl

theorem slice_add (m : ℕ → α) (i n k : ℕ) :
    slice m i (n + k) = slice m i n ++ slice m (i + n) k := by
  unfold slice
  rw [List.range_add, List.map_append, List.map_map]
  congr 1
  apply List.map_congr_left
  intro x _
  rw [Function.comp_apply, Nat.add_assoc]

theorem mem_slice (m : ℕ → α) {i n j : ℕ} (hi : i ≤ j) (hj : j < i + n) : m j ∈ slice m i n := by
  rw [slice, List.mem_map]
  exact ⟨j - i, List.mem_range.mpr (by omega), by rw [Nat.add_sub_cancel' hi]⟩

theorem slice_succ (m : ℕ → α) (i n : ℕ) : slice m i (n + 1) = m i :: slice m (i + 1) n := by
  rw [Nat.add_comm, slice_add]
  rfl

theorem slice_drop (m : ℕ → α) (i n k : ℕ) : (slice m i n).drop k = slice m (i + k) (n - k) := by
  apply List.ext_getElem
  · simp
  · intro j h₁ h₂
    simp [slice, Nat.add_assoc]

theorem slice_congr {m m' : ℕ → α} {i n : ℕ} (h : ∀ k, k < n → m' (i + k) = m (i + k)) :
    slice m' i n = slice m i n := by
  apply List.map_congr_left
  intro k hk
  exact h k (List.mem_range.mp hk)

theorem blit_below (m : ℕ → α) {i k : ℕ} (xs : List α) (h : k < i) : blit m i xs k = m k := if_pos h

theorem blit_above (m : ℕ → α) {i k : ℕ} (xs : List α) (h : i + xs.length ≤ k) :
    blit m i xs k = m k := by
  unfold blit
  rw [if_neg (by omega), List.getElem?_eq_none (by omega)]
  rfl

theorem blit_replicate (m : ℕ → α) {n k : ℕ} (x : α) (h : k < n) :
    blit m 0 (List.replicate n x) k = x := by
  unfold blit
  rw [if_neg (Nat.not_lt_zero k), Nat.sub_zero, List.getElem?_replicate_of_lt h]
  rfl

theorem slice_blit_self (m : ℕ → α) (i : ℕ) (xs : List α) :
    slice (blit m i xs) i xs.length = xs := by
  apply List.ext_getElem
  · simp
  · intro k h₁ h₂
    have hk : ¬i + k < i := by omega
    simp only [slice, blit, List.getElem_map, List.getElem_range, if_neg hk,
      Nat.add_sub_cancel_left, List.getElem?_eq_getElem h₂, Option.getD_some]

theorem slice_blit_append (m : ℕ → α) (i : ℕ) (xs ys : List α) :
    slice (blit m i (xs ++ ys)) i xs.length = xs := by
  have h := slice_blit_self m i (xs ++ ys)
  rw [List.length_append, slice_add] at h
  exact List.append_inj_left h (by simp)

theorem slice_blit_below (m : ℕ → α) {i j n : ℕ} (xs : List α) (h : j + n ≤ i) :
    slice (blit m i xs) j n = slice m j n := by
  apply slice_congr
  intro k hk
  exact blit_below m xs (by omega)

theorem slice_blit_disjoint (m : ℕ → α) {i j n : ℕ} {xs : List α}
    (h : j + n ≤ i ∨ i + xs.length ≤ j) : slice (blit m i xs) j n = slice m j n := by
  rcases h with h | h
  · exact slice_blit_below m xs h
  · apply slice_congr
    intro k _
    exact blit_above m xs (by omega)

end Foundations.Bytes
