import Mathlib.Order.Lattice
import AnalysisPrograms.Foundations.Segments

namespace Foundations.SortedSearch

open Segments

variable {α : Type} [LinearOrder α] {xs : List α} {x y : α} {lo hi mid : ℕ}

structure Window (xs : List α) (x : α) (lo hi : ℕ) : Prop where
  le : lo ≤ hi
  le_length : hi ≤ xs.length
  before : AllIn 0 lo (· < x) xs
  behind : AllIn hi xs.length (x < ·) xs

theorem window_whole (xs : List α) (x : α) : Window xs x 0 xs.length where
  le := Nat.zero_le _
  le_length := Nat.le_refl _
  before := allIn_empty (Nat.le_refl 0) _ xs
  behind := allIn_empty (Nat.le_refl _) _ xs

theorem le_of_sorted {a b : ℕ} {y z : α} (hs : xs.Pairwise (· ≤ ·)) (hab : a ≤ b)
    (hy : xs[a]? = some y) (hz : xs[b]? = some z) : y ≤ z := by
  rcases Nat.eq_or_lt_of_le hab with rfl | hlt
  · exact le_of_eq (Option.some.inj (hy.symm.trans hz))
  · obtain ⟨ha, rfl⟩ := List.getElem?_eq_some_iff.mp hy
    obtain ⟨hb, rfl⟩ := List.getElem?_eq_some_iff.mp hz
    exact List.pairwise_iff_getElem.mp hs a b ha hb hlt

namespace Window

theorem left (h : Window xs x lo hi) (hs : xs.Pairwise (· ≤ ·)) (hlo : lo ≤ mid)
    (hy : xs[mid]? = some y) (hxy : x < y) : Window xs x lo mid where
  le := hlo
  le_length := Nat.le_of_lt (lt_of_get hy)
  before := h.before
  behind := by
    intro k z hk _ hz
    exact lt_of_lt_of_le hxy (le_of_sorted hs hk hy hz)

theorem right (h : Window xs x lo hi) (hs : xs.Pairwise (· ≤ ·)) (hhi : mid < hi)
    (hy : xs[mid]? = some y) (hyx : y < x) : Window xs x (mid + 1) hi where
  le := hhi
  le_length := h.le_length
  before := by
    intro k z _ hk hz
    exact lt_of_le_of_lt (le_of_sorted hs (Nat.le_of_lt_succ hk) hz hy) hyx
  behind := h.behind

theorem notMem (h : Window xs x lo hi) (hin : ∀ k z, lo ≤ k → k < hi → xs[k]? = some z → z ≠ x) :
    x ∉ xs := by
  intro hmem
  obtain ⟨k, hk⟩ := List.mem_iff_getElem?.mp hmem
  by_cases hlo : k < lo
  · exact lt_irrefl x (h.before k x (Nat.zero_le k) hlo hk)
  · by_cases hhi : k < hi
    · exact hin k x (by omega) hhi hk rfl
    · exact lt_irrefl x (h.behind k x (by omega) (lt_of_get hk) hk)

theorem notMem_of_empty (h : Window xs x lo lo) : x ∉ xs :=
  h.notMem fun k _ hlo hhi => absurd hhi (by omega)

end Window

end Foundations.SortedSearch
