import Mathlib.Algebra.Ring.Int.Defs
import Mathlib.Data.List.Nodup
import AnalysisPrograms.Foundations.Segments

namespace Foundations.Indices

open Segments

variable {α : Type} {data : List α} {x : α} {k : ℕ} {lo hi : ℤ}

/-- The position that an index of Python means, `none` for an index error. -/
def position (data : List α) (k : ℤ) : Option ℕ :=
  if 0 ≤ k then
    if k < data.length then some k.toNat else none
  else if 0 ≤ k + data.length then some (k + data.length).toNat
  else none

def item (data : List α) (k : ℤ) : Option α := (position data k).bind fun i => data[i]?

theorem position_eq (hk : k < data.length) : position data k = some k := by
  rw [position, if_pos (Int.natCast_nonneg k), if_pos (Int.ofNat_lt.mpr hk), Int.toNat_natCast]

theorem item_eq (hk : data[k]? = some x) : item data k = some x := by
  rw [item, position_eq (lt_of_get hk), Option.bind_some, hk]

def upTo (lo hi : ℤ) : List ℤ := (List.range (hi - lo).toNat).map fun k : ℕ => lo + k

theorem upTo_empty (h : hi ≤ lo) : upTo lo hi = [] := by
  rw [upTo, Int.toNat_eq_zero.mpr (by omega)]
  rfl

theorem upTo_succ (h : lo ≤ hi) : upTo lo (hi + 1) = upTo lo hi ++ [hi] := by
  have hcount : (hi + 1 - lo).toNat = (hi - lo).toNat + 1 := by omega
  have hlast : lo + ((hi - lo).toNat : ℤ) = hi := by omega
  rw [upTo, hcount, List.range_succ, List.map_append, List.map_singleton, hlast]
  rfl

theorem upTo_natCast (lo hi : ℕ) :
    upTo lo hi = (List.range' lo (hi - lo)).map fun k : ℕ => (k : ℤ) := by
  have hcount : ((hi : ℤ) - lo).toNat = hi - lo := by omega
  rw [upTo, hcount, List.range'_eq_map_range, List.map_map]
  apply List.map_congr_left
  intro k _
  rw [Function.comp_apply, Int.natCast_add]

theorem mem_upTo {i : ℤ} : i ∈ upTo lo hi ↔ lo ≤ i ∧ i < hi := by
  rw [upTo, List.mem_map]
  constructor
  · rintro ⟨k, hk, rfl⟩
    have hlt := List.mem_range.mp hk
    omega
  · rintro ⟨hlo, hhi⟩
    exact ⟨(i - lo).toNat, List.mem_range.mpr (by omega), by omega⟩

theorem nodup_upTo (lo hi : ℤ) : (upTo lo hi).Nodup := by
  apply List.Nodup.map _ List.nodup_range
  intro j k heq
  exact Int.ofNat.inj (Int.add_left_cancel heq)

end Foundations.Indices
