import Mathlib.Data.Int.Order.Basic
import AnalysisPrograms.SortPy.Bubble
import AnalysisPrograms.SortPy.Partition

namespace AnalysisPrograms.SortPy

open Foundations.Indices Foundations.Segments

variable {α : Type} [LinearOrder α] {data before : List α} {lo last fuel : ℕ}

theorem Split.join {m : ℕ} {left right : List α} (h : Split lo last m before data)
    (hl : Rearranged lo m data left) (hr : Rearranged (m + 1) (last + 1) left right)
    (hleft : Leading lo m m left) (hright : Leading (m + 1) (last + 1) (last + 1) right) :
    Rearranged lo (last + 1) before right ∧ Leading lo (last + 1) (last + 1) right := by
  obtain ⟨hlo, hm⟩ := h.bounds
  obtain ⟨p, hp, hle, hge⟩ := h.pivot
  have hp' : right[m]? = some p := by
    rw [hr.outside m (by omega), hl.outside m (by omega), hp]
  refine ⟨?_, ?_⟩
  · exact (h.rearranged.trans (hl.widen (Nat.le_refl lo) (by omega))).trans
      (hr.widen (by omega) (Nat.le_refl _))
  · apply (hleft.beside hr (by omega) (Nat.le_refl m)).join hp'
    · exact (hle.rearranged hl).beside hr (by omega)
    · exact (hge.beside hl (by omega)).rearranged hr
    · exact hright

theorem split_spec (hshort : lo + 2 ≤ last) (hlast : last < data.length)
    (hfuel : last - lo < fuel) :
    ∃ t data' m, mid data lo (lo + ((last : ℤ) - lo) / 2) last = some ((t : ℕ) : ℤ) ∧
      swap data t last = some (exchange data t last) ∧
      splitLoop last fuel (exchange data t last) lo ((last : ℤ) - 1) = some (data', ((m : ℕ) : ℤ)) ∧
      swap data' m last = some (exchange data' m last) ∧
      Split lo last m data (exchange data' m last) := by
  have hmid : (lo : ℤ) + ((last : ℤ) - lo) / 2 = ((lo + (last - lo) / 2 : ℕ) : ℤ) := by omega
  obtain ⟨t, u, v, w, hrun, hta, htc, hua, huc, hne, hv, hw, hwv⟩ :=
    mid_spec (by omega : lo < lo + (last - lo) / 2) (by omega : lo + (last - lo) / 2 < last) hlast
  have ht : t < data.length := lt_of_get hv
  have hr : Rearranged lo (last + 1) data (exchange data t last) :=
    rearranged_exchange hta (by omega) (by omega) (by omega) (by omega)
  have hpivot : (exchange data t last)[last]? = some v := (get_exchange_right ht hlast).trans hv
  -- the value that is no larger than the pivot now lies before it
  obtain ⟨k, hk, hk', hkw⟩ : ∃ k, lo ≤ k ∧ k < last ∧ (exchange data t last)[k]? = some w := by
    by_cases hul : u = last
    · refine ⟨t, hta, by omega, ?_⟩
      rw [get_exchange_left ht hlast, ← hul, hw]
    · refine ⟨u, hua, by omega, ?_⟩
      rw [get_exchange_of_ne hne hul, hw]
  have hstart : Splitting lo last v (exchange data t last) (exchange data t last) lo last :=
    ⟨.refl _ _ _, by rwa [hr.length_eq], hpivot, by omega, allIn_empty (Nat.le_refl _) _ _,
      allIn_empty (Nat.le_refl _) _ _, fun _ => allIn_empty (Nat.le_refl _) _ _⟩
  obtain ⟨data', m, hloop, hend⟩ := splitLoop_spec hstart (by omega) hfuel
  have hsplit := hend.finish hk hk' hkw hwv
  obtain ⟨-, -, hm⟩ := hend.bounds
  have hsize := hend.size
  refine ⟨t, data', m, hmid ▸ hrun, swap_eq ht hlast, hloop, swap_eq (by omega) hsize, ?_⟩
  exact ⟨hr.trans hsplit.rearranged, hsplit.bounds, hsplit.pivot⟩

theorem quickSort_spec (hlast : last < data.length) (hfuel : last + 1 - lo < fuel) :
    ∃ ys, quickSort fuel data lo last = some ys ∧ Rearranged lo (last + 1) data ys ∧
      Leading lo (last + 1) (last + 1) ys := by
  induction fuel generalizing data lo last with
  | zero => omega
  | succ fuel ih =>
    rw [quickSort]
    by_cases hshort : (last : ℤ) - lo + 1 < 3
    · rw [if_pos hshort]
      exact bubbleSort_spec hlast
    · have hneg : ¬(last : ℤ) < 0 := by omega
      have hle : ¬(last : ℤ) > data.length := by omega
      have hlo : ¬(last : ℤ) ≤ lo := by omega
      obtain ⟨t, data₁, m, hmid, hswap, hloop, hswap', hsplit⟩ :=
        split_spec (by omega : lo + 2 ≤ last) hlast (by omega : last - lo < fuel + 1)
      obtain ⟨hlom, hm⟩ := hsplit.bounds
      have hsize : (exchange data₁ m last).length = data.length := hsplit.rearranged.length_eq
      have hpred : (m : ℤ) - 1 = ((m - 1 : ℕ) : ℤ) := by omega
      have hsucc : (m : ℤ) + 1 = ((m + 1 : ℕ) : ℤ) := by omega
      obtain ⟨left, hleft, hl, hlsorted⟩ := ih (by omega : m - 1 < (exchange data₁ m last).length)
        (by omega : m - 1 + 1 - lo < fuel)
      rw [Nat.sub_add_cancel (by omega)] at hl hlsorted
      have hsize' : left.length = data.length := hl.length_eq.trans hsize
      obtain ⟨right, hright, hr, hrsorted⟩ :=
        ih (by omega : last < left.length) (by omega : last + 1 - (m + 1) < fuel)
      refine ⟨right, ?_, hsplit.join hl hr hlsorted hrsorted⟩
      simp only [if_neg hshort, if_neg hneg, if_neg hle, if_neg hlo, hmid, hswap, hloop, hswap',
        Option.bind_eq_bind, Option.bind_some, hpred, hleft, hsucc, hright]

def endOf (data : List α) (last : ℤ) : ℤ := if last ≥ 0 then last else last + data.length

theorem bubbleSort_neg {start : ℕ} {last : ℤ} (hneg : last < 0) (e : ℕ)
    (he : last + data.length = e) : bubbleSort data start last = bubbleSort data start e := by
  have hnonneg : ¬(e : ℤ) < 0 := by omega
  simp only [bubbleSort, if_pos hneg, if_neg hnonneg, he]

theorem doSort_spec (data : List α) (start : ℕ) (last : ℤ) (hlast : last < data.length) (fuel : ℕ)
    (hfuel : data.length < fuel) :
    ∃ ys, doSort fuel data start last = some ys ∧
      Rearranged start (endOf data last + 1).toNat data ys ∧
      Leading start (endOf data last + 1).toNat (endOf data last + 1).toNat ys := by
  by_cases hneg : last < 0
  · -- a negative end leads straight to the exchange sort
    obtain ⟨fuel, rfl⟩ := Nat.exists_eq_add_one_of_ne_zero (Nat.ne_zero_of_lt hfuel)
    rw [doSort, quickSort, if_pos (by omega), endOf, if_neg (by omega)]
    by_cases hempty : last + data.length < 0
    · have hend : (last + (data.length : ℤ) + 1).toNat = 0 := by omega
      have hle : ¬last + (data.length : ℤ) > data.length := by omega
      refine ⟨data, ?_, .refl _ _ _, hend ▸ leading_empty (Nat.zero_le _) _ _⟩
      simp only [bubbleSort, if_pos hneg, if_neg hle]
      rw [if_pos (by omega)]
    · obtain ⟨e, he⟩ := Int.eq_ofNat_of_zero_le (Int.not_lt.mp hempty)
      have hend : (last + (data.length : ℤ) + 1).toNat = e + 1 := by omega
      rw [bubbleSort_neg hneg e he, hend]
      exact bubbleSort_spec (by omega)
  · obtain ⟨e, rfl⟩ := Int.eq_ofNat_of_zero_le (Int.not_lt.mp hneg)
    have hend : ((e : ℤ) + 1).toNat = e + 1 := by omega
    rw [endOf, if_pos (by omega), hend]
    exact quickSort_spec (by omega) (by omega)

theorem do_sort_sorts (data : List α) (start : ℕ) (last : ℤ) (hlast : last < data.length)
    (fuel : ℕ) (hfuel : data.length < fuel) :
    ∃ ys, doSort fuel data start last = some ys ∧ ys.length = data.length ∧
      (∀ k : ℕ, k < start ∨ (k : ℤ) > endOf data last → ys[k]? = data[k]?) ∧
      (seg start (endOf data last + 1).toNat ys).Pairwise (· ≤ ·) ∧
      (seg start (endOf data last + 1).toNat ys).Perm
      (seg start (endOf data last + 1).toNat data) := by
  obtain ⟨ys, hrun, hr, hsorted⟩ := doSort_spec data start last hlast fuel hfuel
  refine ⟨ys, hrun, hr.length_eq, ?_, hsorted.pairwise, hr.seg_perm⟩
  intro k hk
  exact hr.outside k (by omega)

theorem do_sort_middle :
    (∃ ys, doSort 6 ([5, 4, 3, 2, 1] : List ℤ) (1 : ℕ) 3 = some ys ∧ ys[0]? = some 5 ∧
      ys[4]? = some 1 ∧
      (seg 1 4 ys).Pairwise (· ≤ ·) ∧ (seg 1 4 ys).Perm [4, 3, 2]) ∧
    ∃ ys, doSort 6 ([5, 4, 3, 2, 1] : List ℤ) (1 : ℕ) (-2) = some ys ∧ ys[0]? = some 5 ∧
    ys[4]? = some 1 ∧
      (seg 1 4 ys).Pairwise (· ≤ ·) ∧ (seg 1 4 ys).Perm [4, 3, 2] := by
  obtain ⟨ys, hrun, -, hout, hsorted, hperm⟩ :=
    do_sort_sorts ([5, 4, 3, 2, 1] : List ℤ) 1 3 (by decide) 6 (by decide)
  obtain ⟨zs, hrun', -, hout', hsorted', hperm'⟩ :=
    do_sort_sorts ([5, 4, 3, 2, 1] : List ℤ) 1 (-2) (by decide) 6 (by decide)
  exact ⟨⟨ys, hrun, hout 0 (by decide), hout 4 (by decide), hsorted, hperm⟩,
    zs, hrun', hout' 0 (by decide), hout' 4 (by decide), hsorted', hperm'⟩

end AnalysisPrograms.SortPy
