import AnalysisPrograms.SortPy.Program

namespace AnalysisPrograms.SortPy

open Foundations.Indices Foundations.Segments

variable {α : Type} [LinearOrder α] {data before : List α} {a b c lo last i n fuel : ℕ}
  {x y z p : α}

theorem mid_eq (hx : data[a]? = some x) (hy : data[b]? = some y) (hz : data[c]? = some z) :
    mid data a b c = some (if x > y then if x < z then a else if y > z then b else c
      else if y < z then b else if x > z then a else c : ℕ) := by
  simp only [mid, item_eq hx, item_eq hy, item_eq hz, Option.bind_eq_bind, Option.bind_some]
  split_ifs <;> rfl

theorem mid_spec (hab : a < b) (hbc : b < c) (hc : c < data.length) :
    ∃ t u v w, mid data a b c = some ((t : ℕ) : ℤ) ∧ a ≤ t ∧ t ≤ c ∧ a ≤ u ∧ u ≤ c ∧ u ≠ t ∧
      data[t]? = some v ∧
      data[u]? = some w ∧ w ≤ v := by
  obtain ⟨x, hx⟩ := exists_get (by omega : a < data.length)
  obtain ⟨y, hy⟩ := exists_get (by omega : b < data.length)
  obtain ⟨z, hz⟩ := exists_get hc
  rw [mid_eq hx hy hz]
  split_ifs with hxy hxz hyz hyz hxz
  · exact ⟨a, b, x, y, rfl, by omega, by omega, by omega, by omega, by omega, hx, hy, le_of_lt hxy⟩
  · exact ⟨b, c, y, z, rfl, by omega, by omega, by omega, by omega, by omega, hy, hz, le_of_lt hyz⟩
  · exact ⟨c, b, z, y,
      rfl, by omega, by omega, by omega, by omega, by omega, hz, hy, le_of_not_gt hyz⟩
  · exact ⟨b, a, y, x,
      rfl, by omega, by omega, by omega, by omega, by omega, hy, hx, le_of_not_gt hxy⟩
  · exact ⟨a, c, x, z, rfl, by omega, by omega, by omega, by omega, by omega, hx, hz, le_of_lt hxz⟩
  · exact ⟨c, a, z, x,
      rfl, by omega, by omega, by omega, by omega, by omega, hz, hx, le_of_not_gt hxz⟩

/-- The state of the loop: what lies before `i` is at most the pivot, what lies from `n` on is at
least the pivot, and strictly above it as long as `i` has not moved. The variable `j` of the loop is
`n - 1`. -/
structure Splitting (lo last : ℕ) (p : α) (before data : List α) (i n : ℕ) : Prop where
  rearranged : Rearranged lo last before data
  size : last < data.length
  pivot : data[last]? = some p
  bounds : lo ≤ i ∧ i ≤ n ∧ n ≤ last
  left : AllIn lo i (· ≤ p) data
  right : AllIn n last (p ≤ ·) data
  strict : i = lo → AllIn n last (p < ·) data

theorem Splitting.high (h : Splitting lo last p before data i n) (hin : i < n)
    (hx : data[i]? = some x) (hxp : x > p) :
    Splitting lo last p before (exchange data i (n - 1)) i (n - 1) := by
  obtain ⟨hlo, -, hn⟩ := h.bounds
  have hsize := h.size
  have hr : Rearranged i n data (exchange data i (n - 1)) :=
    rearranged_exchange (Nat.le_refl i) hin (by omega) (by omega) (by omega)
  have hat : (exchange data i (n - 1))[n - 1]? = some x :=
    (get_exchange_right (by omega) (by omega)).trans hx
  have hpos : 0 < n := by omega
  refine ⟨h.rearranged.trans (hr.widen hlo hn), ?_,
    ?_, by omega, h.left.beside hr (by omega), ?_, ?_⟩
  · rwa [hr.length_eq]
  · rw [hr.outside last (by omega), h.pivot]
  · exact (allIn_before hpos hat (le_of_lt hxp)).append (h.right.beside hr (by omega))
  · intro heq
    exact (allIn_before hpos hat hxp).append ((h.strict heq).beside hr (by omega))

theorem Splitting.low (h : Splitting lo last p before data i n) (hin : i < n)
    (hx : data[i]? = some x) (hxp : x ≤ p) : Splitting lo last p before data (i + 1) n := by
  obtain ⟨hlo, -, hn⟩ := h.bounds
  refine ⟨h.rearranged, h.size, h.pivot, by omega, h.left.append (allIn_single hx hxp), h.right, ?_⟩
  intro heq
  omega

theorem Splitting.between (h : Splitting lo last p before data i n) (hin : i < n) :
    Splitting lo last p before (exchange data (n - 1) i) i n := by
  obtain ⟨hlo, -, hn⟩ := h.bounds
  have hsize := h.size
  have hr : Rearranged i n data (exchange data (n - 1) i) :=
    rearranged_exchange (by omega) (by omega) (Nat.le_refl i) hin (by omega)
  refine ⟨h.rearranged.trans (hr.widen hlo hn), ?_, ?_, h.bounds, h.left.beside hr (by omega),
    h.right.beside hr (by omega), fun heq => (h.strict heq).beside hr (by omega)⟩
  · rwa [hr.length_eq]
  · rw [hr.outside last (by omega), h.pivot]

theorem Splitting.above (h : Splitting lo last p before data i n) (hmoved : lo < i) (hin : i < n)
    (hy : data[n - 1]? = some y) (hyp : p ≤ y) : Splitting lo last p before data i (n - 1) := by
  obtain ⟨-, -, hn⟩ := h.bounds
  have hpos : 0 < n := by omega
  refine ⟨h.rearranged, h.size, h.pivot, by omega, h.left, ?_, fun heq => by omega⟩
  exact (allIn_before hpos hy hyp).append h.right

theorem splitLoop_high (hx : data[i]? = some x) (hp : data[last]? = some p) (hxp : x > p)
    (hin : i < n) (hn : n ≤ last) :
    splitLoop last (fuel + 1) data i ((n : ℤ) - 1) =
      if i ≥ n - 1 then some (exchange data i (n - 1), (i : ℤ))
      else splitLoop last fuel (exchange data i (n - 1)) i (((n - 1 : ℕ) : ℤ) - 1) := by
  have hlast := lt_of_get hp
  have hj : (n : ℤ) - 1 = ((n - 1 : ℕ) : ℤ) := by omega
  have hx' : (exchange data i (n - 1))[n - 1]? = some x :=
    (get_exchange_right (by omega) (by omega)).trans hx
  have hp' : (exchange data i (n - 1))[last]? = some p :=
    (get_exchange_of_ne (by omega) (by omega)).trans hp
  rw [hj]
  simp only [splitLoop, item_eq hx, item_eq hp, if_pos hxp,
    swap_eq (lt_of_get hx) (by omega : n - 1 < data.length), Option.bind_eq_bind, Option.bind_some,
    Option.map_some, item_eq hx', item_eq hp', if_neg (not_lt_of_gt hxp)]
  rw [if_neg (by omega)]
  by_cases hend : i ≥ n - 1
  · rw [if_pos (by omega), if_pos hend]
    rfl
  · rw [if_neg (by omega), if_neg hend]

theorem splitLoop_low_last (hx : data[i]? = some x) (hp : data[last]? = some p) (hxp : x ≤ p)
    (hin : n = i + 1) :
    splitLoop last (fuel + 1) data i ((n : ℤ) - 1) = some (data, ((i + 1 : ℕ) : ℤ)) := by
  simp only [splitLoop, item_eq hx, item_eq hp, if_neg (not_lt_of_ge hxp), Option.bind_eq_bind,
    Option.bind_some]
  rw [if_pos (by omega)]
  rfl

theorem splitLoop_low (hx : data[i]? = some x) (hp : data[last]? = some p) (hxp : x ≤ p)
    (hy : data[n - 1]? = some y) (hin : i + 1 < n) (hn : n ≤ last) :
    splitLoop last (fuel + 1) data i ((n : ℤ) - 1) =
      if y < p then splitLoop last fuel (exchange data (n - 1) (i + 1))
      ((i + 1 : ℕ) : ℤ) ((n : ℤ) - 1)
      else if i + 1 ≥ n - 1 then some (data, ((i + 1 : ℕ) : ℤ))
      else splitLoop last fuel data ((i + 1 : ℕ) : ℤ) (((n - 1 : ℕ) : ℤ) - 1) := by
  have hlast := lt_of_get hp
  have hj : (n : ℤ) - 1 = ((n - 1 : ℕ) : ℤ) := by omega
  have hi : (i : ℤ) + 1 = ((i + 1 : ℕ) : ℤ) := by omega
  rw [hj]
  simp only [splitLoop, item_eq hx, item_eq hp, if_neg (not_lt_of_ge hxp), Option.bind_eq_bind,
    Option.bind_some, item_eq hy, hi, swap_eq (lt_of_get hy) (by omega : i + 1 < data.length),
    Option.map_some]
  rw [if_neg (by omega)]
  by_cases hyp : y < p
  · simp only [if_pos hyp]
    rw [if_neg (by omega)]
  · simp only [if_neg hyp]
    by_cases hend : i + 1 ≥ n - 1
    · rw [if_pos (by omega), if_pos hend]
      rfl
    · rw [if_neg (by omega), if_neg hend]

theorem splitLoop_spec (h : Splitting lo last p before data i n) (hin : i < n)
    (hfuel : n - i < fuel) :
    ∃ data' m, splitLoop last fuel data i ((n : ℤ) - 1) = some (data', ((m : ℕ) : ℤ)) ∧
      Splitting lo last p before data' m m := by
  induction fuel generalizing data i n with
  | zero => omega
  | succ fuel ih =>
    obtain ⟨hlo, -, hn⟩ := h.bounds
    have hsize := h.size
    obtain ⟨x, hx⟩ := exists_get (by omega : i < data.length)
    by_cases hxp : x > p
    · rw [splitLoop_high hx h.pivot hxp hin hn]
      have hnext := h.high hin hx hxp
      by_cases hend : i ≥ n - 1
      · rw [if_pos hend]
        obtain rfl : i = n - 1 := by omega
        exact ⟨_, _, rfl, hnext⟩
      · rw [if_neg hend]
        exact ih hnext (by omega) (by omega)
    · have hle := le_of_not_gt hxp
      have hnext := h.low hin hx hle
      by_cases hlast : n = i + 1
      · rw [splitLoop_low_last hx h.pivot hle hlast]
        exact ⟨_, _, rfl, hlast ▸ hnext⟩
      · obtain ⟨y, hy⟩ := exists_get (by omega : n - 1 < data.length)
        rw [splitLoop_low hx h.pivot hle hy (by omega) hn]
        by_cases hyp : y < p
        · rw [if_pos hyp]
          exact ih (hnext.between (by omega)) (by omega) (by omega)
        · rw [if_neg hyp]
          have habove := hnext.above (by omega) (by omega) hy (le_of_not_gt hyp)
          by_cases hend : i + 1 ≥ n - 1
          · rw [if_pos hend]
            obtain heq : i + 1 = n - 1 := by omega
            rw [← heq] at habove
            exact ⟨_, _, rfl, habove⟩
          · rw [if_neg hend]
            exact ih habove (by omega) (by omega)

structure Split (lo last m : ℕ) (before data : List α) : Prop where
  rearranged : Rearranged lo (last + 1) before data
  bounds : lo < m ∧ m ≤ last
  pivot : ∃ p, data[m]? = some p ∧ AllIn lo m (· ≤ p) data ∧ AllIn (m + 1) (last + 1) (p ≤ ·) data

theorem Splitting.finish {m k : ℕ} {w : α} (h : Splitting lo last p before data m m) (hk : lo ≤ k)
    (hk' : k < last) (hw : before[k]? = some w) (hwp : w ≤ p) :
    Split lo last m before (exchange data m last) := by
  obtain ⟨hlo, -, hm⟩ := h.bounds
  have hsize := h.size
  have hr : Rearranged m (last + 1) data (exchange data m last) :=
    rearranged_exchange (Nat.le_refl m) (by omega) hm (by omega) (by omega)
  have hmoved : lo < m := by
    by_contra hnot
    obtain ⟨j, hj, hj', hwj⟩ := h.rearranged.symm.exists_at hk hk' hw
    have hlt := h.strict (by omega) j w (by omega) hj' hwj
    exact absurd hwp (not_le_of_gt hlt)
  refine ⟨(h.rearranged.widen (Nat.le_refl lo) (by omega)).trans (hr.widen hlo (Nat.le_refl _)),
    ⟨hmoved, hm⟩, p, ?_, h.left.beside hr (by omega), ?_⟩
  · rw [get_exchange_left (by omega) hsize, h.pivot]
  · intro j y hj hj' hy
    by_cases heq : j = last
    · subst heq
      rw [get_exchange_right (by omega) hsize] at hy
      exact h.right m y (Nat.le_refl m) (by omega) hy
    · rw [get_exchange_of_ne (by omega) heq] at hy
      exact h.right j y (by omega) (by omega) hy

end AnalysisPrograms.SortPy
