import AnalysisPrograms.SortPy.Program

namespace AnalysisPrograms.SortPy

open Foundations.Execution Foundations.Indices Foundations.Segments

variable {α : Type} [LinearOrder α] {data : List α} {lo hi i j : ℕ} {x y : α}

theorem compareSwap_eq (hx : data[i]? = some x) (hy : data[j]? = some y) :
    compareSwap i data j = some (if x > y then exchange data i j else data) := by
  rw [compareSwap, item_eq hx, item_eq hy, swap_eq (lt_of_get hx) (lt_of_get hy)]
  simp only [Option.bind_eq_bind, Option.bind_some]
  split
  · rfl
  · rfl

theorem compareSwap_leads {s : List α} (hj : i < j) (hj' : j < hi) (hlen : hi ≤ s.length)
    (hleads : ∀ x, s[i]? = some x → AllIn (i + 1) j (x ≤ ·) s) :
    ∃ t, compareSwap i s j = some t ∧ Rearranged i hi s t ∧ ∀ x, t[i]? = some x →
      AllIn (i + 1) (j + 1) (x ≤ ·) t := by
  have hil : i < s.length := by omega
  have hjl : j < s.length := by omega
  obtain ⟨x, hx⟩ := exists_get hil
  obtain ⟨y, hy⟩ := exists_get hjl
  rw [compareSwap_eq hx hy]
  by_cases hxy : x > y
  · rw [if_pos hxy]
    refine ⟨_, rfl, rearranged_exchange (Nat.le_refl i) (by omega) (by omega) hj' hlen, ?_⟩
    intro z hz
    rw [get_exchange_left hil hjl, hy] at hz
    obtain rfl := Option.some.inj hz
    have hat : (exchange s i j)[j]? = some x := (get_exchange_right hil hjl).trans hx
    refine AllIn.append ?_ (allIn_single hat (le_of_lt hxy))
    intro k w hk hk' hw
    rw [get_exchange_of_ne (by omega) (by omega)] at hw
    exact le_trans (le_of_lt hxy) (hleads x hx k w hk hk' hw)
  · rw [if_neg hxy]
    refine ⟨s, rfl, .refl i hi s, ?_⟩
    intro z hz
    obtain rfl := Option.some.inj (hx.symm.trans hz)
    exact (hleads x hx).append (allIn_single hy (le_of_not_gt hxy))

theorem inner_spec (hi' : i < hi) (hlen : hi ≤ data.length) :
    ∃ ys, exec (compareSwap i) data (upTo (i + 1 : ℕ) hi) = some ys ∧ Rearranged i hi data ys ∧
      ∀ x, ys[i]? = some x → AllIn (i + 1) hi (x ≤ ·) ys := by
  rw [upTo_natCast, exec_map]
  have hstep : ∀ j s, i + 1 ≤ j → j < i + 1 + (hi - (i + 1)) →
      (Rearranged i hi data s ∧ ∀ x, s[i]? = some x → AllIn (i + 1) j (x ≤ ·) s) →
      ∃ t, compareSwap i s j = some t ∧ Rearranged i hi data t ∧ ∀ x, t[i]? = some x →
      AllIn (i + 1) (j + 1) (x ≤ ·) t := by
    rintro j s hj hj' ⟨hr, hleads⟩
    have hlen' : hi ≤ s.length := by rwa [hr.length_eq]
    obtain ⟨t, ht, hr', hleads'⟩ := compareSwap_leads (by omega) (by omega) hlen' hleads
    exact ⟨t, ht, hr.trans hr', hleads'⟩
  obtain ⟨ys, hys, hr, hleads⟩ :=
    exec_range _ hstep ⟨.refl i hi data, fun x _ => allIn_empty (Nat.le_refl _) _ _⟩
  refine ⟨ys, hys, hr, ?_⟩
  rwa [Nat.add_sub_cancel' (by omega)] at hleads

theorem bubbleSort_spec {start last : ℕ} (hlast : last < data.length) :
    ∃ ys, bubbleSort data start last = some ys ∧ Rearranged start (last + 1) data ys ∧
      Leading start (last + 1) (last + 1) ys := by
  have hneg : ¬(last : ℤ) < 0 := by omega
  have hle : ¬(last : ℤ) > data.length := by omega
  simp only [bubbleSort, if_neg hneg, if_neg hle]
  by_cases hshort : last ≤ start
  · rw [if_pos (Int.ofNat_le.mpr hshort)]
    refine ⟨data, rfl, .refl _ _ _, ?_⟩
    intro k x hlo hhi _
    exact allIn_empty (by omega) _ _
  · rw [if_neg (by omega), upTo_natCast, exec_map]
    have hstep : ∀ i s, start ≤ i → i < start + (last - start) →
        (Rearranged start (last + 1) data s ∧ Leading start i (last + 1) s) →
        ∃ t, exec (compareSwap (i : ℤ)) s (upTo ((i : ℤ) + 1) ((last : ℤ) + 1)) = some t ∧
          Rearranged start (last + 1) data t ∧ Leading start (i + 1) (last + 1) t := by
      rintro i s hi hi' ⟨hr, hlead⟩
      have hlen' : last + 1 ≤ s.length := by
        rw [hr.length_eq]
        omega
      obtain ⟨t, ht, hr', hleads⟩ := inner_spec (by omega : i < last + 1) hlen'
      exact ⟨t, ht, hr.trans (hr'.widen hi (Nat.le_refl _)), (hlead.behind hr').extend hleads⟩
    obtain ⟨ys, hys, hr, hlead⟩ :=
      exec_range _ hstep ⟨.refl _ _ _, leading_empty (Nat.le_refl _) _ _⟩
    rw [Nat.add_sub_cancel' (by omega)] at hlead
    refine ⟨ys, hys, hr, hlead.extend ?_⟩
    exact fun x _ => allIn_empty (Nat.le_refl _) _ _

end AnalysisPrograms.SortPy
