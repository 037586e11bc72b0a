import Mathlib.Algebra.Group.Int.Defs
import Mathlib.Algebra.Group.Nat.Defs
import Mathlib.Algebra.Order.Group.Unbundled.Int
import Mathlib.Data.Int.Order.Basic
import AnalysisPrograms.Foundations.MachineInt
import AnalysisPrograms.Foundations.Segments

namespace AnalysisPrograms.Qsort

open Foundations.MachineInt Foundations.Segments

def INT_MAX : ℤ := 2 ^ 31 - 1

def swap (data : List ℤ) (a b : ℤ) : Option (List ℤ) := do
  let tmp ← readAt data a
  let x ← readAt data b
  return (data.set a.toNat x).set b.toNat tmp

def choosePivot (data : List ℤ) (n : ℤ) : Option (List ℤ) := do
  let m := n / 2
  let first ← readAt data 0
  let last ← readAt data (n - 1)
  let middle ← readAt data m
  if first > last then
    if middle > first then swap data 0 (n - 1)
    else if middle < last then some data
    else swap data m (n - 1)
  else
    if middle > last then some data
    else if middle < first then swap data 0 (n - 1)
    else swap data m (n - 1)

/-- `i` counted past the largest `int` is an overflow. -/
def partitionLoop (last : ℤ) : ℕ → List ℤ → ℤ → ℤ → Option (List ℤ)
  | 0, _, _, _ => none
  | fuel + 1, data, i, j =>
    if i ≤ j then do
      let x ← readAt data i
      let pivot ← readAt data last
      if x < pivot then
        if i = INT_MAX then none else partitionLoop last fuel data (i + 1) j
      else do
        let data ← swap data i j
        partitionLoop last fuel data i (j - 1)
    else some data

def qsort (fuel : ℕ) (data : List ℤ) (n : ℤ) : Option (List ℤ) :=
  if n = 1 then some data
  else if n = 2 then do
    if (← readAt data 0) > (← readAt data 1) then swap data 0 1 else return data
  else do
    let data ← choosePivot data n
    let data ← partitionLoop (n - 1) fuel data 0 (toInt32 (n - 1 - 1))
    -- the three values are printed
    let _ ← readAt data 0
    let _ ← readAt data (n / 2)
    let _ ← readAt data (n - 1)
    return data

def IsMedian (a b c x : ℤ) : Prop :=
  x ∈ [a, b, c] ∧ 2 ≤ [a, b, c].countP (· ≤ x) ∧ 2 ≤ [a, b, c].countP (x ≤ ·)

def Partitioned (original data : List ℤ) : Prop :=
  data.Perm original ∧ ∃ first middle last pivot,
    original[0]? = some first ∧ original[original.length / 2]? = some middle ∧
    original[original.length - 1]? = some last ∧ data[original.length - 1]? = some pivot ∧
    IsMedian first middle last pivot ∧
    ∃ k, k ≤ original.length - 1 ∧ AllIn 0 k (· < pivot) data ∧
    AllIn k (original.length - 1) (pivot ≤ ·) data

section Access

variable {data : List ℤ} {a b : ℕ}

theorem swap_eq (ha : a < data.length) (hb : b < data.length) :
    swap data a b = some (exchange data a b) := by
  obtain ⟨x, hx⟩ := exists_get ha
  obtain ⟨y, hy⟩ := exists_get hb
  rw [swap, readAt_eq hx, readAt_eq hy, exchange_eq hx hy]
  rfl

theorem last_position (h : a < data.length) : (data.length : ℤ) - 1 = (data.length - 1 : ℕ) :=
  (Int.ofNat_sub (Nat.one_le_of_lt h)).symm

end Access

section Loop

variable {data : List ℤ} {fuel i hi last : ℕ} {p : ℤ}

theorem partitionLoop_done {last j : ℤ} {i : ℤ} (h : ¬i ≤ j) :
    partitionLoop last (fuel + 1) data i j = some data := by
  rw [partitionLoop, if_neg h]

theorem partitionLoop_less {x : ℤ} (hlt : i < hi) (hmax : i + 1 < 2 ^ 31) (hx : data[i]? = some x)
    (hp : data[last]? = some p) (hxp : x < p) :
    partitionLoop last (fuel + 1) data i (hi - 1) = partitionLoop last fuel data (i + 1 : ℕ)
      (hi - 1) := by
  have hne : ¬(i : ℤ) = INT_MAX := by
    rw [INT_MAX]
    omega
  rw [partitionLoop, if_pos (by omega), readAt_eq hx, readAt_eq hp]
  simp only [Option.bind_eq_bind, Option.bind_some, hxp, hne, ↓reduceIte]
  rfl

theorem partitionLoop_swap {x : ℤ} (hlt : i < hi) (hlen : hi ≤ data.length) (hx : data[i]? = some x)
    (hp : data[last]? = some p) (hxp : ¬x < p) :
    partitionLoop last (fuel + 1) data i (hi - 1) =
      partitionLoop last fuel (exchange data i (hi - 1)) i ((hi - 1 : ℕ) - 1) := by
  have hj : (hi : ℤ) - 1 = (hi - 1 : ℕ) := by omega
  rw [partitionLoop, if_pos (by omega), readAt_eq hx, readAt_eq hp]
  simp only [Option.bind_eq_bind, Option.bind_some, hxp, ↓reduceIte]
  rw [hj, swap_eq (by omega) (by omega), Option.bind_some]

theorem partitionLoop_spec (hp : data[last]? = some p) (hle : i ≤ hi) (hhi : hi ≤ last)
    (hfuel : hi - i < fuel) (hmax : hi < 2 ^ 31 ∨ hi = 2 ^ 31 ∧ ¬AllIn i hi (· < p) data) :
    ∃ data' k, partitionLoop last fuel data i (hi - 1) = some data' ∧ Rearranged i hi data data' ∧
      i ≤ k ∧ k ≤ hi ∧ AllIn i k (· < p) data' ∧ AllIn k hi (p ≤ ·) data' := by
  have hlen := lt_of_get hp
  induction fuel generalizing data i hi with
  | zero => omega
  | succ fuel ih =>
    by_cases hlt : i < hi
    · obtain ⟨x, hx⟩ := exists_get (show i < data.length by omega)
      by_cases hxp : x < p
      · have hone : AllIn i (i + 1) (· < p) data := allIn_single hx hxp
        have hstay : hi < 2 ^ 31 ∨ hi = 2 ^ 31 ∧ ¬AllIn (i + 1) hi (· < p) data :=
          hmax.imp_right fun h => ⟨h.1, fun hall => h.2 (hone.append hall)⟩
        have hnext : i + 1 < 2 ^ 31 := by
          rcases hstay with hsmall | ⟨heq, hnot⟩
          · omega
          · by_contra hlarge
            exact hnot (allIn_empty (by omega) _ _)
        rw [partitionLoop_less hlt hnext hx hp hxp]
        obtain ⟨data', k, hrun, hr, hik, hk, hfront, hback⟩ := ih hp hlt hhi (by omega) hstay hlen
        refine ⟨data', k, hrun, hr.widen (by omega) (Nat.le_refl hi), by omega, hk, ?_, hback⟩
        exact (hone.beside hr (.inl (Nat.le_refl _))).append hfront
      · have hr₁ : Rearranged i hi data (exchange data i (hi - 1)) :=
          rearranged_exchange (Nat.le_refl i) hlt (by omega) (by omega) (by omega)
        have hp₁ : (exchange data i (hi - 1))[last]? = some p := by
          rwa [hr₁.outside last (.inr hhi)]
        have hat : (exchange data i (hi - 1))[hi - 1]? = some x := by
          rwa [get_exchange_right (by omega) (by omega)]
        rw [partitionLoop_swap hlt (by omega) hx hp hxp]
        obtain ⟨data', k, hrun, hr, hik, hk, hfront, hback⟩ :=
          ih hp₁ (show i ≤ hi - 1 by omega) (by omega) (by omega) (.inl (by omega)) (lt_of_get hp₁)
        refine ⟨data', k, hrun, hr₁.trans (hr.widen (Nat.le_refl i) (by omega)),
          hik, by omega, hfront, ?_⟩
        have hlast : AllIn (hi - 1) hi (p ≤ ·) (exchange data i (hi - 1)) :=
          allIn_before (by omega) hat (not_lt.mp hxp)
        exact hback.append (hlast.beside hr (.inr (Nat.le_refl _)))
    · obtain rfl : i = hi := by omega
      refine ⟨data, i, partitionLoop_done (by omega), .refl _ _ _, Nat.le_refl i,
        Nat.le_refl i, ?_, ?_⟩
      · exact allIn_empty (Nat.le_refl i) _ _
      · exact allIn_empty (Nat.le_refl i) _ _

theorem partitionLoop_overflow (hp : data[last]? = some p) (hi : i < 2 ^ 31) (hlast : 2 ^ 31 ≤ last)
    (hall : AllIn i (2 ^ 31) (· < p) data) : partitionLoop last fuel data i INT_MAX = none := by
  induction fuel generalizing i with
  | zero => rfl
  | succ fuel ih =>
    have hlen := lt_of_get hp
    obtain ⟨x, hx⟩ := exists_get (show i < data.length by omega)
    have hxp := hall i x (Nat.le_refl i) hi hx
    have hmax : INT_MAX = ((2 ^ 31 : ℕ) : ℤ) - 1 := by
      rw [INT_MAX]
      omega
    by_cases hend : i + 1 < 2 ^ 31
    · rw [hmax, partitionLoop_less hi hend hx hp hxp, ← hmax]
      exact ih hend fun k y hk => hall k y (by omega)
    · have heq : (i : ℤ) = INT_MAX := by
        rw [hmax]
        omega
      rw [partitionLoop, if_pos (le_of_eq heq), readAt_eq hx, readAt_eq hp]
      simp only [Option.bind_eq_bind, Option.bind_some, hxp, heq, ↓reduceIte]

end Loop

section Pivot

variable {data : List ℤ} {a : ℕ} {first middle last x : ℤ}

theorem isMedian_of_order (h : x = first ∧ (middle ≤ x ∧ x ≤ last ∨ last ≤ x ∧ x ≤ middle) ∨
    x = middle ∧ (first ≤ x ∧ x ≤ last ∨ last ≤ x ∧ x ≤ first) ∨
    x = last ∧ (first ≤ x ∧ x ≤ middle ∨ middle ≤ x ∧ x ≤ first)) :
    IsMedian first middle last x := by
  rcases h with ⟨rfl, h | h⟩ | ⟨rfl, h | h⟩ | ⟨rfl, h | h⟩ <;> simp [IsMedian, List.countP_cons, h]

structure Chosen (data chosen : List ℤ) (pivot : ℤ) : Prop where
  perm : chosen.Perm data
  at_end : chosen[data.length - 1]? = some pivot
  larger : ∃ k x, k < data.length - 1 ∧ chosen[k]? = some x ∧ pivot ≤ x

theorem chosen_exchange (ha : a < data.length - 1) (hx : data[a]? = some x)
    (hlast : data[data.length - 1]? = some last)
    (hlarger : x ≤ last ∨ ∃ k y, k < data.length - 1 ∧ k ≠ a ∧ data[k]? = some y ∧ x ≤ y) :
    ∃ chosen, swap data a (data.length - 1) = some chosen ∧ Chosen data chosen x := by
  have ha' : a < data.length := lt_of_get hx
  have hend' := lt_of_get hlast
  rw [last_position ha', swap_eq ha' hend']
  refine ⟨_, rfl, exchange_perm ha' hend', by rwa [get_exchange_right ha' hend'], ?_⟩
  rcases hlarger with hle | ⟨k, y, hk, hne, hy, hle⟩
  · exact ⟨a, last, ha, by rwa [get_exchange_left ha' hend'], hle⟩
  · exact ⟨k, y, hk, by rwa [get_exchange_of_ne hne (by omega)], hle⟩

theorem choosePivot_eq (hfirst : data[0]? = some first)
    (hmiddle : data[data.length / 2]? = some middle) (hlast : data[data.length - 1]? = some last) :
    choosePivot data data.length =
      if first > last then
        if middle > first then swap data (0 : ℕ) (data.length - 1)
        else if middle < last then some data
        else swap data (data.length / 2 : ℕ) (data.length - 1)
      else
        if middle > last then some data
        else if middle < first then swap data (0 : ℕ) (data.length - 1)
        else swap data (data.length / 2 : ℕ) (data.length - 1) := by
  have hm : (data.length : ℤ) / 2 = (data.length / 2 : ℕ) := by omega
  have hread : readAt data 0 = some first := readAt_eq (k := 0) hfirst
  have hread' : readAt data (data.length - 1) = some last := by
    rw [last_position (lt_of_get hlast), readAt_eq hlast]
  simp only [choosePivot, hread, hread', hm, readAt_eq hmiddle, Option.bind_eq_bind,
    Option.bind_some]
  rfl

def medianPlace (n : ℕ) (first middle last : ℤ) : ℕ :=
  if first > last then
    if middle > first then 0 else if middle < last then n - 1 else n / 2
  else
    if middle > last then n - 1 else if middle < first then 0 else n / 2

theorem choosePivot_exchange (hfirst : data[0]? = some first)
    (hmiddle : data[data.length / 2]? = some middle) (hlast : data[data.length - 1]? = some last) :
    choosePivot data data.length =
      some (exchange data (medianPlace data.length first middle last) (data.length - 1)) := by
  have hend := lt_of_get hlast
  have hswap : ∀ a : ℕ, a < data.length →
      swap data a (data.length - 1) = some (exchange data a (data.length - 1)) := by
    intro a ha
    rw [last_position hend, swap_eq ha hend]
  rw [choosePivot_eq hfirst hmiddle hlast, medianPlace, hswap 0 (lt_of_get hfirst),
    hswap _ (lt_of_get hmiddle)]
  split_ifs <;> simp only [exchange_self hend]

theorem choosePivot_spec (h : 3 ≤ data.length) :
    ∃ first middle last pivot chosen, data[0]? = some first ∧ data[data.length / 2]? = some middle ∧
      data[data.length - 1]? = some last ∧ choosePivot data data.length = some chosen ∧
      IsMedian first middle last pivot ∧ Chosen data chosen pivot := by
  obtain ⟨first, hfirst⟩ := exists_get (show 0 < data.length by omega)
  obtain ⟨middle, hmiddle⟩ := exists_get (show data.length / 2 < data.length by omega)
  obtain ⟨last, hlast⟩ := exists_get (show data.length - 1 < data.length by omega)
  refine ⟨first, middle, last, ?_⟩
  rw [choosePivot_eq hfirst hmiddle hlast]
  by_cases hfl : first > last
  · rw [if_pos hfl]
    by_cases hmf : middle > first
    · obtain ⟨chosen, hswap, hchosen⟩ := chosen_exchange (by omega) hfirst hlast
        (.inr ⟨data.length / 2, middle, by omega, by omega, hmiddle, by omega⟩)
      rw [if_pos hmf]
      exact ⟨first, chosen, hfirst, hmiddle, hlast, hswap, isMedian_of_order (by omega), hchosen⟩
    · rw [if_neg hmf]
      by_cases hml : middle < last
      · rw [if_pos hml]
        exact ⟨last, data, hfirst, hmiddle, hlast, rfl, isMedian_of_order (by omega),
          .refl data, hlast, 0, first, by omega, hfirst, by omega⟩
      · obtain ⟨chosen, hswap, hchosen⟩ := chosen_exchange (by omega) hmiddle hlast
          (.inr ⟨0, first, by omega, by omega, hfirst, by omega⟩)
        rw [if_neg hml]
        exact ⟨middle, chosen, hfirst, hmiddle, hlast, hswap, isMedian_of_order (by omega), hchosen⟩
  · rw [if_neg hfl]
    by_cases hml : middle > last
    · rw [if_pos hml]
      exact ⟨last, data, hfirst, hmiddle, hlast, rfl, isMedian_of_order (by omega),
        .refl data, hlast, data.length / 2, middle, by omega, hmiddle, by omega⟩
    · rw [if_neg hml]
      by_cases hmf : middle < first
      · obtain ⟨chosen, hswap, hchosen⟩ := chosen_exchange (by omega) hfirst hlast (.inl (by omega))
        rw [if_pos hmf]
        exact ⟨first, chosen, hfirst, hmiddle, hlast, hswap, isMedian_of_order (by omega), hchosen⟩
      · obtain ⟨chosen, hswap, hchosen⟩ :=
          chosen_exchange (by omega) hmiddle hlast (.inl (by omega))
        rw [if_neg hmf]
        exact ⟨middle, chosen, hfirst, hmiddle, hlast, hswap, isMedian_of_order (by omega), hchosen⟩

end Pivot

section Whole

variable {data chosen data' : List ℤ} {fuel hi : ℕ} {pivot : ℤ}

theorem qsort_none (h : 3 ≤ data.length) (hc : choosePivot data data.length = some chosen)
    (hloop : partitionLoop (data.length - 1) fuel chosen 0 (toInt32 (data.length - 1 - 1)) = none) :
    qsort fuel data data.length = none := by
  have hone : ¬(data.length : ℤ) = 1 := by omega
  have htwo : ¬(data.length : ℤ) = 2 := by omega
  simp only [qsort, hone, htwo, ↓reduceIte, hc, hloop, Option.bind_eq_bind, Option.bind_some,
    Option.bind_none]

theorem qsort_some (h : 3 ≤ data.length) (hc : choosePivot data data.length = some chosen)
    (hloop : partitionLoop (data.length - 1) fuel chosen 0 (toInt32 (data.length - 1 - 1)) =
      some data')
    (hlen : data'.length = data.length) : qsort fuel data data.length = some data' := by
  have hone : ¬(data.length : ℤ) = 1 := by omega
  have htwo : ¬(data.length : ℤ) = 2 := by omega
  obtain ⟨x, hx⟩ := exists_get (show 0 < data'.length by omega)
  obtain ⟨y, hy⟩ := exists_get (show data.length / 2 < data'.length by omega)
  obtain ⟨z, hz⟩ := exists_get (show data.length - 1 < data'.length by omega)
  have hx' : readAt data' 0 = some x := readAt_eq (k := 0) hx
  have hy' : readAt data' ((data.length : ℤ) / 2) = some y := readAt_eq (k := data.length / 2) hy
  have hz' : readAt data' ((data.length : ℤ) - 1) = some z := by rw [last_position h, readAt_eq hz]
  simp only [qsort, hone, htwo, ↓reduceIte, hc, hloop, hx', hy', hz', Option.bind_eq_bind,
    Option.bind_some]
  rfl

theorem loop_splits (h : 3 ≤ data.length) (hch : Chosen data chosen pivot)
    (hhi : hi = (toInt32 (data.length - 1 - 1) + 1).toNat)
    (hmax : hi = 2 ^ 31 → ¬AllIn 0 hi (· < pivot) chosen) (hfuel : hi < fuel) :
    ∃ data' k, partitionLoop (data.length - 1) fuel chosen 0 (toInt32 (data.length - 1 - 1)) =
      some data' ∧
      Rearranged 0 hi chosen data' ∧ k ≤ hi ∧ AllIn 0 k (· < pivot) data' ∧
      AllIn k hi (pivot ≤ ·) data' := by
  have hle := toInt32_le (show (0 : ℤ) ≤ data.length - 1 - 1 by omega)
  have hle' := toInt32_lt (data.length - 1 - 1)
  generalize hj : toInt32 (data.length - 1 - 1) = j at *
  by_cases hneg : j < 0
  · obtain ⟨fuel, rfl⟩ : ∃ k, fuel = k + 1 := ⟨fuel - 1, by omega⟩
    obtain rfl : hi = 0 := by omega
    refine ⟨chosen, 0, partitionLoop_done (by omega), .refl _ _ _, Nat.le_refl 0, ?_, ?_⟩
    · exact allIn_empty (Nat.le_refl 0) _ _
    · exact allIn_empty (Nat.le_refl 0) _ _
  · have hj' : j = (hi : ℤ) - 1 := by omega
    rw [hj', last_position h]
    have hmax' : hi < 2 ^ 31 ∨ hi = 2 ^ 31 ∧ ¬AllIn 0 hi (· < pivot) chosen := by
      by_cases hlarge : hi = 2 ^ 31
      · exact .inr ⟨hlarge, hmax hlarge⟩
      · left
        omega
    obtain ⟨data', k, hrun, hr, -, hk, hfront, hback⟩ :=
      partitionLoop_spec hch.at_end (Nat.zero_le hi) (by omega) (show hi - 0 < fuel by omega) hmax'
    exact ⟨data', k, hrun, hr, hk, hfront, hback⟩

def InPlace (hi last : ℕ) (pivot : ℤ) (chosen : List ℤ) : Prop :=
  ∀ a b x y, a < b → hi ≤ b → b < last → chosen[a]? = some x → chosen[b]? = some y →
    x < pivot ∨ pivot ≤ y

theorem split_iff_inPlace {last k : ℕ} (hr : Rearranged 0 hi chosen data')
    (hfront : AllIn 0 k (· < pivot) data') (hback : AllIn k hi (pivot ≤ ·) data') :
    (∃ k, k ≤ last ∧ AllIn 0 k (· < pivot) data' ∧ AllIn k last (pivot ≤ ·) data') ↔
      InPlace hi last pivot chosen := by
  have hsplit : (∃ k, k ≤ last ∧ AllIn 0 k (· < pivot) data' ∧ AllIn k last (¬· < pivot) data') ↔
    _ := split_iff
  simp only [not_lt] at hsplit
  rw [hsplit]
  constructor
  · intro h a b x y hab hb hlast hx hy
    rw [← hr.outside b (.inr hb)] at hy
    by_cases ha : a < hi
    · obtain ⟨m, -, hm, hx'⟩ := hr.symm.exists_at (Nat.zero_le a) ha hx
      exact h m b x y (by omega) hlast hx' hy
    · rw [← hr.outside a (.inr (by omega))] at hx
      exact h a b x y hab hlast hx hy
  · intro h a b x y hab hlast hx hy
    by_cases hb : b < hi
    · by_cases ha : a < k
      · exact .inl (hfront a x (Nat.zero_le a) ha hx)
      · exact .inr (hback b y (by omega) hb hy)
    · rw [hr.outside b (.inr (by omega))] at hy
      by_cases ha : a < hi
      · obtain ⟨m, -, hm, hx'⟩ := hr.exists_at (Nat.zero_le a) ha hx
        exact h m b x y (by omega) (by omega) hlast hx' hy
      · rw [hr.outside a (.inr (by omega))] at hx
        exact h a b x y hab (by omega) hlast hx hy

end Whole

/-- Where the element that the loop finds at `k` stands in the input: the median has changed places
with the last element. -/
def origin (place last k : ℕ) : ℕ := if k = place then last else if k = last then place else k

/-- The number of positions fits an `int`; or the elements that the loop leaves out are in their
places already, and one that it goes over stops `i` before it is counted past the largest `int`. -/
def Covered (data : List ℤ) : Prop :=
  data.length ≤ 2 ^ 31 + 1 ∨ ∀ first middle last place pivot, data[0]? = some first →
    data[data.length / 2]? = some middle → data[data.length - 1]? = some last →
    place = medianPlace data.length first middle last → data[place]? = some pivot →
      (∀ a b x y, a < b → (toInt32 (data.length - 1 - 1) + 1).toNat ≤ b → b < data.length - 1 →
        data[origin place (data.length - 1) a]? = some x →
        data[origin place (data.length - 1) b]? = some y →
          x < pivot ∨ pivot ≤ y) ∧
      (toInt32 (data.length - 1 - 1) = INT_MAX →
        ∃ k x, k < 2 ^ 31 ∧ data[origin place (data.length - 1) k]? = some x ∧ pivot ≤ x)

section Cover

variable {data chosen : List ℤ} {pivot first middle last : ℤ} {place : ℕ}

theorem get_exchange_origin {a b : ℕ} (ha : a < data.length) (hb : b < data.length) (k : ℕ) :
    (exchange data a b)[k]? = data[origin a b k]? := by
  unfold origin
  split_ifs with hka hkb
  · rw [hka, get_exchange_left ha hb]
  · rw [hkb, get_exchange_right ha hb]
  · exact get_exchange_of_ne hka hkb

theorem not_allIn_lt_iff {n : ℕ} {xs : List ℤ} :
    ¬AllIn 0 n (· < pivot) xs ↔ ∃ k x, k < n ∧ xs[k]? = some x ∧ pivot ≤ x := by
  simp only [AllIn, not_forall, not_lt, Nat.zero_le, forall_const, exists_prop]

theorem covered_iff (h : 3 ≤ data.length) (hfirst : data[0]? = some first)
    (hmiddle : data[data.length / 2]? = some middle) (hlast : data[data.length - 1]? = some last)
    (hc : choosePivot data data.length = some chosen) (hch : Chosen data chosen pivot) :
    Covered data ↔ InPlace (toInt32 (data.length - 1 - 1) + 1).toNat (data.length - 1)
      pivot chosen ∧
      (toInt32 (data.length - 1 - 1) = INT_MAX → ¬AllIn 0 (2 ^ 31) (· < pivot) chosen) := by
  generalize hplace : medianPlace data.length first middle last = place
  have hchosen : chosen = exchange data place (data.length - 1) := by
    rw [← hplace]
    exact Option.some.inj (hc.symm.trans (choosePivot_exchange hfirst hmiddle hlast))
  have hin : place < data.length := by
    rw [← hplace, medianPlace]
    split_ifs <;> omega
  have horigin : ∀ k, chosen[k]? = data[origin place (data.length - 1) k]? := by
    rw [hchosen]
    exact get_exchange_origin hin (by omega)
  have hpivot : data[place]? = some pivot := by
    rw [← hch.at_end, hchosen, get_exchange_right hin (by omega)]
  rw [not_allIn_lt_iff, InPlace]
  simp only [horigin]
  constructor
  · rintro (hsmall | hall)
    · have hj : toInt32 (data.length - 1 - 1) = data.length - 1 - 1 :=
        toInt32_eq (by omega) (by omega)
      rw [hj]
      constructor
      · intro a b x y _ hb hb'
        omega
      · intro hmax
        rw [INT_MAX] at hmax
        obtain ⟨k, x, hk, hx, hle⟩ := hch.larger
        exact ⟨k, x, by omega, (horigin k).symm.trans hx, hle⟩
    · exact hall first middle last place pivot hfirst hmiddle hlast hplace.symm hpivot
  · intro hcond
    right
    intro first' middle' last' place' pivot' hfirst' hmiddle' hlast' hplace' hpivot'
    obtain rfl := Option.some.inj (hfirst.symm.trans hfirst')
    obtain rfl := Option.some.inj (hmiddle.symm.trans hmiddle')
    obtain rfl := Option.some.inj (hlast.symm.trans hlast')
    obtain rfl := hplace'.trans hplace
    obtain rfl := Option.some.inj (hpivot.symm.trans hpivot')
    exact hcond

theorem qsort_overflow (h : 3 ≤ data.length) (hc : choosePivot data data.length = some chosen)
    (hch : Chosen data chosen pivot) (hmax : toInt32 (data.length - 1 - 1) = INT_MAX)
    (hall : AllIn 0 (2 ^ 31) (· < pivot) chosen) (fuel : ℕ) :
    qsort fuel data data.length = none := by
  apply qsort_none h hc
  have hle := toInt32_le (show (0 : ℤ) ≤ data.length - 1 - 1 by omega)
  rw [hmax, INT_MAX] at hle
  rw [hmax, last_position h]
  exact partitionLoop_overflow (i := 0) hch.at_end (by omega) (by omega) hall

theorem qsort_splits (h : 3 ≤ data.length) (hfirst : data[0]? = some first)
    (hmiddle : data[data.length / 2]? = some middle) (hlast : data[data.length - 1]? = some last)
    (hc : choosePivot data data.length = some chosen) (hmedian : IsMedian first middle last pivot)
    (hch : Chosen data chosen pivot)
    (hmax : toInt32 (data.length - 1 - 1) = INT_MAX → ¬AllIn 0 (2 ^ 31) (· < pivot) chosen)
    {fuel : ℕ} (hfuel : (toInt32 (data.length - 1 - 1) + 1).toNat < fuel) :
    ∃ data', qsort fuel data data.length = some data' ∧
      (Partitioned data data' ↔ InPlace (toInt32 (data.length - 1 - 1) + 1).toNat (data.length - 1)
        pivot chosen) := by
  generalize hhi : (toInt32 (data.length - 1 - 1) + 1).toNat = hi at *
  have hle := toInt32_le (show (0 : ℤ) ≤ data.length - 1 - 1 by omega)
  have hmax' : hi = 2 ^ 31 → ¬AllIn 0 hi (· < pivot) chosen := by
    intro heq
    rw [heq]
    apply hmax
    rw [INT_MAX]
    omega
  obtain ⟨data', k, hrun, hr, hk, hfront, hback⟩ := loop_splits h hch hhi.symm hmax' hfuel
  have hperm : data'.Perm data := hr.perm.trans hch.perm
  have hpivot : data'[data.length - 1]? = some pivot := by
    rw [hr.outside (data.length - 1) (.inr (by omega))]
    exact hch.at_end
  refine ⟨data', qsort_some h hc hrun hperm.length_eq, ?_⟩
  rw [← split_iff_inPlace hr hfront hback]
  constructor
  · rintro ⟨-, first', middle', last', pivot', -, -, -, hp, -, hsplit⟩
    obtain rfl := Option.some.inj (hpivot.symm.trans hp)
    exact hsplit
  · intro hsplit
    exact ⟨hperm, first, middle, last, pivot, hfirst, hmiddle, hlast, hpivot, hmedian, hsplit⟩

end Cover

theorem qsort_partitions_iff (data : List ℤ) (h : 3 ≤ data.length) :
    (∃ fuel, ∀ more, fuel ≤ more →
      ∃ data', qsort more data data.length = some data' ∧ Partitioned data data') ↔
      Covered data := by
  obtain ⟨first, middle, last, pivot, chosen, hfirst, hmiddle, hlast, hc, hmedian, hch⟩ :=
    choosePivot_spec h
  rw [covered_iff h hfirst hmiddle hlast hc hch]
  constructor
  · rintro ⟨fuel, hall⟩
    have hmax : toInt32 (data.length - 1 - 1) = INT_MAX → ¬AllIn 0 (2 ^ 31) (· < pivot) chosen := by
      intro hmax hless
      obtain ⟨data', hsome, -⟩ := hall fuel (Nat.le_refl fuel)
      rw [qsort_overflow h hc hch hmax hless] at hsome
      cases hsome
    refine ⟨?_, hmax⟩
    obtain ⟨data', hsome, hiff⟩ := qsort_splits h hfirst hmiddle hlast hc hmedian hch hmax
      (show _ < max fuel ((toInt32 (data.length - 1 - 1) + 1).toNat + 1) by omega)
    obtain ⟨out, hout, hpart⟩ := hall _ (Nat.le_max_left fuel _)
    obtain rfl := Option.some.inj (hsome.symm.trans hout)
    exact hiff.mp hpart
  · rintro ⟨hplace, hmax⟩
    refine ⟨(toInt32 (data.length - 1 - 1) + 1).toNat + 1, ?_⟩
    intro more hmore
    obtain ⟨data', hsome, hiff⟩ := qsort_splits h hfirst hmiddle hlast hc hmedian hch hmax hmore
    exact ⟨data', hsome, hiff.mpr hplace⟩

theorem partitions_five : ∃ fuel, ∀ more, fuel ≤ more →
    ∃ data', qsort more [5, 1, 4, 4, 2] 5 = some data' ∧ Partitioned [5, 1, 4, 4, 2] data' :=
  (qsort_partitions_iff [5, 1, 4, 4, 2] (by decide)).mpr (.inl (by decide))

section Long

variable {data : List ℤ}

theorem choosePivot_ones (hlen : data.length = 2 ^ 31 + 2)
    (hones : ∀ k, k < 2 ^ 31 + 2 → k ≠ 1 → data[k]? = some 1) :
    choosePivot data data.length = some (exchange data (data.length / 2) (data.length - 1)) :=
  choosePivot_exchange (hones 0 (by omega) (by omega)) (hones _ (by omega) (by omega))
    (hones _ (by omega) (by omega))

theorem not_partitioned_of_long (hlen : data.length = 2 ^ 31 + 2)
    (hones : ∀ k, k < 2 ^ 31 + 2 → k ≠ 1 → data[k]? = some 1) (hzero : data[1]? = some 0)
    (fuel : ℕ) :
    ∃ data', qsort (fuel + 1) data data.length = some data' ∧ ¬Partitioned data data' := by
  have h : 3 ≤ data.length := by omega
  have hj : toInt32 (data.length - 1 - 1) = -2 ^ 31 := by
    rw [hlen]
    decide
  obtain ⟨first, middle, last, pivot, chosen, hfirst, hmiddle, hlast, hc, hmedian, hch⟩ :=
    choosePivot_spec h
  obtain rfl := Option.some.inj ((choosePivot_ones hlen hones).symm.trans hc)
  have hpivot : pivot = 1 := by
    have hat := hch.at_end
    rw [get_exchange_right (by omega) (by omega), hones _ (by omega) (by omega)] at hat
    exact (Option.some.inj hat).symm
  obtain ⟨data', hrun, hiff⟩ := qsort_splits h hfirst hmiddle hlast hc hmedian hch
    (fun hmax => absurd (hj.symm.trans hmax) (by decide)) (show _ < fuel + 1 by rw [hj]; omega)
  refine ⟨data', hrun, fun hpart => ?_⟩
  have hplace := hiff.mp hpart 0 1 1 0 (by omega) (by rw [hj]; omega) (by omega)
    (by rw [get_exchange_of_ne (by omega) (by omega), hones 0 (by omega) (by omega)])
    (by rw [get_exchange_of_ne (by omega) (by omega), hzero])
  omega

end Long

def longArray : List ℤ := 1 :: 0 :: List.replicate (2 ^ 31) 1

theorem longArray_length : longArray.length = 2 ^ 31 + 2 := by
  rw [longArray, List.length_cons, List.length_cons, List.length_replicate]

theorem longArray_get {k : ℕ} (hk : k < 2 ^ 31 + 2) (hk' : k ≠ 1) : longArray[k]? = some 1 := by
  cases k with
  | zero => rw [longArray, List.getElem?_cons_zero]
  | succ k =>
    cases k with
    | zero => exact absurd rfl hk'
    | succ k =>
      rw [longArray, List.getElem?_cons_succ, List.getElem?_cons_succ, List.getElem?_replicate,
        if_pos (by omega)]

theorem longArray_not_partitioned : 3 ≤ longArray.length ∧ ∀ fuel, ∃ data',
    qsort (fuel + 1) longArray longArray.length = some data' ∧ ¬Partitioned longArray data' :=
  ⟨by rw [longArray_length]; omega,
    not_partitioned_of_long longArray_length (fun _ => longArray_get) (by rw [longArray]; rfl)⟩

end AnalysisPrograms.Qsort
