import Mathlib.Algebra.Group.Int.Defs
import Mathlib.Algebra.Group.Nat.Defs
import Mathlib.Algebra.Order.Group.Unbundled.Int
import Mathlib.Data.Int.Order.Basic
import AnalysisPrograms.Foundations.SortedSearch

namespace AnalysisPrograms.BinarySearch

open Foundations.Segments Foundations.SortedSearch

/-- Pointers into the array are positions; a pointer result of `none` is NULL. -/
def bsearchLoop (data : List ℤ) (x : ℤ) : ℕ → ℤ → ℤ → Option (Option ℤ)
  | 0, _, _ => none
  | fuel + 1, pStart, pEnd =>
    if pStart < pEnd then do
      let pMid := pStart + (pEnd - pStart).tdiv 2
      let value ← readAt data pMid
      if value > x then bsearchLoop data x fuel pStart pMid
      else if value < x then bsearchLoop data x fuel (pMid + 1) pEnd
      else some (some pMid)
    else some none

def bsearch (fuel : ℕ) (data : Option (List ℤ)) (n x : ℤ) : Option (Option ℤ) :=
  match data with
  | none => some none
  | some data => if n < 1 then some none else bsearchLoop data x fuel 0 n

def searchLoop (array : List ℤ) (value : ℤ) : ℕ → ℤ → ℤ → Option ℤ
  | 0, _, _ => none
  | fuel + 1, start, stop => do
    let mid := start + (stop - start).tdiv 2
    let element ← readAt array mid
    if value = element then some value
    else if mid = start then some (-1)
    else if value < element then searchLoop array value fuel start mid
    else searchLoop array value fuel (mid + 1) stop

def binarySearch (fuel : ℕ) (array : Option (List ℤ)) (n value : ℤ) : Option ℤ :=
  match array with
  | none => some (-1)
  | some array => if n < 1 then some (-1) else searchLoop array value fuel 0 n

variable {data : List ℤ} {x y : ℤ} {fuel lo hi mid : ℕ}

theorem middle_eq (h : lo ≤ hi) : (lo : ℤ) + ((hi : ℤ) - lo).tdiv 2 = (lo + (hi - lo) / 2 : ℕ) := by
  rw [Int.tdiv_eq_ediv_of_nonneg (by omega)]
  omega

section Pointers

def Points (data : List ℤ) (x : ℤ) (rslt : Option ℤ) : Prop :=
  (x ∈ data → ∃ k : ℕ, rslt = some (k : ℤ) ∧ data[k]? = some x) ∧ (x ∉ data → rslt = none)

theorem bsearchLoop_turn (h : lo < hi) (hmid : mid = lo + (hi - lo) / 2)
    (hy : data[mid]? = some y) :
    bsearchLoop data x (fuel + 1) lo hi =
      if y > x then bsearchLoop data x fuel lo mid
      else if y < x then bsearchLoop data x fuel (mid + 1 : ℕ) hi
      else some (some (mid : ℤ)) := by
  rw [bsearchLoop, if_pos (Int.ofNat_lt.mpr h), middle_eq (Nat.le_of_lt h), ← hmid]
  simp only [readAt_eq hy, Option.bind_eq_bind, Option.bind_some]
  rfl

theorem bsearchLoop_points (hs : data.Pairwise (· ≤ ·)) (h : Window data x lo hi)
    (hfuel : hi - lo < fuel) :
    ∃ rslt, bsearchLoop data x fuel lo hi = some rslt ∧ Points data x rslt := by
  induction fuel generalizing lo hi with
  | zero => omega
  | succ fuel ih =>
    by_cases hlt : lo < hi
    · have hlen := h.le_length
      obtain ⟨mid, hmid⟩ : ∃ mid, mid = lo + (hi - lo) / 2 := ⟨_, rfl⟩
      obtain ⟨y, hy⟩ := exists_get (show mid < data.length by omega)
      rw [bsearchLoop_turn hlt hmid hy]
      by_cases hgt : y > x
      · rw [if_pos hgt]
        exact ih (h.left hs (by omega) hy hgt) (by omega)
      · rw [if_neg hgt]
        by_cases hless : y < x
        · rw [if_pos hless]
          exact ih (h.right hs (by omega) hy hless) (by omega)
        · obtain rfl : y = x := by omega
          rw [if_neg hless]
          exact ⟨some mid, rfl, fun _ => ⟨mid, rfl, hy⟩,
            fun hnot => absurd (List.mem_of_getElem? hy) hnot⟩
    · obtain rfl : lo = hi := by
        have := h.le
        omega
      refine ⟨none, by rw [bsearchLoop, if_neg (by omega)], ?_⟩
      exact ⟨fun hmem => absurd hmem h.notMem_of_empty, fun _ => rfl⟩

end Pointers

section Values

def answer (data : List ℤ) (x : ℤ) : ℤ := if x ∈ data then x else -1

theorem answer_of_get (hy : data[mid]? = some x) : answer data x = x :=
  if_pos (List.mem_of_getElem? hy)

theorem answer_of_single (h : Window data x lo hi) (hone : hi ≤ lo + 1) (hy : data[lo]? = some y)
    (hne : ¬x = y) : answer data x = -1 := by
  apply if_neg
  apply h.notMem
  intro k z hlo hhi hz
  obtain rfl : k = lo := by omega
  rw [← Option.some.inj (hy.symm.trans hz)]
  exact Ne.symm hne

theorem searchLoop_turn (h : lo ≤ hi) (hmid : mid = lo + (hi - lo) / 2) (hy : data[mid]? = some y) :
    searchLoop data x (fuel + 1) lo hi =
      if x = y then some x
      else if mid = lo then some (-1)
      else if x < y then searchLoop data x fuel lo mid
      else searchLoop data x fuel (mid + 1 : ℕ) hi := by
  have hcast : (mid : ℤ) = lo ↔ mid = lo := Int.ofNat_inj
  rw [searchLoop, middle_eq h, ← hmid]
  simp only [readAt_eq hy, Option.bind_eq_bind, Option.bind_some, hcast]
  rfl

theorem searchLoop_answer (hs : data.Pairwise (· ≤ ·)) (h : Window data x lo hi)
    (hmid : mid = lo + (hi - lo) / 2) (hin : mid < data.length)
    (hleft : lo < mid → Window data x lo mid → searchLoop data x fuel lo mid = some (answer data x))
    (hright : lo < mid → Window data x (mid + 1) hi →
      searchLoop data x fuel (mid + 1 : ℕ) hi = some (answer data x)) :
    searchLoop data x (fuel + 1) lo hi = some (answer data x) := by
  obtain ⟨y, hy⟩ := exists_get hin
  rw [searchLoop_turn h.le hmid hy]
  by_cases heq : x = y
  · subst heq
    rw [if_pos rfl, answer_of_get hy]
  · rw [if_neg heq]
    by_cases hstart : mid = lo
    · rw [if_pos hstart, answer_of_single h (by omega) (hstart ▸ hy) heq]
    · rw [if_neg hstart]
      by_cases hless : x < y
      · rw [if_pos hless]
        apply hleft (by omega)
        exact h.left hs (by omega) hy hless
      · rw [if_neg hless]
        apply hright (by omega)
        exact h.right hs (by omega) hy (by omega)

theorem searchLoop_inside (hs : data.Pairwise (· ≤ ·)) (h : Window data x lo hi)
    (hhi : hi < data.length) (hfuel : hi - lo < fuel) :
    searchLoop data x fuel lo hi = some (answer data x) := by
  induction fuel generalizing lo hi with
  | zero => omega
  | succ fuel ih =>
    have hle := h.le
    apply searchLoop_answer hs h rfl (by omega)
    · intro hlt hw
      exact ih hw (by omega) (by omega)
    · intro hlt hw
      exact ih hw hhi (by omega)

/-- A range of this size at the end of the array is halved down to one element and not to none. -/
def Halves (size : ℕ) : Prop := ∃ k, 2 * 2 ^ k ≤ size + 1 ∧ size + 1 < 3 * 2 ^ k

theorem halves_half {size : ℕ} (h : 2 ≤ size) : Halves ((size - 1) / 2) ↔ Halves size := by
  constructor
  · rintro ⟨k, hlo, hhi⟩
    refine ⟨k + 1, ?_, ?_⟩
    · rw [Nat.pow_succ]
      omega
    · rw [Nat.pow_succ]
      omega
  · rintro ⟨k, hlo, hhi⟩
    cases k with
    | zero => omega
    | succ k =>
      rw [Nat.pow_succ] at hlo hhi
      exact ⟨k, by omega, by omega⟩

theorem size_right (hmid : mid = lo + (hi - lo) / 2) (hlt : lo < hi) :
    hi - (mid + 1) = (hi - lo - 1) / 2 := by omega

theorem not_halves_zero : ¬Halves 0 := by
  rintro ⟨k, hlo, -⟩
  have := Nat.one_le_two_pow (n := k)
  omega

theorem searchLoop_end (hs : data.Pairwise (· ≤ ·)) (h : Window data x lo data.length)
    (hsafe : (∃ y ∈ data, x ≤ y) ∨ Halves (data.length - lo)) (hfuel : data.length - lo < fuel) :
    searchLoop data x fuel lo data.length = some (answer data x) := by
  induction fuel generalizing lo with
  | zero => omega
  | succ fuel ih =>
    have hle := h.le
    have hsize : lo < data.length := by
      rcases hsafe with ⟨y, hmem, hxy⟩ | hhalves
      · by_contra hnot
        obtain ⟨k, hk⟩ := List.mem_iff_getElem?.mp hmem
        have hin := lt_of_get hk
        exact absurd (h.before k y (Nat.zero_le k) (by omega) hk) (not_lt.mpr hxy)
      · by_contra hnot
        rw [show data.length - lo = 0 by omega] at hhalves
        exact not_halves_zero hhalves
    obtain ⟨mid, hmid⟩ : ∃ mid, mid = lo + (data.length - lo) / 2 := ⟨_, rfl⟩
    apply searchLoop_answer hs h hmid (by omega)
    · intro hlt hw
      exact searchLoop_inside hs hw (by omega) (by omega)
    · intro hlt hw
      apply ih hw _ (by omega)
      apply hsafe.imp_right
      intro hhalves
      rwa [size_right hmid hsize, halves_half (by omega)]

theorem searchLoop_beyond (hbig : ∀ y ∈ data, y < x) (hle : lo ≤ data.length)
    (hbad : ¬Halves (data.length - lo)) : searchLoop data x fuel lo data.length = none := by
  induction fuel generalizing lo with
  | zero => rfl
  | succ fuel ih =>
    obtain ⟨mid, hmid⟩ : ∃ mid, mid = lo + (data.length - lo) / 2 := ⟨_, rfl⟩
    by_cases hsize : lo < data.length
    · obtain ⟨y, hy⟩ := exists_get (show mid < data.length by omega)
      have hyx := hbig y (List.mem_of_getElem? hy)
      have htwo : 2 ≤ data.length - lo := by
        by_contra hnot
        apply hbad
        rw [show data.length - lo = 1 by omega]
        exact ⟨0, by omega, by omega⟩
      rw [searchLoop_turn hle hmid hy, if_neg (by omega), if_neg (by omega), if_neg (by omega)]
      apply ih (by omega)
      rwa [size_right hmid hsize, halves_half htwo]
    · -- the range is empty at the end of the array, and the element behind the array is read
      have hnone : readAt data (mid : ℤ) = none := by
        rw [readAt, if_pos (Int.natCast_nonneg mid), Int.toNat_natCast]
        exact List.getElem?_eq_none (by omega)
      rw [searchLoop, middle_eq hle, ← hmid]
      simp only [hnone, Option.bind_eq_bind, Option.bind_none]

end Values

def SearchesAgree (data : List ℤ) (x : ℤ) : Prop :=
  ∃ fuel, ∀ more, fuel ≤ more →
    (∃ rslt, bsearch more (some data) data.length x = some rslt ∧ Points data x rslt) ∧
      ∃ rslt, binarySearch more (some data) data.length x = some rslt ∧ (x ∈ data → rslt = x) ∧
      (x ∉ data → rslt = -1)

theorem bsearch_eq (h : data ≠ []) :
    bsearch fuel (some data) data.length x = bsearchLoop data x fuel (0 : ℕ) data.length := by
  have hpos := List.length_pos_iff.mpr h
  rw [bsearch, if_neg (by omega)]
  rfl

theorem binarySearch_eq (h : data ≠ []) :
    binarySearch fuel (some data) data.length x = searchLoop data x fuel (0 : ℕ) data.length := by
  have hpos := List.length_pos_iff.mpr h
  rw [binarySearch, if_neg (by omega)]
  rfl

theorem searches_agree_iff (data : List ℤ) (h : data ≠ []) (hs : data.Pairwise (· ≤ ·)) (x : ℤ) :
    SearchesAgree data x ↔ (∃ y ∈ data, x ≤ y) ∨ Halves data.length := by
  constructor
  · rintro ⟨fuel, hall⟩
    by_contra hbad
    obtain ⟨-, rslt, hrun, -⟩ := hall fuel (Nat.le_refl fuel)
    have hbig : ∀ y ∈ data, y < x := fun y hy => not_le.mp fun hxy => hbad (.inl ⟨y, hy, hxy⟩)
    rw [binarySearch_eq h, searchLoop_beyond hbig (Nat.zero_le _) fun hhalves => hbad
      (.inr hhalves)] at hrun
    cases hrun
  · intro hsafe
    refine ⟨data.length + 1, fun more hmore => ⟨?_, answer data x, ?_, ?_, ?_⟩⟩
    · rw [bsearch_eq h]
      exact bsearchLoop_points hs (window_whole data x) (by omega)
    · rw [binarySearch_eq h]
      exact searchLoop_end hs (window_whole data x) hsafe (by omega)
    · exact fun hmem => if_pos hmem
    · exact fun hnot => if_neg hnot

theorem searches_agree_inside : SearchesAgree [1, 4, 4, 9, 12] 5 :=
  (searches_agree_iff [1, 4, 4, 9, 12] (by decide) (by decide) 5).mpr
    (.inl ⟨9, by decide, by decide⟩)

theorem search_reads_beyond :
    ([1, 2] : List ℤ).Pairwise (· ≤ ·) ∧ ∀ fuel, binarySearch fuel (some [1, 2]) 2 3 = none := by
  refine ⟨by decide, fun fuel => ?_⟩
  have hbad : ¬Halves 2 :=
    fun hhalves => not_halves_zero ((halves_half (Nat.le_refl 2)).mpr hhalves)
  exact (binarySearch_eq (by decide)).trans (searchLoop_beyond (by decide) (by decide) hbad)

end AnalysisPrograms.BinarySearch
