import Mathlib.Algebra.BigOperators.Group.List.Basic
import Mathlib.Algebra.Order.BigOperators.Group.List
import Mathlib.Algebra.Order.Group.Int
import Mathlib.Algebra.Ring.Int.Defs
import Mathlib.Data.List.Sort
import Mathlib.Data.Multiset.Defs

namespace AnalysisPrograms.CombinationSum

structure Solution where
  rslt : List (List ℤ)
  tmp : List ℤ

def searchFrom (prev : Option ℤ) : List ℤ → ℤ → Solution → Solution
  | [], _, self => self
  | c :: rest, target, self =>
    searchFrom (some c) rest target <|
      if prev = some c then self
      else if c > target then self
      else if c < target then
        let below := searchFrom none rest (target - c) { self with tmp := self.tmp ++ [c] }
        { below with tmp := below.tmp.dropLast }
      else
        { self with rslt := self.rslt ++ [(self.tmp ++ [c]).mergeSort (· ≤ ·)] }

def searchOnce (candidates : List ℤ) (target : ℤ) (self : Solution) : Solution :=
  searchFrom none candidates target self

def combinationSum2 (candidates : List ℤ) (target : ℤ) : List (List ℤ) :=
  (searchOnce (candidates.mergeSort (· ≥ ·)) target ⟨[], []⟩).rslt

def taken (prev : Option ℤ) (c target : ℤ) (below : List (List ℤ)) : List (List ℤ) :=
  if prev = some c then []
  else if c > target then []
  else if c < target then below.map (c :: ·)
  else [[c]]

def choices (prev : Option ℤ) : List ℤ → ℤ → List (List ℤ)
  | [], _ => []
  | c :: rest, target =>
    taken prev c target (choices none rest (target - c)) ++ choices (some c) rest target

theorem searchFrom_eq (prev : Option ℤ) (cs : List ℤ) (target : ℤ) (self : Solution) :
    searchFrom prev cs target self =
      { self with
        rslt := self.rslt ++
          (choices prev cs target).map fun l => (self.tmp ++ l).mergeSort (· ≤ ·) } := by
  induction cs generalizing prev target self with
  | nil => simp [searchFrom, choices]
  | cons c rest ih =>
    rw [searchFrom, choices, taken, ih]
    split_ifs with hprev hgt hlt
    · rw [List.nil_append]
    · rw [List.nil_append]
    · -- `tmp` is back to what it was, and the paths below all begin with `c`
      rw [ih]
      simp [List.map_map, Function.comp_def]
    · simp

theorem mem_taken_iff {prev : Option ℤ} {c target : ℤ} {rest l : List ℤ} {below : List (List ℤ)}
    (hpos : ∀ x ∈ rest, 0 < x)
    (hbelow : 0 < target - c → ∀ l, l ∈ below ↔ l.Sublist rest ∧ l.sum = target - c) :
    l ∈ taken prev c target below ↔
      ∃ l', l = c :: l' ∧ l'.Sublist rest ∧ l'.sum = target - c ∧ prev ≠ some c := by
  have hsum : ∀ l' : List ℤ, l'.Sublist rest → l' = [] ∨ 0 < l'.sum := by
    intro l' hsub
    by_cases hne : l' = []
    · exact .inl hne
    · exact .inr (List.sum_pos l' (fun x hx => hpos x (hsub.subset hx)) hne)
  unfold taken
  split_ifs with hprev hgt hlt
  · refine iff_of_false List.not_mem_nil ?_
    rintro ⟨l', -, -, -, hne⟩
    exact hne hprev
  · refine iff_of_false List.not_mem_nil ?_
    rintro ⟨l', -, hsub, htotal, -⟩
    rcases hsum l' hsub with rfl | hpos'
    · rw [List.sum_nil] at htotal
      omega
    · omega
  · rw [List.mem_map]
    constructor
    · rintro ⟨l', hl', rfl⟩
      obtain ⟨hsub, htotal⟩ := (hbelow (by omega) l').mp hl'
      exact ⟨l', rfl, hsub, htotal, hprev⟩
    · rintro ⟨l', rfl, hsub, htotal, -⟩
      exact ⟨l', (hbelow (by omega) l').mpr ⟨hsub, htotal⟩, rfl⟩
  · rw [List.mem_singleton]
    constructor
    · rintro rfl
      refine ⟨[], rfl, List.nil_sublist rest, ?_, hprev⟩
      rw [List.sum_nil]
      omega
    · rintro ⟨l', rfl, hsub, htotal, -⟩
      rcases hsum l' hsub with rfl | hpos'
      · rfl
      · omega

def Below (prev : Option ℤ) (cs : List ℤ) : Prop := ∀ p, prev = some p → ∀ x ∈ cs, x ≤ p

theorem below_none (cs : List ℤ) : Below none cs := nofun

theorem below_some {c : ℤ} {rest : List ℤ} (h : ∀ x ∈ rest, c ≥ x) : Below (some c) rest :=
  fun _ hp x hx => Option.some.inj hp ▸ h x hx

theorem mem_choices_iff {prev : Option ℤ} {cs : List ℤ} {target : ℤ}
    (hsorted : cs.Pairwise (· ≥ ·)) (hpos : ∀ x ∈ cs, 0 < x) (hbelow : Below prev cs)
    (htarget : 0 < target) (l : List ℤ) :
    l ∈ choices prev cs target ↔
      l.Sublist cs ∧ l.sum = target ∧ ∀ p, prev = some p → l.head? ≠ some p := by
  induction cs generalizing prev target l with
  | nil =>
    refine iff_of_false List.not_mem_nil ?_
    rintro ⟨hsub, hsum, -⟩
    rw [List.sublist_nil.mp hsub, List.sum_nil] at hsum
    omega
  | cons c rest ih =>
    obtain ⟨hc, hrest⟩ := List.pairwise_cons.mp hsorted
    have hposr : ∀ x ∈ rest, 0 < x := fun x hx => hpos x (List.mem_cons_of_mem c hx)
    have htake : 0 < target - c → ∀ l, l ∈ choices none rest (target - c) ↔
        l.Sublist rest ∧ l.sum = target - c := by
      intro hleft l
      rw [ih hrest hposr (below_none rest) hleft]
      exact and_congr_right fun _ => and_iff_left nofun
    rw [choices, List.mem_append, mem_taken_iff hposr htake, ih hrest hposr (below_some hc) htarget]
    constructor
    · rintro (⟨l', rfl, hsub, hsum, hprev⟩ | ⟨hsub, hsum, hhead⟩)
      · refine ⟨hsub.cons_cons c, ?_, ?_⟩
        · rw [List.sum_cons]
          omega
        · rintro p rfl hp
          exact hprev (congrArg some (Option.some.inj hp).symm)
      · refine ⟨hsub.cons c, hsum, ?_⟩
        -- a later candidate equal to `prev` is also equal to `c`, which lies between them
        intro p hp hhead'
        have hmem : p ∈ rest := hsub.subset (List.mem_of_mem_head? hhead')
        have hcp := hbelow p hp c List.mem_cons_self
        have hpc := hc p hmem
        apply hhead c rfl
        rw [hhead', show p = c by omega]
    · rintro ⟨hsub, hsum, hhead⟩
      by_cases hc' : l.head? = some c
      · obtain ⟨l', rfl⟩ := List.head?_eq_some_iff.mp hc'
        refine .inl ⟨l', rfl, List.cons_sublist_cons.mp hsub, ?_, fun hp => hhead c hp rfl⟩
        rw [List.sum_cons] at hsum
        omega
      · refine .inr ⟨?_, hsum, fun p hp => Option.some.inj hp ▸ hc'⟩
        rcases List.sublist_cons_iff.mp hsub with hsub | ⟨l', rfl, -⟩
        · exact hsub
        · exact absurd rfl hc'

theorem nodup_choices {prev : Option ℤ} {cs : List ℤ} {target : ℤ} (hsorted : cs.Pairwise (· ≥ ·))
    (hpos : ∀ x ∈ cs, 0 < x) (htarget : 0 < target) : (choices prev cs target).Nodup := by
  induction cs generalizing prev target with
  | nil => exact List.nodup_nil
  | cons c rest ih =>
    obtain ⟨hc, hrest⟩ := List.pairwise_cons.mp hsorted
    have hposr : ∀ x ∈ rest, 0 < x := fun x hx => hpos x (List.mem_cons_of_mem c hx)
    have hhead : ∀ l ∈ taken prev c target (choices none rest (target - c)), l.head? = some c := by
      intro l hl
      unfold taken at hl
      split_ifs at hl
      · cases hl
      · cases hl
      · obtain ⟨l', -, rfl⟩ := List.mem_map.mp hl
        rfl
      · rw [List.mem_singleton.mp hl]
        rfl
    rw [choices]
    apply List.Nodup.append
    · unfold taken
      split_ifs with hprev hgt hlt
      · exact List.nodup_nil
      · exact List.nodup_nil
      · exact (ih hrest hposr (by omega)).map fun _ _ heq => (List.cons.inj heq).2
      · exact List.nodup_singleton _
    · exact ih hrest hposr htarget
    · -- the paths of the later candidates do not begin with `c`
      intro l hl hl'
      exact ((mem_choices_iff hrest hposr (below_some hc) htarget l).mp hl').2.2 c rfl (hhead l hl)

theorem mergeSort_eq_reverse {l : List ℤ} (h : l.Pairwise (· ≥ ·)) :
    l.mergeSort (· ≤ ·) = l.reverse := by
  apply List.Perm.eq_of_pairwise' (List.pairwise_mergeSort' (· ≤ ·) l) (List.pairwise_reverse.mpr h)
  exact (List.mergeSort_perm l _).trans (List.reverse_perm l).symm

section Correct

variable {candidates : List ℤ} {target : ℤ}

theorem pairwise_candidates (candidates : List ℤ) :
    (candidates.mergeSort (· ≥ ·)).Pairwise (· ≥ ·) :=
  List.pairwise_mergeSort' (· ≥ ·) candidates

theorem pos_candidates (hpos : ∀ c ∈ candidates, 0 < c) :
    ∀ c ∈ candidates.mergeSort (· ≥ ·), 0 < c :=
  fun c hc => hpos c (List.mem_mergeSort.mp hc)

theorem mem_combinations_iff (hpos : ∀ c ∈ candidates, 0 < c) (htarget : 0 < target) (l : List ℤ) :
    l ∈ choices none (candidates.mergeSort (· ≥ ·)) target ↔
      l.Sublist (candidates.mergeSort (· ≥ ·)) ∧ l.sum = target := by
  rw [mem_choices_iff (pairwise_candidates candidates) (pos_candidates hpos) (below_none _) htarget]
  exact and_congr_right fun _ => and_iff_left nofun

theorem combinationSum2_eq (hpos : ∀ c ∈ candidates, 0 < c) (htarget : 0 < target) :
    combinationSum2 candidates target =
      (choices none (candidates.mergeSort (· ≥ ·)) target).map List.reverse := by
  rw [combinationSum2, searchOnce, searchFrom_eq]
  rw [List.nil_append]
  apply List.map_congr_left
  intro l hl
  have hsub := ((mem_combinations_iff hpos htarget l).mp hl).1
  rw [List.nil_append, mergeSort_eq_reverse ((pairwise_candidates candidates).sublist hsub)]

end Correct

theorem combination_sum2_correct (candidates : List ℤ) (target : ℤ)
    (hpos : ∀ c ∈ candidates, 0 < c) (htarget : 0 < target) :
    (combinationSum2 candidates target).Nodup ∧
      (∀ l ∈ combinationSum2 candidates target, l.Pairwise (· ≤ ·)) ∧
      ∀ l : List ℤ, l.Pairwise (· ≤ ·) →
        (l ∈ combinationSum2 candidates target ↔
          (l : Multiset ℤ) ≤ (candidates : Multiset ℤ) ∧ l.sum = target) := by
  have hsorted := pairwise_candidates candidates
  have hmem := mem_combinations_iff hpos htarget
  rw [combinationSum2_eq hpos htarget]
  refine ⟨?_, ?_, ?_⟩
  · exact (nodup_choices hsorted (pos_candidates hpos) htarget).map List.reverse_injective
  · intro l hl
    obtain ⟨m, hm, rfl⟩ := List.mem_map.mp hl
    exact List.pairwise_reverse.mpr (hsorted.sublist ((hmem m).mp hm).1)
  · intro l hl
    have hdesc : l.reverse.Pairwise (· ≥ ·) := List.pairwise_reverse.mpr hl
    rw [List.mem_map_of_involutive List.reverse_involutive, hmem, List.sum_reverse, Multiset.coe_le]
    constructor
    · rintro ⟨hsub, hsum⟩
      refine ⟨?_, hsum⟩
      exact (List.reverse_perm l).symm.subperm.trans
        (hsub.subperm.trans (List.mergeSort_perm candidates _).subperm)
    · rintro ⟨hsub, hsum⟩
      refine ⟨?_, hsum⟩
      apply List.sublist_of_subperm_of_pairwise _ hdesc hsorted
      exact (List.reverse_perm l).subperm.trans
        (hsub.trans (List.mergeSort_perm candidates _).symm.subperm)

theorem combination_sum2_small :
    (∀ c ∈ ([2, 1, 2] : List ℤ), 0 < c) ∧ (0 : ℤ) < 3 ∧ (combinationSum2 [2, 1, 2] 3).Nodup ∧
      (∀ l ∈ combinationSum2 [2, 1, 2] 3, l.Pairwise (· ≤ ·)) ∧
      ∀ l : List ℤ, l.Pairwise (· ≤ ·) →
        (l ∈ combinationSum2 [2, 1, 2] 3 ↔
          (l : Multiset ℤ) ≤ (([2, 1, 2] : List ℤ) : Multiset ℤ) ∧ l.sum = 3) := by
  have hpos : ∀ c ∈ ([2, 1, 2] : List ℤ), 0 < c := by decide
  exact ⟨hpos, by decide, combination_sum2_correct [2, 1, 2] 3 hpos (by decide)⟩

end AnalysisPrograms.CombinationSum
