import Mathlib.Algebra.Order.Group.Unbundled.Int
import Mathlib.Data.Int.Order.Basic
import Mathlib.Data.List.Sort
import AnalysisPrograms.Foundations.Execution
import AnalysisPrograms.Foundations.Indices
import AnalysisPrograms.Foundations.Ranks

namespace AnalysisPrograms.CountingSort

open Foundations.Execution Foundations.Indices Foundations.Segments Foundations.Ranks

structure IndexedList where
  cells : List ℤ
  reads : List ℤ
  writes : List ℤ

namespace IndexedList

def ofList (cells : List ℤ) : IndexedList := ⟨cells, [], []⟩

def append (l : IndexedList) (value : ℤ) : IndexedList := { l with cells := l.cells ++ [value] }

def get (l : IndexedList) (k : ℤ) : Option (ℤ × IndexedList) :=
  (item l.cells k).map fun value => (value, { l with reads := l.reads ++ [k] })

def set (l : IndexedList) (k value : ℤ) : Option IndexedList :=
  (position l.cells k).map fun i =>
    { l with cells := l.cells.set i value, writes := l.writes ++ [k] }

def add (l : IndexedList) (k d : ℤ) : Option IndexedList := do
  let (value, l) ← l.get k
  l.set k (value + d)

end IndexedList

def widen (bounds : ℤ × ℤ) (x : ℤ) : ℤ × ℤ :=
  (if x < bounds.1 then x else bounds.1, if x > bounds.2 then x else bounds.2)

def getMinMax (datalist : List ℤ) : Option (ℤ × ℤ) := do
  let nmin ← item datalist 0
  let nmax ← item datalist 0
  return datalist.foldl widen (nmin, nmax)

def accumulate (spanList : IndexedList) (i : ℤ) : Option IndexedList := do
  let (value, spanList) ← spanList.get i
  let (before, spanList) ← spanList.get (i - 1)
  spanList.set i (value + before)

def place (nmin : ℤ) (lists : IndexedList × IndexedList) (x : ℤ) :
    Option (IndexedList × IndexedList) := do
  let (last, spanList) ← lists.1.get (x - nmin)
  let rsltList ← lists.2.set (last - 1) x
  let spanList ← spanList.add (x - nmin) (-1)
  return (spanList, rsltList)

def countingSort (datalist : List ℤ) (nmin nmax : ℤ) : Option (IndexedList × IndexedList) := do
  let spanSz := nmax - nmin + 1
  let rsltList := IndexedList.ofList datalist
  let spanList := (upTo 0 spanSz).foldl (fun l _ => l.append 0) (IndexedList.ofList [])
  let spanList ← exec (fun l x => l.add (x - nmin) 1) spanList datalist
  let spanList ← exec accumulate spanList (upTo 1 spanSz)
  exec (place nmin) (spanList, rsltList) datalist.reverse

def sort (datalist : List ℤ) : Option (IndexedList × IndexedList) := do
  let (nmin, nmax) ← getMinMax datalist
  countingSort datalist nmin nmax

structure Tally (l : IndexedList) (size : ℕ) (f : ℕ → ℤ) : Prop where
  length : l.cells.length = size
  cell : ∀ k, k < size → l.cells[k]? = some (f k)
  uses : ∀ k ∈ l.reads ++ l.writes, 0 ≤ k ∧ k < size

variable {l : IndexedList} {size k : ℕ} {f g : ℕ → ℤ}

theorem Tally.get (h : Tally l size f) (hk : k < size) :
    ∃ l', l.get k = some (f k, l') ∧ Tally l' size f := by
  refine ⟨{ l with reads := l.reads ++ [(k : ℤ)] }, ?_, h.length, h.cell, ?_⟩
  · rw [IndexedList.get, item_eq (h.cell k hk), Option.map_some]
  · intro j hj
    simp only [List.append_assoc, List.singleton_append, List.mem_append, List.mem_cons] at hj
    rcases hj with hj | rfl | hj
    · exact h.uses j (List.mem_append_left _ hj)
    · omega
    · exact h.uses j (List.mem_append_right _ hj)

theorem Tally.set (h : Tally l size f) (hk : k < size) (value : ℤ) :
    ∃ l', l.set k value = some l' ∧ Tally l' size (Function.update f k value) := by
  have hlt : k < l.cells.length := by rwa [h.length]
  refine ⟨{ l with cells := l.cells.set k value, writes := l.writes ++ [(k : ℤ)] }, ?_, ?_, ?_, ?_⟩
  · rw [IndexedList.set, position_eq hlt, Option.map_some]
  · rw [List.length_set, h.length]
  · intro j hj
    by_cases heq : j = k
    · subst heq
      rw [List.getElem?_set_self hlt, Function.update_self]
    · rw [List.getElem?_set_ne (Ne.symm heq), Function.update_of_ne heq]
      exact h.cell j hj
  · intro j hj
    rw [← List.append_assoc, List.mem_append, List.mem_singleton] at hj
    rcases hj with hj | rfl
    · exact h.uses j hj
    · omega

theorem Tally.add (h : Tally l size f) (hk : k < size) (d : ℤ) :
    ∃ l', l.add k d = some l' ∧ Tally l' size (Function.update f k (f k + d)) := by
  obtain ⟨l₁, hget, h₁⟩ := h.get hk
  obtain ⟨l₂, hset, h₂⟩ := h₁.set hk (f k + d)
  refine ⟨l₂, ?_, h₂⟩
  rw [IndexedList.add, hget]
  exact hset

theorem Tally.congr (h : Tally l size f) (heq : ∀ k, k < size → f k = g k) : Tally l size g :=
  ⟨h.length, fun k hk => heq k hk ▸ h.cell k hk, h.uses⟩

theorem tally_zero (size : ℕ) :
    Tally ((upTo 0 size).foldl (fun l _ => l.append 0) (IndexedList.ofList [])) size
      fun _ => 0 := by
  have hfold : ∀ (is : List ℤ) (l : IndexedList),
      is.foldl (fun l _ => l.append 0) l =
      { l with cells := l.cells ++ List.replicate is.length 0 } := by
    intro is
    induction is with
    | nil => simp
    | cons i is ih =>
      intro l
      rw [List.foldl_cons, ih]
      simp [IndexedList.append, List.replicate_succ]
  have hlen : (upTo 0 (size : ℤ)).length = size := by simp [upTo]
  rw [hfold, hlen]
  refine ⟨?_, ?_, ?_⟩
  · simp [IndexedList.ofList]
  · intro k hk
    simp [IndexedList.ofList, hk]
  · simp [IndexedList.ofList]

section Bounds

theorem widen_bounds (datalist : List ℤ) (bounds : ℤ × ℤ) :
    (datalist.foldl widen bounds).1 ≤ bounds.1 ∧ bounds.2 ≤ (datalist.foldl widen bounds).2 ∧
      ∀ x ∈ datalist, (datalist.foldl widen bounds).1 ≤ x ∧
      x ≤ (datalist.foldl widen bounds).2 := by
  induction datalist generalizing bounds with
  | nil => simp
  | cons y ys ih =>
    obtain ⟨hmin, hmax, hall⟩ := ih (widen bounds y)
    have hy : (widen bounds y).1 ≤ bounds.1 ∧ (widen bounds y).1 ≤ y ∧
        bounds.2 ≤ (widen bounds y).2 ∧ y ≤ (widen bounds y).2 := by
      simp only [widen]
      refine ⟨?_, ?_, ?_, ?_⟩ <;> split <;> omega
    rw [List.foldl_cons]
    refine ⟨hmin.trans hy.1, hy.2.2.1.trans hmax, ?_⟩
    intro x hx
    rcases List.mem_cons.mp hx with rfl | hx
    · exact ⟨hmin.trans hy.2.1, hy.2.2.2.trans hmax⟩
    · exact hall x hx

theorem getMinMax_spec {datalist : List ℤ} (h : datalist ≠ []) :
    ∃ nmin nmax, getMinMax datalist = some (nmin, nmax) ∧ ∀ x ∈ datalist, nmin ≤ x ∧ x ≤ nmax := by
  cases datalist with
  | nil => exact absurd rfl h
  | cons y ys =>
    have hfirst : item (y :: ys) 0 = some y := item_eq (k := 0) rfl
    refine ⟨_, _, ?_, (widen_bounds (y :: ys) (y, y)).2.2⟩
    rw [getMinMax, hfirst]
    rfl

end Bounds

section Passes

variable {datalist : List ℤ} {nmin : ℤ}

structure Counting (nmin : ℤ) (size : ℕ) (datalist unread : List ℤ) (l : IndexedList) : Prop where
  within : ∀ x ∈ unread, nmin ≤ x ∧ x < nmin + size
  span : Tally l size fun k => datalist.count (nmin + k) - unread.count (nmin + k)

theorem count_cons_at (unread : List ℤ) (j k : ℕ) :
    ((nmin + j) :: unread).count (nmin + k) = unread.count (nmin + k) + if k = j then 1 else 0 := by
  by_cases hk : k = j
  · rw [hk, List.count_cons_self, if_pos rfl]
  · rw [List.count_cons_of_ne (by omega), if_neg hk, Nat.add_zero]

theorem Counting.step {unread : List ℤ} {x : ℤ} (h : Counting nmin size datalist (x :: unread) l) :
    ∃ l', l.add (x - nmin) 1 = some l' ∧ Counting nmin size datalist unread l' := by
  obtain ⟨hlo, hhi⟩ := h.within x List.mem_cons_self
  obtain ⟨j, rfl⟩ : ∃ j : ℕ, x = nmin + j := ⟨(x - nmin).toNat, by omega⟩
  obtain ⟨l', hadd, hl'⟩ := h.span.add (k := j) (by omega) 1
  rw [add_sub_cancel_left]
  refine ⟨l', hadd, fun y hy => h.within y (List.mem_cons_of_mem _ hy), hl'.congr ?_⟩
  intro k _
  rw [Function.update_apply, count_cons_at, count_cons_at, if_pos rfl]
  split
  · subst k
    omega
  · omega

theorem count_pass (h : Tally l size fun _ => 0)
    (hin : ∀ x ∈ datalist, nmin ≤ x ∧ x < nmin + size) :
    ∃ l', exec (fun l x => l.add (x - nmin) 1) l datalist = some l' ∧
      Tally l' size fun k => datalist.count (nmin + k) := by
  have hstart : Counting nmin size datalist datalist l := ⟨hin, h.congr fun k _ => by omega⟩
  obtain ⟨l', hrun, hlast⟩ :=
    exec_unread (Counting nmin size datalist) (fun _ _ _ hl => hl.step) hstart
  exact ⟨l', hrun, hlast.span.congr fun k _ => by simp⟩

theorem below_succ (datalist : List ℤ) (v : ℤ) :
    below datalist (v + 1) = below datalist v + datalist.count v := by
  rw [below_add_count]
  apply List.countP_congr
  intro y _
  rw [decide_eq_true_iff, decide_eq_true_iff]
  exact Int.lt_add_one_iff

def summedUpTo (datalist : List ℤ) (nmin : ℤ) (i k : ℕ) : ℤ :=
  if k < i then below datalist (nmin + k + 1) else datalist.count (nmin + k)

theorem summedUpTo_lt {i : ℕ} (h : k < i) :
    summedUpTo datalist nmin i k = below datalist (nmin + k + 1) := if_pos h

theorem summedUpTo_ge {i : ℕ} (h : ¬k < i) :
    summedUpTo datalist nmin i k = datalist.count (nmin + k) := if_neg h

theorem accumulate_step {i : ℕ} (hi : 1 ≤ i) (hi' : i < size)
    (h : Tally l size (summedUpTo datalist nmin i)) :
    ∃ l', accumulate l i = some l' ∧ Tally l' size (summedUpTo datalist nmin (i + 1)) := by
  obtain ⟨l₁, hget, h₁⟩ := h.get hi'
  obtain ⟨l₂, hget', h₂⟩ := h₁.get (k := i - 1) (by omega)
  obtain ⟨l₃, hset, h₃⟩ := h₂.set hi' (datalist.count (nmin + i) + below datalist (nmin + i))
  have hpred : ((i - 1 : ℕ) : ℤ) = (i : ℤ) - 1 := by omega
  rw [summedUpTo_ge (Nat.lt_irrefl i)] at hget
  rw [summedUpTo_lt (by omega), hpred, show nmin + ((i : ℤ) - 1) + 1 = nmin + i by omega] at hget'
  refine ⟨l₃, ?_, h₃.congr ?_⟩
  · rw [accumulate, hget]
    simp only [Option.bind_eq_bind, Option.bind_some, hget']
    exact hset
  · intro k _
    by_cases hk : k = i
    · subst hk
      rw [Function.update_self, summedUpTo_lt (Nat.lt_succ_self k), below_succ]
      omega
    · rw [Function.update_of_ne hk]
      by_cases hlt : k < i
      · rw [summedUpTo_lt hlt, summedUpTo_lt (by omega)]
      · rw [summedUpTo_ge hlt, summedUpTo_ge (by omega)]

theorem accumulate_pass (hsize : 0 < size) (h : Tally l size fun k => datalist.count (nmin + k))
    (hmin : ∀ x ∈ datalist, nmin ≤ x) :
    ∃ l', exec accumulate l (upTo 1 size) = some l' ∧
      Tally l' size fun k => below datalist (nmin + k + 1) := by
  have hrange : upTo 1 (size : ℤ) = (List.range' 1 (size - 1)).map fun k : ℕ => (k : ℤ) :=
    upTo_natCast 1 size
  have hstart : Tally l size (summedUpTo datalist nmin 1) := by
    apply h.congr
    intro k _
    by_cases hk : k < 1
    · obtain rfl : k = 0 := by omega
      rw [summedUpTo_lt hk, below_succ, below_eq_zero (by simpa using hmin), Nat.zero_add]
    · rw [summedUpTo_ge hk]
  rw [hrange, exec_map]
  obtain ⟨l', hrun, hl'⟩ := exec_range (fun i l => Tally l size (summedUpTo datalist nmin i))
    (fun i l hi (hi' : i < 1 + (size - 1)) hl => accumulate_step hi (by omega) hl) hstart
  refine ⟨l', hrun, hl'.congr ?_⟩
  intro k hk
  exact summedUpTo_lt (by omega)

structure Placing (nmin : ℤ) (size : ℕ) (s unread : List ℤ) (lists : IndexedList × IndexedList) :
    Prop where
  within : ∀ x ∈ unread, nmin ≤ x ∧ x < nmin + size
  span : Tally lists.1 size fun k => below s (nmin + k) + unread.count (nmin + k)
  placed : ∃ ps : List ℕ, lists.2.writes = ps.map (fun p : ℕ => (p : ℤ)) ∧
    Placed s unread lists.2.cells ps
  reads : lists.2.reads = []

theorem Placing.step {s unread : List ℤ} {x : ℤ} {lists : IndexedList × IndexedList}
    (hs : s.Pairwise (· ≤ ·)) (h : Placing nmin size s (x :: unread) lists) :
    ∃ lists', place nmin lists x = some lists' ∧ Placing nmin size s unread lists' := by
  obtain ⟨hlo, hhi⟩ := h.within x List.mem_cons_self
  obtain ⟨j, rfl⟩ : ∃ j : ℕ, x = nmin + j := ⟨(x - nmin).toNat, by omega⟩
  have hlt : j < size := by omega
  obtain ⟨ps, hps, hplaced⟩ := h.placed
  obtain ⟨span₁, hget, h₁⟩ := h.span.get hlt
  obtain ⟨span₂, hadd, h₂⟩ := h₁.add hlt (-1)
  rw [List.count_cons_self] at hget
  have hpos : ((below s (nmin + j) + (unread.count (nmin + j) + 1 : ℕ) : ℤ)) - 1 =
      ((below s (nmin + j) + unread.count (nmin + j) : ℕ) : ℤ) := by omega
  have hin : below s (nmin + j) + unread.count (nmin + j) < lists.2.cells.length := by
    rw [hplaced.length]
    exact hplaced.lt_length hs
  refine ⟨(span₂, { lists.2 with
    cells := lists.2.cells.set (below s (nmin + j) + unread.count (nmin + j)) (nmin + j)
    writes := lists.2.writes ++ [((below s (nmin + j) + unread.count (nmin + j) : ℕ) : ℤ)] }), ?_,
      ?_, ?_, ?_, h.reads⟩
  · rw [place, add_sub_cancel_left, hget]
    simp only [Option.bind_eq_bind, Option.bind_some, hpos, IndexedList.set, position_eq hin,
      Option.map_some, hadd]
    rfl
  · exact fun y hy => h.within y (List.mem_cons_of_mem _ hy)
  · apply h₂.congr
    intro k _
    rw [Function.update_apply, count_cons_at, count_cons_at, if_pos rfl]
    split
    · subst k
      omega
    · omega
  · refine ⟨ps ++ [below s (nmin + j) + unread.count (nmin + j)], ?_, hplaced.put hs⟩
    rw [List.map_append, ← hps]
    rfl

theorem Placing.finished {s : List ℤ} {lists : IndexedList × IndexedList}
    (h : Placing nmin size s [] lists) :
    lists.2.cells = s ∧ (∀ k ∈ lists.2.reads ++ lists.2.writes, 0 ≤ k ∧ k < s.length) ∧
      ∀ p : ℕ, p < s.length → lists.2.writes.count (p : ℤ) = 1 := by
  obtain ⟨ps, hps, hplaced⟩ := h.placed
  rw [h.reads, List.nil_append, hps]
  refine ⟨hplaced.eq_sorted, ?_, ?_⟩
  · intro k hk
    obtain ⟨p, hp, rfl⟩ := List.mem_map.mp hk
    have hlt := (hplaced.value p hp).1
    omega
  · intro p hp
    have hsame : (ps.map fun q : ℕ => (q : ℤ)).count (p : ℤ) = ps.count p :=
      List.count_map_of_injective ps _ (fun _ _ heq => by omega) p
    rw [hsame]
    exact List.count_eq_one_of_mem hplaced.nodup
      (hplaced.places_perm.mem_iff.mpr (List.mem_range.mpr hp))

theorem place_pass {s : List ℤ} (hs : s.Pairwise (· ≤ ·)) (hperm : s.Perm datalist)
    (hin : ∀ x ∈ datalist, nmin ≤ x ∧ x < nmin + size)
    (h : Tally l size fun k => below datalist (nmin + k + 1)) :
    ∃ lists, exec (place nmin) (l, .ofList datalist) datalist.reverse = some lists ∧
      Placing nmin size s [] lists := by
  have hstart : Placing nmin size s datalist.reverse (l, .ofList datalist) := by
    refine ⟨fun x hx => hin x (List.mem_reverse.mp hx), h.congr ?_, ⟨[], rfl, ?_⟩, rfl⟩
    · intro k _
      rw [below_succ, below_perm hperm.symm, List.count_reverse]
      omega
    · exact .start (datalist.reverse_perm.trans hperm.symm) hperm.symm
  exact exec_unread (Placing nmin size s) (fun x unread lists hl => hl.step hs) hstart

end Passes

theorem counting_sort_sorts (datalist : List ℤ) (h : datalist ≠ []) :
    ∃ spanList rsltList, sort datalist = some (spanList, rsltList) ∧
      rsltList.cells.Pairwise (· ≤ ·) ∧ rsltList.cells.Perm datalist ∧
      (∀ k ∈ spanList.reads ++ spanList.writes, 0 ≤ k ∧ k < spanList.cells.length) ∧
      (∀ k ∈ rsltList.reads ++ rsltList.writes, 0 ≤ k ∧ k < rsltList.cells.length) ∧
      ∀ p : ℕ, p < rsltList.cells.length → rsltList.writes.count (p : ℤ) = 1 := by
  obtain ⟨nmin, nmax, hbounds, hall⟩ := getMinMax_spec h
  obtain ⟨x, hx⟩ := List.exists_mem_of_ne_nil datalist h
  have hspan := hall x hx
  obtain ⟨size, hsize⟩ : ∃ size : ℕ, nmax - nmin + 1 = size := ⟨(nmax - nmin + 1).toNat, by omega⟩
  have hin : ∀ x ∈ datalist, nmin ≤ x ∧ x < nmin + size := by
    intro x hx
    have := hall x hx
    omega
  have hperm : (datalist.mergeSort (· ≤ ·)).Perm datalist := List.mergeSort_perm datalist _
  have hsorted : (datalist.mergeSort (· ≤ ·)).Pairwise (· ≤ ·) :=
    List.pairwise_mergeSort' (· ≤ ·) datalist
  obtain ⟨span₁, hrun₁, h₁⟩ := count_pass (tally_zero size) hin
  obtain ⟨span₂, hrun₂, h₂⟩ := accumulate_pass (by omega) h₁ fun x hx => (hin x hx).1
  obtain ⟨⟨spanList, rsltList⟩, hrun, hlast⟩ := place_pass hsorted hperm hin h₂
  obtain ⟨hcells, huses, honce⟩ := hlast.finished
  rw [← hcells] at hperm hsorted huses honce
  refine ⟨spanList, rsltList, ?_, hsorted, hperm, ?_, huses, honce⟩
  · simp only [sort, hbounds, countingSort, hsize, hrun₁, hrun₂, hrun, Option.bind_eq_bind,
      Option.bind_some]
  · rw [hlast.span.length]
    exact hlast.span.uses

theorem sorts_repeated_and_negative :
    ∃ spanList rsltList, sort [3, -2, 3, 0] = some (spanList, rsltList) ∧
      rsltList.cells.Pairwise (· ≤ ·) ∧ rsltList.cells.Perm [3, -2, 3, 0] := by
  obtain ⟨spanList, rsltList, hrun, hsorted, hperm, -⟩ :=
    counting_sort_sorts [3, -2, 3, 0] (by decide)
  exact ⟨spanList, rsltList, hrun, hsorted, hperm⟩

end AnalysisPrograms.CountingSort
