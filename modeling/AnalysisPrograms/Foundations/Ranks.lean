import Mathlib.Data.List.Count
import Mathlib.Data.List.Perm.Subperm
import Mathlib.Order.Lattice

namespace Foundations.Ranks

variable {α : Type} [LinearOrder α] {xs s rest rslt : List α} {ps : List ℕ} {x : α} {p : ℕ}

def below (xs : List α) (x : α) : ℕ := xs.countP fun y => decide (y < x)

theorem below_perm (h : xs.Perm s) (x : α) : below xs x = below s x := h.countP_eq _

theorem below_cons (y : α) (xs : List α) (x : α) :
    below (y :: xs) x = below xs x + if y < x then 1 else 0 := by
  simp [below, List.countP_cons]

theorem below_add_count (xs : List α) (x : α) :
    below xs x + xs.count x = xs.countP fun y => decide (y ≤ x) := by
  induction xs with
  | nil => rfl
  | cons y ys ih =>
    rw [below_cons, List.count_cons, List.countP_cons, ← ih]
    rcases lt_trichotomy y x with hlt | rfl | hgt
    · simp only [hlt, hlt.ne, le_of_lt hlt, beq_iff_eq, ↓reduceIte, decide_true]
      omega
    · simp only [lt_irrefl, le_refl, beq_self_eq_true, ↓reduceIte, decide_true]
      omega
    · simp [not_lt_of_gt hgt, hgt.ne', not_le_of_gt hgt]

theorem below_eq_zero (h : ∀ y ∈ xs, x ≤ y) : below xs x = 0 := by
  apply List.countP_eq_zero.mpr
  intro y hy
  simpa using h y hy

theorem get_of_rank (hs : s.Pairwise (· ≤ ·)) (hlo : below s x ≤ p)
    (hhi : p < below s x + s.count x) : s[p]? = some x := by
  induction s generalizing p with
  | nil => simp [below] at hhi
  | cons y ys ih =>
    obtain ⟨hfirst, hrest⟩ := List.pairwise_cons.mp hs
    rw [below_cons] at hlo hhi
    rcases lt_trichotomy y x with hlt | rfl | hgt
    · rw [if_pos hlt] at hlo hhi
      rw [List.count_cons_of_ne hlt.ne] at hhi
      obtain ⟨q, rfl⟩ : ∃ q, p = q + 1 := ⟨p - 1, by omega⟩
      rw [List.getElem?_cons_succ]
      exact ih hrest (by omega) (by omega)
    · rw [if_neg (lt_irrefl y), List.count_cons_self] at hhi
      cases p with
      | zero => rfl
      | succ q =>
        rw [List.getElem?_cons_succ]
        apply ih hrest
        · rw [below_eq_zero hfirst]
          exact Nat.zero_le q
        · omega
    · have hzero : (y :: ys).count x = 0 := by
        rw [List.count_eq_zero]
        intro hmem
        rcases List.mem_cons.mp hmem with rfl | hmem
        · exact lt_irrefl x hgt
        · exact absurd (hfirst x hmem) (not_le_of_gt hgt)
      have hnone := below_eq_zero fun z hz => le_of_lt (lt_of_lt_of_le hgt (hfirst z hz))
      rw [if_neg (not_lt_of_gt hgt), hzero, hnone] at hhi
      omega

structure Placed (s rest rslt : List α) (ps : List ℕ) : Prop where
  unread : rest.Subperm s
  length : rslt.length = s.length
  nodup : ps.Nodup
  total : ps.length + rest.length = s.length
  value : ∀ p ∈ ps, p < s.length ∧ rslt[p]? = s[p]?
  later : ∀ p ∈ ps, ∀ x, s[p]? = some x → below s x + rest.count x ≤ p

namespace Placed

theorem start (h : rest.Perm s) (h' : rslt.Perm s) : Placed s rest rslt [] where
  unread := h.subperm
  length := h'.length_eq
  nodup := List.nodup_nil
  total := by simpa using h.length_eq
  value p hp := absurd hp List.not_mem_nil
  later p hp := absurd hp List.not_mem_nil

theorem get (hs : s.Pairwise (· ≤ ·)) (h : Placed s (x :: rest) rslt ps) :
    s[below s x + rest.count x]? = some x := by
  apply get_of_rank hs (Nat.le_add_right _ _)
  have hcount := h.unread.count_le x
  rw [List.count_cons_self] at hcount
  omega

theorem lt_length (hs : s.Pairwise (· ≤ ·)) (h : Placed s (x :: rest) rslt ps) :
    below s x + rest.count x < s.length :=
  (List.getElem?_eq_some_iff.mp (h.get hs)).1

theorem put (hs : s.Pairwise (· ≤ ·)) (h : Placed s (x :: rest) rslt ps) :
    Placed s rest (rslt.set (below s x + rest.count x) x) (ps ++ [below s x + rest.count x]) := by
  have hget := h.get hs
  have hlt := h.lt_length hs
  have hnew : below s x + rest.count x ∉ ps := by
    intro hmem
    have hle := h.later _ hmem x hget
    rw [List.count_cons_self] at hle
    omega
  refine ⟨?_, ?_, ?_, ?_, ?_, ?_⟩
  · exact (List.sublist_cons_self x rest).subperm.trans h.unread
  · rw [List.length_set, h.length]
  · rw [List.nodup_append]
    refine ⟨h.nodup, List.pairwise_singleton _ _, ?_⟩
    rintro a ha b hb rfl
    exact hnew (List.mem_singleton.mp hb ▸ ha)
  · have htotal := h.total
    rw [List.length_cons] at htotal
    rw [List.length_append, List.length_singleton]
    omega
  · intro p hp
    rcases List.mem_append.mp hp with hp | hp
    · have hne : below s x + rest.count x ≠ p := fun heq => hnew (heq ▸ hp)
      rw [List.getElem?_set_ne hne]
      exact h.value p hp
    · rw [List.mem_singleton.mp hp, List.getElem?_set_self (by rwa [h.length]), hget]
      exact ⟨hlt, rfl⟩
  · intro p hp y hy
    rcases List.mem_append.mp hp with hp | hp
    · have hle := h.later p hp y hy
      have hcount := (List.sublist_cons_self x rest).count_le y
      omega
    · rw [List.mem_singleton.mp hp] at hy ⊢
      rw [hget] at hy
      obtain rfl := Option.some.inj hy
      exact Nat.le_refl _

theorem places_perm (h : Placed s [] rslt ps) : ps.Perm (List.range s.length) := by
  have hsub : ps ⊆ List.range s.length := fun p hp => List.mem_range.mpr (h.value p hp).1
  apply (List.subperm_of_subset h.nodup hsub).perm_of_length_le
  have htotal := h.total
  rw [List.length_nil] at htotal
  rw [List.length_range]
  omega

theorem eq_sorted (h : Placed s [] rslt ps) : rslt = s := by
  apply List.ext_getElem?
  intro p
  by_cases hp : p < s.length
  · exact (h.value p (h.places_perm.mem_iff.mpr (List.mem_range.mpr hp))).2
  · rw [List.getElem?_eq_none (by rw [h.length]; omega), List.getElem?_eq_none (by omega)]

end Placed

end Foundations.Ranks
