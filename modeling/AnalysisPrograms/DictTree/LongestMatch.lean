import Mathlib.Order.Bounds.Defs
import AnalysisPrograms.Foundations.Iteration
import AnalysisPrograms.DictTree.Prefixes

namespace AnalysisPrograms.DictTree

open Foundations Foundations.Execution Foundations.Iteration

inductive Panic
  | indexOutOfRange

def matchTurn (h : Heap) (tags : List Rune) : Option ℕ × ℕ → Except Panic ((Option ℕ × ℕ) ⊕ ℕ)
  | (none, count) => .ok (.inr count)
  | (some node, count) =>
    match tags[count]? with
    | none => .error .indexOutOfRange
    | some tag =>
      if tag = h.tag node then .ok (.inl (h.cells (.leftChild node), count + 1))
      else
        match h.cells (.rightSibling node) with
        | none => .ok (.inr count)
        | some sibling => .ok (.inl (some sibling, count))

def matchBody (h : Heap) (tags : List Rune) : Option ℕ × ℕ → (Option ℕ × ℕ) ⊕ Except Panic ℕ :=
  catching (matchTurn h tags)

def longestMatch (h : Heap) (root : Option ℕ) (word : List UInt8) (fuel : ℕ) :
    Option (Except Panic ℕ) :=
  run (matchBody h (runes word)) fuel (root, 0)

def LongestMatch (h : Heap) (word : List UInt8) (r : Except Panic ℕ) : Prop :=
  ∃ fuel, longestMatch h (h.cells .root) word fuel = some r

/-- The first `count` runes of the query are a prefix of an inserted word; none of them always
match. -/
def Matching (words : List (List UInt8)) (query : List UInt8) (count : ℕ) : Prop :=
  count ≤ (runes query).length ∧
    (count = 0 ∨ ∃ word ∈ words, (runes query).take count <+: runes word)

def outcome (count : ℕ) : Option ℕ → Except Panic ℕ
  | none => .error .indexOutOfRange
  | some more => .ok (count + more)

section Turns

variable {h : Heap} {tags : List Rune} {node count : ℕ} {r : Except Panic ℕ}

theorem returns_nil : Returns (matchBody h tags) (none, count) (.ok count) := by
  apply (returns_inr _ _).mpr rfl
  rfl

theorem returns_out (hcount : tags[count]? = none) :
    Returns (matchBody h tags) (some node, count) (.error .indexOutOfRange) := by
  apply (returns_inr _ _).mpr rfl
  rw [matchBody, catching, matchTurn, hcount]

theorem returns_child (hcount : tags[count]? = some (h.tag node))
    (hr : Returns (matchBody h tags) (h.cells (.leftChild node), count + 1) r) :
    Returns (matchBody h tags) (some node, count) r := by
  apply (returns_inl _ r).mpr hr
  rw [matchBody, catching, matchTurn, hcount]
  simp only [if_true]

theorem returns_sibling {tag : Rune} (hcount : tags[count]? = some tag) (hne : tag ≠ h.tag node)
    (hr : Returns (matchBody h tags) (h.cells (.rightSibling node), count) r) :
    Returns (matchBody h tags) (some node, count) r := by
  cases hsib : h.cells (.rightSibling node) with
  | none =>
    -- the loop is left with what the empty chain would give
    rw [hsib] at hr
    obtain rfl := hr.unique returns_nil
    apply (returns_inr _ _).mpr rfl
    rw [matchBody, catching, matchTurn, hcount]
    simp only [if_neg hne, hsib]
  | some sibling =>
    rw [hsib] at hr
    apply (returns_inl _ r).mpr hr
    rw [matchBody, catching, matchTurn, hcount]
    simp only [if_neg hne, hsib]

end Turns

theorem Shape.longestMatch {h : Heap} {p : Option ℕ} {t : ChildSibling (ℕ × Rune)}
    (hs : Shape h p t) (tags : List Rune) (count : ℕ) :
    Returns (matchBody h tags) (p, count)
      (outcome count ((tagTree t).longest (tags.drop count))) := by
  induction t generalizing p count with
  | nil =>
    obtain rfl : p = none := hs
    exact returns_nil
  | node a c s ihc ihs =>
    obtain ⟨n, b⟩ := a
    obtain ⟨rfl, rfl, hc, hsib⟩ := hs
    change Returns _ _
      (outcome count
        ((ChildSibling.node (h.tag n) (tagTree c) (tagTree s)).longest (tags.drop count)))
    by_cases hcount : count < tags.length
    · have hat : tags[count]? = some tags[count] := List.getElem?_eq_getElem hcount
      rw [List.drop_eq_getElem_cons hcount, ChildSibling.longest]
      split
      · rename_i htag
        apply returns_child (htag ▸ hat)
        have hmore := ihc hc (count + 1)
        cases hl : (tagTree c).longest (tags.drop (count + 1)) with
        | none =>
          rw [hl] at hmore
          exact hmore
        | some more =>
          rw [hl, outcome, Nat.add_assoc, Nat.add_comm 1] at hmore
          exact hmore
      · rename_i htag
        rw [← List.drop_eq_getElem_cons hcount]
        exact returns_sibling hat htag (ihs hsib count)
    · rw [List.drop_eq_nil_of_le (Nat.le_of_not_lt hcount)]
      exact returns_out (List.getElem?_eq_none (Nat.le_of_not_lt hcount))

theorem exec_longestMatch (words : List (List UInt8)) (query : List UInt8) :
    ∃ h, exec step start words = some h ∧
      ∀ r, LongestMatch h query r ↔ r = outcome 0 ((built words).longest (runes query)) := by
  obtain ⟨h, hrun, t, hst, htree⟩ := exec_holds words
  refine ⟨h, hrun, ?_⟩
  have hret := hst.shape.longestMatch (runes query) 0
  rw [htree] at hret
  intro r
  constructor
  · intro hr
    exact Returns.unique hr hret
  · rintro rfl
    exact hret

theorem built_longest_none (words : List (List UInt8)) (query : List UInt8) :
    (built words).longest (runes query) = none ↔
      ∃ word ∈ words, runes query <+: runes word ∧ runes query ≠ runes word := by
  rw [ChildSibling.longest_eq_none_iff (built_distinct words)]
  simp only [built_spells]
  constructor
  · rintro ⟨x, v, -, word, hword, hpre⟩
    refine ⟨word, hword, (List.prefix_append _ _).trans hpre, ?_⟩
    intro heq
    have hlen := hpre.length_le
    rw [← heq, List.length_append, List.length_cons] at hlen
    omega
  · rintro ⟨word, hword, ⟨rest, hrest⟩, hne⟩
    cases rest with
    | nil => exact absurd ((List.append_nil _).symm.trans hrest) hne
    | cons x v =>
      exact ⟨x, v, List.append_ne_nil_of_right_ne_nil _ (List.cons_ne_nil x v), word, hword,
        hrest ▸ List.prefix_rfl⟩

theorem built_longest_some {words : List (List UInt8)} {query : List UInt8} {k : ℕ}
    (hk : (built words).longest (runes query) = some k) :
    IsGreatest {j | Matching words query j} k := by
  obtain ⟨hle, hat, hmax⟩ := ChildSibling.longest_eq_some (built_distinct words) hk
  rw [built_spells] at hat
  refine ⟨⟨hle, hat.imp_right And.right⟩, ?_⟩
  rintro j ⟨hj, rfl | hword⟩
  · exact Nat.zero_le k
  · by_cases hnil : (runes query).take j = []
    · rcases List.take_eq_nil_iff.mp hnil with rfl | hnil
      · exact Nat.zero_le k
      · rw [hnil] at hj
        exact Nat.le_trans hj (Nat.zero_le k)
    · exact hmax j hj ((built_spells words _).mpr ⟨hnil, hword⟩)

theorem longest_match_iff (words : List (List UInt8)) (query : List UInt8) :
    ∃ h, exec step start words = some h ∧
      ((∃ k, LongestMatch h query (.ok k) ∧ IsGreatest {j | Matching words query j} k) ↔
        ∀ word ∈ words, runes query <+: runes word → runes query = runes word) := by
  obtain ⟨h, hrun, hmatch⟩ := exec_longestMatch words query
  refine ⟨h, hrun, ?_⟩
  cases hl : (built words).longest (runes query) with
  | none =>
    rw [hl] at hmatch
    obtain ⟨word, hword, hpre, hne⟩ := (built_longest_none words query).mp hl
    apply iff_of_false
    · rintro ⟨k, hk, -⟩
      cases (hmatch _).mp hk
    · intro hall
      exact hne (hall word hword hpre)
  | some k =>
    rw [hl, outcome, Nat.zero_add] at hmatch
    apply iff_of_true
    · exact ⟨k, (hmatch _).mpr rfl, built_longest_some hl⟩
    · intro word hword hpre
      by_contra hne
      have hnone := (built_longest_none words query).mpr ⟨word, hword, hpre, hne⟩
      rw [hl] at hnone
      cases hnone

theorem longest_match_panics :
    ∃ h, exec step start [[97, 98]] = some h ∧ LongestMatch h [97] (.error .indexOutOfRange) ∧
      ¬∃ k, LongestMatch h [97] (.ok k) := by
  obtain ⟨h, hrun, hmatch⟩ := exec_longestMatch [[97, 98]] [97]
  have hnone : (built [[97, 98]]).longest (runes [97]) = none := by
    simp [built, runes, decodeRune, ChildSibling.insert, ChildSibling.path, ChildSibling.longest]
  rw [hnone] at hmatch
  refine ⟨h, hrun, (hmatch _).mpr rfl, ?_⟩
  rintro ⟨k, hk⟩
  cases (hmatch _).mp hk

end AnalysisPrograms.DictTree
