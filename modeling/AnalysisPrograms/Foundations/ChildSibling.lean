import Mathlib.Data.List.Basic
import Mathlib.Tactic.Basic

namespace Foundations

/-- A forest as a binary tree: the first child to the left, the next sibling to the right. -/
inductive ChildSibling (α : Type)
  | nil
  | node (tag : α) (child sibling : ChildSibling α)

namespace ChildSibling

variable {α β : Type}

def map (f : α → β) : ChildSibling α → ChildSibling β
  | nil => nil
  | node a c s => node (f a) (c.map f) (s.map f)

def size : ChildSibling α → ℕ
  | nil => 0
  | node _ c s => c.size + s.size + 1

def chain : ChildSibling α → List α
  | nil => []
  | node a _ s => a :: s.chain

def Distinct : ChildSibling α → Prop
  | nil => True
  | node a c s => a ∉ s.chain ∧ c.Distinct ∧ s.Distinct

def Spells : ChildSibling α → List α → Prop
  | nil, _ => False
  | node a c s, w => w = [a] ∨ (∃ v, w = a :: v ∧ c.Spells v) ∨ s.Spells w

def tags : ChildSibling α → List α
  | nil => []
  | node a c s => a :: (c.tags ++ s.tags)

def path : List α → ChildSibling α
  | [] => nil
  | a :: as => node a (path as) nil

theorem ne_nil_prefix_cons {a : α} {as v : List α} :
    v ≠ [] ∧ v <+: a :: as ↔ v = [a] ∨ ∃ u, v = a :: u ∧ u ≠ [] ∧ u <+: as := by
  cases v with
  | nil => simp
  | cons b u =>
    rw [List.cons_prefix_cons]
    constructor
    · rintro ⟨-, rfl, hu⟩
      by_cases hnil : u = []
      · exact .inl (by rw [hnil])
      · exact .inr ⟨u, rfl, hnil, hu⟩
    · rintro (heq | ⟨w, heq, -, hw⟩)
      · obtain ⟨rfl, rfl⟩ := List.cons.inj heq
        exact ⟨List.cons_ne_nil b [], rfl, List.nil_prefix⟩
      · obtain ⟨rfl, rfl⟩ := List.cons.inj heq
        exact ⟨List.cons_ne_nil b u, rfl, hw⟩

theorem not_ne_nil_prefix_nil (v : List α) : ¬(v ≠ [] ∧ v <+: []) := by
  rintro ⟨hne, hpre⟩
  exact hne (List.prefix_nil.mp hpre)

theorem spells_path (w v : List α) : (path w).Spells v ↔ v ≠ [] ∧ v <+: w := by
  induction w generalizing v with
  | nil => exact iff_of_false id (not_ne_nil_prefix_nil v)
  | cons a w ih =>
    rw [ne_nil_prefix_cons, path, Spells]
    simp only [ih, Spells, or_false]

theorem distinct_nil : (nil : ChildSibling α).Distinct := trivial

theorem distinct_path (w : List α) : (path w).Distinct := by
  induction w with
  | nil => exact distinct_nil
  | cons a w ih => exact ⟨List.not_mem_nil, ih, distinct_nil⟩

theorem mem_chain_of_spells {t : ChildSibling α} {a : α} {v : List α} (h : t.Spells (a :: v)) :
    a ∈ t.chain := by
  induction t with
  | nil => exact h.elim
  | node b c s _ ih =>
    rcases h with h | ⟨u, h, -⟩ | h
    · exact (List.cons.inj h).1 ▸ List.mem_cons_self
    · exact (List.cons.inj h).1 ▸ List.mem_cons_self
    · exact List.mem_cons_of_mem b (ih h)

theorem Distinct.spells_cons {a : α} {c s : ChildSibling α} (h : (node a c s).Distinct)
    (v : List α) : (node a c s).Spells (a :: v) ↔ v = [] ∨ c.Spells v := by
  constructor
  · rintro (heq | ⟨u, heq, hu⟩ | hs)
    · exact .inl (List.cons.inj heq).2
    · exact .inr ((List.cons.inj heq).2 ▸ hu)
    · exact absurd (mem_chain_of_spells hs) h.1
  · rintro (rfl | hv)
    · exact .inl rfl
    · exact .inr (.inl ⟨v, rfl, hv⟩)

theorem spells_cons_of_ne {a b : α} {c s : ChildSibling α} (h : b ≠ a) (v : List α) :
    (node a c s).Spells (b :: v) ↔ s.Spells (b :: v) := by
  refine ⟨?_, fun hs => .inr (.inr hs)⟩
  rintro (heq | ⟨u, heq, -⟩ | hs)
  · exact absurd (List.cons.inj heq).1 h
  · exact absurd (List.cons.inj heq).1 h
  · exact hs

theorem mem_tags_path {w : List α} {x : α} (h : x ∈ (path w).tags) : x ∈ w := by
  induction w with
  | nil => cases h
  | cons a w ih =>
    rw [path, tags, tags, List.append_nil, List.mem_cons] at h
    rcases h with rfl | h
    · exact List.mem_cons_self
    · exact List.mem_cons_of_mem a (ih h)

section Insert

variable [DecidableEq α]

def insert : ChildSibling α → List α → ChildSibling α
  | t, [] => t
  | nil, a :: as => path (a :: as)
  | node b c s, a :: as => if a = b then node b (c.insert as) s else node b c (s.insert (a :: as))

theorem mem_chain_insert {t : ChildSibling α} {a x : α} {as : List α}
    (h : x ∈ (t.insert (a :: as)).chain) : x ∈ t.chain ∨ x = a := by
  induction t with
  | nil =>
    rcases List.mem_cons.mp h with h | h
    · exact .inr h
    · exact absurd h List.not_mem_nil
  | node b c s _ ih =>
    rw [insert] at h
    split at h
    · exact .inl h
    · rcases List.mem_cons.mp h with rfl | h
      · exact .inl List.mem_cons_self
      · rcases ih h with h | h
        · exact .inl (List.mem_cons_of_mem b h)
        · exact .inr h

theorem Distinct.insert {t : ChildSibling α} (h : t.Distinct) (w : List α) :
    (t.insert w).Distinct := by
  induction t generalizing w with
  | nil =>
    cases w with
    | nil => exact h
    | cons a as => exact distinct_path (a :: as)
  | node b c s ihc ihs =>
    cases w with
    | nil => exact h
    | cons a as =>
      obtain ⟨hb, hc, hs⟩ := h
      rw [ChildSibling.insert]
      split
      · exact ⟨hb, ihc hc as, hs⟩
      · rename_i hne
        refine ⟨?_, hc, ihs hs (a :: as)⟩
        intro hmem
        rcases mem_chain_insert hmem with hmem | heq
        · exact hb hmem
        · exact hne heq.symm

theorem spells_insert (t : ChildSibling α) (w v : List α) :
    (t.insert w).Spells v ↔ t.Spells v ∨ v ≠ [] ∧ v <+: w := by
  induction t generalizing w v with
  | nil =>
    cases w with
    | nil => exact (or_iff_left (not_ne_nil_prefix_nil v)).symm
    | cons a as => exact (spells_path (a :: as) v).trans (or_iff_right id).symm
  | node b c s ihc ihs =>
    cases w with
    | nil => exact (or_iff_left (not_ne_nil_prefix_nil v)).symm
    | cons a as =>
      by_cases hab : a = b
      · -- the tag is there: the rest of the word goes below it
        subst hab
        rw [insert, if_pos rfl, ne_nil_prefix_cons, Spells, Spells]
        simp only [ihc, and_or_left, exists_or]
        constructor
        · rintro (h | (h | h) | h)
          · exact .inl (.inl h)
          · exact .inl (.inr (.inl h))
          · exact .inr (.inr h)
          · exact .inl (.inr (.inr h))
        · rintro ((h | h | h) | h | h)
          · exact .inl h
          · exact .inr (.inl (.inl h))
          · exact .inr (.inr h)
          · exact .inl h
          · exact .inr (.inl (.inr h))
      · rw [insert, if_neg hab, Spells, Spells, ihs, or_assoc, or_assoc]

theorem Distinct.insertAll {t : ChildSibling α} (h : t.Distinct) (ws : List (List α)) :
    (ws.foldl ChildSibling.insert t).Distinct := by
  induction ws generalizing t with
  | nil => exact h
  | cons w ws ih => exact ih (h.insert w)

theorem spells_insertAll (t : ChildSibling α) (ws : List (List α)) (v : List α) :
    (ws.foldl insert t).Spells v ↔ t.Spells v ∨ v ≠ [] ∧ ∃ w ∈ ws, v <+: w := by
  induction ws generalizing t with
  | nil => simp
  | cons w ws ih =>
    rw [List.foldl_cons, ih, spells_insert, or_assoc]
    simp only [List.mem_cons, exists_eq_or_imp, and_or_left]

theorem mem_tags_insert {t : ChildSibling α} {w : List α} {x : α} (h : x ∈ (t.insert w).tags) :
    x ∈ t.tags ∨ x ∈ w := by
  induction t generalizing w with
  | nil =>
    cases w with
    | nil => exact .inl h
    | cons a as => exact .inr (mem_tags_path h)
  | node b c s ihc ihs =>
    cases w with
    | nil => exact .inl h
    | cons a as =>
      rw [insert] at h
      rw [tags, List.mem_cons, List.mem_append]
      split at h
      · rw [tags, List.mem_cons, List.mem_append] at h
        rcases h with h | h | h
        · exact .inl (.inl h)
        · exact (ihc h).imp (fun hx => .inr (.inl hx)) (List.mem_cons_of_mem a)
        · exact .inl (.inr (.inr h))
      · rw [tags, List.mem_cons, List.mem_append] at h
        rcases h with h | h | h
        · exact .inl (.inl h)
        · exact .inl (.inr (.inl h))
        · exact (ihs h).imp_left fun hx => .inr (.inr hx)

theorem mem_tags_insertAll {t : ChildSibling α} {ws : List (List α)} {x : α}
    (h : x ∈ (ws.foldl insert t).tags) : x ∈ t.tags ∨ ∃ w ∈ ws, x ∈ w := by
  induction ws generalizing t with
  | nil => exact .inl h
  | cons w ws ih =>
    rcases ih h with h | ⟨v, hv, hx⟩
    · exact (mem_tags_insert h).imp_right fun hx => ⟨w, List.mem_cons_self, hx⟩
    · exact .inr ⟨v, List.mem_cons_of_mem w hv, hx⟩

def longest : ChildSibling α → List α → Option ℕ
  | nil, _ => some 0
  | node _ _ _, [] => none
  | node a c s, b :: bs => if b = a then (c.longest bs).map (· + 1) else s.longest (b :: bs)

theorem longest_eq_none_iff {t : ChildSibling α} (h : t.Distinct) (w : List α) :
    t.longest w = none ↔ ∃ x v, t.Spells (w ++ x :: v) := by
  induction t generalizing w with
  | nil =>
    constructor
    · intro hnone
      cases hnone
    · rintro ⟨x, v, hs⟩
      exact hs.elim
  | node a c s ihc ihs =>
    cases w with
    | nil => exact iff_of_true rfl ⟨a, [], .inl rfl⟩
    | cons b bs =>
      rw [longest]
      simp only [List.cons_append]
      split
      · rename_i hba
        subst hba
        rw [Option.map_eq_none_iff, ihc h.2.1]
        simp only [h.spells_cons, List.append_ne_nil_of_right_ne_nil bs (List.cons_ne_nil _ _),
          false_or]
      · rename_i hba
        rw [ihs h.2.2]
        simp only [List.cons_append, spells_cons_of_ne hba]

theorem longest_eq_some {t : ChildSibling α} (h : t.Distinct) {w : List α} {k : ℕ}
    (hk : t.longest w = some k) :
    k ≤ w.length ∧ (k = 0 ∨ t.Spells (w.take k)) ∧ ∀ j ≤ w.length, t.Spells (w.take j) → j ≤ k := by
  induction t generalizing w k with
  | nil =>
    obtain rfl : 0 = k := Option.some.inj hk
    exact ⟨Nat.zero_le _, .inl rfl, fun _ _ hs => hs.elim⟩
  | node a c s ihc ihs =>
    cases w with
    | nil => cases hk
    | cons b bs =>
      rw [longest] at hk
      split at hk
      · rename_i hba
        subst hba
        obtain ⟨j, hj, rfl⟩ := Option.map_eq_some_iff.mp hk
        obtain ⟨hle, hat, hmax⟩ := ihc h.2.1 hj
        refine ⟨Nat.succ_le_succ hle, .inr ?_, ?_⟩
        · rw [List.take_succ_cons, h.spells_cons]
          rcases hat with rfl | hat
          · exact .inl List.take_zero
          · exact .inr hat
        · intro i hi hs
          cases i with
          | zero => exact Nat.zero_le _
          | succ i =>
            rw [List.take_succ_cons, h.spells_cons] at hs
            apply Nat.succ_le_succ
            rcases hs with hs | hs
            · rcases List.take_eq_nil_iff.mp hs with rfl | rfl
              · exact Nat.zero_le _
              · exact Nat.le_trans (Nat.le_of_succ_le_succ hi) (Nat.zero_le _)
            · exact hmax i (Nat.le_of_succ_le_succ hi) hs
      · rename_i hba
        obtain ⟨hle, hat, hmax⟩ := ihs h.2.2 hk
        have hsame : ∀ i, (node a c s).Spells ((b :: bs).take i) ↔ s.Spells ((b :: bs).take i) := by
          intro i
          cases i with
          | zero => simp [Spells]
          | succ i => rw [List.take_succ_cons, spells_cons_of_ne hba]
        refine ⟨hle, ?_, ?_⟩
        · rw [hsame]
          exact hat
        · intro i hi hs
          exact hmax i hi ((hsame i).mp hs)

end Insert

end ChildSibling

end Foundations
