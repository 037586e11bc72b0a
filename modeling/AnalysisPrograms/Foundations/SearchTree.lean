import Mathlib.Data.Finset.Lattice.Basic
import Mathlib.Data.Finset.Card
import Mathlib.Data.Tree.Basic
import Mathlib.Order.Defs.LinearOrder

namespace Foundations.SearchTree

open BinaryTree

variable {α : Type} [LinearOrder α]

def keys : BinaryTree α → Finset α
  | .nil => ∅
  | .node k l r => insert k (keys l ∪ keys r)

def Ordered : BinaryTree α → Prop
  | .nil => True
  | .node k l r => (∀ x ∈ keys l, x < k) ∧ (∀ x ∈ keys r, k < x) ∧ Ordered l ∧ Ordered r

def insertKey (x : α) : BinaryTree α → BinaryTree α
  | .nil => .node x .nil .nil
  | .node k l r =>
    if x < k then .node k (insertKey x l) r
    else if k < x then .node k l (insertKey x r)
    else .node k l r

variable {x k : α} {t l r : BinaryTree α}

theorem mem_keys_node : x ∈ keys (.node k l r) ↔ x = k ∨ x ∈ keys l ∨ x ∈ keys r := by
  simp only [keys, Finset.mem_insert, Finset.mem_union]

theorem keys_insertKey (x : α) (t : BinaryTree α) : keys (insertKey x t) = insert x (keys t) := by
  induction t with
  | nil => simp [insertKey, keys]
  | node k l r ihl ihr =>
    unfold insertKey
    split_ifs with hlt hgt
    · rw [keys, ihl, keys, Finset.insert_union, Finset.insert_comm]
    · rw [keys, ihr, keys, Finset.union_insert, Finset.insert_comm]
    · obtain rfl : x = k := le_antisymm (not_lt.mp hgt) (not_lt.mp hlt)
      rw [keys, Finset.insert_idem]

theorem Ordered.insertKey (h : Ordered t) (x : α) : Ordered (insertKey x t) := by
  induction t with
  | nil => simp [SearchTree.insertKey, Ordered, keys]
  | node k l r ihl ihr =>
    obtain ⟨hl, hr, hol, hor⟩ := h
    unfold SearchTree.insertKey
    split_ifs with hlt hgt
    · refine ⟨?_, hr, ihl hol, hor⟩
      rw [keys_insertKey]
      intro y hy
      obtain rfl | hy := Finset.mem_insert.mp hy
      · exact hlt
      · exact hl y hy
    · refine ⟨hl, ?_, hol, ihr hor⟩
      rw [keys_insertKey]
      intro y hy
      obtain rfl | hy := Finset.mem_insert.mp hy
      · exact hgt
      · exact hr y hy
    · exact ⟨hl, hr, hol, hor⟩

theorem Ordered.notMem_left (h : Ordered (.node k l r)) : k ∉ keys l :=
  fun hk => lt_irrefl k (h.1 k hk)

theorem Ordered.notMem_right (h : Ordered (.node k l r)) : k ∉ keys r :=
  fun hk => lt_irrefl k (h.2.1 k hk)

theorem Ordered.mem_of_lt (h : Ordered (.node k l r)) (hlt : x < k) :
    x ∈ keys (.node k l r) ↔ x ∈ keys l := by
  rw [mem_keys_node]
  constructor
  · rintro (rfl | hx | hx)
    · exact absurd hlt (lt_irrefl x)
    · exact hx
    · exact absurd hlt (lt_asymm (h.2.1 x hx))
  · exact fun hx => .inr (.inl hx)

theorem Ordered.mem_of_gt (h : Ordered (.node k l r)) (hgt : k < x) :
    x ∈ keys (.node k l r) ↔ x ∈ keys r := by
  rw [mem_keys_node]
  constructor
  · rintro (rfl | hx | hx)
    · exact absurd hgt (lt_irrefl x)
    · exact absurd hgt (lt_asymm (h.1 x hx))
    · exact hx
  · exact fun hx => .inr (.inr hx)

theorem Ordered.numNodes_eq (h : Ordered t) : t.numNodes = (keys t).card := by
  induction t with
  | nil => rfl
  | node k l r ihl ihr =>
    have hdisj : Disjoint (keys l) (keys r) := by
      rw [Finset.disjoint_left]
      intro x hxl hxr
      exact lt_asymm (h.1 x hxl) (h.2.1 x hxr)
    have hk : k ∉ keys l ∪ keys r := by
      rw [Finset.mem_union, not_or]
      exact ⟨h.notMem_left, h.notMem_right⟩
    rw [numNodes, ihl h.2.2.1, ihr h.2.2.2, keys, Finset.card_insert_of_notMem hk,
      Finset.card_union_of_disjoint hdisj]

end Foundations.SearchTree
