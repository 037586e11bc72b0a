import Mathlib.Data.Finset.Card
import Mathlib.Data.Finite.Defs
import Mathlib.Data.Fintype.EquivFin
import Mathlib.Logic.Relation
import Mathlib.Order.WellFounded
import Mathlib.Tactic.Common

namespace Foundations

@[ext]
structure FiniteDigraph (K : Type) where
  verts : Finset K
  adj : K → K → Prop
  left_mem : ∀ {u v}, adj u v → u ∈ verts
  right_mem : ∀ {u v}, adj u v → v ∈ verts

namespace FiniteDigraph

variable {K : Type} (G : FiniteDigraph K)

open Classical in
noncomputable def indegree (v : K) : ℕ := (G.verts.filter fun u => G.adj u v).card

def Acyclic : Prop := ∀ v, ¬Relation.TransGen G.adj v v

def empty : FiniteDigraph K := ⟨∅, fun _ _ => False, False.elim, False.elim⟩

variable [DecidableEq K]

def addVertex (x : K) : FiniteDigraph K where
  verts := insert x G.verts
  adj := G.adj
  left_mem h := Finset.mem_insert_of_mem (G.left_mem h)
  right_mem h := Finset.mem_insert_of_mem (G.right_mem h)

def addEdge (a b : K) : FiniteDigraph K where
  verts := insert a (insert b G.verts)
  adj u v := G.adj u v ∨ u = a ∧ v = b
  left_mem := by
    rintro u v (h | ⟨rfl, rfl⟩)
    · simp [G.left_mem h]
    · simp
  right_mem := by
    rintro u v (h | ⟨rfl, rfl⟩)
    · simp [G.right_mem h]
    · simp

def delEdge (a b : K) : FiniteDigraph K where
  verts := G.verts
  adj u v := G.adj u v ∧ ¬(u = a ∧ v = b)
  left_mem h := G.left_mem h.1
  right_mem h := G.right_mem h.1

def delVertex (x : K) : FiniteDigraph K where
  verts := G.verts.erase x
  adj u v := G.adj u v ∧ u ≠ x ∧ v ≠ x
  left_mem h := Finset.mem_erase.mpr ⟨h.2.1, G.left_mem h.1⟩
  right_mem h := Finset.mem_erase.mpr ⟨h.2.2, G.right_mem h.1⟩

theorem addVertex_of_mem {x : K} (h : x ∈ G.verts) : G.addVertex x = G :=
  FiniteDigraph.ext (Finset.insert_eq_of_mem h) rfl

theorem addEdge_of_adj {a b : K} (h : G.adj a b) : G.addEdge a b = G := by
  apply FiniteDigraph.ext
  · simp only [addEdge, Finset.insert_eq_of_mem (G.right_mem h),
      Finset.insert_eq_of_mem (G.left_mem h)]
  · funext u v
    simp only [addEdge, eq_iff_iff, or_iff_left_iff_imp]
    rintro ⟨rfl, rfl⟩
    exact h

omit [DecidableEq K] in
theorem indegree_eq_zero_iff (v : K) : G.indegree v = 0 ↔ ∀ u, ¬G.adj u v := by
  simp only [indegree, Finset.card_eq_zero, Finset.filter_eq_empty_iff]
  exact ⟨fun h u hu => h (G.left_mem hu) hu, fun h u _ => h u⟩

omit [DecidableEq K] in
theorem indegree_congr {G H : FiniteDigraph K} {v : K} (h : ∀ u, G.adj u v ↔ H.adj u v) :
    G.indegree v = H.indegree v := by
  classical
  unfold indegree
  congr 1
  ext u
  simp only [Finset.mem_filter]
  exact ⟨fun hu => ⟨H.left_mem ((h u).mp hu.2), (h u).mp hu.2⟩,
    fun hu => ⟨G.left_mem ((h u).mpr hu.2), (h u).mpr hu.2⟩⟩

omit [DecidableEq K] in
theorem indegree_succ {G H : FiniteDigraph K} {v a : K} (ha : G.adj a v)
    (h : ∀ u, H.adj u v ↔ G.adj u v ∧ u ≠ a) : G.indegree v = H.indegree v + 1 := by
  classical
  have he : (G.verts.filter fun u => G.adj u v) =
      insert a (H.verts.filter fun u => H.adj u v) := by
    ext u
    simp only [Finset.mem_filter, Finset.mem_insert]
    by_cases hu : u = a
    · subst u
      simp [ha, G.left_mem ha]
    · constructor
      · rintro ⟨-, hg⟩
        exact .inr ⟨H.left_mem ((h u).mpr ⟨hg, hu⟩), (h u).mpr ⟨hg, hu⟩⟩
      · rintro (rfl | ⟨-, hh⟩)
        · exact absurd rfl hu
        · exact ⟨G.left_mem ((h u).mp hh).1, ((h u).mp hh).1⟩
  have hn : a ∉ H.verts.filter fun u => H.adj u v := by
    simp only [Finset.mem_filter, h a]
    exact fun hc => hc.2.2 rfl
  rw [indegree, he, Finset.card_insert_of_notMem hn]
  rfl

theorem addEdge_addVertex (a b : K) :
    ((G.addVertex a).addVertex b).addEdge a b = G.addEdge a b := by
  apply FiniteDigraph.ext
  · ext k
    simp only [addEdge, addVertex, Finset.mem_insert]
    tauto
  · rfl

theorem indegree_addVertex (x v : K) : (G.addVertex x).indegree v = G.indegree v :=
  indegree_congr fun _ => Iff.rfl

theorem indegree_addEdge_self {a b : K} (h : ¬G.adj a b) :
    (G.addEdge a b).indegree b = G.indegree b + 1 := by
  apply indegree_succ (a := a)
  · simp [addEdge]
  · intro u
    simp only [addEdge, and_true]
    constructor
    · intro hu
      refine ⟨.inl hu, ?_⟩
      rintro rfl
      exact h hu
    · rintro ⟨hu | hu, hne⟩
      · exact hu
      · exact absurd hu hne

theorem indegree_addEdge_of_ne {a b v : K} (h : v ≠ b) :
    (G.addEdge a b).indegree v = G.indegree v := by
  apply indegree_congr
  intro u
  simp [addEdge, h]

omit [DecidableEq K] in
theorem indegree_delEdge_self {a b : K} (h : G.adj a b) :
    G.indegree b = (G.delEdge a b).indegree b + 1 := by
  apply indegree_succ h
  intro u
  simp [delEdge]

omit [DecidableEq K] in
theorem indegree_delEdge_of_ne {a b v : K} (h : v ≠ b) :
    (G.delEdge a b).indegree v = G.indegree v := by
  apply indegree_congr
  intro u
  simp [delEdge, h]

omit [DecidableEq K] in
theorem indegree_of_notMem {v : K} (h : v ∉ G.verts) : G.indegree v = 0 := by
  rw [indegree_eq_zero_iff]
  intro u hu
  exact h (G.right_mem hu)

theorem indegree_delVertex {name k : K} (hk : k ≠ name) :
    (G.indegree k : ℤ) =
      (G.delVertex name).indegree k + (open Classical in if G.adj name k then 1 else 0) := by
  by_cases hadj : G.adj name k
  · have hs : G.indegree k = (G.delVertex name).indegree k + 1 :=
      indegree_succ hadj fun u => by simp [delVertex, hk]
    simp [hadj, hs]
  · have hs : G.indegree k = (G.delVertex name).indegree k := by
      apply indegree_congr
      intro u
      simp only [delVertex, ne_eq, hk, not_false_eq_true, and_true, iff_self_and]
      rintro hu rfl
      exact hadj hu
    simp [hadj, hs]

omit [DecidableEq K] in
theorem Acyclic.exists_source {G : FiniteDigraph K} (h : G.Acyclic) {S : Finset K}
    (hS : S.Nonempty) : ∃ v ∈ S, ∀ u ∈ S, ¬G.adj u v := by
  have hwf : WellFounded fun a b : S => Relation.TransGen G.adj a.1 b.1 := by
    have : IsTrans S (fun a b => Relation.TransGen G.adj a.1 b.1) :=
      ⟨fun _ _ _ hab hbc => hab.trans hbc⟩
    have : Std.Irrefl (fun a b : S => Relation.TransGen G.adj a.1 b.1) := ⟨fun a => h a.1⟩
    exact Finite.wellFounded_of_trans_of_irrefl _
  obtain ⟨x, hx⟩ := hS
  obtain ⟨m, -, hm⟩ := hwf.has_min Set.univ ⟨⟨x, hx⟩, trivial⟩
  exact ⟨m.1, m.2, fun u hu hadj => hm ⟨u, hu⟩ trivial (.single hadj)⟩

end FiniteDigraph

end Foundations
