import AnalysisPrograms.GraphPy.Objects
import AnalysisPrograms.Foundations.Digraph
import AnalysisPrograms.Foundations.FiniteMap

namespace AnalysisPrograms.GraphPy

open Foundations FiniteMap

variable {K W : Type} [DecidableEq K]

structure Rep (s : State K W) (G : FiniteDigraph K) : Prop where
  vertexes : ∀ k, k ∈ s.2.vertexes ↔ k ∈ G.verts
  indegree : ∀ k, s.2.vertexesIndegree.lookup k =
    if k ∈ G.verts then some (G.indegree k : ℤ) else none
  edges : ∀ k r, s.2.vertexes.lookup k = some r → ∀ v, v ∈ s.1.objects r ↔ G.adj k v
  below : ∀ k r, s.2.vertexes.lookup k = some r → r < s.1.next
  inj : ∀ k k' r, s.2.vertexes.lookup k = some r → s.2.vertexes.lookup k' = some r → k = k'

theorem Vertex.mem_addEdge (edges : Dict K W) (dst v : K) (weight : W) :
    v ∈ Vertex.addEdge edges dst weight ↔ v = dst ∨ v ∈ edges := by
  unfold Vertex.addEdge Vertex.existEdge
  by_cases h : dst ∈ edges
  · simp only [h, decide_true, ↓reduceIte, iff_or_self]
    rintro rfl
    exact h
  · simp [h]

theorem Vertex.mem_delEdge (edges : Dict K W) (dst v : K) :
    v ∈ Vertex.delEdge edges dst ↔ v ≠ dst ∧ v ∈ edges := by
  unfold Vertex.delEdge Vertex.existEdge
  by_cases h : dst ∈ edges
  · simp [h]
  · simp only [h, decide_false, Bool.false_eq_true, ↓reduceIte, iff_and_self]
    rintro hv rfl
    exact h hv

theorem rep_init (w : World K W) : Rep (w, Graph.init) FiniteDigraph.empty where
  vertexes k := by
    simp only [Graph.init, FiniteDigraph.empty, Finset.notMem_empty, iff_false]
    exact Finmap.notMem_empty
  indegree k := by simp [Graph.init, FiniteDigraph.empty]
  edges k r h := by simp [Graph.init] at h
  below k r h := by simp [Graph.init] at h
  inj k k' r h := by simp [Graph.init] at h

theorem Rep.exists_ref {s : State K W} {G : FiniteDigraph K} (h : Rep s G) {k : K}
    (hk : k ∈ G.verts) : ∃ r, s.2.vertexes.lookup k = some r :=
  Finmap.mem_iff.mp ((h.vertexes k).mpr hk)

theorem Rep.mem_indegree {s : State K W} {G : FiniteDigraph K} (h : Rep s G) (k : K) :
    k ∈ s.2.vertexesIndegree ↔ k ∈ G.verts := by
  rw [Finmap.mem_iff, h.indegree k]
  by_cases hk : k ∈ G.verts <;> simp [hk]

theorem newVertex_rep {s : State K W} {G : FiniteDigraph K} (h : Rep s G) {name : K}
    (hn : name ∉ G.verts) : Rep (Graph.newVertex s name) (G.addVertex name) where
  vertexes k := by
    simp only [Graph.newVertex, Finmap.mem_insert, FiniteDigraph.addVertex, Finset.mem_insert,
      h.vertexes]
  indegree k := by
    rw [G.indegree_addVertex]
    simp only [Graph.newVertex, FiniteDigraph.addVertex, Finset.mem_insert]
    by_cases hk : k = name
    · subst hk
      simp [Finmap.lookup_insert, G.indegree_of_notMem hn]
    · rw [Finmap.lookup_insert_of_ne _ hk, h.indegree]
      simp [hk]
  edges k r hr v := by
    rcases lookup_insert_cases hr with ⟨rfl, rfl⟩ | ⟨hk, hr⟩
    · simp only [Graph.newVertex, World.set, Function.update_self, Finmap.notMem_empty, false_iff]
      exact fun hadj => hn (G.left_mem hadj)
    · have hlt := h.below k r hr
      simp only [Graph.newVertex, World.set]
      rw [Function.update_of_ne (by omega)]
      exact h.edges k r hr v
  below k r hr := by
    rcases lookup_insert_cases hr with ⟨rfl, rfl⟩ | ⟨hk, hr⟩
    · simp [Graph.newVertex]
    · exact Nat.lt_succ_of_lt (h.below k r hr)
  inj k k' r hr hr' := by
    rcases lookup_insert_cases hr with ⟨rfl, rfl⟩ | ⟨hk, hr⟩ <;>
      rcases lookup_insert_cases hr' with ⟨rfl, he⟩ | ⟨hk', hr'⟩
    · rfl
    · exact absurd (h.below k' _ hr') (lt_irrefl _)
    · exact absurd (h.below k r ‹_›) (he ▸ lt_irrefl _)
    · exact h.inj k k' r hr hr'

theorem addVertex_rep {s : State K W} {G : FiniteDigraph K} (h : Rep s G) (name : K) :
    Rep (Graph.addVertex s name) (G.addVertex name) := by
  unfold Graph.addVertex
  by_cases hn : name ∈ G.verts
  · rw [if_neg (not_not.mpr ((h.vertexes name).mpr hn)), FiniteDigraph.addVertex_of_mem G hn]
    exact h
  · rw [if_pos (fun hc => hn ((h.vertexes name).mp hc))]
    exact newVertex_rep h hn

theorem delEdgesTo_spec (vertexes : Dict K ℕ) (name : K) (ks : List K) (w : World K W)
    (hks : ∀ k ∈ ks, k ∈ vertexes) :
    ∃ w', Graph.delEdgesTo vertexes name ks w = some w' ∧ w'.next = w.next ∧
      ∀ r v, v ∈ w'.objects r ↔
        v ∈ w.objects r ∧ ¬(v = name ∧ ∃ k ∈ ks, vertexes.lookup k = some r) := by
  induction ks generalizing w with
  | nil => exact ⟨w, rfl, rfl, by simp⟩
  | cons k ks ih =>
    obtain ⟨ref, hr⟩ := Finmap.mem_iff.mp (hks k (by simp))
    obtain ⟨w', hw, hn, ho⟩ := ih (w.set ref (Vertex.delEdge (w.objects ref) name))
      (fun x hx => hks x (List.mem_cons_of_mem _ hx))
    refine ⟨w', by simp [Graph.delEdgesTo, hr, hw], hn, ?_⟩
    intro r v
    rw [ho]
    by_cases he : r = ref
    · subst he
      simp only [World.set, Function.update_self, Vertex.mem_delEdge, List.mem_cons]
      constructor
      · rintro ⟨⟨hv, hmem⟩, -⟩
        exact ⟨hmem, fun hc => hv hc.1⟩
      · rintro ⟨hmem, hc⟩
        exact ⟨⟨fun hv => hc ⟨hv, k, .inl rfl, hr⟩, hmem⟩,
          fun hc' => hc ⟨hc'.1, hc'.2.choose, .inr hc'.2.choose_spec.1, hc'.2.choose_spec.2⟩⟩
    · simp only [World.set, Function.update_of_ne he, List.mem_cons]
      apply and_congr_right'
      apply not_congr
      apply and_congr_right'
      constructor
      · rintro ⟨x, hx, hl⟩
        exact ⟨x, .inr hx, hl⟩
      · rintro ⟨x, rfl | hx, hl⟩
        · exact absurd (Option.some.inj (hl.symm.trans hr)) he
        · exact ⟨x, hx, hl⟩

theorem delEdgesTo_frame (vertexes : Dict K ℕ) (name : K) (ks : List K) {w w' : World K W}
    (h : Graph.delEdgesTo vertexes name ks w = some w') (r : ℕ)
    (hr : ∀ k, vertexes.lookup k ≠ some r) : w'.objects r = w.objects r := by
  induction ks generalizing w with
  | nil => rw [Option.some.inj h]
  | cons k ks ih =>
    simp only [Graph.delEdgesTo, Option.bind_eq_bind, Option.bind_eq_some_iff] at h
    obtain ⟨ref, hl, h⟩ := h
    rw [ih h]
    apply Function.update_of_ne
    rintro rfl
    exact hr k hl

theorem lowerIndegree_spec (ks : List K) (d : Dict K ℤ) (hnd : ks.Nodup) (hks : ∀ k ∈ ks, k ∈ d) :
    ∃ d', Graph.lowerIndegree ks d = some d' ∧
      ∀ v, d'.lookup v = (d.lookup v).map fun n => if v ∈ ks then n - 1 else n := by
  induction ks generalizing d with
  | nil => exact ⟨d, rfl, by simp⟩
  | cons k ks ih =>
    obtain ⟨n, hn⟩ := Finmap.mem_iff.mp (hks k (by simp))
    obtain ⟨hk, hnd⟩ := List.nodup_cons.mp hnd
    obtain ⟨d', hd, hl⟩ := ih (d.insert k (n - 1)) hnd
      (fun x hx => Finmap.mem_insert.mpr (.inr (hks x (List.mem_cons_of_mem _ hx))))
    refine ⟨d', by simp [Graph.lowerIndegree, hn, hd], ?_⟩
    intro v
    rw [hl]
    by_cases hv : v = k
    · subst hv
      simp [Finmap.lookup_insert, hn, hk]
    · simp [Finmap.lookup_insert_of_ne _ hv, hv]

end AnalysisPrograms.GraphPy
