import AnalysisPrograms.GraphCpp.Drift
import AnalysisPrograms.Foundations.Digraph

namespace AnalysisPrograms.GraphCpp

open Foundations FiniteMap

structure Rep (g : Graph) (G : FiniteDigraph String) : Prop where
  vertexes : ∀ k, k ∈ g.vertexes ↔ k ∈ G.verts
  indegreeKeys : ∀ k, k ∈ g.indegreeOfVertexes ↔ k ∈ G.verts
  indegree : ∀ k, k ∈ G.verts → valueAt g.indegreeOfVertexes 0 k = G.indegree k
  edges : ∀ k v, v ∈ outMap g k ↔ G.adj k v

theorem notMem_emptyMap {V : Type} (x : String) : x ∉ (∅ : StdMap V) := Finmap.notMem_empty

theorem mem_assign {V : Type} {m : StdMap V} {x : String} (hx : x ∈ m) (dflt v : V) (k : String) :
    k ∈ (subscript m dflt x).2.insert x v ↔ k ∈ m := by
  rw [Finmap.mem_insert, mem_subscript]
  constructor
  · rintro (rfl | rfl | hk)
    · exact hx
    · exact hx
    · exact hk
  · intro hk
    exact .inr (.inr hk)

theorem rep_init : Rep Graph.init FiniteDigraph.empty where
  vertexes k := by simp [Graph.init, FiniteDigraph.empty, notMem_emptyMap]
  indegreeKeys k := by simp [Graph.init, FiniteDigraph.empty, notMem_emptyMap]
  indegree k h := by simp [FiniteDigraph.empty] at h
  edges k v := by
    simp [outMap, Graph.init, FiniteDigraph.empty, valueAt_of_notMem, notMem_emptyMap]

theorem addVertex_rep {g : Graph} {G : FiniteDigraph String} (h : Rep g G) (name : String) :
    Rep (g.addVertex name) (G.addVertex name) where
  vertexes k := by simp [Graph.addVertex, FiniteDigraph.addVertex, h.vertexes]
  indegreeKeys k := by simp [Graph.addVertex, FiniteDigraph.addVertex, h.indegreeKeys]
  indegree k hk := by
    simp only [Graph.addVertex, valueAt_subscript, G.indegree_addVertex]
    by_cases hv : k ∈ G.verts
    · exact h.indegree k hv
    · rw [valueAt_of_notMem 0 (mt (h.indegreeKeys k).mp hv), G.indegree_of_notMem hv]
      rfl
  edges k v := by
    rw [outMap_addVertex]
    exact h.edges k v

theorem addEdge_rep {g : Graph} {G : FiniteDigraph String} (h : Rep g G) (frm dst : String)
    (weight : ℤ) (hnew : dst ∉ outMap g frm) :
    Rep (g.addEdge frm dst weight) (G.addEdge frm dst) := by
  have h₂ := addVertex_rep (addVertex_rep h frm) dst
  have hadj : ¬((G.addVertex frm).addVertex dst).adj frm dst :=
    fun hc => hnew ((h.edges frm dst).mpr hc)
  have hfrm : frm ∈ ((G.addVertex frm).addVertex dst).verts := by simp [FiniteDigraph.addVertex]
  have hdst : dst ∈ ((G.addVertex frm).addVertex dst).verts := by simp [FiniteDigraph.addVertex]
  rw [← FiniteDigraph.addEdge_addVertex]
  simp only [Graph.addEdge, subscript_fst]
  generalize (g.addVertex frm).addVertex dst = g₂ at h₂
  generalize (G.addVertex frm).addVertex dst = G₂ at h₂ hadj hfrm hdst
  have hverts : (G₂.addEdge frm dst).verts = G₂.verts := by
    simp only [FiniteDigraph.addEdge, Finset.insert_eq_of_mem hdst, Finset.insert_eq_of_mem hfrm]
  refine ⟨?_, ?_, ?_, ?_⟩
  · intro k
    rw [mem_assign ((h₂.vertexes frm).mpr hfrm), h₂.vertexes, hverts]
  · intro k
    rw [mem_assign ((h₂.indegreeKeys dst).mpr hdst), h₂.indegreeKeys, hverts]
  · intro k hk
    rw [hverts] at hk
    rw [valueAt_insert, valueAt_subscript]
    by_cases hkd : k = dst
    · subst hkd
      rw [if_pos rfl, h₂.indegree k hk, G₂.indegree_addEdge_self hadj]
      rfl
    · rw [if_neg hkd, h₂.indegree k hk, G₂.indegree_addEdge_of_ne hkd]
  · intro k v
    simp only [outMap, valueAt_insert, valueAt_subscript]
    by_cases hk : k = frm
    · subst hk
      have he := h₂.edges k v
      simp only [outMap] at he
      simp [Vertex.addEdge, FiniteDigraph.addEdge, he, or_comm]
    · have he := h₂.edges k v
      simp only [outMap] at he
      simp [hk, FiniteDigraph.addEdge, he]

theorem delEdge_rep {g : Graph} {G : FiniteDigraph String} (h : Rep g G) (frm dst : String) :
    ∃ H, Rep (g.delEdge frm dst).2 H := by
  unfold Graph.delEdge
  by_cases hf : frm ∈ g.vertexes
  · have he := h.edges frm dst
    simp only [outMap] at he
    have hkeys : ∀ (out : VertexOutMap) k,
        k ∈ (subscript g.vertexes ∅ frm).2.insert frm out ↔ k ∈ G.verts := by
      intro out k
      rw [mem_assign hf, h.vertexes]
    simp only [hf, not_true_eq_false, ↓reduceIte, subscript_fst, Vertex.delEdge]
    by_cases hd : dst ∈ valueAt g.vertexes ∅ frm
    · simp only [hd, not_true_eq_false, ↓reduceIte, show ¬(-1 : ℤ) = 0 by omega]
      refine ⟨G.delEdge frm dst, hkeys _, ?_, ?_, ?_⟩
      · intro k
        rw [mem_assign ((h.indegreeKeys dst).mpr (G.right_mem (he.mp hd))), h.indegreeKeys]
        rfl
      · intro k hk
        rw [valueAt_insert, valueAt_subscript]
        by_cases hkd : k = dst
        · subst hkd
          rw [if_pos rfl, h.indegree k hk, G.indegree_delEdge_self (he.mp hd)]
          simp
        · rw [if_neg hkd, h.indegree k hk, G.indegree_delEdge_of_ne hkd]
      · intro k v
        simp only [outMap, valueAt_insert, valueAt_subscript]
        have hk := h.edges k v
        simp only [outMap] at hk
        by_cases hkf : k = frm
        · subst hkf
          simp [FiniteDigraph.delEdge, hk, and_comm]
        · simp [hkf, FiniteDigraph.delEdge, hk]
    · simp only [hd, not_false_eq_true, ↓reduceIte]
      refine ⟨G, hkeys _, h.indegreeKeys, h.indegree, ?_⟩
      intro k v
      rw [← h.edges k v]
      simp only [outMap, valueAt_insert, valueAt_subscript]
      by_cases hkf : k = frm
      · simp [hkf]
      · simp [hkf]
  · exact ⟨G, by simpa [hf] using h⟩

theorem lowerIndegree_spec (ks : List String) (m : StdMap ℤ) (hnd : ks.Nodup) :
    (∀ k, k ∈ Graph.lowerIndegree ks m ↔ k ∈ ks ∨ k ∈ m) ∧
      ∀ k, valueAt (Graph.lowerIndegree ks m) 0 k = valueAt m 0 k - if k ∈ ks then 1 else 0 := by
  induction ks generalizing m with
  | nil => simp [Graph.lowerIndegree]
  | cons x ks ih =>
    obtain ⟨hx, hnd⟩ := List.nodup_cons.mp hnd
    obtain ⟨hmem, hval⟩ := ih ((subscript m 0 x).2.insert x ((subscript m 0 x).1 - 1)) hnd
    constructor
    · intro k
      apply (hmem k).trans
      simp only [Finmap.mem_insert, mem_subscript, List.mem_cons]
      tauto
    · intro k
      apply (hval k).trans
      rw [valueAt_insert, valueAt_subscript, subscript_fst]
      by_cases hk : k = x
      · subst hk
        simp [hx]
      · simp [hk]

theorem delVertex_rep {g : Graph} {G : FiniteDigraph String} (h : Rep g G) (name : String) :
    ∃ H, Rep (g.delVertex name).2 H := by
  unfold Graph.delVertex
  by_cases hn : name ∈ g.vertexes
  · obtain ⟨-, hmem, hval⟩ :=
      delEdgesTo_spec name (g.vertexes.keys.sort (· ≤ ·)) g.edgeCount g.vertexes
        (fun k hk => Finmap.mem_keys.mp ((Finset.mem_sort _).mp hk))
    simp only [hn, not_true_eq_false, ↓reduceIte, subscript_fst]
    generalize Graph.delEdgesTo name (g.vertexes.keys.sort (· ≤ ·)) (g.edgeCount, g.vertexes) = r
      at hmem hval
    have hout : ∀ k x, k ∈ G.verts → (x ∈ valueAt r.2 ∅ k ↔ G.adj k x ∧ x ≠ name) := by
      intro k x hk
      rw [hval k x]
      have he := h.edges k x
      simp only [outMap] at he
      have hsort : k ∈ g.vertexes.keys.sort (· ≤ ·) :=
        (Finset.mem_sort _).mpr (Finmap.mem_keys.mpr ((h.vertexes k).mpr hk))
      simp [he, hsort]
    have hname := (h.vertexes name).mp hn
    obtain ⟨hlmem, hlval⟩ := lowerIndegree_spec ((valueAt r.2 ∅ name).keys.sort (· ≤ ·))
      g.indegreeOfVertexes (Finset.sort_nodup _ _)
    have hsucc : ∀ k, k ∈ (valueAt r.2 ∅ name).keys.sort (· ≤ ·) ↔ G.adj name k ∧ k ≠ name := by
      intro k
      rw [Finset.mem_sort, Finmap.mem_keys, hout name k hname]
    refine ⟨G.delVertex name, ?_, ?_, ?_, ?_⟩
    · intro k
      simp only [Finmap.mem_erase, mem_subscript, hmem, h.vertexes, FiniteDigraph.delVertex,
        Finset.mem_erase]
      tauto
    · intro k
      simp only [Finmap.mem_erase, hlmem, hsucc, h.indegreeKeys, FiniteDigraph.delVertex,
        Finset.mem_erase, and_congr_right_iff, or_iff_right_iff_imp]
      intro _ hk
      exact G.right_mem hk.1
    · intro k hk
      obtain ⟨hkn, hkv⟩ := Finset.mem_erase.mp hk
      rw [valueAt_erase, if_neg hkn, hlval, h.indegree k hkv, G.indegree_delVertex hkn]
      by_cases hadj : G.adj name k
      · rw [if_pos hadj, if_pos ((hsucc k).mpr ⟨hadj, hkn⟩)]
        omega
      · rw [if_neg hadj, if_neg fun hc => hadj ((hsucc k).mp hc).1]
        omega
    · intro k v
      simp only [outMap, valueAt_erase, valueAt_subscript]
      by_cases hk : k = name
      · simp [hk, FiniteDigraph.delVertex, notMem_emptyMap]
      · rw [if_neg hk]
        by_cases hkv : k ∈ G.verts
        · simp [hout k v hkv, FiniteDigraph.delVertex, hk]
        · rw [valueAt_of_notMem _ (mt ((hmem k).trans (h.vertexes k)).mp hkv)]
          simp only [notMem_emptyMap, FiniteDigraph.delVertex, false_iff]
          exact fun hc => hkv (G.left_mem hc.1)
  · exact ⟨G, by simpa [hn] using h⟩

theorem step_rep {g g' : Graph} {G : FiniteDigraph String} (h : Rep g G) {op : Op}
    (hop : NotReadded g op) (hs : step g op = some g') : ∃ H, Rep g' H := by
  cases op with
  | addVertex name =>
    obtain rfl := Option.some.inj hs
    exact ⟨_, addVertex_rep h name⟩
  | delVertex name =>
    obtain rfl := Option.some.inj hs
    exact delVertex_rep h name
  | addEdge frm dst weight =>
    obtain rfl := Option.some.inj hs
    exact ⟨_, addEdge_rep h frm dst weight hop⟩
  | delEdge frm dst =>
    obtain rfl := Option.some.inj hs
    exact delEdge_rep h frm dst

theorem Rep.countersMatch {g : Graph} {G : FiniteDigraph String} (h : Rep g G) (hd : drift g = 0) :
    CountersMatch g where
  edgeCount := by
    unfold drift at hd
    change _ = (total g.vertexes ∅ Vertex.edgeCount : ℤ)
    omega
  indegrees v hv := by
    have hvG := (h.vertexes v).mp hv
    obtain ⟨n, hn⟩ := Finmap.mem_iff.mp ((h.indegreeKeys v).mpr hvG)
    rw [hn, ← valueAt_of_lookup 0 hn, h.indegree v hvG, FiniteDigraph.indegree]
    congr 3
    ext u
    simp only [Finset.mem_filter, Finmap.mem_keys, h.vertexes, h.edges]
  keys := by
    ext k
    rw [Finmap.mem_keys, Finmap.mem_keys, h.vertexes, h.indegreeKeys]
  targets u v hv := (h.vertexes v).mpr (G.right_mem ((h.edges u v).mp hv))

theorem drift_init : drift Graph.init = 0 := rfl

theorem CountersMatch.drift {g : Graph} (h : CountersMatch g) : drift g = 0 := by
  have he : g.edgeCount = (total g.vertexes ∅ Vertex.edgeCount : ℤ) := h.edgeCount
  unfold GraphCpp.drift
  omega

theorem exec_exists (ops : List Op) : ∃ g, Execution.exec step Graph.init ops = some g := by
  have hstep : ∀ (g : Graph) (op : Op), True → ∃ t, step g op = some t ∧ True := by
    intro g op _
    cases op <;> exact ⟨_, rfl, trivial⟩
  obtain ⟨g, hg, -⟩ := Execution.exec_total (fun _ => True) hstep trivial ops
  exact ⟨g, hg⟩

theorem countersMatch_iff (ops : List Op) :
    ∃ g, Execution.exec step Graph.init ops = some g ∧
      (CountersMatch g ↔ Execution.Along step NotReadded Graph.init ops) := by
  obtain ⟨g, hg⟩ := exec_exists ops
  refine ⟨g, hg, ?_, ?_⟩
  · intro hm
    by_contra hn
    have hlt := (drift_exec hg).2 hn
    rw [drift_init, hm.drift] at hlt
    exact lt_irrefl _ hlt
  · intro hall
    have hinv : (∃ G, Rep g G) ∧ drift g = 0 := by
      apply Execution.inv_exec (fun g => (∃ G, Rep g G) ∧ drift g = 0) NotReadded _ _ hall hg
      · rintro s op t ⟨⟨G, hrep⟩, hd⟩ hop hs
        refine ⟨step_rep hrep hop hs, ?_⟩
        cases op with
        | addVertex name => obtain rfl := Option.some.inj hs; rw [drift_addVertex, hd]
        | delVertex name => obtain rfl := Option.some.inj hs; rw [drift_delVertex, hd]
        | addEdge frm dst weight =>
          obtain rfl := Option.some.inj hs
          rw [drift_addEdge, hd, if_neg hop, add_zero]
        | delEdge frm dst => obtain rfl := Option.some.inj hs; rw [drift_delEdge, hd]
      · exact ⟨⟨_, rep_init⟩, drift_init⟩
    obtain ⟨⟨G, hrep⟩, hd⟩ := hinv
    exact hrep.countersMatch hd

theorem readded_edge_counted_twice :
    ∃ g, Execution.exec step Graph.init [.addEdge "home" "school" 12, .addEdge "home" "school" 12] =
      some g ∧ ¬CountersMatch g := by
  obtain ⟨g, hg⟩ := exec_exists [.addEdge "home" "school" 12, .addEdge "home" "school" 12]
  refine ⟨g, hg, fun hm => ?_⟩
  have hlt := (drift_exec hg).2 fun hall => by
    apply (hall.2 _ rfl).1
    simp [outMap, Graph.addEdge, Vertex.addEdge, valueAt_insert]
  rw [drift_init, hm.drift] at hlt
  exact lt_irrefl _ hlt

end AnalysisPrograms.GraphCpp
