import AnalysisPrograms.GraphPy.Representation

namespace AnalysisPrograms.GraphPy

open Foundations FiniteMap

variable {K W : Type} [DecidableEq K]

def Frame (s t : State K W) : Prop :=
  t.1.next = s.1.next ∧ ∀ r, (∀ k, s.2.vertexes.lookup k ≠ some r) → t.1.objects r = s.1.objects r

theorem delVertex_absent (o : IterOrder K) {s : State K W} {G : FiniteDigraph K} (h : Rep s G)
    {name : K} (hn : name ∉ G.verts) : Graph.delVertex o s name = some (-1, s) := by
  have hn' : name ∉ s.2.vertexes := fun hc => hn ((h.vertexes name).mp hc)
  simp [Graph.delVertex, hn']

theorem delVertex_rep (o : IterOrder K) {s : State K W} {G : FiniteDigraph K} (h : Rep s G)
    {name : K} (hn : name ∈ G.verts) :
    ∃ t, Graph.delVertex o s name = some (0, t) ∧ Rep t (G.delVertex name) ∧ Frame s t ∧
      t.2.vertexes = s.2.vertexes.erase name := by
  obtain ⟨w, g⟩ := s
  have hmem : name ∈ g.vertexes := (h.vertexes name).mpr hn
  obtain ⟨ref, href⟩ := Finmap.mem_iff.mp hmem
  let items := o.order w.tick g.vertexes.keys
  have hitems : ∀ k, k ∈ items ↔ k ∈ g.vertexes := fun k => (o.mem _ _ k).trans Finmap.mem_keys
  obtain ⟨w₂, hw, hnext, hobj⟩ :=
    delEdgesTo_spec g.vertexes name items { w with tick := w.tick + 1 }
      (fun k hk => (hitems k).mp hk)
  -- the self-loop of `name` went with the incoming edges, so its successors are other vertices
  have hedges : ∀ k r, g.vertexes.lookup k = some r →
      ∀ v, v ∈ w₂.objects r ↔ G.adj k v ∧ v ≠ name := by
    intro k r hr v
    rw [hobj, h.edges k r hr v]
    apply and_congr_right'
    apply not_congr
    simp only [and_iff_left_iff_imp]
    intro _
    exact ⟨k, (hitems k).mpr (Finmap.mem_of_lookup_eq_some hr), hr⟩
  let succs := o.order w₂.tick (w₂.objects ref).keys
  have hsuccs : ∀ k, k ∈ succs ↔ G.adj name k ∧ k ≠ name := by
    intro k
    exact ((o.mem _ _ k).trans Finmap.mem_keys).trans (hedges name ref href k)
  obtain ⟨d, hd, hlow⟩ := lowerIndegree_spec succs g.vertexesIndegree (o.nodup _ _)
    (fun k hk => (h.mem_indegree k).mpr (G.right_mem ((hsuccs k).mp hk).1))
  have hnd : name ∈ d := by
    rw [Finmap.mem_iff, hlow, h.indegree]
    simp [hn]
  refine ⟨({ w₂ with tick := w₂.tick + 1 }, ⟨g.vertexes.erase name, d.erase name⟩), ?_, ?_, ?_, rfl⟩
  · simp only [Graph.delVertex, hmem, not_true_eq_false, ↓reduceIte, World.snapshot]
    change (Graph.delEdgesTo g.vertexes name items { w with tick := w.tick + 1 }).bind _ = _
    rw [hw]
    change (g.vertexes.lookup name).bind _ = _
    rw [href]
    change (Graph.lowerIndegree succs g.vertexesIndegree).bind _ = _
    rw [hd]
    simp [hnd]
  · refine ⟨?_, ?_, ?_, ?_, ?_⟩
    · intro k
      simp [FiniteDigraph.delVertex, h.vertexes k]
    · intro k
      by_cases hk : k = name
      · subst hk
        simp [FiniteDigraph.delVertex]
      · rw [Finmap.lookup_erase_ne hk, hlow, h.indegree]
        by_cases hv : k ∈ G.verts
        · have hmem' : k ∈ (G.delVertex name).verts := Finset.mem_erase.mpr ⟨hk, hv⟩
          have hcount := FiniteDigraph.indegree_delVertex G hk
          rw [if_pos hv, if_pos hmem', hcount]
          by_cases hadj : G.adj name k
          · have hs : k ∈ succs := (hsuccs k).mpr ⟨hadj, hk⟩
            simp [hs, hadj]
          · have hs : k ∉ succs := fun hc => hadj ((hsuccs k).mp hc).1
            simp [hs, hadj]
        · have hmem' : k ∉ (G.delVertex name).verts := fun hc => hv (Finset.mem_erase.mp hc).2
          simp [hv, hmem']
    · intro k r hr v
      obtain ⟨hk, hr⟩ := lookup_erase_some hr
      rw [hedges k r hr v]
      simp [FiniteDigraph.delVertex, hk]
    · intro k r hr
      exact hnext ▸ h.below k r (lookup_erase_some hr).2
    · intro k k' r hr hr'
      exact h.inj k k' r (lookup_erase_some hr).2 (lookup_erase_some hr').2
  · exact ⟨hnext, fun r hr => delEdgesTo_frame g.vertexes name items hw r hr⟩

theorem Rep.update {w : World K W} {g : Graph K} {G H : FiniteDigraph K} (h : Rep (w, g) G)
    {frm dst : K} {ref : ℕ} (href : g.vertexes.lookup frm = some ref) {edges : Dict K W} {n : ℤ}
    (hverts : H.verts = G.verts) (hdst : dst ∈ G.verts)
    (hadj : ∀ u v, u ≠ frm → (H.adj u v ↔ G.adj u v)) (hedges : ∀ v, v ∈ edges ↔ H.adj frm v)
    (hother : ∀ v, v ≠ dst → H.indegree v = G.indegree v) (hn : n = H.indegree dst) :
    Rep (w.set ref edges, { g with vertexesIndegree := g.vertexesIndegree.insert dst n }) H where
  vertexes k := by rw [hverts]; exact h.vertexes k
  indegree k := by
    rw [hverts]
    by_cases hk : k = dst
    · subst hk
      rw [Finmap.lookup_insert, if_pos hdst, hn]
    · rw [Finmap.lookup_insert_of_ne _ hk, h.indegree, hother k hk]
  edges k r hr v := by
    by_cases hk : k = frm
    · subst hk
      obtain rfl : r = ref := Option.some.inj (hr.symm.trans href)
      simp only [World.set, Function.update_self]
      exact hedges v
    · have hne : r ≠ ref := by
        rintro rfl
        exact hk (h.inj k frm r hr href)
      simp only [World.set, Function.update_of_ne hne]
      rw [h.edges k r hr v, hadj k v hk]
  below := h.below
  inj := h.inj

theorem addEdge_rep {s : State K W} {G : FiniteDigraph K} (h : Rep s G) (frm dst : K) (weight : W) :
    ∃ t, Graph.addEdge s frm dst weight = some t ∧ Rep t (G.addEdge frm dst) := by
  have h₂ := addVertex_rep (addVertex_rep h frm) dst
  have hunfold : Graph.addEdge s frm dst weight = (do
      let t := Graph.addVertex (Graph.addVertex s frm) dst
      let ref ← t.2.vertexes.lookup frm
      if ¬Vertex.existEdge (t.1.objects ref) dst then
        let n ← t.2.vertexesIndegree.lookup dst
        return (t.1.set ref (Vertex.addEdge (t.1.objects ref) dst weight),
          { t.2 with vertexesIndegree := t.2.vertexesIndegree.insert dst (n + 1) })
      else return t) := rfl
  rw [hunfold]
  generalize Graph.addVertex (Graph.addVertex s frm) dst = t at h₂
  obtain ⟨w, g⟩ := t
  rw [← FiniteDigraph.addEdge_addVertex]
  have hfrm : frm ∈ ((G.addVertex frm).addVertex dst).verts := by simp [FiniteDigraph.addVertex]
  have hdst : dst ∈ ((G.addVertex frm).addVertex dst).verts := by simp [FiniteDigraph.addVertex]
  generalize (G.addVertex frm).addVertex dst = G₂ at h₂ hfrm hdst
  obtain ⟨ref, href⟩ := h₂.exists_ref hfrm
  change g.vertexes.lookup frm = some ref at href
  have hin := h₂.indegree dst
  rw [if_pos hdst] at hin
  change g.vertexesIndegree.lookup dst = _ at hin
  have hedge : Vertex.existEdge (w.objects ref) dst = true ↔ G₂.adj frm dst := by
    rw [Vertex.existEdge, decide_eq_true_eq]
    exact h₂.edges frm ref href dst
  by_cases hadj : G₂.adj frm dst
  · refine ⟨(w, g), by simp [href, hedge.mpr hadj], ?_⟩
    rw [FiniteDigraph.addEdge_of_adj G₂ hadj]
    exact h₂
  · refine ⟨_, by simp [href, mt hedge.mp hadj, hin]; rfl, ?_⟩
    apply h₂.update href
    · simp [FiniteDigraph.addEdge, Finset.insert_eq_of_mem, hfrm, hdst]
    · exact hdst
    · intro u v hu
      simp [FiniteDigraph.addEdge, hu]
    · intro v
      rw [Vertex.mem_addEdge, h₂.edges frm ref href v]
      simp [FiniteDigraph.addEdge, or_comm]
    · intro v hv
      exact G₂.indegree_addEdge_of_ne hv
    · simp [G₂.indegree_addEdge_self hadj]

theorem delEdge_refused {s : State K W} {G : FiniteDigraph K} (h : Rep s G) {frm dst : K}
    (hadj : ¬G.adj frm dst) : Graph.delEdge s frm dst = some (-1, s) := by
  obtain ⟨w, g⟩ := s
  by_cases hfrm : frm ∈ g.vertexes
  · by_cases hdst : dst ∈ g.vertexes
    · obtain ⟨ref, href⟩ := Finmap.mem_iff.mp hfrm
      have hno : dst ∉ w.objects ref := fun hc => hadj ((h.edges frm ref href dst).mp hc)
      simp [Graph.delEdge, hfrm, hdst, href, Vertex.existEdge, hno]
    · simp [Graph.delEdge, hfrm, hdst]
  · simp [Graph.delEdge, hfrm]

theorem delEdge_rep {s : State K W} {G : FiniteDigraph K} (h : Rep s G) {frm dst : K}
    (hadj : G.adj frm dst) :
    ∃ t, Graph.delEdge s frm dst = some (0, t) ∧ Rep t (G.delEdge frm dst) := by
  obtain ⟨w, g⟩ := s
  have hfrm : frm ∈ g.vertexes := (h.vertexes frm).mpr (G.left_mem hadj)
  have hdst : dst ∈ g.vertexes := (h.vertexes dst).mpr (G.right_mem hadj)
  obtain ⟨ref, href⟩ := Finmap.mem_iff.mp hfrm
  have hyes : dst ∈ w.objects ref := (h.edges frm ref href dst).mpr hadj
  have hin := h.indegree dst
  rw [if_pos (G.right_mem hadj)] at hin
  change g.vertexesIndegree.lookup dst = _ at hin
  refine ⟨_, by simp [Graph.delEdge, hfrm, hdst, href, Vertex.existEdge, hyes, hin]; rfl, ?_⟩
  apply h.update href
  · rfl
  · exact G.right_mem hadj
  · intro u v hu
    simp [FiniteDigraph.delEdge, hu]
  · intro v
    rw [Vertex.mem_delEdge, h.edges frm ref href v]
    simp [FiniteDigraph.delEdge, and_comm]
  · intro v hv
    exact G.indegree_delEdge_of_ne hv
  · simp [G.indegree_delEdge_self hadj]

end AnalysisPrograms.GraphPy
