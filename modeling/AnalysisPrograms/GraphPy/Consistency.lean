import AnalysisPrograms.GraphPy.Operations

namespace AnalysisPrograms.GraphPy

open Foundations

variable {K W : Type} [DecidableEq K]

def edgesOf (s : State K W) (u : K) : Dict K W :=
  match s.2.vertexes.lookup u with
  | some ref => s.1.objects ref
  | none => ∅

structure Consistent (s : State K W) : Prop where
  keys : s.2.vertexes.keys = s.2.vertexesIndegree.keys
  targets : ∀ u v, v ∈ edgesOf s u → v ∈ s.2.vertexes
  indegrees : ∀ v ∈ s.2.vertexes, s.2.vertexesIndegree.lookup v =
    some ((s.2.vertexes.keys.filter fun u => v ∈ edgesOf s u).card : ℤ)

theorem Rep.mem_edgesOf {s : State K W} {G : FiniteDigraph K} (h : Rep s G) (u v : K) :
    v ∈ edgesOf s u ↔ G.adj u v := by
  unfold edgesOf
  cases hr : s.2.vertexes.lookup u with
  | some ref => exact h.edges u ref hr v
  | none =>
    have hu : u ∉ s.2.vertexes := Finmap.lookup_eq_none.mp hr
    constructor
    · intro hv
      exact absurd hv Finmap.notMem_empty
    · intro hadj
      exact absurd ((h.vertexes u).mpr (G.left_mem hadj)) hu

theorem Rep.consistent {s : State K W} {G : FiniteDigraph K} (h : Rep s G) : Consistent s where
  keys := by
    ext k
    rw [Finmap.mem_keys, Finmap.mem_keys, h.vertexes, h.mem_indegree]
  targets u v hv := (h.vertexes v).mpr (G.right_mem ((h.mem_edgesOf u v).mp hv))
  indegrees v hv := by
    rw [h.indegree, if_pos ((h.vertexes v).mp hv), FiniteDigraph.indegree]
    congr 3
    ext u
    simp only [Finset.mem_filter, Finmap.mem_keys, h.vertexes, h.mem_edgesOf]

theorem call_rep (o : IterOrder K) {s : State K W} {G : FiniteDigraph K} (h : Rep s G)
    (op : Op K W) :
    ∃ ret t, call o s op = some (ret, t) ∧ (∃ H, Rep t H) ∧ (ret = some (-1) → t = s) := by
  cases op with
  | addVertex name =>
    exact ⟨none, _, rfl, ⟨_, addVertex_rep h name⟩, by simp⟩
  | delVertex name =>
    by_cases hn : name ∈ G.verts
    · obtain ⟨t, ht, hrep, -, -⟩ := delVertex_rep o h hn
      exact ⟨some 0, t, by simp [call, ht], ⟨_, hrep⟩, by simp⟩
    · exact ⟨some (-1), s, by simp [call, delVertex_absent o h hn], ⟨G, h⟩, fun _ => rfl⟩
  | addEdge frm dst weight =>
    obtain ⟨t, ht, hrep⟩ := addEdge_rep h frm dst weight
    exact ⟨none, t, by simp [call, ht], ⟨_, hrep⟩, by simp⟩
  | delEdge frm dst =>
    by_cases hadj : G.adj frm dst
    · obtain ⟨t, ht, hrep⟩ := delEdge_rep h hadj
      exact ⟨some 0, t, by simp [call, ht], ⟨_, hrep⟩, by simp⟩
    · exact ⟨some (-1), s, by simp [call, delEdge_refused h hadj], ⟨G, h⟩, fun _ => rfl⟩

theorem reachable_rep (o : IterOrder K) (ops : List (Op K W)) :
    ∃ s, Execution.exec (step o) (World.init, Graph.init) ops = some s ∧ ∃ G, Rep s G := by
  apply Execution.exec_total (fun s => ∃ G, Rep s G)
  · rintro s op ⟨G, h⟩
    obtain ⟨ret, t, hc, hrep, -⟩ := call_rep o h op
    exact ⟨t, by simp [step, hc], hrep⟩
  · exact ⟨_, rep_init _⟩

theorem reachable_consistent (o : IterOrder K) (ops : List (Op K W)) :
    ∃ s, Execution.exec (step o) (World.init, Graph.init) ops = some s ∧ Consistent s ∧
      ∀ op, ∃ ret t, call o s op = some (ret, t) ∧ (ret = some (-1) → t = s) := by
  obtain ⟨s, hs, G, h⟩ := reachable_rep o ops
  refine ⟨s, hs, h.consistent, fun op => ?_⟩
  obtain ⟨ret, t, hc, -, hsame⟩ := call_rep o h op
  exact ⟨ret, t, hc, hsame⟩

end AnalysisPrograms.GraphPy
