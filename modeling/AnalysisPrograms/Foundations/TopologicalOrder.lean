import AnalysisPrograms.Foundations.Digraph
import Mathlib.Data.List.Nodup

namespace Foundations.FiniteDigraph

variable {K : Type} (G : FiniteDigraph K)

def IsTopologicalOrder (l : List K) : Prop :=
  l.Nodup ∧ (∀ v, v ∈ l ↔ v ∈ G.verts) ∧
    ∀ u v, G.adj u v → ∃ before after, l = before ++ v :: after ∧ u ∈ before

inductive Peeling : List K → Prop
  | nil : Peeling []
  | snoc {out : List K} {v : K} : Peeling out → v ∈ G.verts → v ∉ out →
      (∀ u, G.adj u v → u ∈ out) → Peeling (out ++ [v])

def removeAll [DecidableEq K] (out : List K) : FiniteDigraph K :=
  out.foldl (fun H v => H.delVertex v) G

variable {G}

theorem removeAll_snoc [DecidableEq K] (out : List K) (v : K) :
    G.removeAll (out ++ [v]) = (G.removeAll out).delVertex v := by
  simp [removeAll]

theorem removeAll_verts [DecidableEq K] (out : List K) (v : K) :
    v ∈ (G.removeAll out).verts ↔ v ∈ G.verts ∧ v ∉ out := by
  induction out using List.reverseRecOn with
  | nil => simp [removeAll]
  | append_singleton out x ih =>
    rw [removeAll_snoc, delVertex, Finset.mem_erase, ih]
    simp only [List.mem_append, List.mem_singleton]
    tauto

theorem removeAll_adj [DecidableEq K] (out : List K) (u v : K) :
    (G.removeAll out).adj u v ↔ G.adj u v ∧ u ∉ out ∧ v ∉ out := by
  induction out using List.reverseRecOn with
  | nil => simp [removeAll]
  | append_singleton out x ih =>
    simp only [removeAll_snoc, delVertex, ih, List.mem_append, List.mem_singleton]
    tauto

namespace Peeling

theorem nodup {out : List K} (h : G.Peeling out) : out.Nodup := by
  induction h with
  | nil => exact List.nodup_nil
  | @snoc out v _ _ hv _ ih =>
    rw [List.nodup_append]
    refine ⟨ih, List.nodup_singleton v, ?_⟩
    intro a ha b hb hab
    rw [List.mem_singleton] at hb
    subst hab hb
    exact hv ha

theorem mem_verts {out : List K} (h : G.Peeling out) {v : K} (hv : v ∈ out) : v ∈ G.verts := by
  induction h with
  | nil => simp at hv
  | @snoc out x _ hx _ _ ih =>
    rcases List.mem_append.mp hv with hv | hv
    · exact ih hv
    · rw [List.mem_singleton] at hv
      subst hv
      exact hx

theorem before {out : List K} (h : G.Peeling out) {u v : K} (hv : v ∈ out) (hadj : G.adj u v) :
    ∃ before after, out = before ++ v :: after ∧ u ∈ before := by
  induction h with
  | nil => simp at hv
  | @snoc out x _ _ _ hpred ih =>
    rcases List.mem_append.mp hv with hv | hv
    · obtain ⟨before, after, rfl, hu⟩ := ih hv
      exact ⟨before, after ++ [x], by simp, hu⟩
    · rw [List.mem_singleton] at hv
      subst hv
      exact ⟨out, [], rfl, hpred u hadj⟩

theorem pred_mem {out : List K} (h : G.Peeling out) {u v : K} (hv : v ∈ out)
    (hadj : G.adj u v) : u ∈ out := by
  obtain ⟨before, after, rfl, hu⟩ := h.before hv hadj
  exact List.mem_append_left _ hu

theorem ancestor_mem {out : List K} (h : G.Peeling out) {u v : K} (hv : v ∈ out)
    (hr : Relation.TransGen G.adj u v) : u ∈ out := by
  induction hr with
  | single hadj => exact h.pred_mem hv hadj
  | tail _ hadj ih => exact ih (h.pred_mem hv hadj)

theorem not_cyclic {out : List K} (h : G.Peeling out) {v : K} (hv : v ∈ out) :
    ¬Relation.TransGen G.adj v v := by
  induction h with
  | nil => simp at hv
  | @snoc out x hout _ hx hpred ih =>
    rcases List.mem_append.mp hv with hv | hv
    · exact ih hv
    · rw [List.mem_singleton] at hv
      subst hv
      intro hr
      obtain ⟨w, hr, hadj⟩ := Relation.TransGen.tail'_iff.mp hr
      rcases hr.cases_head with rfl | ⟨c, hc, hcw⟩
      · exact hx (hpred v hadj)
      · exact hx (hout.ancestor_mem (hpred w hadj) (Relation.TransGen.head' hc hcw))

theorem topological {out : List K} (h : G.Peeling out) (hall : ∀ v ∈ G.verts, v ∈ out) :
    G.IsTopologicalOrder out ∧ G.Acyclic := by
  refine ⟨⟨h.nodup, fun v => ⟨h.mem_verts, hall v⟩, ?_⟩, ?_⟩
  · intro u v hadj
    exact h.before (hall v (G.right_mem hadj)) hadj
  · intro v hr
    obtain ⟨w, -, hadj⟩ := Relation.TransGen.tail'_iff.mp hr
    exact h.not_cyclic (hall v (G.right_mem hadj)) hr

theorem stuck [DecidableEq K] {out : List K} (hne : (G.removeAll out).verts.Nonempty)
    (hpos : ∀ v ∈ (G.removeAll out).verts, (G.removeAll out).indegree v ≠ 0) : ¬G.Acyclic := by
  intro hac
  obtain ⟨v, hv, hsrc⟩ := hac.exists_source hne
  apply hpos v hv
  rw [indegree_eq_zero_iff]
  intro u hu
  exact hsrc u ((G.removeAll out).left_mem hu) ((removeAll_adj out u v).mp hu).1

end Peeling

end Foundations.FiniteDigraph
