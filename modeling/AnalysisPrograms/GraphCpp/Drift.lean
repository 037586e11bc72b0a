import AnalysisPrograms.GraphCpp.Graph

namespace AnalysisPrograms.GraphCpp

open Foundations FiniteMap

section Subscript

variable {V : Type} (m : StdMap V) (dflt : V) (key : String)

@[simp]
theorem subscript_fst : (subscript m dflt key).1 = valueAt m dflt key := by
  unfold subscript valueAt
  cases m.lookup key <;> rfl

@[simp]
theorem mem_subscript (x : String) : x ∈ (subscript m dflt key).2 ↔ x = key ∨ x ∈ m := by
  unfold subscript
  cases h : m.lookup key with
  | some v =>
    simp only [iff_or_self]
    rintro rfl
    exact Finmap.mem_of_lookup_eq_some h
  | none => simp

@[simp]
theorem valueAt_subscript (x : String) :
    valueAt (subscript m dflt key).2 dflt x = valueAt m dflt x := by
  unfold subscript
  cases h : m.lookup key with
  | some v => rfl
  | none =>
    rw [valueAt_insert]
    by_cases hx : x = key
    · subst hx
      simp [valueAt, h]
    · simp [hx]

theorem total_subscript (f : V → ℕ) (hf : f dflt = 0) :
    total (subscript m dflt key).2 dflt f = total m dflt f := by
  unfold subscript
  cases h : m.lookup key with
  | some v => rfl
  | none =>
    have ht := total_insert m dflt f hf key dflt
    have hv : valueAt m dflt key = dflt := by simp [valueAt, h]
    rw [hv, hf] at ht
    exact ht

end Subscript

theorem edgeCount_empty : Vertex.edgeCount ∅ = 0 := rfl

def drift (g : Graph) : ℤ := g.edgeCount - total g.vertexes ∅ Vertex.edgeCount

theorem drift_addVertex (g : Graph) (name : String) : drift (g.addVertex name) = drift g := by
  simp only [drift, Graph.addVertex, total_subscript _ _ _ _ edgeCount_empty]

theorem outMap_addVertex (g : Graph) (name u : String) :
    outMap (g.addVertex name) u = outMap g u := by
  simp [outMap, Graph.addVertex]

theorem edgeCount_addEdge (out : VertexOutMap) (name : String) (e : Edge) :
    Vertex.edgeCount (Vertex.addEdge out name e) =
      Vertex.edgeCount out + if name ∈ out then 0 else 1 := by
  rw [Vertex.edgeCount, Vertex.addEdge, keys_insert, Vertex.edgeCount]
  by_cases h : name ∈ out
  · rw [if_pos h, Finset.insert_eq_of_mem (Finmap.mem_keys.mpr h), Nat.add_zero]
  · rw [if_neg h, Finset.card_insert_of_notMem (mt Finmap.mem_keys.mp h)]

theorem edgeCount_erase {out : VertexOutMap} {name : String} (h : name ∈ out) :
    Vertex.edgeCount (out.erase name) + 1 = Vertex.edgeCount out := by
  rw [Vertex.edgeCount, Finmap.keys_erase, Vertex.edgeCount]
  exact Finset.card_erase_add_one (Finmap.mem_keys.mpr h)

theorem drift_addEdge (g : Graph) (frm dst : String) (weight : ℤ) :
    drift (g.addEdge frm dst weight) = drift g + if dst ∈ outMap g frm then 1 else 0 := by
  rw [← drift_addVertex g frm, ← drift_addVertex (g.addVertex frm) dst,
    ← outMap_addVertex g frm frm, ← outMap_addVertex (g.addVertex frm) dst frm]
  simp only [Graph.addEdge]
  generalize (g.addVertex frm).addVertex dst = h
  have ht := total_insert (subscript h.vertexes ∅ frm).2 ∅ Vertex.edgeCount edgeCount_empty frm
    (Vertex.addEdge (valueAt h.vertexes ∅ frm) dst ⟨weight⟩)
  rw [valueAt_subscript, total_subscript _ _ _ _ edgeCount_empty, edgeCount_addEdge] at ht
  simp only [drift, subscript_fst, outMap]
  by_cases hd : dst ∈ valueAt h.vertexes ∅ frm <;> simp only [hd, ↓reduceIte] at ht ⊢ <;> omega

theorem drift_delEdge (g : Graph) (frm dst : String) : drift (g.delEdge frm dst).2 = drift g := by
  unfold Graph.delEdge
  by_cases hf : frm ∈ g.vertexes
  · simp only [hf, not_true_eq_false, ↓reduceIte, subscript_fst, Vertex.delEdge]
    have hself := total_insert (subscript g.vertexes ∅ frm).2 ∅ Vertex.edgeCount edgeCount_empty frm
    simp only [valueAt_subscript, total_subscript _ _ _ _ edgeCount_empty] at hself
    by_cases hd : dst ∈ valueAt g.vertexes ∅ frm
    · have ht := hself ((valueAt g.vertexes ∅ frm).erase dst)
      have hc := edgeCount_erase hd
      simp only [hd, not_true_eq_false, ↓reduceIte, drift]
      simp only [show ¬(-1 : ℤ) = 0 by omega, ↓reduceIte]
      omega
    · have ht := hself (valueAt g.vertexes ∅ frm)
      simp only [hd, not_false_eq_true, ↓reduceIte, drift]
      omega
  · simp [hf]

theorem mem_delEdge (out : VertexOutMap) (name x : String) :
    x ∈ (Vertex.delEdge out name).2 ↔ x ∈ out ∧ x ≠ name := by
  unfold Vertex.delEdge
  by_cases hn : name ∈ out
  · simp [hn, and_comm]
  · simp only [hn, not_false_eq_true, ↓reduceIte, iff_self_and]
    rintro hx rfl
    exact hn hx

theorem delEdgesTo_spec (name : String) (ks : List String) (count : ℤ) (vs : StdMap VertexOutMap)
    (hks : ∀ k ∈ ks, k ∈ vs) :
    let r := Graph.delEdgesTo name ks (count, vs)
    r.1 - total r.2 ∅ Vertex.edgeCount = count - total vs ∅ Vertex.edgeCount ∧
      (∀ k, k ∈ r.2 ↔ k ∈ vs) ∧
      ∀ k x, x ∈ valueAt r.2 ∅ k ↔ x ∈ valueAt vs ∅ k ∧ ¬(x = name ∧ k ∈ ks) := by
  induction ks generalizing count vs with
  | nil => simp [Graph.delEdgesTo]
  | cons k ks ih =>
    let out := valueAt vs ∅ k
    let out' := (Vertex.delEdge out name).2
    let count' := if 0 = (Vertex.delEdge out name).1 then count - 1 else count
    have hout' : ∀ x, x ∈ out' ↔ x ∈ out ∧ x ≠ name := mem_delEdge out name
    have hcount : count' - total (vs.insert k out') ∅ Vertex.edgeCount =
        count - total vs ∅ Vertex.edgeCount := by
      have ht := total_insert vs ∅ Vertex.edgeCount edgeCount_empty k out'
      simp only [count', out', Vertex.delEdge] at ht ⊢
      by_cases hn : name ∈ out
      · have hc := edgeCount_erase hn
        simp only [hn, not_true_eq_false, ↓reduceIte] at ht ⊢
        change _ + Vertex.edgeCount out = _ at ht
        omega
      · simp only [hn, not_false_eq_true, ↓reduceIte, show ¬(0 : ℤ) = -1 by omega] at ht ⊢
        change _ + Vertex.edgeCount out = _ at ht
        omega
    obtain ⟨hdrift, hmem, hval⟩ := ih count' (vs.insert k out')
      (fun x hx => Finmap.mem_insert.mpr (.inr (hks x (List.mem_cons_of_mem _ hx))))
    refine ⟨hdrift.trans hcount, ?_, ?_⟩
    · intro x
      apply (hmem x).trans
      simp only [Finmap.mem_insert, or_iff_right_iff_imp]
      rintro rfl
      exact hks x (by simp)
    · intro y x
      apply (hval y x).trans
      rw [valueAt_insert]
      by_cases hy : y = k
      · subst hy
        simp only [↓reduceIte, hout', List.mem_cons, true_or, and_true]
        tauto
      · simp [hy]

theorem drift_delVertex (g : Graph) (name : String) : drift (g.delVertex name).2 = drift g := by
  unfold Graph.delVertex
  by_cases hn : name ∈ g.vertexes
  · obtain ⟨hdrift, -, -⟩ :=
      delEdgesTo_spec name (g.vertexes.keys.sort (· ≤ ·)) g.edgeCount g.vertexes
        (fun k hk => Finmap.mem_keys.mp ((Finset.mem_sort _).mp hk))
    simp only [hn, not_true_eq_false, ↓reduceIte, subscript_fst, drift]
    generalize Graph.delEdgesTo name (g.vertexes.keys.sort (· ≤ ·)) (g.edgeCount, g.vertexes) = r
      at hdrift
    have ht := total_erase (subscript r.2 ∅ name).2 ∅ Vertex.edgeCount edgeCount_empty name
    rw [valueAt_subscript, total_subscript _ _ _ _ edgeCount_empty] at ht
    omega
  · simp [hn]

theorem drift_step {g g' : Graph} {op : Op} (h : step g op = some g') :
    drift g ≤ drift g' ∧ (¬NotReadded g op → drift g < drift g') := by
  cases op with
  | addVertex name =>
    obtain rfl := Option.some.inj h
    simp [drift_addVertex, NotReadded]
  | delVertex name =>
    obtain rfl := Option.some.inj h
    simp [drift_delVertex, NotReadded]
  | addEdge frm dst weight =>
    obtain rfl := Option.some.inj h
    rw [drift_addEdge]
    by_cases hd : dst ∈ outMap g frm
    · simp [hd]
    · simp [hd, NotReadded]
  | delEdge frm dst =>
    obtain rfl := Option.some.inj h
    simp [drift_delEdge, NotReadded]

theorem drift_exec {g g' : Graph} {ops : List Op} (h : Execution.exec step g ops = some g') :
    drift g ≤ drift g' ∧ (¬Execution.Along step NotReadded g ops → drift g < drift g') := by
  induction ops generalizing g with
  | nil =>
    obtain rfl := Option.some.inj h
    exact ⟨le_refl _, fun hn => absurd trivial hn⟩
  | cons op ops ih =>
    obtain ⟨u, hu, hr⟩ := Execution.exec_cons_iff.mp h
    obtain ⟨hle, hlt⟩ := drift_step hu
    obtain ⟨hle', hlt'⟩ := ih hr
    refine ⟨hle.trans hle', fun hn => ?_⟩
    by_cases hop : NotReadded g op
    · apply hle.trans_lt
      apply hlt'
      intro hall
      refine hn ⟨hop, fun t ht => ?_⟩
      rwa [← Option.some.inj (hu.symm.trans ht)]
    · exact (hlt hop).trans_le hle'

end AnalysisPrograms.GraphCpp
