import AnalysisPrograms.GraphC.Edges

namespace AnalysisPrograms.GraphC

open Foundations Execution Links SearchTree

structure Kept (s : EdgeSession) (t : BinaryTree ℕ) : Prop where
  plain : Plain s.linked.graph.vertexes t
  sources : ∀ e ∈ s.edges, e.1.addr ∈ keys t
  count : graphEdegeCount s.linked = 0

section Steps

variable {s : EdgeSession} {t : BinaryTree ℕ} {fromV toV prevOfTo : Vertex}

theorem graphAddVertex_kept (hkept : Kept s t) (v : Vertex) :
    ∃ g t', graphAddVertex s.linked.graph v = some g ∧ Plain g.vertexes t' ∧
      keys t' = insert v.addr (keys t) ∧
      g.edgeCount = 0 := by
  by_cases hv : v.addr ∈ keys t
  · refine ⟨_, t, graphAddVertex_of_mem hkept.plain hv, hkept.plain, ?_, hkept.count⟩
    rw [Finset.insert_eq_of_mem hv]
  · obtain ⟨h', hadd, hplain⟩ := graphAddVertex_of_notMem hkept.plain hv
    exact ⟨_, _, hadd, hplain, keys_insertKey _ _, hkept.count⟩

theorem edgeStep_add (hkept : Kept s t) (fromV toV : Vertex) :
    ∃ g t', edgeStep s (.add fromV toV) =
        some ⟨⟨g, listAdd s.linked.links fromV.listNode toV.listNode⟩,
          insert (fromV, toV) s.edges⟩ ∧
      Kept ⟨⟨g, listAdd s.linked.links fromV.listNode toV.listNode⟩, insert (fromV, toV) s.edges⟩
      t' := by
  obtain ⟨g, t', hadd, hplain, hkeys, hcount⟩ := graphAddVertex_kept hkept fromV
  refine ⟨g, t', ?_, hplain, ?_, hcount⟩
  · simp only [edgeStep, graphAddEdege, hadd, Option.bind_eq_bind, Option.bind_some]
  · intro e he
    rw [hkeys]
    rcases Finset.mem_insert.mp he with rfl | he
    · exact Finset.mem_insert_self _ _
    · exact Finset.mem_insert_of_mem (hkept.sources e he)

theorem edgeStep_del (hkept : Kept s t) (hedge : (fromV, toV) ∈ s.edges)
    (hlink : s.linked.links prevOfTo.listNode = toV.listNode) :
    edgeStep s (.del fromV prevOfTo) =
        some ⟨⟨s.linked.graph, unlinked s.linked.links prevOfTo.listNode toV.listNode⟩,
          s.edges.filter fun e => ¬(e.1 = fromV ∧ e.2.listNode = toV.listNode)⟩ ∧
      Kept ⟨⟨s.linked.graph, unlinked s.linked.links prevOfTo.listNode toV.listNode⟩,
        s.edges.filter fun e => ¬(e.1 = fromV ∧ e.2.listNode = toV.listNode)⟩ t := by
  obtain ⟨c, hc, hcell⟩ := hkept.plain.search_present (hkept.sources _ hedge)
  have hfound : s.linked.graph.vertexes.cells c ≠ 0 := by
    rw [hcell]
    exact rbNode_ne_zero fromV
  have hsome := toV.listNode_ne_zero
  refine ⟨?_, hkept.plain, fun e he => hkept.sources e (Finset.mem_of_mem_filter e he), hkept.count⟩
  simp only [edgeStep, graphDelEdege, searchVertex, listRemove, hc, hfound, hlink, hsome, guard,
    ne_eq, not_false_eq_true, Option.bind_eq_bind, Option.bind_some, Option.pure_def, ↓reduceIte]
  rfl

theorem edgeStep_kept (hkept : Kept s t) {op : EdgeOp} (hvalid : validCall s op) :
    ∃ s' t', edgeStep s op = some s' ∧ Kept s' t' := by
  cases op with
  | add fromV toV =>
    obtain ⟨g, t', hstep, hkept'⟩ := edgeStep_add hkept fromV toV
    exact ⟨_, t', hstep, hkept'⟩
  | del fromV prevOfTo =>
    obtain ⟨-, toV, hedge, hlink⟩ := hvalid
    obtain ⟨hstep, hkept'⟩ := edgeStep_del hkept hedge hlink
    exact ⟨_, t, hstep, hkept'⟩

theorem edgeStep_right_iff (hkept : Kept s t) (hright : ListsRight s.linked.links s.edges)
    {op : EdgeOp} (hvalid : validCall s op) {s' : EdgeSession} (hstep : edgeStep s op = some s') :
    ListsRight s'.linked.links s'.edges ↔ keepsApart s op := by
  cases op with
  | add fromV toV =>
    obtain ⟨g, t', hadd, -⟩ := edgeStep_add hkept fromV toV
    obtain rfl := Option.some.inj (hadd.symm.trans hstep)
    constructor
    · intro hright'
      exact hright.of_add hvalid hright'
    · rintro ⟨hne, hnone, hsame⟩
      exact hright.add hne hnone hsame
  | del fromV prevOfTo =>
    obtain ⟨hprev, toV, hedge, hlink⟩ := hvalid
    obtain ⟨hdel, -⟩ := edgeStep_del hkept hedge hlink
    obtain rfl := Option.some.inj (hdel.symm.trans hstep)
    constructor
    · intro hright'
      obtain ⟨hfrom, hnone, hend⟩ := hright.of_del hedge hprev hlink hright'
      refine ⟨hfrom, hnone, ?_⟩
      intro w hw
      obtain rfl := Vertex.listNode_inj (hlink.symm.trans hw)
      exact hend
    · rintro ⟨rfl, hnone, hend⟩
      exact hright.del hlink hnone (hend toV hlink)

end Steps

theorem kept_start (h : Heap) : Kept (startEdges h) .nil where
  plain := (inStep_start h).plain
  sources e he := absurd he (Finset.notMem_empty e)
  count := rfl

theorem listsRight_start : ListsRight (fun _ => 0) ∅ := by
  intro v
  refine ⟨[], rfl, fun x => ⟨fun hx => absurd hx List.not_mem_nil, ?_⟩⟩
  rintro ⟨w, hw, -⟩
  exact absurd hw (Finset.notMem_empty _)

theorem edges_right_iff (h : Heap) {ops : List EdgeOp}
    (hvalid : Along edgeStep validCall (startEdges h) ops) :
    ((∀ done rest s, ops = done ++ rest → exec edgeStep (startEdges h) done = some s →
        ListsRight s.linked.links s.edges) ↔ Along edgeStep keepsApart (startEdges h) ops) ∧
      ∀ done rest, ops = done ++ rest → ∃ s, exec edgeStep (startEdges h) done = some s ∧
        (graphEdegeCount s.linked = s.edges.card ↔ s.edges = ∅) := by
  constructor
  · apply good_iff_along_of_valid (fun s => (∃ t, Kept s t) ∧ ListsRight s.linked.links s.edges)
      _ validCall keepsApart
    · exact fun s hs => hs.2
    · rintro s op s' ⟨⟨t, hkept⟩, hright⟩ hop hok hstep
      obtain ⟨s'', t', hstep', hkept'⟩ := edgeStep_kept hkept hop
      obtain rfl := Option.some.inj (hstep.symm.trans hstep')
      exact ⟨⟨t', hkept'⟩, (edgeStep_right_iff hkept hright hop hstep).mpr hok⟩
    · rintro s op ⟨⟨t, hkept⟩, hright⟩ hop hbad
      obtain ⟨s', t', hstep, -⟩ := edgeStep_kept hkept hop
      exact ⟨s', hstep, mt (edgeStep_right_iff hkept hright hop hstep).mp hbad⟩
    · exact ⟨⟨_, kept_start h⟩, listsRight_start⟩
    · exact hvalid
  · rintro done rest rfl
    obtain ⟨s, hexec, t, hkept⟩ := exec_total_along (fun s => ∃ t, Kept s t) validCall
      (fun s op ⟨t, hkept⟩ hop => by
        obtain ⟨s', t', hstep, hkept'⟩ := edgeStep_kept hkept hop
        exact ⟨s', hstep, t', hkept'⟩) ⟨_, kept_start h⟩ hvalid.of_append
    refine ⟨s, hexec, ?_⟩
    rw [hkept.count]
    constructor
    · intro hcard
      exact Finset.card_eq_zero.mp (Int.natCast_eq_zero.mp hcard.symm)
    · rintro hempty
      rw [hempty, Finset.card_empty]
      rfl

def third : Vertex := ⟨3000, by decide, by decide⟩

theorem edgeStep_add_eq {s s' : EdgeSession} {fromV toV : Vertex}
    (h : edgeStep s (.add fromV toV) = some s') :
    s'.linked.links = listAdd s.linked.links fromV.listNode toV.listNode ∧
      s'.edges = insert (fromV, toV) s.edges := by
  simp only [edgeStep, graphAddEdege, Option.bind_eq_bind, Option.bind_eq_some_iff] at h
  obtain ⟨g, ⟨graph, -, hg⟩, hs⟩ := h
  obtain rfl := Option.some.inj hg
  obtain rfl := Option.some.inj hs
  exact ⟨rfl, rfl⟩

theorem shared_successor_right :
    Along edgeStep validCall (startEdges clearHeap)
      [.add lower upper, .add third upper, .del lower lower] ∧
      ∀ done rest s, [.add lower upper, .add third upper, .del lower lower] = done ++ rest →
        exec edgeStep (startEdges clearHeap) done = some s → ListsRight s.linked.links s.edges := by
  have hboth : Along edgeStep (fun s op => validCall s op ∧ keepsApart s op) (startEdges clearHeap)
      [.add lower upper, .add third upper, .del lower lower] := by
    refine ⟨⟨Finset.notMem_empty
      _, by decide, fun v => Finset.notMem_empty _, fun w => by simp [startEdges]⟩, fun s₁ h₁ => ?_⟩
    obtain ⟨hlinks₁, hedges₁⟩ := edgeStep_add_eq h₁
    refine ⟨⟨?_, by decide, ?_, ?_⟩, fun s₂ h₂ => ?_⟩
    · rw [validCall, hedges₁]
      decide
    · intro v
      rw [hedges₁]
      simp [startEdges, third, upper, lower]
    · intro w
      rw [hedges₁]
      simp [startEdges, third, upper, lower]
    obtain ⟨hlinks₂, hedges₂⟩ := edgeStep_add_eq h₂
    rw [hlinks₁] at hlinks₂
    rw [hedges₁] at hedges₂
    have hlower : s₂.linked.links lower.listNode = upper.listNode := by
      rw [hlinks₂]
      decide
    refine ⟨⟨⟨.inl rfl, upper, ?_, hlower⟩, rfl, ?_, ?_⟩, fun _ _ => trivial⟩
    · rw [hedges₂]
      decide
    · intro v
      rw [hedges₂]
      simp [startEdges, third, upper, lower]
    · intro toV hto w
      obtain rfl := Vertex.listNode_inj (hlower.symm.trans hto)
      rw [hedges₂]
      simp [startEdges, third, upper, lower]
  have hvalid := hboth.mono fun s op h => h.1
  exact ⟨hvalid, (edges_right_iff clearHeap hvalid).1.mpr (hboth.mono fun s op h => h.2)⟩

theorem second_edge_joins_lists :
    ∃ s, exec edgeStep (startEdges clearHeap) [.add lower upper, .add lower third] = some s ∧
      ¬ListsRight s.linked.links s.edges ∧ graphEdegeCount s.linked ≠ s.edges.card := by
  obtain ⟨g₁, t₁, h₁, hkept₁⟩ := edgeStep_add (kept_start clearHeap) lower upper
  obtain ⟨g₂, t₂, h₂, hkept₂⟩ := edgeStep_add hkept₁ lower third
  refine ⟨_, exec_cons_iff.mpr ⟨_, h₁, exec_cons_iff.mpr ⟨_, h₂, rfl⟩⟩, ?_, ?_⟩
  · intro hright
    have hlink : listAdd (listAdd (fun _ => 0) lower.listNode upper.listNode)
      lower.listNode third.listNode
        third.listNode = upper.listNode := by decide
    have hnone : (third, upper) ∉ insert (lower, third)
        (insert (lower, upper) (∅ : Finset (Vertex × Vertex))) := by
      decide
    exact hnone (hright.first hlink)
  · have hcard :
      (insert (lower, third) (insert (lower, upper) (∅ : Finset (Vertex × Vertex)))).card =
      2 := by decide
    rw [hkept₂.count]
    intro hzero
    have hcontra := Int.natCast_eq_zero.mp hzero.symm
    exact absurd (hcontra.symm.trans hcard) (by decide)

end AnalysisPrograms.GraphC
