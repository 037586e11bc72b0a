import AnalysisPrograms.GraphPy.Consistency
import AnalysisPrograms.Foundations.TopologicalOrder

namespace AnalysisPrograms.GraphPy

open Foundations FiniteMap

variable {K W : Type} [DecidableEq K]

theorem copyVertexes_spec (vertexes : Dict K ℕ) (ks : List K) (w : World K W) (c : Dict K ℕ)
    (hnd : ks.Nodup) (hks : ∀ k ∈ ks, ∃ r, vertexes.lookup k = some r ∧ r < w.next) :
    ∃ w' c', Graph.copyVertexes vertexes ks (w, c) = some (w', c') ∧ w.next ≤ w'.next ∧
      (∀ r, r < w.next → w'.objects r = w.objects r) ∧
      (∀ k, k ∉ ks → c'.lookup k = c.lookup k) ∧
      (∀ k ∈ ks, ∃ r ref, c'.lookup k = some r ∧ w.next ≤ r ∧ r < w'.next ∧
        vertexes.lookup k = some ref ∧ w'.objects r = w.objects ref) ∧
      ∀ k ∈ ks, ∀ k' ∈ ks, c'.lookup k = c'.lookup k' → k = k' := by
  induction ks generalizing w c with
  | nil => exact ⟨w, c, rfl, le_refl _, by simp, by simp, by simp, by simp⟩
  | cons k ks ih =>
    obtain ⟨hk, hnd⟩ := List.nodup_cons.mp hnd
    obtain ⟨ref, href, hlt⟩ := hks k (by simp)
    let w₁ : World K W := { w.set w.next (w.objects ref) with next := w.next + 1 }
    have hold : ∀ r, r < w.next → w₁.objects r = w.objects r := by
      intro r hr
      exact Function.update_of_ne (by omega) _ _
    obtain ⟨w', c', hrun, hle, hkeep, hout, hin, hinj⟩ := ih w₁ (c.insert k w.next) hnd (by
      intro x hx
      obtain ⟨r, hr, hlt⟩ := hks x (List.mem_cons_of_mem _ hx)
      exact ⟨r, hr, Nat.lt_succ_of_lt hlt⟩)
    change w.next + 1 ≤ w'.next at hle
    have hself : c'.lookup k = some w.next := by rw [hout k hk, Finmap.lookup_insert]
    have hnew : w'.objects w.next = w.objects ref := by
      rw [hkeep w.next (Nat.lt_succ_self _)]
      exact Function.update_self _ _ _
    have habove : ∀ x ∈ ks, c'.lookup x ≠ some w.next := by
      intro x hx hc
      obtain ⟨r, -, hr, hge, -⟩ := hin x hx
      rw [hc] at hr
      change w.next + 1 ≤ r at hge
      have := Option.some.inj hr
      omega
    refine ⟨w', c', by simp [Graph.copyVertexes, href]; exact hrun, by omega, ?_, ?_, ?_, ?_⟩
    · intro r hr
      rw [hkeep r (Nat.lt_succ_of_lt hr), hold r hr]
    · intro x hx
      simp only [List.mem_cons, not_or] at hx
      rw [hout x hx.2, Finmap.lookup_insert_of_ne _ hx.1]
    · intro x hx
      rcases List.mem_cons.mp hx with rfl | hx
      · exact ⟨w.next, ref, hself, le_refl _, by omega, href, hnew⟩
      · obtain ⟨r, ref', hr, hge, hlt', hl, ho⟩ := hin x hx
        change w.next + 1 ≤ r at hge
        obtain ⟨r', hr', hb⟩ := hks x (List.mem_cons_of_mem _ hx)
        obtain rfl : r' = ref' := Option.some.inj (hr'.symm.trans hl)
        exact ⟨r, r', hr, by omega, hlt', hl, ho.trans (hold r' hb)⟩
    · intro x hx y hy he
      rcases List.mem_cons.mp hx with rfl | hx' <;> rcases List.mem_cons.mp hy with rfl | hy'
      · rfl
      · exact absurd (he.symm.trans hself) (habove y hy')
      · exact absurd (he.trans hself) (habove x hx')
      · exact hinj x hx' y hy' he

structure Kept (h₀ h : Heap K W) : Prop where
  objects : ∀ r, r < h₀.world.next → h.world.objects r = h₀.world.objects r
  vertexes : ∀ r, r < h₀.dicts → h.vertexes r = h₀.vertexes r
  indegrees : ∀ r, r < h₀.dicts → h.vertexesIndegree r = h₀.vertexesIndegree r

structure Copied (h₀ h : Heap K W) (g : GraphRef) : Prop where
  vertexes : h₀.dicts ≤ g.vertexes
  indegrees : h₀.dicts ≤ g.vertexesIndegree
  above : ∀ k r, (h.graph g).vertexes.lookup k = some r → h₀.world.next ≤ r
  kept : Kept h₀ h

variable {G : FiniteDigraph K} {h₀ h : Heap K W} {self g : GraphRef} {s : State K W} {rslt : List K}

omit [DecidableEq K] in
theorem Heap.state_write (h : Heap K W) (g : GraphRef) (s : State K W) :
    (h.write g s).state g = s := by
  simp [Heap.state, Heap.graph, Heap.write]

omit [DecidableEq K] in
theorem Heap.state_alloc (h : Heap K W) (tables : Graph K) :
    (h.alloc tables).2.state (h.alloc tables).1 = (h.world, tables) :=
  h.state_write ⟨h.dicts, h.dicts⟩ (h.world, tables)

omit [DecidableEq K] in
theorem Kept.graph (hk : Kept h₀ h) (hv : self.vertexes < h₀.dicts)
    (hi : self.vertexesIndegree < h₀.dicts) : h.graph self = h₀.graph self := by
  unfold Heap.graph
  rw [hk.vertexes _ hv, hk.indegrees _ hi]

theorem deepcopy_rep (o : IterOrder K) (hrep : Rep (h₀.state self) G) :
    ∃ g c, h₀.deepcopy o self = some (g, c) ∧ Rep (c.state g) G ∧ Copied h₀ c g := by
  let tables := h₀.graph self
  let items := o.order h₀.world.tick tables.vertexes.keys
  have hitems : ∀ k, k ∈ items ↔ k ∈ tables.vertexes :=
    fun k => (o.mem _ _ k).trans Finmap.mem_keys
  obtain ⟨w, c, hrun, -, hkeep, hout, hin, hinj⟩ :=
    copyVertexes_spec tables.vertexes items { h₀.world with tick := h₀.world.tick + 1 } ∅
      (o.nodup _ _) (by
        intro k hk
        obtain ⟨r, hr⟩ := Finmap.mem_iff.mp ((hitems k).mp hk)
        exact ⟨r, hr, hrep.below k r hr⟩)
  have hmem : ∀ k r, c.lookup k = some r → k ∈ items := by
    intro k r hr
    by_contra hk
    rw [hout k hk] at hr
    simp at hr
  let g : GraphRef := ⟨h₀.dicts, h₀.dicts⟩
  let copy := ({ h₀ with world := w }.alloc ⟨c, tables.vertexesIndegree⟩).2
  have hstate : copy.state g = (w, ⟨c, tables.vertexesIndegree⟩) :=
    Heap.state_alloc { h₀ with world := w } ⟨c, tables.vertexesIndegree⟩
  refine ⟨g, copy, ?_, ?_, le_rfl, le_rfl, ?_, ?_⟩
  · change (Graph.copyVertexes tables.vertexes items
      ({ h₀.world with tick := h₀.world.tick + 1 }, ∅)).bind _ = _
    rw [hrun]
    rfl
  · rw [hstate]
    refine ⟨?_, hrep.indegree, ?_, ?_, ?_⟩
    · intro k
      rw [← hrep.vertexes k, Finmap.mem_iff]
      constructor
      · rintro ⟨r, hr⟩
        exact (hitems k).mp (hmem k r hr)
      · intro hk
        obtain ⟨r, -, hr, -⟩ := hin k ((hitems k).mpr hk)
        exact ⟨r, hr⟩
    · intro k r hr v
      obtain ⟨r', ref, hr', -, -, hl, ho⟩ := hin k (hmem k r hr)
      obtain rfl : r' = r := Option.some.inj (hr'.symm.trans hr)
      change v ∈ w.objects r' ↔ _
      rw [ho]
      exact hrep.edges k ref hl v
    · intro k r hr
      obtain ⟨r', ref, hr', -, hlt, -, -⟩ := hin k (hmem k r hr)
      obtain rfl : r' = r := Option.some.inj (hr'.symm.trans hr)
      exact hlt
    · intro k k' r hr hr'
      exact hinj k (hmem k r hr) k' (hmem k' r hr') (hr.trans hr'.symm)
  · intro k r hr
    rw [show copy.graph g = _ from congrArg Prod.snd hstate] at hr
    obtain ⟨r', ref, hr', hge, -, -, -⟩ := hin k (hmem k r hr)
    obtain rfl : r' = r := Option.some.inj (hr'.symm.trans hr)
    exact hge
  · exact ⟨hkeep, fun r hr => Function.update_of_ne (Nat.ne_of_lt hr) _ _,
      fun r hr => Function.update_of_ne (Nat.ne_of_lt hr) _ _⟩

structure Sorting (G : FiniteDigraph K) (h₀ : Heap K W) (g : GraphRef) (p : Heap K W × List K) :
    Prop where
  rep : Rep (p.1.state g) (G.removeAll p.2)
  peeling : G.Peeling p.2
  copied : Copied h₀ p.1 g

theorem Copied.delVertex {k : K} (hc : Copied h₀ h g) (hframe : Frame (h.state g) s)
    (hverts : s.2.vertexes = (h.graph g).vertexes.erase k) : Copied h₀ (h.write g s) g := by
  refine ⟨hc.vertexes, hc.indegrees, ?_, ?_, ?_, ?_⟩
  · intro x r hr
    rw [show (h.write g s).graph g = s.2 from congrArg Prod.snd (h.state_write g s), hverts] at hr
    exact hc.above x r (lookup_erase_some hr).2
  · intro r hr
    refine (hframe.2 r fun x hx => ?_).trans (hc.kept.objects r hr)
    have := hc.above x r hx
    omega
  · intro r hr
    have := hc.vertexes
    exact (Function.update_of_ne (by omega) _ _).trans (hc.kept.vertexes r hr)
  · intro r hr
    have := hc.indegrees
    exact (Function.update_of_ne (by omega) _ _).trans (hc.kept.indegrees r hr)

theorem Sorting.delVertex (o : IterOrder K) (hs : Sorting G h₀ g (h, rslt)) {k : K}
    (hk : k ∈ (G.removeAll rslt).verts) (hz : (G.removeAll rslt).indegree k = 0) :
    ∃ s, Graph.delVertex o (h.state g) k = some (0, s) ∧
      Sorting G h₀ g (h.write g s, rslt ++ [k]) := by
  obtain ⟨s, hrun, hrep, hframe, hverts⟩ := delVertex_rep o hs.rep hk
  obtain ⟨hkG, hkout⟩ := (FiniteDigraph.removeAll_verts rslt k).mp hk
  refine ⟨s, hrun, ?_, ?_, hs.copied.delVertex hframe hverts⟩
  · rw [Heap.state_write, FiniteDigraph.removeAll_snoc]
    exact hrep
  · apply hs.peeling.snoc hkG hkout
    intro u hu
    by_contra hout
    rw [FiniteDigraph.indegree_eq_zero_iff] at hz
    exact hz u ((FiniteDigraph.removeAll_adj rslt u k).mpr ⟨hu, hout, hkout⟩)

theorem sortKeys_spec (o : IterOrder K) (ks : List K) (hs : Sorting G h₀ g (h, rslt))
    (hnd : ks.Nodup) (hks : ∀ k ∈ ks, k ∈ (G.removeAll rslt).verts) :
    ∃ h' out, Heap.sortKeys o g ks (h, rslt) = some (h', rslt ++ out) ∧
      Sorting G h₀ g (h', rslt ++ out) ∧
      (out = [] → ∀ k ∈ ks, (G.removeAll rslt).indegree k ≠ 0) := by
  induction ks generalizing h rslt with
  | nil => exact ⟨h, [], by simp [Heap.sortKeys], by simpa using hs, by simp⟩
  | cons k ks ih =>
    obtain ⟨hk, hnd⟩ := List.nodup_cons.mp hnd
    have hkv := hks k (by simp)
    have hl := hs.rep.indegree k
    rw [if_pos hkv] at hl
    change (h.graph g).vertexesIndegree.lookup k = _ at hl
    by_cases hz : (G.removeAll rslt).indegree k = 0
    · obtain ⟨s, hrun, hs'⟩ := hs.delVertex o hkv hz
      have hks' : ∀ x ∈ ks, x ∈ (G.removeAll (rslt ++ [k])).verts := by
        intro x hx
        rw [FiniteDigraph.removeAll_snoc, FiniteDigraph.delVertex, Finset.mem_erase]
        refine ⟨?_, hks x (List.mem_cons_of_mem _ hx)⟩
        rintro rfl
        exact hk hx
      obtain ⟨h', out, hrest, hs'', -⟩ := ih hs' hnd hks'
      refine ⟨h', k :: out, ?_, by simpa using hs'', by simp⟩
      rw [hz] at hl
      simp [Heap.sortKeys, hl, hrun, hrest]
    · obtain ⟨h', out, hrun, hs', hstuck⟩ :=
        ih hs hnd (fun x hx => hks x (List.mem_cons_of_mem _ hx))
      refine ⟨h', out, ?_, hs', ?_⟩
      · have hne : ¬(0 : ℤ) = ((G.removeAll rslt).indegree k : ℤ) := by omega
        simp [Heap.sortKeys, hl, hne, hrun]
      · intro hout x hx
        rcases List.mem_cons.mp hx with rfl | hx
        · exact hz
        · exact hstuck hout x hx

theorem Sorting.card (hs : Sorting G h₀ g (h, rslt)) :
    (h.graph g).vertexesIndegree.keys = (G.removeAll rslt).verts ∧
      (G.removeAll rslt).verts.card + rslt.length = G.verts.card := by
  constructor
  · ext k
    rw [Finmap.mem_keys]
    exact hs.rep.mem_indegree k
  · have hdiff : (G.removeAll rslt).verts = G.verts \ rslt.toFinset := by
      ext k
      rw [FiniteDigraph.removeAll_verts]
      simp
    have hsub : rslt.toFinset ⊆ G.verts := by
      intro k hk
      exact hs.peeling.mem_verts (List.mem_toFinset.mp hk)
    rw [hdiff, ← List.toFinset_card_of_nodup hs.peeling.nodup]
    exact Finset.card_sdiff_add_card_eq_card hsub

def Sorted (G : FiniteDigraph K) (h₀ : Heap K W) (r : Option (List K × Heap K W)) : Prop :=
  ∃ rslt h, r = some (rslt, h) ∧ Kept h₀ h ∧
    (G.Acyclic ∧ G.IsTopologicalOrder rslt ∨ ¬G.Acyclic ∧ rslt = [])

theorem sortRound_spec (o : IterOrder K) (p : Heap K W × List K) (hs : Sorting G h₀ g p) :
    (∃ q, Heap.sortRound o g p = .inl q ∧ Sorting G h₀ g q ∧
        (G.removeAll q.2).verts.card < (G.removeAll p.2).verts.card) ∨
      ∃ r, Heap.sortRound o g p = .inr r ∧ Sorted G h₀ r := by
  obtain ⟨h, rslt⟩ := p
  obtain ⟨hkeys, hcard⟩ := hs.card
  by_cases hempty : (G.removeAll rslt).verts = ∅
  · refine .inr ⟨some (rslt, h), by simp [Heap.sortRound, hkeys, hempty], rslt, h, rfl,
      hs.copied.kept, .inl ?_⟩
    have hall : ∀ v ∈ G.verts, v ∈ rslt := by
      intro v hv
      by_contra hout
      have hmem := (FiniteDigraph.removeAll_verts rslt v).mpr ⟨hv, hout⟩
      rw [hempty] at hmem
      simp at hmem
    exact (hs.peeling.topological hall).symm
  · have hsnap : Sorting G h₀ g
        ({ h with world := { h.world with tick := h.world.tick + 1 } }, rslt) :=
      ⟨⟨hs.rep.vertexes, hs.rep.indegree, hs.rep.edges, hs.rep.below, hs.rep.inj⟩, hs.peeling,
        hs.copied.vertexes, hs.copied.indegrees, hs.copied.above,
        hs.copied.kept.objects, hs.copied.kept.vertexes, hs.copied.kept.indegrees⟩
    obtain ⟨h', out, hrun, hs', hstuck⟩ :=
      sortKeys_spec o (o.order h.world.tick (h.graph g).vertexesIndegree.keys) hsnap (o.nodup _ _)
        (by intro k hk; rw [← hkeys]; exact (o.mem _ _ k).mp hk)
    obtain ⟨hkeys', hcard'⟩ := hs'.card
    rw [List.length_append] at hcard'
    have hround : Heap.sortRound o g (h, rslt) =
        if (G.removeAll rslt).verts.card = (G.removeAll (rslt ++ out)).verts.card then
          .inr (some ([], h')) else .inl (h', rslt ++ out) := by
      simp only [Heap.sortRound, World.snapshot, hkeys, hempty, ↓reduceIte, ← hkeys']
      rw [hkeys] at hrun
      rw [hrun]
    by_cases hout : out = []
    · subst hout
      refine .inr ⟨some ([], h'), ?_, [], h', rfl, hs'.copied.kept, .inr ⟨?_, rfl⟩⟩
      · rw [hround, if_pos (by simp)]
      · apply FiniteDigraph.Peeling.stuck (Finset.nonempty_of_ne_empty hempty)
        intro v hv
        exact hstuck rfl v ((o.mem _ _ v).mpr (hkeys ▸ hv))
    · have hpos : 0 < out.length := List.length_pos_iff.mpr hout
      refine .inl ⟨(h', rslt ++ out), ?_, hs', ?_⟩
      · rw [hround, if_neg (by omega)]
      · change (G.removeAll (rslt ++ out)).verts.card < (G.removeAll rslt).verts.card
        omega

theorem topsort_rep (o : IterOrder K) (hrep : Rep (h₀.state self) G) :
    ∃ fuel, Sorted G h₀ (h₀.topsort fuel o self) := by
  obtain ⟨g, c, hc, hrep, hcopied⟩ := deepcopy_rep o hrep
  have hstart : Sorting G h₀ g (c, []) := ⟨hrep, .nil, hcopied⟩
  obtain ⟨r, ⟨fuel, hr⟩, hpost⟩ := Iteration.returns_of_measure (Sorting G h₀ g) (Sorted G h₀)
    (fun p => (G.removeAll p.2).verts.card) (sortRound_spec o) (c, []) hstart
  refine ⟨fuel, ?_⟩
  have ht : h₀.topsort fuel o self = r := by
    simp [Heap.topsort, hc, hr]
  rw [ht]
  exact hpost

theorem edgesOf_congr {h' : Heap K W} (hgraph : h'.graph self = h.graph self) {u : K}
    (hobj : ∀ ref, (h.graph self).vertexes.lookup u = some ref →
      h'.world.objects ref = h.world.objects ref) :
    edgesOf (h'.state self) u = edgesOf (h.state self) u := by
  unfold edgesOf
  rw [show (h'.state self).2 = (h.state self).2 from hgraph]
  cases hr : (h.state self).2.vertexes.lookup u with
  | none => rfl
  | some ref => exact hobj ref hr

theorem Rep.adj_eq {s : State K W} (hrep : Rep s G) : (fun a b => b ∈ edgesOf s a) = G.adj := by
  funext a b
  exact propext (hrep.mem_edgesOf a b)

theorem reachable_graph (o : IterOrder K) (h₀ : Heap K W) (ops : List (Op K W)) :
    ∃ self h₁ h, h₀.alloc Graph.init = (self, h₁) ∧
      Execution.exec (Heap.step o self) h₁ ops = some h ∧
      (self.vertexes < h.dicts ∧ self.vertexesIndegree < h.dicts) ∧
      ∃ G, Rep (h.state self) G := by
  let self := (h₀.alloc Graph.init).1
  let Inv := fun h : Heap K W => h₀.dicts < h.dicts ∧ ∃ G, Rep (h.state self) G
  have hstep : ∀ h op, Inv h → ∃ t, Heap.step o self h op = some t ∧ Inv t := by
    rintro h op ⟨hlt, G, hrep⟩
    obtain ⟨ret, t, hc, hrep', -⟩ := call_rep o hrep op
    refine ⟨h.write self t, by simp [Heap.step, step, hc], hlt, ?_⟩
    rw [Heap.state_write]
    exact hrep'
  have hstart : Inv (h₀.alloc Graph.init).2 := by
    refine ⟨Nat.lt_succ_self _, FiniteDigraph.empty, ?_⟩
    rw [h₀.state_alloc Graph.init]
    exact rep_init _
  obtain ⟨h, hrun, hlt, hrep⟩ := Execution.exec_total Inv hstep hstart ops
  exact ⟨self, (h₀.alloc Graph.init).2, h, rfl, hrun, ⟨hlt, hlt⟩, hrep⟩

theorem topsort_correct (o : IterOrder K) (h₀ : Heap K W) (ops : List (Op K W)) :
    ∃ self h₁ h, h₀.alloc Graph.init = (self, h₁) ∧
      Execution.exec (Heap.step o self) h₁ ops = some h ∧
      ∃ fuel rslt h', h.topsort fuel o self = some (rslt, h') ∧
        h'.graph self = h.graph self ∧
        (∀ u, edgesOf (h'.state self) u = edgesOf (h.state self) u) ∧
        ((∀ v, ¬Relation.TransGen (fun a b => b ∈ edgesOf (h.state self) a) v v) →
          rslt.Nodup ∧ (∀ v, v ∈ rslt ↔ v ∈ (h.graph self).vertexes) ∧
          ∀ u v, v ∈ edgesOf (h.state self) u →
            ∃ before after, rslt = before ++ v :: after ∧ u ∈ before) ∧
        ((∃ v, Relation.TransGen (fun a b => b ∈ edgesOf (h.state self) a) v v) → rslt = []) := by
  obtain ⟨self, h₁, h, hnew, hrun, ⟨hv, hi⟩, G, hrep⟩ := reachable_graph o h₀ ops
  obtain ⟨fuel, rslt, h', hsort, hkept, hres⟩ := topsort_rep o hrep
  have hgraph := hkept.graph hv hi
  refine ⟨self, h₁, h, hnew, hrun, fuel, rslt, h', hsort, hgraph, ?_, ?_, ?_⟩
  · intro u
    exact edgesOf_congr hgraph fun ref hr => hkept.objects ref (hrep.below u ref hr)
  · rw [hrep.adj_eq]
    intro hac
    rcases hres with ⟨-, hnd, hmem, hbefore⟩ | ⟨hcyc, -⟩
    · refine ⟨hnd, fun v => (hmem v).trans (hrep.vertexes v).symm, ?_⟩
      intro u v huv
      exact hbefore u v ((hrep.mem_edgesOf u v).mp huv)
    · exact absurd hac hcyc
  · rw [hrep.adj_eq]
    rintro ⟨v, hv⟩
    rcases hres with ⟨hac, -⟩ | ⟨-, hnil⟩
    · exact absurd hv (hac v)
    · exact hnil

end AnalysisPrograms.GraphPy
