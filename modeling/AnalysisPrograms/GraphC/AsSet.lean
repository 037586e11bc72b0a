import AnalysisPrograms.GraphC.Members

namespace AnalysisPrograms.GraphC

open Foundations Execution SearchTree Heap

section Deletion

variable {h : Heap} {t l r : BinaryTree ℕ} {n x : ℕ} {side : Side}

theorem Shape.eq_nil {p : ℕ} (hs : Shape h p t) (hp : p = 0) : t = .nil := by
  cases t with
  | nil => rfl
  | node k l r => exact absurd hp hs.ne_zero

theorem Shape.only_child (hs : Shape h n (.node x l r)) (hord : Ordered (.node x l r))
    (hz : h.cells (.child side.other n) = 0) :
    ∃ sub, Shape h (h.cells (.child side n)) sub ∧ Ordered sub ∧
      keys sub = (keys (.node x l r)).erase x := by
  cases side with
  | left =>
    obtain rfl := hs.2.2.eq_nil hz
    refine ⟨l, hs.2.1, hord.2.2.1, ?_⟩
    rw [keys, keys, Finset.union_empty, Finset.erase_insert hord.notMem_left]
  | right =>
    obtain rfl := hs.2.1.eq_nil hz
    refine ⟨r, hs.2.2, hord.2.2.2, ?_⟩
    rw [keys, keys, Finset.empty_union, Finset.erase_insert hord.notMem_right]

theorem Shape.parentless {p : ℕ} (hs : Shape h p t)
    (hless : ∀ k ∈ keys t, GraphC.parentless h (k + offsetOfRbNode)) (hp : p ≠ 0) :
    GraphC.parentless h p := by
  obtain ⟨k, hk, rfl⟩ := hs.mem hp
  exact hless k hk

theorem Shape.store_root {p q : ℕ} (hs : Shape h p t) : Shape (h.store .root q) p t := by
  apply hs.congr
  intro k _ side
  simp only [store, Function.update_of_ne (root_ne_child _ _).symm]

theorem store_root_cells (h : Heap) (p : ℕ) : (h.store .root p).cells .root = p := by
  simp only [store, Function.update_self]

theorem Plain.erase_root (hp : Plain h t) (side : Side) (hx : x ∈ keys t)
    (hroot : h.cells .root = x + offsetOfRbNode)
    (hz : h.cells (.child side.other (x + offsetOfRbNode)) = 0) :
    ∃ h' t', h.rbErase (x + offsetOfRbNode) = some h' ∧ Plain h' t' ∧
      keys t' = (keys t).erase x := by
  cases t with
  | nil => simp [keys] at hx
  | node k l r =>
    have hs := hp.shape
    rw [hroot] at hs
    obtain rfl : x = k := by
      have he := hs.1
      omega
    obtain ⟨sub, hsub, hord, hkeys⟩ := hs.only_child hp.ordered hz
    have hmem : ∀ k ∈ keys sub, k ≠ x ∧ k ∈ keys (.node x l r) := by
      rw [hkeys]
      exact fun k hk => Finset.mem_erase.mp hk
    generalize hchild : h.cells (.child side (x + offsetOfRbNode)) = child at hsub
    have hless := hsub.parentless fun k hk => hp.parentless_of_mem (hmem k hk).2
    have hblack := hp.color x hx
    rw [if_pos hroot] at hblack
    rw [rbErase_outer (hp.parentless_of_mem hx) hs.ne_zero hz hchild hless, if_pos hblack]
    refine ⟨_, sub, rfl, ?_, hkeys⟩
    by_cases hzero : child = 0
    · obtain rfl := hsub.eq_nil hzero
      rw [if_pos hzero]
      exact ⟨trivial, (store_root_cells h child).trans hzero, by simp [keys], by simp [keys]⟩
    · have hcells := store_root_cells h child
      have hshape : Shape (h.store .root child) ((h.store .root child).cells .root) sub := by
        rw [hcells]
        exact hsub.store_root
      have hplain := plain_blacken hord hshape (fun k hk => hp.fits k (hmem k hk).2) ?_
      · rw [hcells] at hplain
        rwa [if_neg hzero]
      · intro k hk _
        have hred := hp.color k (hmem k hk).2
        rw [hroot, if_neg] at hred
        · exact hred
        · have hne := (hmem k hk).1
          omega

theorem Plain.erase_below (hp : Plain h t) (side : Side) (hx : x ∈ keys t)
    (hroot : h.cells .root ≠ x + offsetOfRbNode)
    (hz : h.cells (.child side.other (x + offsetOfRbNode)) = 0) :
    ∃ h' y, h.rbErase (x + offsetOfRbNode) = some h' ∧ y ∈ keys t ∧ y ≠ x ∧ ¬found h' y := by
  obtain ⟨l, r, hs, hord, hsubset, -, hlost⟩ := hp.shape.subtree hp.ordered hx
  obtain ⟨sub, hsub, hord', hkeys⟩ := hs.only_child hord hz
  have hmem : keys sub ⊆ keys (.node x l r) := by
    rw [hkeys]
    exact Finset.erase_subset _ _
  obtain ⟨y, hy, hrooty⟩ := hp.shape.mem (hp.shape.ne_zero_of_mem hx)
  have hyx : y ≠ x := fun he => hroot (he ▸ hrooty)
  generalize hchild : h.cells (.child side (x + offsetOfRbNode)) = child at hsub
  have hless := hsub.parentless fun k hk => hp.parentless_of_mem (hsubset (hmem hk))
  have hred := hp.color x hx
  rw [if_neg hroot] at hred
  refine ⟨h.store .root child, y, ?_, hy, hyx, ?_⟩
  · rw [rbErase_outer (hp.parentless_of_mem hx) hs.ne_zero hz hchild hless, hred,
      if_neg (by decide)]
  · have hshape : Shape (h.store .root child) ((h.store .root child).cells .root) sub := by
      rw [store_root_cells]
      exact hsub.store_root
    apply not_found hord' hshape fun k hk => hp.fits k (hsubset (hmem hk))
    exact fun hysub => hlost y hrooty hyx (hmem hysub)

theorem Plain.erase_inner (hp : Plain h t) (hx : x ∈ keys t)
    (hl : h.cells (.child .left (x + offsetOfRbNode)) ≠ 0)
    (hr : h.cells (.child .right (x + offsetOfRbNode)) ≠ 0) :
    h.rbErase (x + offsetOfRbNode) = none := by
  obtain ⟨l, r, hs, -, hsubset, -, -⟩ := hp.shape.subtree hp.ordered hx
  exact rbErase_inner hs (fun k hk => hp.parentless_of_mem (hsubset hk)) hl hr

end Deletion

structure InStep (s : Session) (t : BinaryTree ℕ) : Prop where
  plain : Plain s.graph.vertexes t
  members : keys t = s.present
  count : s.graph.vertexCount = s.present.card
  answers : s.answers = true

section Calls

variable {g : Graph} {t : BinaryTree ℕ} {v : Vertex}

theorem rbNode_ne_zero (v : Vertex) : v.addr + offsetOfRbNode ≠ 0 := by
  rw [offsetOfRbNode]
  omega

theorem graphAddVertex_of_mem (hp : Plain g.vertexes t) (hv : v.addr ∈ keys t) :
    graphAddVertex g v = some g := by
  obtain ⟨c, hc, hcell⟩ := hp.search_present hv
  have hne : g.vertexes.cells c ≠ 0 := by
    rw [hcell]
    exact rbNode_ne_zero v
  simp only [graphAddVertex, searchVertex, hc, Option.bind_eq_bind, Option.bind_some,
    hne, ↓reduceIte]

theorem graphAddVertex_of_notMem (hp : Plain g.vertexes t) (hv : v.addr ∉ keys t) :
    ∃ h', graphAddVertex g v = some { g with vertexes := h', vertexCount := g.vertexCount + 1 } ∧
      Plain h' (insertKey v.addr t) := by
  obtain ⟨c, h', hc, hz, hinsert, hplain⟩ := hp.insert hv v.fits
  refine ⟨h', ?_, hplain⟩
  simp only [graphAddVertex, searchVertex, Vertex.rbNode, hc, Option.bind_eq_bind, Option.bind_some,
    hz, ↓reduceIte, hinsert]

theorem graphDelVertex_of_mem (hp : Plain g.vertexes t) (hv : v.addr ∈ keys t) :
    graphDelVertex g v = (g.vertexes.rbErase (v.addr + offsetOfRbNode)).map fun h' =>
      (0, { g with vertexes := h', vertexCount := g.vertexCount - 1 }) := by
  obtain ⟨c, hc, hcell⟩ := hp.search_present hv
  have hne : g.vertexes.cells c ≠ 0 := by
    rw [hcell]
    exact rbNode_ne_zero v
  simp only [graphDelVertex, searchVertex, Vertex.rbNode, hc, Option.bind_eq_bind,
    Option.bind_some, hne, ne_eq, not_false_eq_true, ↓reduceIte]
  cases g.vertexes.rbErase (v.addr + offsetOfRbNode) with
  | none => rfl
  | some h' => rfl

theorem graphDelVertex_of_notMem (hp : Plain g.vertexes t) (hv : v.addr ∉ keys t) :
    graphDelVertex g v = some (-1, g) := by
  obtain ⟨c, hc, hz, -⟩ := search_absent hp.ordered hp.shape hp.fits hv
  simp only [graphDelVertex, searchVertex, hc, Option.bind_eq_bind, Option.bind_some, hz, ne_eq,
    not_true_eq_false, ↓reduceIte]

end Calls

section Session

variable {s s' : Session} {t : BinaryTree ℕ} {v : Vertex}

theorem InStep.behavesAsSet (hi : InStep s t) : BehavesAsSet s where
  answers := hi.answers
  count := hi.count
  found addr haddr := by
    rw [← hi.members] at haddr
    exact hi.plain.found_of_mem haddr

theorem InStep.add (hi : InStep s t) (v : Vertex) :
    ∃ s' t', step s (.add v) = some s' ∧ InStep s' t' := by
  by_cases hv : v.addr ∈ keys t
  · have hpresent : insert v.addr s.present = s.present := by
      rw [hi.members] at hv
      exact Finset.insert_eq_of_mem hv
    have hrun : step s (.add v) = some s := by
      rw [step, graphAddVertex_of_mem hi.plain hv, Option.bind_eq_bind, Option.bind_some, hpresent]
    exact ⟨s, t, hrun, hi⟩
  · obtain ⟨h', hadd, hplain⟩ := graphAddVertex_of_notMem hi.plain hv
    rw [step, hadd]
    refine ⟨_, insertKey v.addr t, rfl, ⟨hplain, ?_, ?_, hi.answers⟩⟩
    · rw [keys_insertKey, hi.members]
    · rw [hi.members] at hv
      rw [Finset.card_insert_of_notMem hv, hi.count]
      rfl

theorem InStep.del (hi : InStep s t) (hok : delAtRoot s (.del v)) :
    ∃ s' t', step s (.del v) = some s' ∧ InStep s' t' := by
  by_cases hv : v.addr ∈ keys t
  · have hpresent : v.addr ∈ s.present := hi.members ▸ hv
    obtain ⟨hroot, hchild⟩ := hok hpresent
    obtain ⟨h', t', herase, hplain, hkeys⟩ : ∃ h' t',
      s.graph.vertexes.rbErase (v.addr + offsetOfRbNode) = some h' ∧
        Plain h' t' ∧ keys t' = (keys t).erase v.addr := by
      obtain hleft | hright := hchild
      · exact hi.plain.erase_root .right hv hroot hleft
      · exact hi.plain.erase_root .left hv hroot hright
    rw [step, graphDelVertex_of_mem hi.plain hv, herase]
    refine ⟨_, t', rfl, ⟨hplain, ?_, ?_, ?_⟩⟩
    · rw [hkeys, hi.members]
    · have hcard := Finset.card_erase_add_one hpresent
      simp only [hi.count, ← hcard]
      push_cast
      omega
    · simp [hi.answers, hpresent]
  · have hpresent : v.addr ∉ s.present := hi.members ▸ hv
    have hrun : step s (.del v) = some s := by
      simp only [step, graphDelVertex_of_notMem hi.plain hv, Option.bind_eq_bind,
        Option.bind_some, hpresent, ↓reduceIte, decide_true, Bool.and_true,
        Finset.erase_eq_of_notMem hpresent]
    exact ⟨s, t, hrun, hi⟩

theorem InStep.bad (hi : InStep s t) {op : Op} (hbad : ¬delAtRoot s op)
    (hrun : step s op = some s') : ¬BehavesAsSet s' := by
  cases op with
  | add v => exact absurd trivial hbad
  | del v =>
    simp only [delAtRoot, Vertex.rbNode, Classical.not_imp, not_and, not_or] at hbad
    obtain ⟨hpresent, hbad⟩ := hbad
    have hv : v.addr ∈ keys t := hi.members ▸ hpresent
    rw [step, graphDelVertex_of_mem hi.plain hv] at hrun
    have hlost : ∀ h' y, s.graph.vertexes.rbErase (v.addr + offsetOfRbNode) = some h' → y ∈ keys t →
        y ≠ v.addr → ¬found h' y → ¬BehavesAsSet s' := by
      intro h' y herase hy hyv hfound hset
      rw [herase] at hrun
      obtain rfl := Option.some.inj hrun
      exact hfound (hset.found y (Finset.mem_erase.mpr ⟨hyv, hi.members ▸ hy⟩))
    by_cases hl : s.graph.vertexes.cells (.child .left (v.addr + offsetOfRbNode)) = 0
    · obtain ⟨h', y, herase, hy, hyv, hfound⟩ :=
        hi.plain.erase_below .right hv (fun hroot => (hbad hroot).1 hl) hl
      exact hlost h' y herase hy hyv hfound
    · by_cases hr : s.graph.vertexes.cells (.child .right (v.addr + offsetOfRbNode)) = 0
      · obtain ⟨h', y, herase, hy, hyv, hfound⟩ :=
          hi.plain.erase_below .left hv (fun hroot => (hbad hroot).2 hr) hr
        exact hlost h' y herase hy hyv hfound
      · rw [hi.plain.erase_inner hv hl hr] at hrun
        cases hrun

end Session

theorem inStep_start (h : Heap) : InStep (startSession h) .nil where
  plain := ⟨trivial, store_root_cells h 0, by simp [keys], by simp [keys]⟩
  members := rfl
  count := rfl
  answers := rfl

theorem vertices_behave_iff (h : Heap) (ops : List Op) :
    (∀ done rest, ops = done ++ rest →
      ∃ s, exec step (startSession h) done = some s ∧ BehavesAsSet s) ↔
      Along step delAtRoot (startSession h) ops := by
  apply safe_iff_along (fun s => ∃ t, InStep s t)
  · rintro s ⟨t, hi⟩
    exact hi.behavesAsSet
  · rintro s op ⟨t, hi⟩ hok
    cases op with
    | add v =>
      obtain ⟨s', t', hrun, hi'⟩ := hi.add v
      exact ⟨s', hrun, t', hi'⟩
    | del v =>
      obtain ⟨s', t', hrun, hi'⟩ := hi.del hok
      exact ⟨s', hrun, t', hi'⟩
  · rintro s op s' ⟨t, hi⟩ hbad hrun
    exact hi.bad hbad hrun
  · exact ⟨.nil, inStep_start h⟩

def clearHeap : Heap := ⟨fun _ => 0, fun _ => 0⟩

def lower : Vertex := ⟨1000, by decide, by decide⟩

def upper : Vertex := ⟨2000, by decide, by decide⟩

theorem deleting_leaf_loses_root :
    ∃ s, exec step (startSession clearHeap) [.add lower, .add upper, .del upper] = some s ∧
      ¬BehavesAsSet s := by
  obtain ⟨s, hrun, hlost⟩ := Option.map_eq_some_iff.mp (show (exec step (startSession clearHeap)
    [.add lower, .add upper, .del upper]).map (fun s =>
      decide (lower.addr ∈ s.present ∧ ¬found s.graph.vertexes lower.addr)) = some true by
        decide +kernel)
  obtain ⟨hpresent, hfound⟩ := of_decide_eq_true hlost
  exact ⟨s, hrun, fun hset => hfound (hset.found _ hpresent)⟩

end AnalysisPrograms.GraphC
