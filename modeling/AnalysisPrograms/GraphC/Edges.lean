import AnalysisPrograms.Foundations.Links
import AnalysisPrograms.GraphC.AsSet

namespace AnalysisPrograms.GraphC

open Foundations Execution Links SearchTree

def offsetOfListNode : ℕ := 40

def Vertex.listNode (v : Vertex) : ℕ := v.addr + offsetOfListNode

theorem Vertex.listNode_inj {v w : Vertex} (h : v.listNode = w.listNode) : v = w := by
  obtain ⟨a, _, _⟩ := v
  obtain ⟨b, _, _⟩ := w
  obtain rfl : a = b := Nat.add_right_cancel h
  rfl

theorem Vertex.listNode_ne_zero (v : Vertex) : v.listNode ≠ 0 := by
  rw [listNode, offsetOfListNode]
  omega

def listAdd (links : ℕ → ℕ) (head node : ℕ) : ℕ → ℕ :=
  Function.update (Function.update links node (links head)) head node

def listRemove (links : ℕ → ℕ) (node : ℕ) : Option (ℕ → ℕ) :=
  if links node = 0 then none
  else some (Function.update (Function.update links node (links (links node))) (links node) 0)

structure Linked where
  graph : Graph
  links : ℕ → ℕ

def graphAddEdege (g : Linked) (fromV toV : Vertex) : Option Linked := do
  let links := listAdd g.links fromV.listNode toV.listNode
  let graph ← graphAddVertex g.graph fromV
  some ⟨graph, links⟩

def graphDelEdege (g : Linked) (fromV prevOfTo : Vertex) : Option (ℤ × Linked) := do
  let tmp ← searchVertex g.graph.vertexes fromV
  if g.graph.vertexes.cells tmp = 0 then some (-1, g)
  else
    guard (g.links prevOfTo.listNode ≠ 0)
    let links ← listRemove g.links prevOfTo.listNode
    some (0, { g with links })

def graphEdegeCount (g : Linked) : ℤ := g.graph.edgeCount

inductive EdgeOp
  | add (fromV toV : Vertex)
  | del (fromV prevOfTo : Vertex)

structure EdgeSession where
  linked : Linked
  edges : Finset (Vertex × Vertex)

def startEdges (h : Heap) : EdgeSession := ⟨⟨initGraph h, fun _ => 0⟩, ∅⟩

def edgeStep (s : EdgeSession) : EdgeOp → Option EdgeSession
  | .add fromV toV => do
    let g ← graphAddEdege s.linked fromV toV
    some ⟨g, insert (fromV, toV) s.edges⟩
  | .del fromV prevOfTo => do
    let (_, g) ← graphDelEdege s.linked fromV prevOfTo
    some ⟨g,
      s.edges.filter fun e => ¬(e.1 = fromV ∧ e.2.listNode = s.linked.links prevOfTo.listNode)⟩

/-- An edge is added that is not there, and `prevOfTo` comes before a successor of `fromV` in its
list. -/
def validCall (s : EdgeSession) : EdgeOp → Prop
  | .add fromV toV => (fromV, toV) ∉ s.edges
  | .del fromV prevOfTo =>
    (prevOfTo = fromV ∨ (fromV, prevOfTo) ∈ s.edges) ∧
      ∃ toV, (fromV, toV) ∈ s.edges ∧ s.linked.links prevOfTo.listNode = toV.listNode

def VisitsSuccessors (links : ℕ → ℕ) (edges : Finset (Vertex × Vertex)) (v : Vertex) (xs : List ℕ) :
    Prop :=
  Walk links 0 (links v.listNode) xs ∧ ∀ x, x ∈ xs ↔ ∃ w, (v, w) ∈ edges ∧ w.listNode = x

def ListsRight (links : ℕ → ℕ) (edges : Finset (Vertex × Vertex)) : Prop :=
  ∀ v, ∃ xs, VisitsSuccessors links edges v xs

def keepsApart (s : EdgeSession) : EdgeOp → Prop
  | .add fromV toV =>
    fromV ≠ toV ∧ (∀ v, (v, fromV) ∉ s.edges) ∧ ∀ w, (fromV, w) ∈ s.edges ↔ (toV, w) ∈ s.edges
  | .del fromV prevOfTo =>
    prevOfTo = fromV ∧ (∀ v, (v, fromV) ∉ s.edges) ∧
      ∀ toV, s.linked.links prevOfTo.listNode = toV.listNode → ∀ w, (toV, w) ∉ s.edges

section Lists

variable {links : ℕ → ℕ} {edges : Finset (Vertex × Vertex)} {u v w : Vertex} {xs : List ℕ}

theorem VisitsSuccessors.mem_iff (h : VisitsSuccessors links edges v xs) :
    w.listNode ∈ xs ↔ (v, w) ∈ edges := by
  rw [h.2]
  constructor
  · rintro ⟨w', hw', heq⟩
    rwa [Vertex.listNode_inj heq] at hw'
  · intro hw
    exact ⟨w, hw, rfl⟩

theorem ListsRight.no_loop (h : ListsRight links edges) (v : Vertex) : (v, v) ∉ edges := by
  obtain ⟨xs, hxs⟩ := h v
  intro hv
  exact hxs.1.notMem_self (hxs.mem_iff.mpr hv)

theorem ListsRight.trans (h : ListsRight links edges) (huv : (u, v) ∈ edges)
    (hvw : (v, w) ∈ edges) : (u, w) ∈ edges := by
  obtain ⟨xs, hxs⟩ := h u
  obtain ⟨ys, hys⟩ := h v
  -- what comes behind `v` in the list of `u` is the list of `v`
  obtain ⟨before, after, rfl, hafter⟩ := hxs.1.after (hxs.mem_iff.mpr huv)
  obtain rfl := hys.1.unique hafter
  apply hxs.mem_iff.mp
  apply List.mem_append_right
  exact List.mem_cons_of_mem _ (hys.mem_iff.mpr hvw)

theorem ListsRight.comparable (h : ListsRight links edges) (huv : (u, v) ∈ edges)
    (huw : (u, w) ∈ edges) (hne : v ≠ w) : (v, w) ∈ edges ∨ (w, v) ∈ edges := by
  obtain ⟨xs, hxs⟩ := h u
  obtain ⟨ys, hys⟩ := h v
  obtain ⟨zs, hzs⟩ := h w
  have hne' := mt Vertex.listNode_inj hne
  rcases hxs.1.mem_or_mem (hxs.mem_iff.mpr huv) (hxs.mem_iff.mpr huw) hne' with
    ⟨after, hafter, hmem⟩ | ⟨after, hafter, hmem⟩
  · rw [← hys.1.unique hafter] at hmem
    exact .inl (hys.mem_iff.mp hmem)
  · rw [← hzs.1.unique hafter] at hmem
    exact .inr (hzs.mem_iff.mp hmem)

theorem ListsRight.first (h : ListsRight links edges) (hvw : links v.listNode = w.listNode) :
    (v, w) ∈ edges := by
  obtain ⟨xs, hxs⟩ := h v
  apply hxs.mem_iff.mp
  obtain ⟨hwalk, -⟩ := hxs
  rw [hvw] at hwalk
  cases xs with
  | nil => exact absurd hwalk w.listNode_ne_zero
  | cons x xs =>
    rw [hwalk.1]
    exact List.mem_cons_self

theorem ListsRight.link_eq (h : ListsRight links edges)
    (hsame : ∀ x, (v, x) ∈ edges ↔ (w, x) ∈ edges) : links v.listNode = links w.listNode := by
  obtain ⟨xs, hxs⟩ := h v
  obtain ⟨ys, hys⟩ := h w
  apply hxs.1.start_eq hys.1
  intro x
  rw [hxs.2, hys.2]
  simp only [hsame]

theorem ListsRight.link_eq_zero (h : ListsRight links edges) (hnone : ∀ x, (v, x) ∉ edges) :
    links v.listNode = 0 := by
  obtain ⟨xs, hwalk, hmem⟩ := h v
  cases xs with
  | nil => exact hwalk
  | cons x xs =>
    obtain ⟨w, hw, -⟩ := (hmem x).mp List.mem_cons_self
    exact absurd hw (hnone w)

theorem ListsRight.only_successor (h : ListsRight links edges) (hvw : links v.listNode = w.listNode)
    (hzero : links w.listNode = 0) (hvu : (v, u) ∈ edges) : u = w := by
  obtain ⟨xs, hxs⟩ := h v
  have hmem := hxs.mem_iff.mpr hvu
  have hone : Walk links 0 (links v.listNode) [w.listNode] := ⟨hvw, w.listNode_ne_zero, hzero⟩
  rw [hxs.1.unique hone, List.mem_singleton] at hmem
  exact Vertex.listNode_inj hmem

theorem ListsRight.update (h : ListsRight links edges) (hnone : ∀ u, (u, v) ∉ edges) {a : ℕ}
    {edges' : Finset (Vertex × Vertex)} (hedges : ∀ u w, u ≠ v → ((u, w) ∈ edges' ↔ (u, w) ∈ edges))
    {ys : List ℕ} (hys : Walk links 0 a ys) (hv : v.listNode ∉ ys)
    (hmem : ∀ x, x ∈ ys ↔ ∃ w, (v, w) ∈ edges' ∧ w.listNode = x) :
    ListsRight (Function.update links v.listNode a) edges' := by
  intro u
  by_cases huv : u = v
  · subst huv
    refine ⟨ys, ?_, hmem⟩
    rw [Function.update_self]
    apply hys.congr
    intro x hx
    rw [Function.update_of_ne (ne_of_mem_of_not_mem hx hv)]
  · obtain ⟨xs, hxs⟩ := h u
    have hvxs : v.listNode ∉ xs := mt hxs.mem_iff.mp (hnone u)
    refine ⟨xs, ?_, ?_⟩
    · rw [Function.update_of_ne (mt Vertex.listNode_inj huv)]
      apply hxs.1.congr
      intro x hx
      rw [Function.update_of_ne (ne_of_mem_of_not_mem hx hvxs)]
    · intro x
      rw [hxs.2]
      simp only [hedges u _ huv]

end Lists

section Add

variable {links : ℕ → ℕ} {edges : Finset (Vertex × Vertex)} {fromV toV : Vertex}

theorem ListsRight.add (h : ListsRight links edges) (hne : fromV ≠ toV)
    (hnone : ∀ v, (v, fromV) ∉ edges) (hsame : ∀ w, (fromV, w) ∈ edges ↔ (toV, w) ∈ edges) :
    ListsRight (listAdd links fromV.listNode toV.listNode) (insert (fromV, toV) edges) := by
  have hlink := h.link_eq hsame
  obtain ⟨xs, hxs⟩ := h toV
  unfold listAdd
  rw [hlink, Function.update_eq_self]
  have hwalk : Walk links 0 toV.listNode (toV.listNode :: xs) := ⟨rfl, toV.listNode_ne_zero, hxs.1⟩
  apply h.update hnone _ hwalk
  · intro hmem
    rcases List.mem_cons.mp hmem with heq | hmem
    · exact hne (Vertex.listNode_inj heq)
    · exact hnone toV (hxs.mem_iff.mp hmem)
  · intro x
    rw [List.mem_cons, hxs.2]
    constructor
    · rintro (rfl | ⟨w, hw, rfl⟩)
      · exact ⟨toV, Finset.mem_insert_self _ _, rfl⟩
      · exact ⟨w, Finset.mem_insert_of_mem ((hsame w).mpr hw), rfl⟩
    · rintro ⟨w, hw, rfl⟩
      rcases Finset.mem_insert.mp hw with heq | hw
      · exact .inl (congrArg Vertex.listNode (Prod.mk.inj heq).2)
      · exact .inr ⟨w, (hsame w).mp hw, rfl⟩
  · intro u w hu
    simp [hu]

theorem ListsRight.of_add (h : ListsRight links edges) (hnew : (fromV, toV) ∉ edges)
    (h' : ListsRight (listAdd links fromV.listNode toV.listNode) (insert (fromV, toV) edges)) :
    fromV ≠ toV ∧ (∀ v, (v, fromV) ∉ edges) ∧ ∀ w, (fromV, w) ∈ edges ↔ (toV, w) ∈ edges := by
  have hedge : (fromV, toV) ∈ insert (fromV, toV) edges := Finset.mem_insert_self _ _
  have hne : fromV ≠ toV := by
    rintro rfl
    exact h'.no_loop fromV hedge
  have hold : ∀ {u w}, u ≠ fromV → (u, w) ∈ insert (fromV, toV) edges → (u, w) ∈ edges := by
    intro u w hu huw
    rcases Finset.mem_insert.mp huw with heq | huw
    · exact absurd (Prod.mk.inj heq).1 hu
    · exact huw
  have hsame : ∀ w, (fromV, w) ∈ edges ↔ (toV, w) ∈ edges := by
    intro w
    obtain ⟨xs, hxs⟩ := h fromV
    obtain ⟨ys, hys⟩ := h' toV
    have hwalk : Walk (listAdd links fromV.listNode toV.listNode) 0 (links fromV.listNode) xs := by
      apply hxs.1.congr
      intro x hx
      unfold listAdd
      rw [Function.update_of_ne (ne_of_mem_of_not_mem hx (mt hxs.mem_iff.mp (h.no_loop fromV))),
        Function.update_of_ne (ne_of_mem_of_not_mem hx (mt hxs.mem_iff.mp hnew))]
    have hto : listAdd links fromV.listNode toV.listNode toV.listNode = links fromV.listNode := by
      unfold listAdd
      rw [Function.update_of_ne (mt Vertex.listNode_inj hne.symm), Function.update_self]
    have hlists := hys.1
    rw [hto] at hlists
    obtain rfl := hlists.unique hwalk
    rw [← hxs.mem_iff, hys.mem_iff]
    exact ⟨hold hne.symm, Finset.mem_insert_of_mem⟩
  refine ⟨hne, ?_, hsame⟩
  intro v hv
  have hvf : v ≠ fromV := by
    rintro rfl
    exact h.no_loop v hv
  have hvt := hold hvf (h'.trans (Finset.mem_insert_of_mem hv) hedge)
  rcases h.comparable hv hvt hne with hft | htf
  · exact hnew hft
  · exact h.no_loop fromV ((hsame fromV).mpr htf)

end Add

section Del

variable {links : ℕ → ℕ} {edges : Finset (Vertex × Vertex)} {fromV toV prevOfTo : Vertex}

def unlinked (links : ℕ → ℕ) (prev del : ℕ) : ℕ → ℕ :=
  Function.update (Function.update links prev (links del)) del 0

theorem mem_filter_edges {u w : Vertex} :
    ((u, w) ∈ edges.filter fun e => ¬(e.1 = fromV ∧ e.2.listNode = toV.listNode)) ↔
      (u, w) ∈ edges ∧ ¬(u = fromV ∧ w = toV) := by
  rw [Finset.mem_filter]
  constructor
  · rintro ⟨huw, hne⟩
    refine ⟨huw, ?_⟩
    rintro ⟨rfl, rfl⟩
    exact hne ⟨rfl, rfl⟩
  · rintro ⟨huw, hne⟩
    exact ⟨huw, fun heq => hne ⟨heq.1, Vertex.listNode_inj heq.2⟩⟩

theorem ListsRight.del (h : ListsRight links edges) (hfirst : links fromV.listNode = toV.listNode)
    (hnone : ∀ v, (v, fromV) ∉ edges) (hend : ∀ w, (toV, w) ∉ edges) :
    ListsRight (unlinked links fromV.listNode toV.listNode)
      (edges.filter fun e => ¬(e.1 = fromV ∧ e.2.listNode = toV.listNode)) := by
  have hzero := h.link_eq_zero hend
  have hedge := h.first hfirst
  have hne : toV ≠ fromV := by
    rintro rfl
    exact h.no_loop toV hedge
  have hlinks : unlinked links fromV.listNode toV.listNode =
      Function.update links fromV.listNode 0 := by
    unfold unlinked
    rw [hzero, Function.update_comm (mt Vertex.listNode_inj hne.symm), ← hzero,
      Function.update_eq_self]
  rw [hlinks]
  have hwalk : Walk links 0 0 [] := rfl
  apply h.update hnone _ hwalk List.not_mem_nil
  · intro x
    refine ⟨fun hx => absurd hx List.not_mem_nil, ?_⟩
    rintro ⟨w, hw, rfl⟩
    obtain ⟨hw, hwt⟩ := mem_filter_edges.mp hw
    exact absurd ⟨rfl, h.only_successor hfirst hzero hw⟩ hwt
  · intro u w hu
    rw [mem_filter_edges]
    exact ⟨And.left, fun huw => ⟨huw, fun heq => hu heq.1⟩⟩

theorem ListsRight.of_del (h : ListsRight links edges) (hedge : (fromV, toV) ∈ edges)
    (hprev : prevOfTo = fromV ∨ (fromV, prevOfTo) ∈ edges)
    (hlink : links prevOfTo.listNode = toV.listNode)
    (h' : ListsRight (unlinked links prevOfTo.listNode toV.listNode)
      (edges.filter fun e => ¬(e.1 = fromV ∧ e.2.listNode = toV.listNode))) :
    prevOfTo = fromV ∧ (∀ v, (v, fromV) ∉ edges) ∧ ∀ w, (toV, w) ∉ edges := by
  have hgone : (fromV, toV) ∉ edges.filter fun e => ¬(e.1 = fromV ∧ e.2.listNode = toV.listNode) :=
    fun hmem => (mem_filter_edges.mp hmem).2 ⟨rfl, rfl⟩
  have hne : toV ≠ fromV := by
    rintro rfl
    exact h.no_loop toV hedge
  have hkept : ∀ {u w}, (u, w) ∈ edges → u ≠ fromV ∨ w ≠ toV →
      (u, w) ∈ edges.filter fun e => ¬(e.1 = fromV ∧ e.2.listNode = toV.listNode) := by
    intro u w huw hor
    refine mem_filter_edges.mpr ⟨huw, ?_⟩
    rintro ⟨rfl, rfl⟩
    rcases hor with hu | hw
    · exact hu rfl
    · exact hw rfl
  have hfrom : prevOfTo = fromV := by
    by_contra hpf
    have hfp : (fromV, prevOfTo) ∈ edges := hprev.resolve_left hpf
    have hpt := h.first hlink
    have hpne : prevOfTo ≠ toV := by
      rintro rfl
      exact h.no_loop prevOfTo hpt
    exact hgone (h'.trans (hkept hfp (.inr hpne)) (hkept hpt (.inl hpf)))
  refine ⟨hfrom, ?_, ?_⟩
  · intro v hv
    have hvf : v ≠ fromV := by
      rintro rfl
      exact h.no_loop v hv
    have hvt := hkept (h.trans hv hedge) (.inl hvf)
    rcases h'.comparable (hkept hv (.inl hvf)) hvt hne.symm with hft | htf
    · exact hgone hft
    · exact h.no_loop fromV (h.trans hedge (mem_filter_edges.mp htf).1)
  · intro w hw
    obtain ⟨xs, hxs⟩ := h' toV
    have hmem := hxs.mem_iff.mpr (hkept hw (.inl hne))
    have hwalk := hxs.1
    rw [unlinked, Function.update_self] at hwalk
    rw [hwalk.eq_nil] at hmem
    exact List.not_mem_nil hmem

end Del

end AnalysisPrograms.GraphC
