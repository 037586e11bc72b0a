import Mathlib.Data.Finset.Sort
import AnalysisPrograms.Foundations.Iteration
import AnalysisPrograms.Foundations.Execution
import AnalysisPrograms.Foundations.FiniteMap

namespace AnalysisPrograms.GraphPy

open Foundations

abbrev Dict (K V : Type) := FiniteMap.Map K V

variable {K W : Type} [DecidableEq K]

/-- `keys()` and `items()` walk a snapshot; the `n`-th snapshot taken may have any order. -/
structure IterOrder (K : Type) where
  order : ℕ → Finset K → List K
  nodup : ∀ n s, (order n s).Nodup
  mem : ∀ n s k, k ∈ order n s ↔ k ∈ s

instance inhabitedIterOrder (K : Type) [LinearOrder K] : Inhabited (IterOrder K) where
  default :=
    { order := fun _ s => s.sort (· ≤ ·)
      nodup := fun _ s => s.sort_nodup _
      mem := fun _ s _ => s.mem_sort _ }

/-- The vertex objects (each its table of edges with weights) by reference, the number of
references given out and the number of snapshots taken. -/
structure World (K W : Type) where
  objects : ℕ → Dict K W
  next : ℕ
  tick : ℕ

structure Graph (K : Type) where
  vertexes : Dict K ℕ
  vertexesIndegree : Dict K ℤ

def World.init : World K W := ⟨fun _ => ∅, 0, 0⟩

def Graph.init : Graph K := ⟨∅, ∅⟩

namespace Vertex

def existEdge (edges : Dict K W) (dst : K) : Bool := decide (dst ∈ edges)

def addEdge (edges : Dict K W) (dst : K) (weight : W) : Dict K W :=
  if existEdge edges dst then edges else edges.insert dst weight

def delEdge (edges : Dict K W) (dst : K) : Dict K W :=
  if existEdge edges dst then edges.erase dst else edges

end Vertex

def World.set (w : World K W) (ref : ℕ) (edges : Dict K W) : World K W :=
  { w with objects := Function.update w.objects ref edges }

def World.snapshot (o : IterOrder K) (w : World K W) (keys : Finset K) : List K × World K W :=
  (o.order w.tick keys, { w with tick := w.tick + 1 })

abbrev State (K W : Type) := World K W × Graph K

namespace Graph

def newVertex (s : State K W) (name : K) : State K W :=
  ({ s.1.set s.1.next ∅ with next := s.1.next + 1 },
    ⟨s.2.vertexes.insert name s.1.next, s.2.vertexesIndegree.insert name 0⟩)

def addVertex (s : State K W) (name : K) : State K W :=
  if name ∉ s.2.vertexes then newVertex s name else s

def delEdgesTo (vertexes : Dict K ℕ) (name : K) : List K → World K W → Option (World K W)
  | [], w => some w
  | k :: ks, w => do
    let ref ← vertexes.lookup k
    delEdgesTo vertexes name ks (w.set ref (Vertex.delEdge (w.objects ref) name))

def lowerIndegree : List K → Dict K ℤ → Option (Dict K ℤ)
  | [], d => some d
  | k :: ks, d => do
    let n ← d.lookup k
    lowerIndegree ks (d.insert k (n - 1))

def delVertex (o : IterOrder K) (s : State K W) (name : K) : Option (ℤ × State K W) :=
  let (w, g) := s
  if name ∉ g.vertexes then some (-1, s)
  else do
    let (items, w) := w.snapshot o g.vertexes.keys
    let w ← delEdgesTo g.vertexes name items w
    let ref ← g.vertexes.lookup name
    let (succs, w) := w.snapshot o (w.objects ref).keys
    let indegree ← lowerIndegree succs g.vertexesIndegree
    if name ∈ indegree then
      return (0, w, ⟨g.vertexes.erase name, indegree.erase name⟩)
    else none

def addEdge (s : State K W) (frm dst : K) (weight : W) : Option (State K W) := do
  let s := if frm ∉ s.2.vertexes then newVertex s frm else s
  let s := if dst ∉ s.2.vertexes then newVertex s dst else s
  let (w, g) := s
  let ref ← g.vertexes.lookup frm
  if ¬Vertex.existEdge (w.objects ref) dst then
    let n ← g.vertexesIndegree.lookup dst
    return (w.set ref (Vertex.addEdge (w.objects ref) dst weight),
      { g with vertexesIndegree := g.vertexesIndegree.insert dst (n + 1) })
  else return (w, g)

def delEdge (s : State K W) (frm dst : K) : Option (ℤ × State K W) :=
  let (w, g) := s
  if frm ∉ g.vertexes then some (-1, s)
  else if dst ∉ g.vertexes then some (-1, s)
  else do
    let ref ← g.vertexes.lookup frm
    if ¬Vertex.existEdge (w.objects ref) dst then return (-1, s)
    else
      let n ← g.vertexesIndegree.lookup dst
      return (0, w.set ref (Vertex.delEdge (w.objects ref) dst),
        { g with vertexesIndegree := g.vertexesIndegree.insert dst (n - 1) })

def copyVertexes (vertexes : Dict K ℕ) :
    List K → World K W × Dict K ℕ → Option (World K W × Dict K ℕ)
  | [], s => some s
  | k :: ks, (w, copy) => do
    let ref ← vertexes.lookup k
    copyVertexes vertexes ks
      ({ w.set w.next (w.objects ref) with next := w.next + 1 }, copy.insert k w.next)

end Graph

inductive Op (K W : Type)
  | addVertex (name : K)
  | delVertex (name : K)
  | addEdge (frm dst : K) (weight : W)
  | delEdge (frm dst : K)

def call (o : IterOrder K) (s : State K W) : Op K W → Option (Option ℤ × State K W)
  | .addVertex name => some (none, Graph.addVertex s name)
  | .delVertex name => (Graph.delVertex o s name).map fun (r, t) => (some r, t)
  | .addEdge frm dst weight => (Graph.addEdge s frm dst weight).map fun t => (none, t)
  | .delEdge frm dst => (Graph.delEdge s frm dst).map fun (r, t) => (some r, t)

def step (o : IterOrder K) (s : State K W) (op : Op K W) : Option (State K W) :=
  (call o s op).map Prod.snd

/-- A graph object: its attributes `__vertexes` and `__vertexes_indegree` refer to dictionaries. -/
structure GraphRef where
  vertexes : ℕ
  vertexesIndegree : ℕ

structure Heap (K W : Type) where
  world : World K W
  vertexes : ℕ → Dict K ℕ
  vertexesIndegree : ℕ → Dict K ℤ
  dicts : ℕ

namespace Heap

def graph (h : Heap K W) (g : GraphRef) : Graph K :=
  ⟨h.vertexes g.vertexes, h.vertexesIndegree g.vertexesIndegree⟩

def state (h : Heap K W) (g : GraphRef) : State K W := (h.world, h.graph g)

def write (h : Heap K W) (g : GraphRef) (s : State K W) : Heap K W :=
  { h with
    world := s.1
    vertexes := Function.update h.vertexes g.vertexes s.2.vertexes
    vertexesIndegree := Function.update h.vertexesIndegree g.vertexesIndegree s.2.vertexesIndegree }

def alloc (h : Heap K W) (tables : Graph K) : GraphRef × Heap K W :=
  (⟨h.dicts, h.dicts⟩, { h.write ⟨h.dicts, h.dicts⟩ (h.world, tables) with dicts := h.dicts + 1 })

def step (o : IterOrder K) (self : GraphRef) (h : Heap K W) (op : Op K W) : Option (Heap K W) :=
  (GraphPy.step o (h.state self) op).map (h.write self)

def deepcopy (o : IterOrder K) (h : Heap K W) (self : GraphRef) :
    Option (GraphRef × Heap K W) := do
  let (items, w) := h.world.snapshot o (h.graph self).vertexes.keys
  let (w, vertexes) ← Graph.copyVertexes (h.graph self).vertexes items (w, ∅)
  return alloc { h with world := w } ⟨vertexes, (h.graph self).vertexesIndegree⟩

def sortKeys (o : IterOrder K) (g : GraphRef) :
    List K → Heap K W × List K → Option (Heap K W × List K)
  | [], s => some s
  | k :: ks, (h, rslt) => do
    let n ← (h.graph g).vertexesIndegree.lookup k
    if 0 = n then
      let (_, s) ← Graph.delVertex o (h.state g) k
      sortKeys o g ks (h.write g s, rslt ++ [k])
    else sortKeys o g ks (h, rslt)

def sortRound (o : IterOrder K) (g : GraphRef) (p : Heap K W × List K) :
    Heap K W × List K ⊕ Option (List K × Heap K W) :=
  let (h, rslt) := p
  if (h.graph g).vertexesIndegree.keys = ∅ then .inr (some (rslt, h))
  else
    let sizeBefore := (h.graph g).vertexesIndegree.keys.card
    let (keys, w) := h.world.snapshot o (h.graph g).vertexesIndegree.keys
    match sortKeys o g keys ({ h with world := w }, rslt) with
    | none => .inr none
    | some (h, rslt) =>
      let sizeAfter := (h.graph g).vertexesIndegree.keys.card
      if sizeBefore = sizeAfter then .inr (some ([], h)) else .inl (h, rslt)

/-- `none` when the `while` loop is not over after `fuel` rounds or a `KeyError` was raised. -/
def topsort (fuel : ℕ) (o : IterOrder K) (h : Heap K W) (self : GraphRef) :
    Option (List K × Heap K W) := do
  let (g, h) ← deepcopy o h self
  (Iteration.run (sortRound o g) fuel (h, [])).join

end Heap

end AnalysisPrograms.GraphPy
