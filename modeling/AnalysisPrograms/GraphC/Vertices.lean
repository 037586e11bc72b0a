import Mathlib.Data.Finset.Card
import Mathlib.Data.Int.Notation
import AnalysisPrograms.Foundations.Execution
import AnalysisPrograms.GraphC.RbTree

namespace AnalysisPrograms.GraphC

open Foundations Execution

def offsetOfRbNode : ℕ := 16

def sizeofVertex : ℕ := 48

structure Graph where
  vertexes : Heap
  vertexCount : ℤ
  edgeCount : ℤ

structure Vertex where
  addr : ℕ
  pos : 0 < addr
  fits : addr + sizeofVertex ≤ 2 ^ 64
deriving DecidableEq

def Vertex.rbNode (v : Vertex) : ℕ := v.addr + offsetOfRbNode

/-- The parameter `parent` is only overwritten in the callee. -/
def searchLoop (h : Heap) (vertex : ℕ) : ℕ → Cell → Option Cell
  | 0, _ => none
  | fuel + 1, iter =>
    if h.cells iter = 0 then some iter
    else
      let parent := h.cells iter
      let tmpVertex := parent - offsetOfRbNode
      if vertex < tmpVertex then searchLoop h vertex fuel (.child .left parent)
      else if vertex > tmpVertex then searchLoop h vertex fuel (.child .right parent)
      else some iter

def searchVertex (h : Heap) (v : Vertex) : Option Cell := searchLoop h v.addr walkLimit .root

def initGraph (h : Heap) : Graph := ⟨h.store .root 0, 0, 0⟩

def graphAddVertex (g : Graph) (v : Vertex) : Option Graph := do
  let tmp ← searchVertex g.vertexes v
  if g.vertexes.cells tmp = 0 then
    let h := g.vertexes.rbLinkNode v.rbNode (g.vertexes.cells tmp) tmp
    let h ← h.rbInsertColor v.rbNode
    some { g with vertexes := h, vertexCount := g.vertexCount + 1 }
  else some g

def graphDelVertex (g : Graph) (v : Vertex) : Option (ℤ × Graph) := do
  let tmp ← searchVertex g.vertexes v
  if g.vertexes.cells tmp ≠ 0 then
    let h ← g.vertexes.rbErase v.rbNode
    some (0, { g with vertexes := h, vertexCount := g.vertexCount - 1 })
  else some (-1, g)

def graphVertexCount (g : Graph) : ℤ := g.vertexCount

inductive Op
  | add (v : Vertex)
  | del (v : Vertex)

structure Session where
  graph : Graph
  present : Finset ℕ
  answers : Bool

def startSession (h : Heap) : Session := ⟨initGraph h, ∅, true⟩

def step (s : Session) : Op → Option Session
  | .add v => do
    let g ← graphAddVertex s.graph v
    some { s with graph := g, present := insert v.addr s.present }
  | .del v => do
    let (ret, g) ← graphDelVertex s.graph v
    let right : ℤ := if v.addr ∈ s.present then 0 else -1
    some ⟨g, s.present.erase v.addr, s.answers && decide (ret = right)⟩

def found (h : Heap) (addr : ℕ) : Prop :=
  (searchLoop h addr walkLimit .root).map h.cells = some (addr + offsetOfRbNode)

instance decidableFound (h : Heap) (addr : ℕ) : Decidable (found h addr) :=
  inferInstanceAs (Decidable (_ = _))

structure BehavesAsSet (s : Session) : Prop where
  answers : s.answers = true
  count : graphVertexCount s.graph = s.present.card
  found : ∀ addr ∈ s.present, found s.graph.vertexes addr

def delAtRoot (s : Session) : Op → Prop
  | .add _ => True
  | .del v => v.addr ∈ s.present →
    s.graph.vertexes.cells .root = v.rbNode ∧
      (s.graph.vertexes.cells (.child .left v.rbNode) = 0 ∨
        s.graph.vertexes.cells (.child .right v.rbNode) = 0)

end AnalysisPrograms.GraphC
