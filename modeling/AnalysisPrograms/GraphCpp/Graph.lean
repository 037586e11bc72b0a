import AnalysisPrograms.Foundations.Execution
import AnalysisPrograms.Foundations.FiniteMap
import Mathlib.Data.Finset.Sort
import Mathlib.Data.String.Basic

namespace AnalysisPrograms.GraphCpp

open Foundations

abbrev StdMap (V : Type) := FiniteMap.Map String V

structure Edge where
  weight : ℤ
deriving DecidableEq, Repr

abbrev VertexOutMap := StdMap Edge

namespace Vertex

def addEdge (outMap : VertexOutMap) (name : String) (edge : Edge) : VertexOutMap :=
  outMap.insert name edge

def edgeCount (outMap : VertexOutMap) : ℕ := outMap.keys.card

def delEdge (outMap : VertexOutMap) (name : String) : ℤ × VertexOutMap :=
  if name ∉ outMap then (-1, outMap) else (0, outMap.erase name)

end Vertex

structure Graph where
  edgeCount : ℤ
  vertexes : StdMap VertexOutMap
  indegreeOfVertexes : StdMap ℤ

def subscript {V : Type} (m : StdMap V) (dflt : V) (key : String) : V × StdMap V :=
  match m.lookup key with
  | some v => (v, m)
  | none => (dflt, m.insert key dflt)

namespace Graph

def init : Graph := ⟨0, ∅, ∅⟩

def addVertex (g : Graph) (name : String) : Graph :=
  { g with
    vertexes := (subscript g.vertexes ∅ name).2
    indegreeOfVertexes := (subscript g.indegreeOfVertexes 0 name).2 }

def delEdgesTo (name : String) : List String → ℤ × StdMap VertexOutMap → ℤ × StdMap VertexOutMap
  | [], s => s
  | k :: ks, (count, vertexes) =>
    let (rslt, outMap) := Vertex.delEdge (FiniteMap.valueAt vertexes ∅ k) name
    delEdgesTo name ks (if 0 = rslt then count - 1 else count, vertexes.insert k outMap)

def lowerIndegree : List String → StdMap ℤ → StdMap ℤ
  | [], m => m
  | k :: ks, m =>
    let (n, m) := subscript m 0 k
    lowerIndegree ks (m.insert k (n - 1))

def delVertex (g : Graph) (name : String) : ℤ × Graph :=
  if name ∉ g.vertexes then (-1, g)
  else
    let (count, vertexes) :=
      delEdgesTo name (g.vertexes.keys.sort (· ≤ ·)) (g.edgeCount, g.vertexes)
    let (outMap, vertexes) := subscript vertexes ∅ name
    let count := count - Vertex.edgeCount outMap
    let indegree := lowerIndegree (outMap.keys.sort (· ≤ ·)) g.indegreeOfVertexes
    (0, ⟨count, vertexes.erase name, indegree.erase name⟩)

def addEdge (g : Graph) (frm dst : String) (weight : ℤ) : Graph :=
  let g := (g.addVertex frm).addVertex dst
  let (outMap, vertexes) := subscript g.vertexes ∅ frm
  let (n, indegree) := subscript g.indegreeOfVertexes 0 dst
  ⟨g.edgeCount + 1, vertexes.insert frm (Vertex.addEdge outMap dst ⟨weight⟩),
    indegree.insert dst (n + 1)⟩

def delEdge (g : Graph) (frm dst : String) : ℤ × Graph :=
  if frm ∉ g.vertexes then (-1, g)
  else
    let (outMap, vertexes) := subscript g.vertexes ∅ frm
    let (rslt, outMap) := Vertex.delEdge outMap dst
    let g := { g with vertexes := vertexes.insert frm outMap }
    if -1 = rslt then (-1, g)
    else
      let (n, indegree) := subscript g.indegreeOfVertexes 0 dst
      (0, ⟨g.edgeCount - 1, g.vertexes, indegree.insert dst (n - 1)⟩)

end Graph

inductive Op
  | addVertex (name : String)
  | delVertex (name : String)
  | addEdge (frm dst : String) (weight : ℤ)
  | delEdge (frm dst : String)

def step (g : Graph) : Op → Option Graph
  | .addVertex name => some (g.addVertex name)
  | .delVertex name => some (g.delVertex name).2
  | .addEdge frm dst weight => some (g.addEdge frm dst weight)
  | .delEdge frm dst => some (g.delEdge frm dst).2

def outMap (g : Graph) (u : String) : VertexOutMap := FiniteMap.valueAt g.vertexes ∅ u

structure CountersMatch (g : Graph) : Prop where
  edgeCount : g.edgeCount = (∑ u ∈ g.vertexes.keys, Vertex.edgeCount (outMap g u) : ℕ)
  indegrees : ∀ v ∈ g.vertexes, g.indegreeOfVertexes.lookup v =
    some ((g.vertexes.keys.filter fun u => v ∈ outMap g u).card : ℤ)
  keys : g.vertexes.keys = g.indegreeOfVertexes.keys
  targets : ∀ u v, v ∈ outMap g u → v ∈ g.vertexes

def NotReadded (g : Graph) : Op → Prop
  | .addEdge frm dst _ => dst ∉ outMap g frm
  | _ => True

end AnalysisPrograms.GraphCpp
