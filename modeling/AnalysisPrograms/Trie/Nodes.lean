import Mathlib.Data.UInt
import Mathlib.Data.Int.Notation
import Mathlib.Algebra.Group.Nat.Defs
import Mathlib.Algebra.Group.Int.Defs
import Mathlib.Logic.Function.Basic

namespace AnalysisPrograms.Trie

/-- A pointer is the number of the node among all that were ever allocated, `none` is NULL. -/
structure Node where
  isEnd : Bool
  prefixCount : ℤ
  child : Fin 26 → Option ℕ

def newNode : Node := ⟨false, 0, fun _ => none⟩

def Node.setChild (node : Node) (l : Fin 26) (p : ℕ) : Node :=
  { node with child := Function.update node.child l (some p) }

structure State where
  nodes : List Node
  head : ℕ

def init (nodes : List Node) : State := ⟨nodes ++ [newNode], nodes.length⟩

/-- `(int)c - (int)'a'`, where `char` is signed. -/
def letter (c : UInt8) : ℤ := (if c.toNat < 128 then (c.toNat : ℤ) else c.toNat - 256) - 97

def slot (letter : ℤ) : Option (Fin 26) :=
  if h : 0 ≤ letter ∧ letter < 26 then some ⟨letter.toNat, by omega⟩ else none

def countUp (nodes : List Node) (p : ℕ) : Option (List Node) := do
  let node ← nodes[p]?
  if node.prefixCount + 1 < 2 ^ 31 then
    some (nodes.set p { node with prefixCount := node.prefixCount + 1 })
  else none

def addChild (nodes : List Node) (current : ℕ) (l : Fin 26) : Option (List Node) := do
  let node ← nodes[current]?
  match node.child l with
  | none => some ((nodes ++ [newNode]).set current (node.setChild l nodes.length))
  | some _ => some nodes

def visit (nodes : List Node) (current : ℕ) (c : UInt8) : Option (List Node × ℕ) := do
  let l ← slot (letter c)
  let nodes ← addChild nodes current l
  let node ← nodes[current]?
  let child ← node.child l
  let nodes ← countUp nodes child
  return (nodes, child)

def insertLoop (word : List UInt8) : ℕ → List Node → ℕ → ℕ → Option (List Node)
  | 0, _, _, _ => none
  | turns + 1, nodes, current, i =>
    if i < word.length then do
      let c ← word[i]?
      let (nodes, child) ← visit nodes current c
      insertLoop word turns nodes child ((i + 1) % 2 ^ 32)
    else do
      let node ← nodes[current]?
      some (nodes.set current { node with isEnd := true })

/-- A loop that is not over after as many turns as the word has letters never is. -/
def insert (t : State) (word : List UInt8) : Option State := do
  let nodes ← countUp t.nodes t.head
  let nodes ← insertLoop word (word.length + 1) nodes t.head 0
  return { t with nodes := nodes }

def lookupLoop {ρ : Type} (nodes : List Node) (missing : ρ) (found : Node → ρ) (word : List UInt8) :
    ℕ → ℕ → ℕ → Option ρ
  | 0, _, _ => none
  | turns + 1, current, i =>
    if i < word.length then do
      let c ← word[i]?
      let l ← slot (letter c)
      let node ← nodes[current]?
      match node.child l with
      | none => some missing
      | some child => lookupLoop nodes missing found word turns child ((i + 1) % 2 ^ 32)
    else do
      let node ← nodes[current]?
      return found node

def search (t : State) (word : List UInt8) : Option Bool :=
  lookupLoop t.nodes false Node.isEnd word (word.length + 1) t.head 0

def wordsWithPrefix (t : State) ( pre : List UInt8) : Option ℤ :=
  lookupLoop t.nodes 0 Node.prefixCount pre (pre.length + 1) t.head 0

end AnalysisPrograms.Trie
