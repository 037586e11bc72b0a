import Mathlib.Algebra.Group.Nat.Defs
import Mathlib.Data.Nat.Notation
import Mathlib.Logic.Function.Basic

namespace AnalysisPrograms.GraphC

inductive Side
  | left
  | right
deriving DecidableEq

def Side.other : Side → Side
  | .left => .right
  | .right => .left

/-- The address of a pointer to a node: `&root->rb_node`, `&node->rb_left` or `&node->rb_right`. -/
inductive Cell
  | root
  | child (side : Side) (node : ℕ)
deriving DecidableEq

structure Heap where
  cells : Cell → ℕ
  parentColor : ℕ → ℕ

def RB_RED : ℕ := 0

def RB_BLACK : ℕ := 1

/-- No walk through the nodes is longer than there are addresses. -/
def walkLimit : ℕ := 2 ^ 64

namespace Heap

def store (h : Heap) (c : Cell) (p : ℕ) : Heap := { h with cells := Function.update h.cells c p }

def storeParentColor (h : Heap) (n w : ℕ) : Heap :=
  { h with parentColor := Function.update h.parentColor n w }

/-- Reading a member of `*node`; `none` is the access to NULL. -/
def rbChild (h : Heap) (side : Side) (node : ℕ) : Option ℕ :=
  if node = 0 then none else some (h.cells (.child side node))

def rbLeft (h : Heap) (node : ℕ) : Option ℕ := h.rbChild .left node

def rbRight (h : Heap) (node : ℕ) : Option ℕ := h.rbChild .right node

def setChild (h : Heap) (side : Side) (node p : ℕ) : Option Heap :=
  if node = 0 then none else some (h.store (.child side node) p)

def setRbLeft (h : Heap) (node p : ℕ) : Option Heap := h.setChild .left node p

def setRbRight (h : Heap) (node p : ℕ) : Option Heap := h.setChild .right node p

def rbParentColor (h : Heap) (node : ℕ) : Option ℕ :=
  if node = 0 then none else some (h.parentColor node)

def updateParentColor (h : Heap) (node : ℕ) (f : ℕ → ℕ) : Option Heap :=
  if node = 0 then none else some (h.storeParentColor node (f (h.parentColor node)))

def rbParent (h : Heap) (node : ℕ) : Option ℕ :=
  (h.rbParentColor node).map fun w => w &&& (2 ^ 64 - 4)

def rbColor (h : Heap) (node : ℕ) : Option ℕ := (h.rbParentColor node).map fun w => w &&& 1

def rbIsRed (h : Heap) (node : ℕ) : Option Bool := (h.rbColor node).map fun c => c == 0

def rbIsBlack (h : Heap) (node : ℕ) : Option Bool := (h.rbColor node).map fun c => c != 0

def rbSetRed (h : Heap) (node : ℕ) : Option Heap :=
  h.updateParentColor node fun w => w &&& (2 ^ 64 - 2)

def rbSetBlack (h : Heap) (node : ℕ) : Option Heap := h.updateParentColor node fun w => w ||| 1

def rbSetParent (h : Heap) (node p : ℕ) : Option Heap :=
  h.updateParentColor node fun w => (w &&& 3) ||| p

def rbSetColor (h : Heap) (node color : ℕ) : Option Heap :=
  h.updateParentColor node fun w => (w &&& (2 ^ 64 - 2)) ||| color

def rbLinkNode (h : Heap) (node parent : ℕ) (rbLink : Cell) : Heap :=
  (((h.storeParentColor node parent).store (.child .right node) 0).store (.child .left node)
    0).store rbLink node

def rotateTo (side : Side) (h : Heap) (node : ℕ) : Option Heap := do
  let up ← h.rbChild side.other node
  let parent ← h.rbParent node
  let inner ← h.rbChild side up
  let h ← h.setChild side.other node inner
  let h ← if inner ≠ 0 then h.rbSetParent inner node else some h
  let h ← h.setChild side up node
  let h ← h.rbSetParent up parent
  let h ←
    if parent ≠ 0 then do
      let child ← h.rbChild side parent
      if node = child then h.setChild side parent up else h.setChild side.other parent up
    else some (h.store .root up)
  h.rbSetParent node up

def rbRotateLeft (h : Heap) (node : ℕ) : Option Heap := rotateTo .left h node

def rbRotateRight (h : Heap) (node : ℕ) : Option Heap := rotateTo .right h node

def rotate (h : Heap) (node : ℕ) : Side → Option Heap
  | .left => h.rbRotateLeft node
  | .right => h.rbRotateRight node

def isRedNode (h : Heap) (node : ℕ) : Option Bool := if node = 0 then some false else h.rbIsRed node

def isBlackOrNull (h : Heap) (node : ℕ) : Option Bool :=
  if node = 0 then some true else h.rbIsBlack node

def insertFix (side : Side) (h : Heap) (node parent gparent : ℕ) : Option (Heap × ℕ) := do
  let uncle ← h.rbChild side.other gparent
  if ← h.isRedNode uncle then
    let h ← h.rbSetBlack uncle
    let h ← h.rbSetBlack parent
    let h ← h.rbSetRed gparent
    some (h, gparent)
  else
    let inner ← h.rbChild side.other parent
    let (h, parent, node) ←
      if inner = node then (h.rotate parent side).map fun h => (h, node, parent)
      else some (h, parent, node)
    let h ← h.rbSetBlack parent
    let h ← h.rbSetRed gparent
    let h ← h.rotate gparent side.other
    some (h, node)

def insertColorLoop : ℕ → Heap → ℕ → Option Heap
  | 0, _, _ => none
  | fuel + 1, h, node => do
    let parent ← h.rbParent node
    if ← h.isRedNode parent then
      let gparent ← h.rbParent parent
      let left ← h.rbLeft gparent
      let (h, node) ← insertFix (if parent = left then .left else .right) h node parent gparent
      insertColorLoop fuel h node
    else h.rbSetBlack (h.cells .root)

def rbInsertColor (h : Heap) (node : ℕ) : Option Heap := insertColorLoop walkLimit h node

def eraseFix (side : Side) (h : Heap) (parent : ℕ) : Option (Heap × Option (ℕ × ℕ)) := do
  let other ← h.rbChild side.other parent
  let (h, other) ←
    if ← h.rbIsRed other then do
      let h ← h.rbSetBlack other
      let h ← h.rbSetRed parent
      let h ← h.rotate parent side
      let other ← h.rbChild side.other parent
      some (h, other)
    else some (h, other)
  let left ← h.rbLeft other
  let right ← h.rbRight other
  if (← h.isBlackOrNull left) && (← h.isBlackOrNull right) then
    let h ← h.rbSetRed other
    let up ← h.rbParent parent
    some (h, some (parent, up))
  else
    let outer ← h.rbChild side.other other
    let (h, other) ←
      if ← h.isBlackOrNull outer then do
        let inner ← h.rbChild side other
        let h ← h.rbSetBlack inner
        let h ← h.rbSetRed other
        let h ← h.rotate other side.other
        let other ← h.rbChild side.other parent
        some (h, other)
      else some (h, other)
    let color ← h.rbColor parent
    let h ← h.rbSetColor other color
    let h ← h.rbSetBlack parent
    let outer ← h.rbChild side.other other
    let h ← h.rbSetBlack outer
    let h ← h.rotate parent side
    some (h, none)

def eraseColorLoop : ℕ → Heap → ℕ → ℕ → Option (Heap × ℕ)
  | 0, _, _, _ => none
  | fuel + 1, h, node, parent => do
    if (← h.isBlackOrNull node) && decide (node ≠ h.cells .root) then
      let left ← h.rbLeft parent
      match ← eraseFix (if left = node then .left else .right) h parent with
      | (h, some (node, parent)) => eraseColorLoop fuel h node parent
      | (h, none) => some (h, h.cells .root)
    else some (h, node)

def rbEraseColor (h : Heap) (node parent : ℕ) : Option Heap := do
  let (h, node) ← eraseColorLoop walkLimit h node parent
  if node ≠ 0 then h.rbSetBlack node else some h

def farthest (side : Side) : ℕ → Heap → ℕ → Option ℕ
  | 0, _, _ => none
  | fuel + 1, h, node => do
    let child ← h.rbChild side node
    if child ≠ 0 then farthest side fuel h child else some node

def replaceChild (h : Heap) (p node child : ℕ) : Option Heap :=
  if p ≠ 0 then do
    let left ← h.rbLeft p
    if left = node then h.setRbLeft p child else h.setRbRight p child
  else some (h.store .root child)

def detachSuccessor (h : Heap) (old node child parent : ℕ) : Option (Heap × ℕ) :=
  if parent = old then some (h, node)
  else do
    let h ← if child ≠ 0 then h.rbSetParent child parent else some h
    let h ← h.setRbLeft parent child
    let right ← h.rbRight old
    let h ← h.setRbRight node right
    let right ← h.rbRight old
    let h ← h.rbSetParent right node
    some (h, parent)

def eraseInner (h : Heap) (old : ℕ) : Option (Heap × ℕ × ℕ × ℕ) := do
  let node ← h.rbRight old
  let node ← farthest .left walkLimit h node
  let oldParent ← h.rbParent old
  let h ← h.replaceChild oldParent old node
  let child ← h.rbRight node
  let parent ← h.rbParent node
  let color ← h.rbColor node
  let (h, parent) ← h.detachSuccessor old node child parent
  let w ← h.rbParentColor old
  let h ← h.updateParentColor node fun _ => w
  let left ← h.rbLeft old
  let h ← h.setRbLeft node left
  let h ← h.rbSetParent left node
  some (h, child, parent, color)

def eraseOuter (h : Heap) (node child : ℕ) : Option (Heap × ℕ × ℕ × ℕ) := do
  let parent ← h.rbParent node
  let color ← h.rbColor node
  let h ← if child ≠ 0 then h.rbSetParent child parent else some h
  let h ← h.replaceChild parent node child
  some (h, child, parent, color)

def rbErase (h : Heap) (node : ℕ) : Option Heap := do
  let left ← h.rbLeft node
  let right ← h.rbRight node
  let (h, child, parent, color) ←
    if left = 0 then eraseOuter h node right
    else if right = 0 then eraseOuter h node left
    else eraseInner h node
  if color = RB_BLACK then h.rbEraseColor child parent else some h

def rbFirst (h : Heap) : Option ℕ :=
  if h.cells .root = 0 then some 0 else farthest .left walkLimit h (h.cells .root)

def rbLast (h : Heap) : Option ℕ :=
  if h.cells .root = 0 then some 0 else farthest .right walkLimit h (h.cells .root)

def climb (side : Side) : ℕ → Heap → ℕ → Option ℕ
  | 0, _, _ => none
  | fuel + 1, h, node => do
    let parent ← h.rbParent node
    if parent = 0 then some parent
    else
      let child ← h.rbChild side parent
      if node = child then climb side fuel h parent else some parent

def neighbour (side : Side) (h : Heap) (node : ℕ) : Option ℕ := do
  let parent ← h.rbParent node
  if parent = node then some 0
  else
    let child ← h.rbChild side node
    if child ≠ 0 then farthest side.other walkLimit h child else climb side walkLimit h node

def rbNext (h : Heap) (node : ℕ) : Option ℕ := neighbour .right h node

def rbPrev (h : Heap) (node : ℕ) : Option ℕ := neighbour .left h node

def copyNode (h : Heap) (victim new : ℕ) : Option Heap := do
  let w ← h.rbParentColor victim
  let right ← h.rbRight victim
  let left ← h.rbLeft victim
  let h ← h.updateParentColor new fun _ => w
  let h ← h.setRbRight new right
  h.setRbLeft new left

def rbReplaceNode (h : Heap) (victim new : ℕ) : Option Heap := do
  let parent ← h.rbParent victim
  let h ← h.replaceChild parent victim new
  let left ← h.rbLeft victim
  let h ← if left ≠ 0 then h.rbSetParent left new else some h
  let right ← h.rbRight victim
  let h ← if right ≠ 0 then h.rbSetParent right new else some h
  h.copyNode victim new

end Heap

end AnalysisPrograms.GraphC
