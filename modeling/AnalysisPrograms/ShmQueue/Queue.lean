import Mathlib.Algebra.Group.Int.Defs
import Mathlib.Algebra.Group.Nat.Defs
import Mathlib.Data.Int.Notation
import AnalysisPrograms.Foundations.RingBuffer

namespace AnalysisPrograms.ShmQueue

open Foundations

structure ShmHead where
  maxPoolSize : ℕ
  actPoolSize : ℕ
  exFirst : ℕ
  exLast : ℕ

structure Segment (st : Type) where
  head : ShmHead
  objs : ℕ → st
  room : ℕ

/-- The members of one process. A pointer to an object is its index from `shmStart` on. -/
structure ShmObjQueue where
  shmEnd : ℕ
  first : ℕ
  last : ℕ

def increment (x : ℕ) : ℕ := (x + 1) % 2 ^ 32

def decrement (x : ℕ) : ℕ := (x + (2 ^ 32 - 1)) % 2 ^ 32

def toInt (x : ℕ) : ℤ := if x < 2 ^ 31 then x else x - 2 ^ 32

variable {st : Type}

namespace Segment

def withHead (seg : Segment st) (f : ShmHead → ShmHead) : Segment st :=
  { seg with head := f seg.head }

def load (seg : Segment st) (p : ℕ) : Option st := if p < seg.room then some (seg.objs p) else none

def store (seg : Segment st) (p : ℕ) (x : st) : Option (Segment st) :=
  if p < seg.room then some { seg with objs := Function.update seg.objs p x } else none

end Segment

def derivePointers (q : ShmObjQueue) (seg : Segment st) : ShmObjQueue :=
  { q with first := seg.head.exFirst, last := seg.head.exLast }

/-- `get` between `asynStart` and `asynEnd`; `pSt` is what the caller's object holds before. -/
def getBody (q : ShmObjQueue) (seg : Segment st) (pSt : st) :
    Option (ShmObjQueue × Segment st × Bool × st) := do
  if seg.head.actPoolSize < 0 then
    -- `clearup` would wait for the semaphore that this call holds; an `unsigned int` is never
    -- negative
    none
  else if seg.head.actPoolSize = 0 then some (q, seg, false, pSt)
  else
    let seg := seg.withHead fun h => { h with actPoolSize := decrement h.actPoolSize }
    let obj ← seg.load q.first
    let q := { q with first := q.first + 1 }
    let seg := seg.withHead fun h => { h with exFirst := increment h.exFirst }
    let (q, seg) :=
      if q.first = q.shmEnd then
        ({ q with first := 0 }, seg.withHead fun h => { h with exFirst := 0 })
      else (q, seg)
    let seg := if q.first = q.last then seg.withHead fun h => { h with actPoolSize := 0 } else seg
    some (q, seg, true, obj)

def putBody (q : ShmObjQueue) (seg : Segment st) (pSt : st) :
    Option (ShmObjQueue × Segment st × Bool) := do
  if seg.head.actPoolSize > seg.head.maxPoolSize then some (q, seg, false)
  else if seg.head.actPoolSize = seg.head.maxPoolSize then some (q, seg, false)
  else
    let seg ← seg.store q.last pSt
    let q := { q with last := q.last + 1 }
    let seg := seg.withHead fun h => { h with exLast := increment h.exLast }
    let (q, seg) :=
      if q.last = q.shmEnd then
        ({ q with last := 0 }, seg.withHead fun h => { h with exLast := 0 })
      else (q, seg)
    let seg := seg.withHead fun h => { h with actPoolSize := increment h.actPoolSize }
    some (q, seg, true)

def clearupBody (q : ShmObjQueue) (seg : Segment st) : ShmObjQueue × Segment st :=
  ({ q with first := 0, last := 0 },
    seg.withHead fun h => { h with actPoolSize := 0, exFirst := 0, exLast := 0 })

def getSizeBody (seg : Segment st) : ℤ := toInt seg.head.actPoolSize

def isFullBody (seg : Segment st) : Bool := seg.head.actPoolSize = seg.head.maxPoolSize

inductive Call (st : Type)
  | get (pSt : st)
  | put (pSt : st)
  | clearup
  | getSize
  | isFull

inductive Answer (st : Type)
  | get (ret : Bool) (pSt : st)
  | put (ret : Bool)
  | clearup
  | getSize (size : ℤ)
  | isFull (ret : Bool)

def call (q : ShmObjQueue) (seg : Segment st) :
    Call st → Option (ShmObjQueue × Segment st × Answer st)
  | .get pSt => do
    let (q, seg, ret, pSt) ← getBody (derivePointers q seg) seg pSt
    some (q, seg, .get ret pSt)
  | .put pSt => do
    let (q, seg, ret) ← putBody (derivePointers q seg) seg pSt
    some (q, seg, .put ret)
  | .clearup =>
    let (q, seg) := clearupBody (derivePointers q seg) seg
    some (q, seg, .clearup)
  | .getSize => some (derivePointers q seg, seg, .getSize (getSizeBody seg))
  | .isFull => some (derivePointers q seg, seg, .isFull (isFullBody seg))

end AnalysisPrograms.ShmQueue
