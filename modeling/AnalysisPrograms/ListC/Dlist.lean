import AnalysisPrograms.ListC.Bitmap

namespace AnalysisPrograms.ListC

open Foundations ByteHeap

/-- An `arraydlist_t` has `__prev__` at offset 0 and `__next__` at offset 8. -/
def arraydlistAdd (h : Heap) (prev next node : Ptr) (nodeIndex : ℤ) : Option Heap := do
  let prevNext ← h.load (prev.add 8)
  let h ← h.store (node.add 8) prevNext
  let nextPrev ← h.load next
  let h ← h.store node nextPrev
  let h ← h.store (prev.add 8) (BitVec.ofInt 64 nodeIndex)
  h.store next (BitVec.ofInt 64 nodeIndex)

def arraydlistDel (h : Heap) (prev next node : Ptr) : Option Heap := do
  let nodeNext ← h.load (node.add 8)
  let h ← h.store (prev.add 8) nodeNext
  let nodePrev ← h.load node
  let h ← h.store next nodePrev
  let h ← h.store (node.add 8) 0
  h.store node 0

structure Dlist where
  objSize : ℤ
  segment : Ptr
  cache : Ptr
  cacheSize : ℤ
  serviceConditionBitmap : Bitmap
  head : Ptr

namespace Dlist

def shellSize (d : Dlist) : ℤ := d.objSize + 16

def obj (d : Dlist) (index : ℤ) : Ptr := d.cache.add (d.shellSize * index)

def node (d : Dlist) (index : ℤ) : Ptr := d.cache.add (d.shellSize * index + d.objSize)

end Dlist

def dlistNext (h : Heap) (d : Dlist) (index : ℤ) : Option ℤ :=
  (h.load ((d.node index).add 8)).map BitVec.toInt

def initDlist (h : Heap) (junk : ℕ → UInt8) (objSize : ℤ) : Option (Heap × Dlist) := do
  let packSize := objSize + 16
  let cacheSize : ℤ := 8 * 8
  let bitmapSize := (cacheSize - 1) / 8 + 1
  let totalSize := bitmapSize + packSize * cacheSize
  guard (totalSize < 2 ^ 63)
  let (h, segment) := h.malloc totalSize.toNat junk
  let h ← h.memset segment 0 totalSize.toNat
  let d : Dlist :=
    { objSize, segment, cacheSize
      cache := segment.add bitmapSize
      serviceConditionBitmap := ⟨segment, bitmapSize⟩
      head := segment.add (bitmapSize + objSize) }
  let (_, h) ← bitmapSet h d.serviceConditionBitmap 0 1
  some (h, d)

def dlistSearchCache (h : Heap) (d : Dlist) (set : ℤ) : Option (ℤ × Heap) := do
  let index ← bitmapSearchFirst h d.serviceConditionBitmap false
  if index ≠ -1 ∧ set ≠ 0 then
    let (_, h) ← bitmapSet h d.serviceConditionBitmap index set
    some (index, h)
  else some (index, h)

/-- The new block has one byte for each slot, and neither `__cache_size__` nor `__head__`
follows. -/
def dlistResize (h : Heap) (junk : ℕ → UInt8) (d : Dlist) : Option (Heap × Dlist) := do
  let newCacheSize := d.cacheSize * 2
  let newBitmapSize := (newCacheSize - 1) / 8 + 1
  let (h, newCache) := h.malloc (newBitmapSize + newCacheSize).toNat junk
  let h ← h.memset newCache 0 (newBitmapSize + newCacheSize).toNat
  let h ← h.memcpy newCache d.serviceConditionBitmap.matrix d.cacheSize.toNat
  let h ← h.free d.serviceConditionBitmap.matrix
  some (h, { d with
    cache := newCache.add newBitmapSize
    serviceConditionBitmap := ⟨newCache, newBitmapSize⟩ })

def dlistAdd (h : Heap) (d : Dlist) (index : ℤ) : Option Heap := do
  let first ← h.load (d.head.add 8)
  arraydlistAdd h d.head (d.node first.toInt) (d.node index) index

def dlistPlace (h : Heap) (d : Dlist) (index : ℤ) (obj : List UInt8) : Option (Heap × Dlist) := do
  guard (index ≥ 0)
  let h ← h.write (d.obj index) (obj.take d.objSize.toNat)
  let h ← dlistAdd h d index
  some (h, d)

def dlistInsert (junk : ℕ → UInt8) (s : Heap × Dlist) (obj : List UInt8) : Option (Heap × Dlist) :=
  do
  let (index, h) ← dlistSearchCache s.1 s.2 1
  if index = -1 then
    let (h, d) ← dlistResize h junk s.2
    let (index, h) ← dlistSearchCache h d 1
    dlistPlace h d index obj
  else dlistPlace h s.2 index obj

def walk (h : Heap) (d : Dlist) : ℕ → ℤ → Option (List (List UInt8))
  | 0, _ => none
  | fuel + 1, index =>
    if index = 0 then some []
    else do
      let obj ← h.read (d.obj index) d.objSize.toNat
      let next ← dlistNext h d index
      let rest ← walk h d fuel next
      some (obj :: rest)

def Visits (s : Heap × Dlist) (objs : List (List UInt8)) : Prop :=
  ∃ first fuel, s.1.load (s.2.head.add 8) = some first ∧ walk s.1 s.2 fuel first.toInt = some objs

end AnalysisPrograms.ListC
