import AnalysisPrograms.Foundations.Execution
import AnalysisPrograms.Foundations.FiniteMap

namespace AnalysisPrograms.MemPool

open Foundations FiniteMap

def NULL : ℤ := 0

def MIN_POOL_SIZE : ℤ := 4096

def sizeofNgxPool : ℤ := 48

structure NgxPool where
  maxSize : ℤ
  dataLast : ℤ
  dataEnd : ℤ
  dataNext : ℤ
  dataFailed : ℤ
  current : Option ℤ

structure Memory where
  live : Map ℤ ℤ
  blocks : Map ℤ NgxPool
  calls : ℕ
  mallocs : List ℤ
  frees : List ℤ

def Memory.init : Memory := ⟨∅, ∅, 0, [], []⟩

/-- Any behaviour of `malloc` that answers NULL or a block apart from every live one. -/
structure Malloc where
  answer : ℕ → Map ℤ ℤ → ℤ → Option ℤ
  fresh : ∀ calls live n p, answer calls live n = some p →
    0 < p ∧ ∀ q m, live.lookup q = some m → p + n ≤ q ∨ q + m ≤ p

namespace Memory

def malloc (os : Malloc) (mem : Memory) (n : ℤ) : Option ℤ × Memory :=
  match os.answer mem.calls mem.live n with
  | none => (none, { mem with calls := mem.calls + 1 })
  | some p =>
    (some p, { mem with
      live := mem.live.insert p n
      calls := mem.calls + 1
      mallocs := mem.mallocs ++ [p] })

def free (mem : Memory) (p : ℤ) : Option Memory :=
  if p ∈ mem.live then
    some { mem with
      live := mem.live.erase p
      blocks := mem.blocks.erase p
      frees := mem.frees ++ [p] }
  else none

def write (mem : Memory) (p : ℤ) (b : NgxPool) : Memory :=
  { mem with blocks := mem.blocks.insert p b }

/-- A walk over the blocks that takes more steps than this goes round for ever. -/
def walkLimit (mem : Memory) : ℕ := mem.blocks.keys.card + 1

def next (mem : Memory) (p : ℤ) : ℤ :=
  match mem.blocks.lookup p with
  | some b => b.dataNext
  | none => NULL

end Memory

def updateCurrent (newPool : ℤ) : ℕ → Memory → ℤ → Option (ℤ × Memory)
  | 0, _, _ => none
  | limit + 1, mem, iter => do
    let b ← mem.blocks.lookup iter
    if NULL = b.dataNext then some (iter, mem)
    else
      let current :=
        if b.dataFailed > 4 then
          if NULL = b.dataNext then some newPool else some b.dataNext
        else b.current
      updateCurrent newPool limit
        (mem.write iter { b with current := current, dataFailed := b.dataFailed + 1 }) b.dataNext

def ngxPallocBlock (os : Malloc) (mem : Memory) (pool : ℤ) (size : ℤ) : Option (ℤ × Memory) := do
  let head ← mem.blocks.lookup pool
  let sizep := head.dataEnd - pool
  match mem.malloc os sizep with
  | (none, mem) => some (NULL, mem)
  | (some p, mem) =>
    let newPool : NgxPool :=
      { maxSize := head.maxSize
        dataLast := p + sizeofNgxPool + size
        dataEnd := p + sizep
        dataNext := NULL
        dataFailed := 0
        current := none }
    let current ← head.current
    let (iter, mem) ← updateCurrent p mem.walkLimit (mem.write p newPool) current
    let tail ← mem.blocks.lookup iter
    some (p + sizeofNgxPool, mem.write iter { tail with dataNext := p })

def ngxCreatePool (os : Malloc) (mem : Memory) (size : ℤ) : ℤ × Memory :=
  let size := if size < MIN_POOL_SIZE then MIN_POOL_SIZE else size
  if size < 2 * sizeofNgxPool then (NULL, mem)
  else
    match mem.malloc os size with
    | (none, mem) => (NULL, mem)
    | (some p, mem) =>
      (p, mem.write p
        { maxSize := size - sizeofNgxPool
          dataLast := p + sizeofNgxPool
          dataEnd := p + size
          dataNext := NULL
          dataFailed := 0
          current := some p })

def findBlock (mem : Memory) (size : ℤ) : ℕ → ℤ → Option ℤ
  | 0, _ => none
  | limit + 1, p =>
    if NULL = p then some NULL
    else do
      let b ← mem.blocks.lookup p
      if b.dataEnd - b.dataLast ≥ size then some p
      else findBlock mem size limit b.dataNext

def ngxPalloc (os : Malloc) (mem : Memory) (pool : ℤ) (size : ℤ) : Option (ℤ × Memory) := do
  let head ← mem.blocks.lookup pool
  if head.maxSize < size then some (NULL, mem)
  else
    let current ← head.current
    let p ← findBlock mem size mem.walkLimit current
    if NULL = p then ngxPallocBlock os mem pool size
    else
      let b ← mem.blocks.lookup p
      some (b.dataLast, mem.write p { b with dataLast := b.dataLast + size })

def destroyLoop : ℕ → Memory → ℤ → Option Memory
  | 0, _, _ => none
  | limit + 1, mem, pool =>
    if NULL = pool then some mem
    else do
      let p := pool
      let b ← mem.blocks.lookup pool
      let mem ← mem.free p
      destroyLoop limit mem b.dataNext

def ngxDestroyPool (mem : Memory) (pool : ℤ) : Option Memory := destroyLoop mem.walkLimit mem pool

end AnalysisPrograms.MemPool
