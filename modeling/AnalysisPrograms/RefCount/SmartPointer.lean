import AnalysisPrograms.Foundations.Execution
import AnalysisPrograms.Foundations.FiniteMap
import Mathlib.Data.Int.Notation

namespace AnalysisPrograms.RefCount

open Foundations FiniteMap

structure Object where
  refCount : ℤ
  countMutex : ℕ
  castable : Bool

structure SmartPointer where
  obj : Option ℕ
  countMutex : Option ℕ
deriving DecidableEq

def SmartPointer.null : SmartPointer := ⟨none, none⟩

/-- The live objects, mutexes and smart pointers. The constructor of the n-th object makes mutex n.
`deleted` and `freed` record what was given back, in order. -/
structure State where
  objects : Map ℕ Object
  mutexes : Map ℕ Bool
  pointers : Map ℕ SmartPointer
  next : ℕ
  deleted : List ℕ
  freed : List ℕ

namespace State

variable (s : State)

def setPointer (p : ℕ) (sp : SmartPointer) : State := { s with pointers := s.pointers.insert p sp }

/-- `pthread_mutex_lock`: a mutex that is locked, given back or NULL does not let the call
through. -/
def lock (mutex : Option ℕ) : Option State := do
  let m ← mutex
  let locked ← s.mutexes.lookup m
  if locked then none else some { s with mutexes := s.mutexes.insert m true }

def unlock (mutex : Option ℕ) : Option State := do
  let m ← mutex
  let locked ← s.mutexes.lookup m
  if locked then some { s with mutexes := s.mutexes.insert m false } else none

def addToCount (o : ℕ) (d : ℤ) : Option State := do
  let object ← s.objects.lookup o
  some { s with objects := s.objects.insert o { object with refCount := object.refCount + d } }

def refIncrease (o : ℕ) : Option State := s.addToCount o 1

def refDecrease (o : ℕ) : Option State := s.addToCount o (-1)

def getRefCount (o : ℕ) : Option ℤ := (s.objects.lookup o).map Object.refCount

def delete (o : ℕ) : Option State :=
  if o ∈ s.objects then some { s with objects := s.objects.erase o, deleted := s.deleted ++ [o] }
    else none

def freeMutex (mutex : Option ℕ) : Option State := do
  let m ← mutex
  if m ∈ s.mutexes then some { s with mutexes := s.mutexes.erase m, freed := s.freed ++ [m] }
    else none

def newObject (castable : Bool) : State :=
  { s with
    objects := s.objects.insert s.next ⟨0, s.next, castable⟩
    mutexes := s.mutexes.insert s.next false
    next := s.next + 1 }

def release (p : ℕ) : Option State := do
  let sp ← s.pointers.lookup p
  match sp.obj with
  | none => some s
  | some o =>
    let s ← s.lock sp.countMutex
    let s ← s.refDecrease o
    let refCount ← s.getRefCount o
    let s ← if refCount = 0 then s.delete o else some s
    let s := s.setPointer p { sp with obj := none }
    let s ← s.unlock sp.countMutex
    let s ← if refCount = 0 then s.freeMutex sp.countMutex else some s
    some (s.setPointer p .null)

def retain (p : ℕ) : Option State := do
  let sp ← s.pointers.lookup p
  let o ← sp.obj
  let s ← s.lock sp.countMutex
  let s ← s.refIncrease o
  s.unlock sp.countMutex

def construct (p : ℕ) (obj : Option ℕ) : Option State :=
  if p ∈ s.pointers then none
  else
    match obj with
    | none => some (s.setPointer p .null)
    | some o => do
      let object ← s.objects.lookup o
      -- `dynamic_cast` gives NULL for an object of another type, and its mutex is read next
      if !object.castable then none
      else (s.setPointer p ⟨some o, some object.countMutex⟩).retain p

def assign (p other : ℕ) : Option State := do
  let s ← s.release p
  let sp ← s.pointers.lookup other
  match sp.obj with
  | none => some s
  | some _ => (s.setPointer p sp).retain p

def copyConstruct (p other : ℕ) : Option State :=
  if p ∈ s.pointers then none else (s.setPointer p .null).assign p other

def destruct (p : ℕ) : Option State := do
  let s ← s.release p
  some { s with pointers := s.pointers.erase p }

def copyObject (p other tmp : ℕ) : Option State := do
  let s ← s.copyConstruct tmp other
  let source ← s.pointers.lookup tmp
  let object ← source.obj.bind s.objects.lookup
  let o := s.next
  let s := s.newObject object.castable
  let s := s.setPointer p ⟨some o, none⟩
  let s ← s.destruct tmp
  let object ← s.objects.lookup o
  let s := s.setPointer p ⟨some o, some object.countMutex⟩
  s.retain p

def copy (p other tmp : ℕ) : Option State := do
  let s ← s.release p
  let sp ← s.pointers.lookup other
  match sp.obj with
  | none => some s
  | some _ => s.copyObject p other tmp

end State

inductive Op
  | newObject (castable : Bool)
  | construct (p : ℕ) (obj : Option ℕ)
  | copyConstruct (p other : ℕ)
  | assign (p other : ℕ)
  | release (p : ℕ)
  | copy (p other tmp : ℕ)
  | destruct (p : ℕ)

def step (s : State) : Op → Option State
  | .newObject castable => some (s.newObject castable)
  | .construct p obj => s.construct p obj
  | .copyConstruct p other => s.copyConstruct p other
  | .assign p other => s.assign p other
  | .release p => s.release p
  | .copy p other tmp => s.copy p other tmp
  | .destruct p => s.destruct p

def start : State := ⟨∅, ∅, ∅, 0, [], []⟩

/-- The smart pointers an operation names are there (or not yet there, where it makes one), and an
object it is given is live and of the right type. -/
def wellFormed (s : State) : Op → Prop
  | .newObject _ => True
  | .construct p obj =>
    p ∉ s.pointers ∧ ∀ o ∈ obj, ∃ object ∈ s.objects.lookup o, object.castable = true
  | .copyConstruct p other => p ∉ s.pointers ∧ other ∈ s.pointers
  | .assign p other => p ∈ s.pointers ∧ other ∈ s.pointers
  | .release p => p ∈ s.pointers
  | .copy p other tmp => p ∈ s.pointers ∧ other ∈ s.pointers ∧ tmp ∉ s.pointers
  | .destruct p => p ∈ s.pointers

def references (pointers : Map ℕ SmartPointer) (o : ℕ) : ℕ :=
  total pointers .null fun sp => if sp.obj = some o then 1 else 0

structure Counted (s : State) : Prop where
  counts : ∀ o object, s.objects.lookup o = some object → object.refCount = references s.pointers o
  live : ∀ p sp o, s.pointers.lookup p = some sp → sp.obj = some o → o ∈ s.objects
  once : s.deleted.Nodup
  mutex : s.freed = s.deleted
  gone : ∀ o ∈ s.deleted, o ∉ s.objects

def LetsGo (s t : State) : Prop :=
  ∀ o, o ∈ t.deleted ∧ o ∉ s.deleted ↔ 0 < references s.pointers o ∧ references t.pointers o = 0

end AnalysisPrograms.RefCount
