import AnalysisPrograms.Foundations.Ownership
import AnalysisPrograms.RefCount.SmartPointer

namespace AnalysisPrograms.RefCount

open Foundations FiniteMap Execution

def State.target (s : State) (p : ℕ) : Option ℕ := (valueAt s.pointers .null p).obj

/-- Smart pointers may be members of managed objects: `(o, p)` is in `stored` if `p` is a member of
`o`. The newest come first, which is the order in which members are destroyed. -/
structure World extends State where
  stored : List (ℕ × ℕ)

namespace World

variable (w : World)

def members (o : ℕ) : List ℕ := (w.stored.filter fun a => a.1 = o).map Prod.snd

def lift (f : State → Option State) : Option World :=
  (f w.toState).map fun s => { w with toState := s }

def write (p : ℕ) (sp : SmartPointer) : Option World :=
  if p ∈ w.pointers then some { w with pointers := w.pointers.insert p sp } else none

def place (p : ℕ) (home : Option ℕ) : Option World :=
  match home with
  | none => some w
  | some o => if o ∈ w.objects then some { w with stored := (o, p) :: w.stored } else none

def forget (p : ℕ) : World :=
  { w with pointers := w.pointers.erase p, stored := w.stored.filter fun a => a.2 ≠ p }

def delete (release : World → ℕ → Option World) (o : ℕ) : Option World := do
  let w ← exec (fun w p => (release w p).map fun w => w.forget p) w (w.members o)
  w.lift fun s => s.delete o

/-- `__release__`, where `fuel` bounds how deep deletions nest. -/
def release : ℕ → World → ℕ → Option World
  | 0, _, _ => none
  | fuel + 1, w, p => do
    let sp ← w.pointers.lookup p
    match sp.obj with
    | none => some w
    | some o =>
      let w ← w.lift fun s => s.lock sp.countMutex
      let w ← w.lift fun s => s.refDecrease o
      let refCount ← w.getRefCount o
      let w ← if refCount = 0 then w.delete (release fuel) o else some w
      let w ← w.write p { sp with obj := none }
      let w ← w.lift fun s => s.unlock sp.countMutex
      let w ← if refCount = 0 then w.lift fun s => s.freeMutex sp.countMutex else some w
      w.write p .null

def construct (p : ℕ) (obj home : Option ℕ) : Option World := do
  let w ← w.lift fun s => s.construct p obj
  w.place p home

def assign (fuel p other : ℕ) : Option World := do
  let w ← w.release fuel p
  let sp ← w.pointers.lookup other
  match sp.obj with
  | none => some w
  | some _ => w.lift fun s => (s.setPointer p sp).retain p

def copyConstruct (fuel p other : ℕ) (home : Option ℕ) : Option World := do
  let w ← w.construct p none home
  w.assign fuel p other

def destruct (fuel p : ℕ) : Option World := (w.release fuel p).map fun w => w.forget p

def copyObject (fuel p other tmp : ℕ) (fresh : List ℕ) : Option World := do
  let w ← w.copyConstruct fuel tmp other none
  let source ← w.pointers.lookup tmp
  let old ← source.obj
  let object ← w.objects.lookup old
  let members := (w.members old).reverse
  if fresh.length ≠ members.length then none
  else do
    let o := w.next
    let w ← w.lift fun s => some (s.newObject object.castable)
    let w ← exec (fun w a => w.copyConstruct fuel a.1 a.2 (some o)) w (fresh.zip members)
    let w ← w.lift fun s => some (s.setPointer p ⟨some o, none⟩)
    let w ← w.destruct fuel tmp
    let object ← w.objects.lookup o
    w.lift fun s => (s.setPointer p ⟨some o, some object.countMutex⟩).retain p

def copy (fuel p other tmp : ℕ) (fresh : List ℕ) : Option World := do
  let w ← w.release fuel p
  let sp ← w.pointers.lookup other
  match sp.obj with
  | none => some w
  | some _ => w.copyObject fuel p other tmp fresh

def Outside (p : ℕ) : Prop := p ∈ w.pointers ∧ p ∉ w.stored.map Prod.snd

instance (p : ℕ) : Decidable (w.Outside p) := inferInstanceAs (Decidable (_ ∧ _))

def Goes (gone : ℕ → Prop) (p : ℕ) : Prop :=
  Ownership.Goes (fun p o => w.target p = some o) (fun p o => (o, p) ∈ w.stored) gone p

end World

inductive Action
  | newObject (castable : Bool)
  | construct (p : ℕ) (obj home : Option ℕ)
  | copyConstruct (p other : ℕ) (home : Option ℕ)
  | assign (p other : ℕ)
  | release (p : ℕ)
  | copy (p other tmp : ℕ) (fresh : List ℕ)
  | destruct (p : ℕ)

def World.step (fuel : ℕ) (w : World) : Action → Option World
  | .newObject castable => w.lift fun s => some (s.newObject castable)
  | .construct p obj home => w.construct p obj home
  | .copyConstruct p other home => w.copyConstruct fuel p other home
  | .assign p other => w.assign fuel p other
  | .release p => w.release fuel p
  | .copy p other tmp fresh => w.copy fuel p other tmp fresh
  | .destruct p => w.destruct fuel p

def World.start : World := ⟨RefCount.start, []⟩

end AnalysisPrograms.RefCount
