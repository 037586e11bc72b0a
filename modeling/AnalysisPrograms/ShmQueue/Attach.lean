import Mathlib.Data.List.Perm.Subperm
import Mathlib.Data.Fintype.Basic
import AnalysisPrograms.ShmQueue.Fifo

namespace AnalysisPrograms.ShmQueue

open Foundations RingBuffer Interleaving Execution

variable {st : Type}

inductive Op (st : Type)
  | get (pSt : st)
  | put (pSt : st)
deriving DecidableEq

inductive Stage (st : Type)
  | outside
  | noSegment
  | created
  | writing (field : ℕ)
  | attached
  | checked
  | noSemaphore
  | madeSemaphore
  | ready
  | entered (op : Op st)
  | derived (op : Op st)
  | leaving
  | aborted
deriving DecidableEq

inductive ProcessStep (st : Type)
  | shmget
  | shmgetCreate
  | memset
  | writeHead
  | checkMax
  | semget
  | semgetCreate (value : ℕ)
  | setval
  | semopDown (op : Op st)
  | derive
  | body
  | semopUp
deriving DecidableEq

structure Process (st : Type) where
  stage : Stage st
  queue : ShmObjQueue

/-- The two kernel objects under the key. `accepted` and `delivered` only record the objects whose
`put` or `get` has answered true. -/
structure Ipc (st : Type) where
  shm : Option (Segment st)
  sem : Option ℕ
  accepted : List st
  delivered : List st

def Segment.zeroed (zero : st) (room : ℕ) : Segment st := ⟨⟨0, 0, 0, 0⟩, fun _ => zero, room⟩

def writeField (num : ℕ) : ℕ → ShmHead → ShmHead
  | 0, h => { h with maxPoolSize := num }
  | 1, h => { h with actPoolSize := 0 }
  | 2, h => { h with exFirst := 0 }
  | _, h => { h with exLast := 0 }

def bodyStep (proc : Process st) (ipc : Ipc st) (op : Op st) : Option (Process st × Ipc st) := do
  let seg ← ipc.shm
  match op with
  | .get pSt =>
    let (q, seg, ret, obj) ← getBody proc.queue seg pSt
    some (⟨.leaving, q⟩,
      { ipc with
        shm := some seg
        delivered := if ret then ipc.delivered ++ [obj] else ipc.delivered })
  | .put pSt =>
    let (q, seg, ret) ← putBody proc.queue seg pSt
    some (⟨.leaving, q⟩,
      { ipc with shm := some seg, accepted := if ret then ipc.accepted ++ [pSt] else ipc.accepted })

def processStep (N : Num) (zero : st) (proc : Process st) (ipc : Ipc st) (step : ProcessStep st) :
    Option (Process st × Ipc st) :=
  match proc.stage, step with
  | .outside, .shmget =>
    match ipc.shm with
    | none => some ({ proc with stage := .noSegment }, ipc)
    | some seg => some (⟨.attached, ⟨N.val, seg.head.exFirst, seg.head.exLast⟩⟩, ipc)
  | .noSegment, .shmgetCreate =>
    -- an existing segment is returned as it is, and cleared by the next step all the same
    some ({ proc with stage := .created },
      { ipc with shm := some (ipc.shm.getD (.zeroed zero N.val)) })
  | .created, .memset => do
    let seg ← ipc.shm
    some ({ proc with stage := .writing 0 }, { ipc with shm := some (.zeroed zero seg.room) })
  | .writing field, .writeHead => do
    let seg ← ipc.shm
    let ipc := { ipc with shm := some (seg.withHead (writeField N.val field)) }
    if field < 3 then some ({ proc with stage := .writing (field + 1) }, ipc)
    else some (⟨.attached, ⟨N.val, 0, 0⟩⟩, ipc)
  | .attached, .checkMax => do
    let seg ← ipc.shm
    if toInt seg.head.maxPoolSize ≠ N.val then some ({ proc with stage := .aborted }, ipc)
    else some ({ proc with stage := .checked }, ipc)
  | .checked, .semget =>
    match ipc.sem with
    | none => some ({ proc with stage := .noSemaphore }, ipc)
    | some _ => some ({ proc with stage := .ready }, ipc)
  | .noSemaphore, .semgetCreate value =>
    some ({ proc with stage := .madeSemaphore }, { ipc with sem := some (ipc.sem.getD value) })
  | .madeSemaphore, .setval => some ({ proc with stage := .ready }, { ipc with sem := some 1 })
  | .ready, .semopDown op =>
    -- the process sleeps while the value is 0
    match ipc.sem with
    | some (value + 1) => some ({ proc with stage := .entered op }, { ipc with sem := some value })
    | _ => none
  | .entered op, .derive => do
    let seg ← ipc.shm
    some (⟨.derived op, derivePointers proc.queue seg⟩, ipc)
  | .derived op, .body => bodyStep proc ipc op
  | .leaving, .semopUp => do
    let value ← ipc.sem
    some ({ proc with stage := .ready }, { ipc with sem := some (value + 1) })
  | _, _ => none

abbrev System (P st : Type) := Global P (Process st) (Ipc st)

def fresh {P : Type} (members : P → ShmObjQueue) : System P st :=
  ⟨fun p => ⟨.outside, members p⟩, ⟨none, none, [], []⟩⟩

def Process.inside (proc : Process st) : Prop :=
  match proc.stage with
  | .entered _ | .derived _ | .leaving => True
  | _ => False

def Process.constructed (proc : Process st) : Prop := proc.stage = .ready ∨ proc.inside

def Ipc.queued (ipc : Ipc st) : List st :=
  match ipc.shm with
  | none => []
  | some seg => contents seg.objs seg.head.maxPoolSize seg.head.exFirst seg.head.actPoolSize

def NothingLost (ipc : Ipc st) : Prop := ipc.accepted.Subperm (ipc.delivered ++ ipc.queued)

/-- A constructor starts when no other process has started one, or some process has finished its
own. -/
def startsInTurn {P : Type} (s : System P st) (a : P × ProcessStep st) : Prop :=
  a.2 = .shmget → (∀ p, (s.locals p).stage = .outside) ∨ ∃ p, (s.locals p).constructed

inductive Moves (N : Num) (zero : st) :
    Process st → Ipc st → ProcessStep st → Process st → Ipc st → Prop
  | shmgetFails {q ipc} (hshm : ipc.shm = none) : Moves N zero ⟨.outside, q⟩ ipc .shmget
    ⟨.noSegment, q⟩ ipc
  | shmgetFinds {q ipc seg} (hshm : ipc.shm = some seg) :
    Moves N zero ⟨.outside, q⟩ ipc .shmget
    ⟨.attached, ⟨N.val, seg.head.exFirst, seg.head.exLast⟩⟩ ipc
  | create {q ipc} :
    Moves N zero ⟨.noSegment, q⟩ ipc .shmgetCreate ⟨.created, q⟩
      { ipc with shm := some (ipc.shm.getD (.zeroed zero N.val)) }
  | memset {q ipc seg} (hshm : ipc.shm = some seg) :
    Moves N zero ⟨.created, q⟩ ipc .memset ⟨.writing 0, q⟩
    { ipc with shm := some (.zeroed zero seg.room) }
  | write {q ipc seg field} (hshm : ipc.shm = some seg) (hfield : field < 3) :
    Moves N zero ⟨.writing field, q⟩ ipc .writeHead ⟨.writing (field + 1), q⟩
      { ipc with shm := some (seg.withHead (writeField N.val field)) }
  | written {q ipc seg field} (hshm : ipc.shm = some seg) (hfield : ¬field < 3) :
    Moves N zero ⟨.writing field, q⟩ ipc .writeHead ⟨.attached, ⟨N.val, 0, 0⟩⟩
      { ipc with shm := some (seg.withHead (writeField N.val field)) }
  | abort {q ipc seg} (hshm : ipc.shm = some seg) (hmax : toInt seg.head.maxPoolSize ≠ N.val) :
    Moves N zero ⟨.attached, q⟩ ipc .checkMax ⟨.aborted, q⟩ ipc
  | check {q ipc seg} (hshm : ipc.shm = some seg) (hmax : toInt seg.head.maxPoolSize = N.val) :
    Moves N zero ⟨.attached, q⟩ ipc .checkMax ⟨.checked, q⟩ ipc
  | semgetFails {q ipc} (hsem : ipc.sem = none) : Moves N zero ⟨.checked, q⟩ ipc .semget
    ⟨.noSemaphore, q⟩ ipc
  | semgetFinds {q ipc value} (hsem : ipc.sem = some value) :
    Moves N zero ⟨.checked, q⟩ ipc .semget ⟨.ready, q⟩ ipc
  | semgetCreate {q ipc value} :
    Moves N zero ⟨.noSemaphore, q⟩ ipc (.semgetCreate value) ⟨.madeSemaphore, q⟩
      { ipc with sem := some (ipc.sem.getD value) }
  | setval {q ipc} : Moves N zero ⟨.madeSemaphore, q⟩ ipc .setval ⟨.ready, q⟩
    { ipc with sem := some 1 }
  | enter {q ipc value op} (hsem : ipc.sem = some (value + 1)) :
    Moves N zero ⟨.ready, q⟩ ipc (.semopDown op) ⟨.entered op, q⟩ { ipc with sem := some value }
  | derive {q ipc seg op} (hshm : ipc.shm = some seg) :
    Moves N zero ⟨.entered op, q⟩ ipc .derive ⟨.derived op, derivePointers q seg⟩ ipc
  | body {q ipc op proc ipc'} (hbody : bodyStep ⟨.derived op, q⟩ ipc op = some (proc, ipc')) :
    Moves N zero ⟨.derived op, q⟩ ipc .body proc ipc'
  | leave {q ipc value} (hsem : ipc.sem = some value) :
    Moves N zero ⟨.leaving, q⟩ ipc .semopUp ⟨.ready, q⟩ { ipc with sem := some (value + 1) }

theorem moves_of_processStep {N : Num} {zero : st} {proc proc' : Process st} {ipc ipc' : Ipc st}
    {step : ProcessStep st} (h : processStep N zero proc ipc step = some (proc', ipc')) :
    Moves N zero proc ipc step proc' ipc' := by
  obtain ⟨stage, q⟩ := proc
  unfold processStep at h
  split at h
  case h_1 hstage =>
    obtain rfl : stage = .outside := hstage
    cases hshm : ipc.shm with
    | none =>
      rw [hshm] at h
      cases h
      exact .shmgetFails hshm
    | some seg =>
      rw [hshm] at h
      cases h
      exact .shmgetFinds hshm
  case h_2 hstage =>
    obtain rfl : stage = .noSegment := hstage
    cases h
    exact .create
  case h_3 hstage =>
    obtain rfl : stage = .created := hstage
    obtain ⟨seg, hshm, h⟩ := Option.bind_eq_some_iff.mp h
    cases h
    exact .memset hshm
  case h_4 field hstage =>
    obtain rfl : stage = .writing field := hstage
    obtain ⟨seg, hshm, h⟩ := Option.bind_eq_some_iff.mp h
    by_cases hfield : field < 3
    · rw [if_pos hfield] at h
      cases h
      exact .write hshm hfield
    · rw [if_neg hfield] at h
      cases h
      exact .written hshm hfield
  case h_5 hstage =>
    obtain rfl : stage = .attached := hstage
    obtain ⟨seg, hshm, h⟩ := Option.bind_eq_some_iff.mp h
    by_cases hmax : toInt seg.head.maxPoolSize = N.val
    · rw [if_neg (not_not_intro hmax)] at h
      cases h
      exact .check hshm hmax
    · rw [if_pos hmax] at h
      cases h
      exact .abort hshm hmax
  case h_6 hstage =>
    obtain rfl : stage = .checked := hstage
    cases hsem : ipc.sem with
    | none =>
      rw [hsem] at h
      cases h
      exact .semgetFails hsem
    | some value =>
      rw [hsem] at h
      cases h
      exact .semgetFinds hsem
  case h_7 hstage =>
    obtain rfl : stage = .noSemaphore := hstage
    cases h
    exact .semgetCreate
  case h_8 hstage =>
    obtain rfl : stage = .madeSemaphore := hstage
    cases h
    exact .setval
  case h_9 hstage =>
    obtain rfl : stage = .ready := hstage
    split at h
    · rename_i value hsem
      cases h
      exact .enter hsem
    · cases h
  case h_10 op hstage =>
    obtain rfl : stage = .entered op := hstage
    obtain ⟨seg, hshm, h⟩ := Option.bind_eq_some_iff.mp h
    cases h
    exact .derive hshm
  case h_11 op hstage =>
    obtain rfl : stage = .derived op := hstage
    exact .body h
  case h_12 hstage =>
    obtain rfl : stage = .leaving := hstage
    obtain ⟨value, hsem, h⟩ := Option.bind_eq_some_iff.mp h
    cases h
    exact .leave hsem
  case h_13 => cases h

end AnalysisPrograms.ShmQueue
