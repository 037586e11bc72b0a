import AnalysisPrograms.Shfs.Ownership

namespace AnalysisPrograms.Shfs

open Foundations Execution FiniteMap

def FD_SETSIZE : ℤ := 1024

/-- A descriptor from `FD_SETSIZE` on has no place in the set. -/
def fdSet (fds : List ℤ) (fd : ℤ) : Option (List ℤ) :=
  if 0 ≤ fd ∧ fd < FD_SETSIZE then some (fd :: fds) else none

def fdSetIf (interest : Bool) (fds : List ℤ) (fd : ℤ) : Option (List ℤ) :=
  if interest then fdSet fds fd else some fds

structure FdSets where
  fdMax : ℤ
  r : List ℤ
  w : List ℤ

def watchClient (w : Worker) (sets : FdSets) (n : ℕ) : Option FdSets := do
  let clt := w.clients (containerOf n)
  guard (clt.mCmnctFd ∈ w.kernel.fds)
  let fdsR ← fdSetIf clt.mSelectType.mr sets.r clt.mCmnctFd
  let fdsW ← fdSetIf clt.mSelectType.mw sets.w clt.mCmnctFd
  some ⟨max sets.fdMax clt.mCmnctFd, fdsR, fdsW⟩

def watch (L : Layout) (lsnFd : ℤ) (w : Worker) : Option FdSets := do
  let fdsR ← fdSet [] lsnFd
  exec (watchClient w) ⟨lsnFd, fdsR, []⟩ (inuseNodes L w)

structure Events where
  readable : ℤ → Bool
  writable : ℤ → Bool
  connect : ConnectAnswers
  input : ℤ → ReadAnswers
  output : ℤ → WriteAnswers

inductive Selected
  | ready (ev : Events)
  | timeout
  | interrupted
  | failed

def FdSets.select (sets : FdSets) (ev : Events) : FdSets :=
  { sets with r := sets.r.filter ev.readable, w := sets.w.filter ev.writable }

/-- The search of `handle_read_events` ends with the last client where none has the descriptor. -/
def readClient (w : Worker) (fd : ℤ) : List ℕ → Option ℕ → Option ℕ
  | [], pClt => pClt
  | n :: ns, _ =>
    if cmnctFd w n = fd then some (containerOf n) else readClient w fd ns (some (containerOf n))

def readEvent (os : Os) (srv : Server) (L : Layout) (lsnFd : ℤ) (sets : FdSets) (ev : Events)
    (w : Worker) (fd : ℤ) : Option Worker :=
  if fd ∉ sets.r then some w
  else if fd = lsnFd then handleConnection os L w ev.connect
  else do
    let pClt ← readClient w fd (inuseNodes L w) none
    handleDataInput os srv L w pClt (ev.input fd)

def fdsUpTo (fdMax : ℤ) : List ℤ := (List.range (fdMax + 1).toNat).map fun fd : ℕ => (fd : ℤ)

def handleReadEvents (os : Os) (srv : Server) (L : Layout) (lsnFd : ℤ) (sets : FdSets)
    (ev : Events) (w : Worker) : Option Worker :=
  exec (readEvent os srv L lsnFd sets ev) w (fdsUpTo sets.fdMax)

/-- The loop of `handle_write_events`: it is left at a descriptor that no client has any more. -/
def writeLoop (L : Layout) (sets : FdSets) (ev : Events) : Worker → List ℤ → Option Worker
  | w, [] => some w
  | w, fd :: fds =>
    if fd ∉ sets.w then writeLoop L sets ev w fds
    else
      match (inuseNodes L w).find? fun n => cmnctFd w n = fd with
      | none => some w
      | some n => do
        let (kernel, clt) ← handleHttpResp w.kernel (w.clients (containerOf n)) (ev.output fd)
        writeLoop L sets ev { w.setClient (containerOf n) clt with kernel := kernel } fds

def handleWriteEvents (L : Layout) (sets : FdSets) (ev : Events) (w : Worker) : Option Worker :=
  writeLoop L sets ev w (fdsUpTo sets.fdMax)

def handleEvents (os : Os) (srv : Server) (L : Layout) (lsnFd : ℤ) (sets : FdSets) (ev : Events)
    (w : Worker) :
    Option Worker := do
  let w ← handleReadEvents os srv L lsnFd sets ev w
  handleWriteEvents L sets ev w

inductive Loop
  | running (w : Worker)
  | returned (rslt : ℤ) (w : Worker)

def Loop.worker : Loop → Worker
  | .running w => w
  | .returned _ w => w

def iteration (os : Os) (srv : Server) (L : Layout) (lsnFd : ℤ) : Loop → Selected → Option Loop
  | .returned rslt w, _ => some (.returned rslt w)
  | .running w, selected => do
    let sets ← watch L lsnFd w
    match selected with
    | .ready ev =>
      let w ← handleEvents os srv L lsnFd (sets.select ev) ev w
      some (.running w)
    | .timeout => some (.running w)
    | .interrupted => some (.running w)
    | .failed => some (.returned (-1) w)

def eventLoop (os : Os) (srv : Server) (L : Layout) (lsnFd : ℤ) (listens : Bool)
    (answers : List Selected) (w : Worker) : Option Loop :=
  if !listens then some (.returned (-1) w) else exec (iteration os srv L lsnFd) (.running w) answers

end AnalysisPrograms.Shfs
