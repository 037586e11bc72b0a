import AnalysisPrograms.Foundations.Execution
import AnalysisPrograms.Shfs.List
import AnalysisPrograms.Shfs.Response

namespace AnalysisPrograms.Shfs

open Foundations FiniteMap Bytes Links

def sizeofClient : ℕ := 152

def offsetOfNode : ℕ := 144

/-- Where the list cells are: two in the context, a local of `build_context`, one in every
client. -/
structure Layout where
  context : ℕ
  pFreeClients : ℕ
  cache : ℕ
  clientNo : ℕ
  context_pos : 0 < context
  local_pos : 0 < pFreeClients
  context_local : context + 48 ≤ pFreeClients ∨ pFreeClients + 8 ≤ context
  cache_context : context + 48 ≤ cache ∨ cache + sizeofClient * clientNo ≤ context
  cache_local : pFreeClients + 8 ≤ cache ∨ cache + sizeofClient * clientNo ≤ pFreeClients

namespace Layout

variable (L : Layout)

def freeClients : ℕ := L.context + 32

def inuseClients : ℕ := L.context + 40

def client (i : ℕ) : ℕ := L.cache + sizeofClient * i

def nodes : List ℕ := (List.range L.clientNo).map fun i => L.client i + offsetOfNode

end Layout

def containerOf (pNode : ℕ) : ℕ := pNode - offsetOfNode

structure Worker where
  words : Words
  clients : ℕ → Client
  kernel : Kernel

def Worker.setClient (w : Worker) (p : ℕ) (clt : Client) : Worker :=
  { w with clients := Function.update w.clients p clt }

def buildLoop (L : Layout) : ℕ → Words → Option Words
  | 0, mem => some mem
  | n + 1, mem => do
    let mem ← buildLoop L n mem
    addNode mem L.pFreeClients (L.client n + offsetOfNode)

def buildContext (L : Layout) (words : Words) (kernel : Kernel) : Option Worker := do
  let mem ← buildLoop L L.clientNo (Function.update words L.pFreeClients 0)
  let mem := Function.update mem L.freeClients (mem L.pFreeClients)
  let mem := Function.update mem L.inuseClients 0
  some ⟨mem, fun _ => Client.zero, kernel⟩

/-- What the system calls of `handle_connection` answer: `handle_accept` (−1 or a connection),
`fcntl`, `getsockopt` for both buffers, and `malloc` for both buffers. -/
structure ConnectAnswers where
  accept : Bool
  fcntl : Bool
  rcvbuf : Option ℤ
  sndbuf : Option ℤ
  recvMalloc : MallocAnswer
  sendMalloc : MallocAnswer

def openBuf (buf : Buf) (size : ℤ) (malloc : MallocAnswer) : ℤ × Buf :=
  if isBufEmpty buf then createBuf buf size malloc else (0, cleanBuf buf)

def initClient (clt : Client) (cmnctFd recvBufSize sendBufSize : ℤ) (a : ConnectAnswers) :
    Bool × Client :=
  let clt := { clt with
    mCmnctFd := cmnctFd
    mResp := { clt.mResp with mFile := { clt.mResp.mFile with mFd := -1 } }
    mSelectType := { clt.mSelectType with mr := true } }
  let (rslt, buf) := openBuf clt.mRecvBuf recvBufSize a.recvMalloc
  let clt := { clt with mRecvBuf := buf }
  if rslt = -1 then (false, clt)
  else
    let (rslt, buf) := openBuf clt.mSendBuf sendBufSize a.sendMalloc
    let clt := { clt with mSendBuf := buf }
    if rslt = -1 then (false, clt) else (true, clt)

def giveUp (w : Worker) (cmnctFd : ℤ) : Option Worker := do
  let kernel ← w.kernel.close cmnctFd
  some { w with kernel := kernel }

def handleConnection (os : Os) (L : Layout) (w : Worker) (a : ConnectAnswers) : Option Worker := do
  if w.words L.freeClients = 0 then some w
  else
    let pClt := containerOf (w.words L.freeClients)
    if !a.accept then some w
    else
      let (cmnctFd, kernel) := w.kernel.newFd os (.socket [])
      let w := { w with kernel := kernel }
      if !a.fcntl then giveUp w cmnctFd
      else
        match a.rcvbuf, a.sndbuf with
        | some recvBufSize, some sendBufSize =>
          let (ready, clt) := initClient (w.clients pClt) cmnctFd recvBufSize sendBufSize a
          let w := w.setClient pClt clt
          if !ready then giveUp w cmnctFd
          else
            let mem ← rmNode (L.clientNo + 1) w.words L.freeClients (w.words L.freeClients)
            let mem ← addNode mem L.inuseClients (pClt + offsetOfNode)
            some { w with words := mem }
        | _, _ => giveUp w cmnctFd

def closeFile (k : Kernel) (fd : ℤ) : Option Kernel :=
  if fd ≠ -1 then do
    guard (fd ≠ 0)
    k.close fd
  else some k

/-- The calls of `shutdown` and the `recv` calls that drain the connection change nothing here. -/
def handleDisconnection (L : Layout) (w : Worker) (pClt : ℕ) : Option Worker := do
  let clt := w.clients pClt
  let kernel ← w.kernel.close clt.mCmnctFd
  let mem ← rmNode (L.clientNo + 1) w.words L.inuseClients (pClt + offsetOfNode)
  let mem ← addNode mem L.freeClients (pClt + offsetOfNode)
  let kernel ← closeFile kernel clt.mResp.mFile.mFd
  let clt := { clt with
    mResp := { clt.mResp with mFile := { clt.mResp.mFile with mFd := -1 } }
    mSelectType := ⟨false, false⟩
    mRecvBuf := destroyBuf clt.mRecvBuf
    mSendBuf := destroyBuf clt.mSendBuf }
  some { words := mem, clients := Function.update w.clients pClt clt, kernel := kernel }

/-- One read event: the bytes that are there, how `recv` cuts them, whether the peer has closed
behind them, what `malloc` answers and whether `open` can give a descriptor. -/
structure ReadAnswers where
  input : List UInt8
  sizes : List ℕ
  closed : Bool
  mallocs : List MallocAnswer
  canOpen : Bool

inductive InputResult
  | answered
  | dropped

def growBuf (buf : Buf) (mallocs : List MallocAnswer) : Option (Option (Buf × List MallocAnswer)) :=
  do
  if isBufFull buf then
    if buf.mSize > 4096 * 4 then some none
    else
      let (rslt, buf) ← doublesizeBuf buf 2 (mallocs.headD none)
      if rslt = -1 then some none else some (some (buf, mallocs.tail))
  else some (some (buf, mallocs))

def takeRequest (os : Os) (srv : Server) (k : Kernel) (canOpen : Bool) (clt : Client) :
    Option (InputResult × Kernel × Client) := do
  let clt := { clt with mRecvBuf := clt.mRecvBuf.store clt.mRecvBuf.mSize.toNat [0] }
  let (requRslt, k, clt) ← handleHttpRequ os srv k clt canOpen
  if requRslt = 0 then
    some (.answered, k, { clt with
      mRecvBuf := cleanBuf clt.mRecvBuf
      mSelectType := { clt.mSelectType with mw := true } })
  else if requRslt = -1 then some (.dropped, k, clt)
  else none

def Buf.receive (buf : Buf) (bytes : List UInt8) : Buf :=
  { buf.store buf.mSize.toNat bytes with mSize := buf.mSize + bytes.length }

def inputLoop (os : Os) (srv : Server) (k : Kernel) (a : ReadAnswers) :
    ℕ → List UInt8 → List ℕ → List MallocAnswer → Client → Option (InputResult × Kernel × Client)
  | 0, _, _, _, _ => none
  | turns + 1, input, sizes, mallocs, clt => do
    match ← growBuf clt.mRecvBuf mallocs with
    | none => some (.dropped, k, clt)
    | some (buf, mallocs) =>
      let room := (buf.mCapacity - buf.mSize - 1).toNat
      if input = [] then
        if a.closed then some (.dropped, k, { clt with mRecvBuf := buf })
        else takeRequest os srv k a.canOpen { clt with mRecvBuf := buf }
      else
        let n := min room (sizes.headD input.length + 1)
        inputLoop os srv k a turns (input.drop n) sizes.tail mallocs
          { clt with mRecvBuf := buf.receive (input.take n) }

def dataInput (os : Os) (srv : Server) (k : Kernel) (a : ReadAnswers) (clt : Client) :
    Option (InputResult × Kernel × Client) :=
  inputLoop os srv k a (a.input.length + 1) a.input a.sizes a.mallocs clt

def handleDataInput (os : Os) (srv : Server) (L : Layout) (w : Worker) (pClt : ℕ)
    (a : ReadAnswers) :
    Option Worker := do
  let (rslt, kernel, clt) ← dataInput os srv w.kernel a (w.clients pClt)
  let w := { w.setClient pClt clt with kernel := kernel }
  match rslt with
  | .answered => some w
  | .dropped => handleDisconnection L w pClt

def inuseNodes (L : Layout) (w : Worker) : List ℕ :=
  collect w.words 0 L.clientNo (w.words L.inuseClients)

inductive Action
  | connect (a : ConnectAnswers)
  | disconnect (pClt : ℕ)
  | readable (pClt : ℕ) (a : ReadAnswers)
  | writable (pClt : ℕ) (a : WriteAnswers)

def step (os : Os) (srv : Server) (L : Layout) (w : Worker) : Action → Option Worker
  | .connect a => handleConnection os L w a
  | .disconnect pClt =>
    if pClt + offsetOfNode ∈ inuseNodes L w then handleDisconnection L w pClt else some w
  | .readable pClt a =>
    if pClt + offsetOfNode ∈ inuseNodes L w ∧ (w.clients pClt).mSelectType.mr then
      handleDataInput os srv L w pClt a
    else some w
  | .writable pClt a =>
    if pClt + offsetOfNode ∈ inuseNodes L w ∧ (w.clients pClt).mSelectType.mw then do
      let (kernel, clt) ← handleHttpResp w.kernel (w.clients pClt) a
      some { w.setClient pClt clt with kernel := kernel }
    else some w

end AnalysisPrograms.Shfs
