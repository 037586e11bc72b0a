import AnalysisPrograms.Shfs.Request

namespace AnalysisPrograms.Shfs

open Foundations FiniteMap Bytes

inductive SendAnswer
  | accepted (n : ℕ)
  | eagain
  | failed

/-- One write event: the answers of its `send` calls, EAGAIN behind the last, and of its `read`. -/
structure WriteAnswers where
  sends : List SendAnswer
  chunk : ℕ

/-- `send` accepts `n + 1` bytes, or all of them where there are fewer. -/
def sendLoop (fd : ℤ) : List SendAnswer → Kernel → Buf → ℤ → ℤ × Kernel × Buf
  | [], k, buf, sent => (sent, k, buf)
  | answer :: answers, k, buf, sent =>
    let ntow := buf.mSize - buf.mSeek
    if 0 = ntow then (sent, k, buf)
    else
      match answer with
      | .accepted n =>
        let sentSize := min (n + 1) ntow.toNat
        let k := k.send fd (buf.pending.take sentSize)
        sendLoop fd answers k { buf with mSeek := buf.mSeek + sentSize } (sent + sentSize)
      | .eagain => (sent, k, buf)
      | .failed => (-1, k, buf)

def sendBuf (k : Kernel) (fd : ℤ) (answers : List SendAnswer) (buf : Buf) : ℤ × Kernel × Buf :=
  sendLoop fd answers k buf 0

def SERVER_NAME : String := "Server: shfs/1.0\r\n"

def statusLine : RespStatus → Option String
  | .rsHttp200 => some "HTTP/1.1 200 OK\r\n"
  | .rsHttp403 => some "HTTP/1.1 403 Forbidden\r\n"
  | .rsHttp404 => some "HTTP/1.1 404 File Not Found\r\n"
  | .rsHttp206 => none

def headerText (status : String) (len : List UInt8) (mime : String) : List UInt8 :=
  text status ++ text SERVER_NAME ++ text "Content-Length: " ++ len ++ text "\r\n" ++
    text "Content-Transfer-Encoding: binary\r\n" ++
    text "Cache-Control: must-revalidate, post-check=0, pre-check=0\r\n" ++
    text "Connection: keep-alive\r\n" ++ text "Pragma: public\r\n" ++
    text "Content-Type: " ++ text mime ++ text "\r\n\r\n"

def Buf.fill (buf : Buf) (bytes : List UInt8) : Buf :=
  { buf.store 0 bytes with mSeek := 0, mSize := bytes.length }

def refill (k : Kernel) (clt : Client) (chunk : ℕ) : Option (Kernel × Client) :=
  match clt.mResp.mRespStatus with
  | some .rsHttp200 => do
    guard (clt.mResp.mFile.mFd ≠ -1)
    let (bytes, k) := k.read clt.mResp.mFile.mFd clt.mSendBuf.mCapacity.toNat chunk
    guard (bytes.length > 0)
    some (k, { clt with mSendBuf := clt.mSendBuf.fill bytes })
  | some .rsHttp403 => some (k, { clt with mSendBuf := clt.mSendBuf.fill HTTP403CONTENT })
  | some .rsHttp404 => some (k, { clt with mSendBuf := clt.mSendBuf.fill HTTP404CONTENT })
  | _ => some (k, clt)

def httpSend (k : Kernel) (clt : Client) (answers : WriteAnswers) : Option (ℤ × Kernel × Client) :=
  do
  let (sendRslt, k, buf) := sendBuf k clt.mCmnctFd answers.sends clt.mSendBuf
  let clt := { clt with mSendBuf := buf }
  if sendRslt = -1 then some (-1, k, clt)
  else
    guard (sendRslt ≥ 0)
    let clt := { clt with mResp := { clt.mResp with mSentSize := clt.mResp.mSentSize + sendRslt } }
    if clt.mSendBuf.mSeek < clt.mSendBuf.mSize then some (0, k, clt)
    else if clt.mResp.mSentSize ≥ clt.mResp.mTotalSize then
      some (0, k, { clt with mSelectType := { mr := true, mw := false } })
    else
      let (k, clt) ← refill k { clt with mSendBuf := cleanBuf clt.mSendBuf } answers.chunk
      some (0, k, clt)

def startResp (clt : Client) : Option Client := do
  let (realLen, len) := offsetToStr clt.mResp.mFile.mSize 32
  guard (realLen > 0)
  let clt := { clt with mSendBuf := cleanBuf clt.mSendBuf }
  let status ← clt.mResp.mRespStatus
  let line ← statusLine status
  let header := headerText line len clt.mResp.mpcMime
  let ntow : ℤ := header.length
  guard (ntow < clt.mSendBuf.mCapacity)
  some { clt with
    mSendBuf := { clt.mSendBuf.store 0 (header ++ [0]) with mSize := ntow }
    mResp := { clt.mResp with mTotalSize := toOffT (ntow + clt.mResp.mFile.mSize) } }

def handleHttpResp (k : Kernel) (clt : Client) (answers : WriteAnswers) :
    Option (Kernel × Client) := do
  let clt ← if 0 = clt.mResp.mTotalSize then startResp clt else some clt
  guard (clt.mResp.mTotalSize > 0)
  let (_, k, clt) ← httpSend k clt answers
  some (k, clt)

end AnalysisPrograms.Shfs
