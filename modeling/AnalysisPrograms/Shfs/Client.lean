import AnalysisPrograms.Foundations.FiniteMap
import AnalysisPrograms.Shfs.Buf
import AnalysisPrograms.Shfs.Text

namespace AnalysisPrograms.Shfs

open Foundations FiniteMap Bytes

inductive Descriptor
  | socket (sent : List UInt8)
  | file (contents : List UInt8) (offset : ℕ)

structure Kernel where
  fds : Map ℤ Descriptor
  calls : ℕ

/-- Any operating system that hands out descriptors not in use. -/
structure Os where
  unusedFd : ℕ → Map ℤ Descriptor → ℤ
  unused : ∀ calls fds, unusedFd calls fds ∉ fds ∧ 0 < unusedFd calls fds

namespace Kernel

def newFd (os : Os) (k : Kernel) (d : Descriptor) : ℤ × Kernel :=
  let fd := os.unusedFd k.calls k.fds
  (fd, { fds := k.fds.insert fd d, calls := k.calls + 1 })

def close (k : Kernel) (fd : ℤ) : Option Kernel :=
  if fd ∈ k.fds then some { k with fds := k.fds.erase fd } else none

def send (k : Kernel) (fd : ℤ) (bytes : List UInt8) : Kernel :=
  match k.fds.lookup fd with
  | some (.socket sent) => { k with fds := k.fds.insert fd (.socket (sent ++ bytes)) }
  | _ => k

def read (k : Kernel) (fd : ℤ) (want chunk : ℕ) : List UInt8 × Kernel :=
  match k.fds.lookup fd with
  | some (.file contents offset) =>
    let n := min (chunk + 1) (min want (contents.length - offset))
    ((contents.drop offset).take n, { k with fds := k.fds.insert fd (.file contents (offset + n)) })
  | _ => ([], k)

def sentOn (k : Kernel) (fd : ℤ) : List UInt8 :=
  match k.fds.lookup fd with
  | some (.socket sent) => sent
  | _ => []

end Kernel

inductive RespStatus
  | rsHttp200
  | rsHttp206
  | rsHttp403
  | rsHttp404
deriving DecidableEq

structure SelectType where
  mr : Bool
  mw : Bool
deriving DecidableEq

structure FileT where
  mFd : ℤ
  mSize : ℤ

structure HttpRequ where
  mRequMethod : ℤ
  mRangeB : ℤ

structure HttpResp where
  mRespStatus : Option RespStatus
  mFile : FileT
  mpcMime : String
  mRangeB : ℤ
  mSentSize : ℤ
  mTotalSize : ℤ

structure Client where
  mCmnctFd : ℤ
  mSelectType : SelectType
  mRequ : HttpRequ
  mResp : HttpResp
  mRecvBuf : Buf
  mSendBuf : Buf

def Client.zero : Client where
  mCmnctFd := 0
  mSelectType := ⟨false, false⟩
  mRequ := ⟨0, 0⟩
  mResp := ⟨none, ⟨0, 0⟩, "", 0, 0, 0⟩
  mRecvBuf := ⟨none, 0, 0, 0⟩
  mSendBuf := ⟨none, 0, 0, 0⟩

structure Contents where
  bytes : List UInt8
  fits : bytes.length < 2 ^ 63

structure Fs where
  realpath : List UInt8 → Option (List UInt8)
  statIsDir : List UInt8 → Option Bool
  contents : List UInt8 → Option Contents

/-- A string literal in memory; what lies around it is not known. -/
structure Literal (s : String) where
  view : ℤ → UInt8
  bytes : slice (fun k : ℕ => view k) 0 (text s).length = text s
  terminated : view (text s).length = 0

structure Server where
  pathRoot : List UInt8
  fs : Fs
  upperRange : Literal "RANGE"
  lowerRange : Literal "Range"
  bytes : Literal "bytes"

end AnalysisPrograms.Shfs
