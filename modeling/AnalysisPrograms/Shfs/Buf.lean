import Mathlib.Data.Int.Notation
import AnalysisPrograms.Foundations.Bytes

namespace AnalysisPrograms.Shfs

open Foundations Bytes

def MIN_BUF_SIZE : ℤ := 4096

structure Buf where
  mpData : Option (ℕ → UInt8)
  mSeek : ℤ
  mSize : ℤ
  mCapacity : ℤ

abbrev MallocAnswer := Option (ℕ → UInt8)

def createBuf (buf : Buf) (size : ℤ) (malloc : MallocAnswer) : ℤ × Buf :=
  let size := if size < MIN_BUF_SIZE then MIN_BUF_SIZE else size
  match malloc with
  | none => (-1, { buf with mpData := none })
  | some data => (0, { mpData := some data, mSeek := -1, mSize := 0, mCapacity := size })

def cleanBuf (buf : Buf) : Buf := { buf with mSeek := 0, mSize := 0 }

def isBufEmpty (buf : Buf) : Bool := buf.mpData.isNone

def isBufFull (buf : Buf) : Bool := !decide (buf.mSize < buf.mCapacity - 1)

def doublesizeBuf (buf : Buf) (n : ℤ) (malloc : MallocAnswer) : Option (ℤ × Buf) := do
  let tmpSize := n * buf.mCapacity
  guard (n > 1)
  match malloc with
  | none => some (-1, buf)
  | some tmp =>
    let tmp := match buf.mpData with
      | some data => blit tmp 0 (slice data 0 buf.mSize.toNat)
      | none => tmp
    some (0, { buf with mpData := some tmp, mCapacity := tmpSize })

def destroyBuf (buf : Buf) : Buf := { buf with mpData := none, mSize := 0, mCapacity := 0 }

def Buf.store (buf : Buf) (i : ℕ) (bytes : List UInt8) : Buf :=
  { buf with mpData := buf.mpData.map fun data => blit data i bytes }

def Buf.pending (buf : Buf) : List UInt8 :=
  match buf.mpData with
  | some data => slice data buf.mSeek.toNat (buf.mSize - buf.mSeek).toNat
  | none => []

end AnalysisPrograms.Shfs
