import Mathlib.Logic.Function.Basic
import AnalysisPrograms.Foundations.Decimal

namespace AnalysisPrograms.Join

open Foundations Decimal

def MIN_BITMAP_SIZE : ℕ := 268435456

def MAX_ELEMENT : ℕ := 2000000000

def NEWLINE : UInt8 := 10

structure File where
  rest : List UInt8
  eof : Bool

def lineOf : ℕ → List UInt8 → List UInt8
  | 0, _ => []
  | _ + 1, [] => []
  | room + 1, b :: bs => if b = NEWLINE then [b] else b :: lineOf room bs

/-- At the end of the file the buffer stays as it is; the indicator is set by an attempt to read
behind the end. -/
def fgets (size : ℕ) (f : File) (row : List UInt8) : File × List UInt8 :=
  if f.rest = [] then ({ f with eof := true }, row)
  else
    let line := lineOf (size - 1) f.rest
    let rest := f.rest.drop line.length
    (⟨rest,
      f.eof ||
      (rest.isEmpty && decide (line.length < size - 1) && decide (line.getLast? ≠ some NEWLINE))⟩,
      line)

def isSpace (b : UInt8) : Bool := b = 32 || decide (9 ≤ b.toNat ∧ b.toNat ≤ 13)

/-- `none` where the value is no `int`. -/
def atoi (row : List UInt8) : Option ℤ :=
  let int (z : ℤ) : Option ℤ := if -2 ^ 31 ≤ z ∧ z < 2 ^ 31 then some z else none
  match row.dropWhile isSpace with
  | [] => some 0
  | c :: cs =>
    if c = 45 then int (-value (cs.takeWhile isDigit))
    else if c = 43 then int (value (cs.takeWhile isDigit))
    else int (value ((c :: cs).takeWhile isDigit))

structure Bitmap where
  data : ℕ → BitVec 8
  size : ℕ

inductive Opt
  | BITMAP_SET
  | BITMAP_CLR
  | BITMAP_REVERSE

def reverseBit (a : BitVec 8) (ofst : ℕ) : BitVec 8 := BitVec.twoPow 8 ofst ^^^ a

def Opt.store : Opt → BitVec 8 → ℕ → BitVec 8
  | .BITMAP_SET, a, k => a ||| BitVec.twoPow 8 k
  | .BITMAP_CLR, a, k => a &&& ~~~BitVec.twoPow 8 k
  | .BITMAP_REVERSE, a, k => reverseBit a k

inductive Message
  | usage
  | outOfRange (line elmt : ℕ)
  | notSupported

structure Run where
  bm : Bitmap
  stderr : List Message

/-- `none` is an access outside the bitmap. -/
def handleElement (opt : Opt) (line elmt : ℕ) (r : Run) : Option Run :=
  if elmt > MAX_ELEMENT then some { r with stderr := r.stderr ++ [.outOfRange line elmt] }
  else if elmt / 8 < r.bm.size then
    let byte := opt.store (r.bm.data (elmt / 8)) (elmt % 8)
    some { r with bm := { r.bm with data := Function.update r.bm.data (elmt / 8) byte } }
  else none

def readLoop (opt : Opt) : ℕ → File → List UInt8 → ℕ → Run → Option Run
  | 0, _, _, _, _ => none
  | fuel + 1, f, row, line, r =>
    if f.eof then some r
    else do
      let (f, row) := fgets 32 f row
      let line := (line + 1) % 2 ^ 32
      let number ← atoi row
      let r ← handleElement opt line (number % 2 ^ 32).toNat r
      readLoop opt fuel f row line r

abbrev FileSystem := List UInt8 → Option (List UInt8)

def handleBitmap (fs : FileSystem) (filename : List UInt8) (opt : Opt) (r : Run) :
    Option (ℤ × Run) := do
  guard (MIN_BITMAP_SIZE ≤ r.bm.size)
  let text ← fs filename
  let r ← readLoop opt (text.length + 2) ⟨text, false⟩ [] 0 r
  some (0, r)

def dumpByte (data : ℕ → BitVec 8) (out : List ℕ) (i : ℕ) : Option (List ℕ) :=
  (List.range 8).foldlM (fun out j =>
    if (data i).getLsbD j then if i * 8 + j < 2 ^ 31 then some (out ++ [i * 8 + j]) else none
    else some out) out

/-- The numbers of the lines printed; `none` is an overflow of the `int`. -/
def dumpBm (bm : Bitmap) : Option (List ℕ) := (List.range bm.size).foldlM (dumpByte bm.data) []

structure Result where
  status : ℤ
  stdout : List ℕ
  stderr : List Message

def EXIT_SUCCESS : ℤ := 0

def EXIT_FAILURE : ℤ := 1

def handleBitmaps (fs : FileSystem) : List (List UInt8 × Opt) → Run → Option (Bool × Run)
  | [], r => some (true, r)
  | (filename, opt) :: rest, r => do
    let (ret, r) ← handleBitmap fs filename opt r
    if ret ≠ 0 then some (false, r) else handleBitmaps fs rest r

def join (fs : FileSystem) (calls : List (List UInt8 × Opt)) : Option Result := do
  let (done, r) ← handleBitmaps fs calls ⟨⟨fun _ => 0, MIN_BITMAP_SIZE⟩, []⟩
  if done then
    let out ← dumpBm r.bm
    some ⟨EXIT_SUCCESS, out, r.stderr⟩
  else some ⟨EXIT_FAILURE, [], r.stderr⟩

def ascii (s : String) : List UInt8 := s.toList.map fun c => UInt8.ofNat c.toNat

def JOIN_TYPE_INNER : List UInt8 := ascii "inner_join"

def JOIN_TYPE_LEFT : List UInt8 := ascii "left_join"

def JOIN_TYPE_RIGHT : List UInt8 := ascii "right_join"

def JOIN_TYPE_OUTER : List UInt8 := ascii "outer_join"

/-- Whether `ju_strncmp` returns 0: only the length of the shorter string counts. -/
def juStrncmp (s₁ s₂ : List UInt8) : Bool :=
  s₁.take (min s₁.length s₂.length) = s₂.take (min s₁.length s₂.length)

def main (fs : FileSystem) : List (List UInt8) → Option Result
  | [_, inputType, left, right] =>
    if juStrncmp JOIN_TYPE_INNER inputType then
      join fs [(left, .BITMAP_SET), (right, .BITMAP_CLR), (left, .BITMAP_REVERSE)]
    else if juStrncmp JOIN_TYPE_LEFT inputType then
      join fs [(left, .BITMAP_SET), (right, .BITMAP_CLR)]
    else if juStrncmp JOIN_TYPE_RIGHT inputType then
      join fs [(right, .BITMAP_SET), (left, .BITMAP_CLR)]
    else if juStrncmp JOIN_TYPE_OUTER inputType then
      join fs [(left, .BITMAP_SET), (right, .BITMAP_SET)]
    else some ⟨EXIT_FAILURE, [], [.notSupported]⟩
  | _ => some ⟨EXIT_FAILURE, [], [.usage]⟩

end AnalysisPrograms.Join
