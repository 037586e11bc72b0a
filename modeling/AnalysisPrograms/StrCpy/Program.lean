import AnalysisPrograms.Foundations.BlockMoves
import AnalysisPrograms.Foundations.MachineInt

namespace AnalysisPrograms.StrCpy

open Foundations.BlockMoves Foundations.Indices Foundations.MachineInt

abbrev Memory := ℤ → UInt8

structure Address where
  val : ℤ
  pos : 0 < val
  small : val < 2 ^ 63

def intMax : ℕ := 2147483647

def abs (x : BitVec 64) : BitVec 64 := (x ^^^ x.sshiftRight 63) - x.sshiftRight 63

def strLenFrom (m : Memory) (str : ℤ) : ℕ → ℕ → Option ℕ
  | 0, count => if m (str + count) = 0 then some count else none
  | left + 1, count => if m (str + count) = 0 then some count else strLenFrom m str left (count + 1)

def strLen (m : Memory) : Option Address → Option ℤ
  | none => some (-1)
  | some str => (strLenFrom m str.val intMax 0).map Int.ofNat

def decrement (n : ℤ) : Option ℤ := if n - 1 < -2 ^ 31 then none else some (n - 1)

def toSize (x : ℤ) : ℤ := x % 2 ^ 64

structure Sizes where
  quotient : ℤ
  reminderBase : ℤ
  reminder : ℤ

/-- The three counts; the arithmetic is done in `size_t`, and the results are stored in `int`
variables. -/
def sizes (n : ℤ) : Sizes :=
  let quotient := toInt32 (toSize n / 8)
  ⟨quotient, toInt32 (toSize (toSize quotient * 8)), toInt32 (toSize n % 8)⟩

def copyUp (m : Memory) (dest src : ℤ) (z : Sizes) : Memory :=
  let m := (upTo 0 z.quotient).foldl (moveAt 8 dest src) m
  if z.reminder > 0 then (upTo z.reminderBase (z.reminderBase + z.reminder)).foldl
    (moveAt 1 dest src) m else m

def copyDown (m : Memory) (dest src : ℤ) (z : Sizes) : Memory :=
  let m :=
    if z.reminder > 0 then (upTo z.reminderBase (z.reminderBase + z.reminder)).reverse.foldl
      (moveAt 1 dest src) m
    else m
  (upTo 0 z.quotient).reverse.foldl (moveAt 8 dest src) m

/-- The result and the memory that is left; `none` is undefined behaviour. -/
def strCpyN (m : Memory) (pDest pcSrc : Option Address) (n overlap : ℤ) :
    Option (Option Address × Memory) :=
  match pDest, pcSrc with
  | none, _ => some (none, m)
  | some _, none => some (none, m)
  | some dest, some src =>
    let close : Bool := (abs (BitVec.ofInt 64 (dest.val - src.val))).toInt < n
    if close ∧ overlap = 0 then some (none, m)
    else do
      let lowToHigh : Bool := if close then dest.val < src.val else true
      let srcLen ← strLen m (some src)
      let n ← decrement n
      let n := if n < srcLen then n else srcLen
      let m := if lowToHigh then copyUp m dest.val src.val (sizes n)
        else copyDown m dest.val src.val (sizes n)
      return (some dest, Function.update m (dest.val + n) 0)

def cpyLoop : ℕ → Memory → ℤ → ℤ → Memory × ℤ
  | 0, m, dst, _ => (Function.update m dst 0, dst)
  | n + 1, m, dst, src =>
    let m := Function.update m dst (m src)
    if m dst = 0 then (m, dst) else cpyLoop n m (dst + 1) (src + 1)

def cpystrn (m : Memory) (dst src : ℤ) : ℕ → Memory × ℤ
  | 0 => (m, dst)
  | n + 1 => cpyLoop n m dst src

def IsString (m : Memory) (str : ℤ) (len : ℕ) : Prop :=
  (∀ k : ℕ, k < len → m (str + k) ≠ 0) ∧ m (str + len) = 0

def distance (a b : Address) : ℤ := (a.val - b.val).natAbs

end AnalysisPrograms.StrCpy
