import Mathlib.Algebra.Order.Group.Unbundled.Int
import Mathlib.Data.Nat.Digits.Defs
import AnalysisPrograms.Foundations.Bytes
import AnalysisPrograms.Foundations.MachineInt

namespace AnalysisPrograms.Shfs

open Foundations Bytes MachineInt

def text (s : String) : List UInt8 := s.toList.map fun c => UInt8.ofNat c.toNat

def SPACE : UInt8 := 0x20
def CR : UInt8 := 0x0d
def SLASH : UInt8 := 0x2f
def DOT : UInt8 := 0x2e

def charValue (b : UInt8) : ℤ := if b.toNat < 128 then b.toNat else b.toNat - 256

def toOffT (x : ℤ) : ℤ := Int.bmod x (2 ^ 64)

def hashLoop : List UInt8 → ℤ → ℤ
  | [], key => key
  | b :: bs, key => if b = 0 then key else hashLoop bs (toInt32 (key * 32 + charValue b))

def strHash (str : List UInt8) : Option ℤ := do
  guard (str.length > 0)
  some (hashLoop str 0)

def digitLoop : ℕ → ℕ → List UInt8
  | 0, _ => []
  | n + 1, value =>
    if value = 0 then []
    else
      let nextValue := value / 10
      UInt8.ofNat (value - nextValue * 10 + 48) :: digitLoop n nextValue

def offsetToStr (value : ℤ) (n : ℕ) : ℤ × List UInt8 :=
  if value < 0 then (-1, [])
  else if value = 0 then (1, [48])
  else
    let digits := digitLoop n value.toNat
    (digits.length, digits.reverse)

/-- Every digit counts ten times its value, whatever its place. -/
def strToOffset (num : List UInt8) : ℤ :=
  num.foldl (fun rslt b => rslt + (charValue b - 48) * 10) 0

def repeatLoop (str : ℤ → UInt8) : ℕ → ℤ → ℤ → ℤ × ℤ
  | 0, left, right => (left, right)
  | turns + 1, left, right =>
    if right ≥ 0 then
      if str left ≠ str right then (left, right) else repeatLoop str turns (left - 1) (right - 1)
    else (left, right)

def maxLenLoop (str : ℤ → UInt8) (passLen : ℕ) : ℕ → ℤ
  | 0 => 0
  | maxLen + 1 =>
    let _ := repeatLoop str (passLen + 1) maxLen (passLen - 1)
    maxLenLoop str passLen maxLen

def findMaxRepeat (str : ℤ → UInt8) (passLen : ℕ) : Option ℤ := do
  guard (1 < passLen ∧ (List.range (passLen + 1)).all fun k => str k ≠ 0)
  some (maxLenLoop str passLen (passLen - 1))

def kmpLoop (str : ℕ → UInt8) (strLen : ℕ) (sub : ℤ → UInt8) (subLen : ℕ) : ℕ → ℕ → ℤ → Option ℤ
  | 0, _, _ => some (-1)
  | turns + 1, i, j =>
    if (strLen : ℤ) - i > subLen - j then
      if (subLen : ℤ) = j then some (i - j)
      else if str i = sub j then kmpLoop str strLen sub subLen turns (i + 1) (j + 1)
      else if j > 1 then do
        let j ← findMaxRepeat sub j.toNat
        kmpLoop str strLen sub subLen turns (i + 1) j
      else kmpLoop str strLen sub subLen turns (i + 1) (j - 1)
    else some (-1)

def findStringKmp (str : ℕ → UInt8) (strLen : ℕ) (sub : ℤ → UInt8) (subLen : ℕ) : Option ℤ :=
  if subLen = 0 then some (-1) else kmpLoop str strLen sub subLen (strLen + 1) 0 0

end AnalysisPrograms.Shfs
