import AnalysisPrograms.Foundations.Iteration
import Mathlib.Data.UInt
import Mathlib.Data.Int.Notation

namespace AnalysisPrograms.Kmp

open Foundations

structure CString where
  bytes : List UInt8
  plain : 0 ∉ bytes
deriving DecidableEq, Repr

def CString.memory (s : CString) : List UInt8 := s.bytes ++ [0]

def strlen (s : CString) : ℤ := s.bytes.length

/-- An access outside of a string or of the block of `next`, or a failed `assert`. -/
inductive Fault
  | string (i : ℤ)
  | table (i : ℤ)
  | assertion
deriving DecidableEq, Repr

def readChar (s : CString) (i : ℤ) : Except Fault UInt8 :=
  if 0 ≤ i ∧ i < s.memory.length then .ok (s.memory.getD i.toNat 0) else .error (.string i)

def readNext (next : List ℤ) (i : ℤ) : Except Fault ℤ :=
  if 0 ≤ i ∧ i < next.length then .ok (next.getD i.toNat 0) else .error (.table i)

def writeNext (next : List ℤ) (i v : ℤ) : Except Fault (List ℤ) :=
  if 0 ≤ i ∧ i < next.length then .ok (next.set i.toNat v) else .error (.table i)

structure GenNext where
  next : List ℤ
  i : ℤ
  j : ℤ

def genNextTurn (str : CString) (n : ℤ) (s : GenNext) : Except Fault (GenNext ⊕ List ℤ) :=
  if s.j < n - 1 then do
    let a ← readChar str s.i
    let b ← readChar str s.j
    if a = b then
      let next ← writeNext s.next (s.j + 1) (s.i + 1)
      return .inl ⟨next, s.i + 1, s.j + 1⟩
    else
      let i ← readNext s.next s.i
      if -1 = i then
        let next ← writeNext s.next (s.j + 1) 0
        return .inl ⟨next, 0, s.j + 1⟩
      else return .inl ⟨s.next, i, s.j⟩
  else return .inr s.next

def seedNext (n m : ℤ) (next : List ℤ) : Except Fault GenNext := do
  if m < n then throw .assertion
  let next ← writeNext next 0 (-1)
  let next ← writeNext next 1 0
  return ⟨next, 0, 1⟩

/-- `none` when the loop is not over after `fuel` turns. -/
def genNext (fuel : ℕ) (str : CString) (n : ℤ) (next : List ℤ) (m : ℤ) :
    Option (Except Fault (List ℤ)) :=
  match seedNext n m next with
  | .ok s => Iteration.run (Iteration.catching (genNextTurn str n)) fuel s
  | .error e => some (.error e)

structure Cursor where
  i : ℤ
  j : ℤ

def kmpTurn (text : CString) (textLen : ℤ) (pattern : CString) (patternLen : ℤ) (next : List ℤ)
    (s : Cursor) : Except Fault (Cursor ⊕ ℤ) :=
  if s.i < textLen ∧ s.j < patternLen then
    if -1 = s.j then return .inl ⟨s.i + 1, s.j + 1⟩
    else do
      let a ← readChar text s.i
      let b ← readChar pattern s.j
      if a = b then return .inl ⟨s.i + 1, s.j + 1⟩
      else
        let j ← readNext next s.j
        return .inl ⟨s.i, j⟩
  else if s.j ≥ patternLen then return .inr (s.i - patternLen)
  else return .inr (-1)

def kmp (fuel : ℕ) (text pattern : CString) : Option (Except Fault ℤ) :=
  let textLen := strlen text
  let patternLen := strlen pattern
  let next := List.replicate patternLen.toNat 0
  match genNext fuel pattern patternLen next patternLen with
  | none => none
  | some (.error e) => some (.error e)
  | some (.ok next) =>
    Iteration.run (Iteration.catching (kmpTurn text textLen pattern patternLen next)) fuel ⟨0, 0⟩

end AnalysisPrograms.Kmp
