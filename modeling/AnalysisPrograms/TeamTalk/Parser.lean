import AnalysisPrograms.Foundations.Iteration
import Mathlib.Data.UInt
import Mathlib.Tactic.Ring
import Mathlib.Tactic.NormNum

namespace AnalysisPrograms.TeamTalk

open Foundations

def packH (n : ℕ) : Option (List UInt8) :=
  if n < 2 ^ 16 then some [UInt8.ofNat (n / 2 ^ 8), UInt8.ofNat n] else none

def packI (n : ℕ) : Option (List UInt8) :=
  if n < 2 ^ 32 then
    some [UInt8.ofNat (n / 2 ^ 24), UInt8.ofNat (n / 2 ^ 16), UInt8.ofNat (n / 2 ^ 8),
      UInt8.ofNat n]
  else none

def unpackH (b₁ b₀ : UInt8) : ℕ := b₁.toNat * 2 ^ 8 + b₀.toNat

def unpackI (b₃ b₂ b₁ b₀ : UInt8) : ℕ :=
  b₃.toNat * 2 ^ 24 + b₂.toNat * 2 ^ 16 + b₁.toNat * 2 ^ 8 + b₀.toNat

structure Head where
  pduLength : ℕ
  moduleId : ℕ
  commandId : ℕ
  version : ℕ
  reserved : ℕ
deriving DecidableEq, Repr

def unpackHead : List UInt8 → Option Head
  | [a₃, a₂, a₁, a₀, b₁, b₀, c₁, c₀, d₁, d₀, e₁, e₀] =>
    some ⟨unpackI a₃ a₂ a₁ a₀, unpackH b₁ b₀, unpackH c₁ c₀, unpackH d₁ d₀, unpackH e₁ e₀⟩
  | _ => none

structure MsgTuple where
  head : Head
  body : List UInt8
deriving DecidableEq, Repr

structure TTMsgParser where
  data : List UInt8
deriving DecidableEq, Repr

def TTMsgParser.fresh : TTMsgParser := ⟨[]⟩

def packTtMsg (moduleId commandId : ℕ) (body : List UInt8) : Option (List UInt8) := do
  let len ← packI (12 + body.length)
  let mid ← packH moduleId
  let cid ← packH commandId
  let version ← packH 1
  let reserved ← packH 0
  return len ++ mid ++ cid ++ version ++ reserved ++ body

def unpackBody (s : List UInt8 × List MsgTuple) :
    List UInt8 × List MsgTuple ⊕ Option (List MsgTuple × TTMsgParser) :=
  if 12 ≤ s.1.length then
    match unpackHead (s.1.take 12) with
    | none => .inr none
    | some head =>
      .inl (s.1.drop head.pduLength, s.2 ++ [⟨head, (s.1.take head.pduLength).drop 12⟩])
  else .inr (some (s.2, ⟨s.1⟩))

/-- `none` when the loop is not over after `fuel` iterations, or `struct.unpack` raises. -/
def unpackTtMsg (fuel : ℕ) (p : TTMsgParser) (data : List UInt8) :
    Option (List MsgTuple × TTMsgParser) :=
  (Iteration.run unpackBody fuel (p.data ++ data, [])).join

def feed (fuel : ℕ) : TTMsgParser → List (List UInt8) → Option (List MsgTuple × TTMsgParser)
  | p, [] => some ([], p)
  | p, c :: cs => do
    let (rslt, p') ← unpackTtMsg fuel p c
    let (rest, p'') ← feed fuel p' cs
    return (rslt ++ rest, p'')

end AnalysisPrograms.TeamTalk
