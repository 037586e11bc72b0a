import Mathlib.Logic.Function.Basic
import AnalysisPrograms.Foundations.ChildSibling

namespace AnalysisPrograms.DictTree

open Foundations

abbrev Rune := ℕ

def runeError : Rune := 0xFFFD

def decodeRune (first : UInt8) (rest : List UInt8) : Rune × ℕ :=
  let c := first.toNat
  let low := if c = 0xE0 then 0xA0 else if c = 0xF0 then 0x90 else 0x80
  let high := if c = 0xED then 0x9F else if c = 0xF4 then 0x8F else 0xBF
  if c < 0x80 then (c, 0)
  else if 0xC2 ≤ c ∧ c ≤ 0xDF then
    match rest with
    | b₁ :: _ =>
      if 0x80 ≤ b₁.toNat ∧ b₁.toNat ≤ 0xBF then (c % 32 * 64 + b₁.toNat % 64, 1) else (runeError, 0)
    | _ => (runeError, 0)
  else if 0xE0 ≤ c ∧ c ≤ 0xEF then
    match rest with
    | b₁ :: b₂ :: _ =>
      if low ≤ b₁.toNat ∧ b₁.toNat ≤ high ∧ 0x80 ≤ b₂.toNat ∧ b₂.toNat ≤ 0xBF then
        (c % 16 * 4096 + b₁.toNat % 64 * 64 + b₂.toNat % 64, 2)
      else (runeError, 0)
    | _ => (runeError, 0)
  else if 0xF0 ≤ c ∧ c ≤ 0xF4 then
    match rest with
    | b₁ :: b₂ :: b₃ :: _ =>
      if low ≤ b₁.toNat ∧ b₁.toNat ≤ high ∧ 0x80 ≤ b₂.toNat ∧ b₂.toNat ≤ 0xBF ∧ 0x80 ≤ b₃.toNat ∧
        b₃.toNat ≤ 0xBF then
        (c % 8 * 262144 + b₁.toNat % 64 * 4096 + b₂.toNat % 64 * 64 + b₃.toNat % 64, 3)
      else (runeError, 0)
    | _ => (runeError, 0)
  else (runeError, 0)

def runes : List UInt8 → List Rune
  | [] => []
  | b :: bs => (decodeRune b bs).1 :: runes (bs.drop (decodeRune b bs).2)
termination_by bytes => bytes.length
decreasing_by simp only [List.length_drop, List.length_cons]; omega

/-- What a `**DictNode` points to: the variable of the root, or a field of a node. -/
inductive Loc
  | root
  | leftChild (node : ℕ)
  | rightSibling (node : ℕ)
deriving DecidableEq

structure Heap where
  cells : Loc → Option ℕ
  tag : ℕ → Rune
  size : ℕ

def Heap.store (h : Heap) (l : Loc) (node : Option ℕ) : Heap :=
  { h with cells := Function.update h.cells l node }

def Heap.newNode (h : Heap) (tag : Rune) : Heap :=
  let h := (h.store (.leftChild h.size) none).store (.rightSibling h.size) none
  { h with tag := Function.update h.tag h.size tag, size := h.size + 1 }

def insertLoop : ℕ → Heap → Loc → List Rune → Option Heap
  | 0, _, _, _ => none
  | _ + 1, h, _, [] => some h
  | fuel + 1, h, parent, tag :: tags =>
    match h.cells parent with
    | none => insertLoop fuel ((h.newNode tag).store parent (some h.size)) (.leftChild h.size) tags
    | some node =>
      if tag = h.tag node then insertLoop fuel h (.leftChild node) tags
      else insertLoop fuel h (.rightSibling node) (tag :: tags)

/-- `root.InsertWord(&root, word)`; `none` is the panic. -/
def insertWord (h : Heap) (root : Option ℕ) (word : List UInt8) : Option Heap :=
  if root ≠ h.cells .root then none
  else insertLoop (h.size + (runes word).length + 1) h .root (runes word)

def start : Heap := ⟨fun _ => none, fun _ => 0, 0⟩

def step (h : Heap) (word : List UInt8) : Option Heap := insertWord h (h.cells .root) word

inductive OnChain (h : Heap) : Loc → ℕ → Prop
  | here {l : Loc} {n : ℕ} : h.cells l = some n → OnChain h l n
  | next {l : Loc} {m n : ℕ} : h.cells l = some m → OnChain h (.rightSibling m) n → OnChain h l n

inductive Reach (h : Heap) : Loc → Prop
  | root : Reach h .root
  | leftChild {l : Loc} {n : ℕ} : Reach h l → h.cells l = some n → Reach h (.leftChild n)
  | rightSibling {l : Loc} {n : ℕ} : Reach h l → h.cells l = some n → Reach h (.rightSibling n)

inductive Spells (h : Heap) : Loc → List Rune → Prop
  | here {l : Loc} {n : ℕ} : h.cells l = some n → Spells h l [h.tag n]
  | down {l : Loc} {n : ℕ} {w : List Rune} :
    h.cells l = some n → Spells h (.leftChild n) w → Spells h l (h.tag n :: w)
  | next {l : Loc} {n : ℕ} {w : List Rune} :
    h.cells l = some n → Spells h (.rightSibling n) w → Spells h l w

end AnalysisPrograms.DictTree
