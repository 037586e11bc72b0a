import Mathlib.Algebra.Group.Int.Defs
import Mathlib.Algebra.Group.Nat.Defs
import AnalysisPrograms.Foundations.Bytes

namespace Foundations.ByteHeap

open Bytes

def littleEndian : ℕ → ℕ → List UInt8
  | 0, _ => []
  | width + 1, n => UInt8.ofNat n :: littleEndian width (n / 256)

def ofLittleEndian : List UInt8 → ℕ
  | [] => 0
  | b :: bs => b.toNat + 256 * ofLittleEndian bs

def wordAt (m : ℕ → UInt8) (a : ℕ) : BitVec 64 := BitVec.ofNat 64 (ofLittleEndian (slice m a 8))

def putWord (m : ℕ → UInt8) (a : ℕ) (w : BitVec 64) : ℕ → UInt8 := blit m a (littleEndian 8 w.toNat)

structure Block where
  size : ℕ
  data : ℕ → UInt8

structure Ptr where
  block : ℕ
  offset : ℤ
deriving DecidableEq

def Ptr.add (p : Ptr) (n : ℤ) : Ptr := ⟨p.block, p.offset + n⟩

abbrev Heap := List (Option Block)

namespace Heap

/-- The block that the `n` bytes from a pointer on lie in; `none` is an access out of bounds or
after `free`. -/
def span (h : Heap) (p : Ptr) (n : ℕ) : Option Block :=
  (h[p.block]?).join.filter fun b => 0 ≤ p.offset ∧ p.offset.toNat + n ≤ b.size

def read (h : Heap) (p : Ptr) (n : ℕ) : Option (List UInt8) :=
  (h.span p n).map fun b => slice b.data p.offset.toNat n

def write (h : Heap) (p : Ptr) (xs : List UInt8) : Option Heap :=
  (h.span p xs.length).map fun b =>
    h.set p.block (some { b with data := blit b.data p.offset.toNat xs })

def load (h : Heap) (p : Ptr) : Option (BitVec 64) :=
  (h.span p 8).map fun b => wordAt b.data p.offset.toNat

def store (h : Heap) (p : Ptr) (w : BitVec 64) : Option Heap := h.write p (littleEndian 8 w.toNat)

def memset (h : Heap) (p : Ptr) (b : UInt8) (n : ℕ) : Option Heap := h.write p (List.replicate n b)

def memcpy (h : Heap) (dst src : Ptr) (n : ℕ) : Option Heap :=
  (h.read src n).bind fun xs => h.write dst xs

def malloc (h : Heap) (size : ℕ) (contents : ℕ → UInt8) : Heap × Ptr :=
  (h ++ [some ⟨size, contents⟩], ⟨h.length, 0⟩)

def free (h : Heap) (p : Ptr) : Option Heap :=
  if p.offset = 0 ∧ (h[p.block]?).join.isSome then some (h.set p.block none) else none

def holding (h : Heap) (i size : ℕ) (m : ℕ → UInt8) : Heap := h.set i (some ⟨size, m⟩)

end Heap

@[simp] theorem length_littleEndian (width n : ℕ) : (littleEndian width n).length = width := by
  induction width generalizing n with
  | zero => rfl
  | succ width ih => rw [littleEndian, List.length_cons, ih]

theorem ofLittleEndian_littleEndian (width n : ℕ) :
    ofLittleEndian (littleEndian width n) = n % 256 ^ width := by
  induction width generalizing n with
  | zero => rw [littleEndian, ofLittleEndian, Nat.pow_zero, Nat.mod_one]
  | succ width ih =>
    have hpow : 256 ^ (width + 1) = 256 * 256 ^ width := Nat.pow_succ'
    rw [littleEndian, ofLittleEndian, ih, UInt8.toNat_ofNat', hpow, Nat.mod_mul]

@[simp] theorem wordAt_putWord (m : ℕ → UInt8) (a : ℕ) (w : BitVec 64) :
    wordAt (putWord m a w) a = w := by
  have h := slice_blit_self m a (littleEndian 8 w.toNat)
  rw [length_littleEndian] at h
  have hval : ofLittleEndian (littleEndian 8 w.toNat) = w.toNat :=
    (ofLittleEndian_littleEndian 8 w.toNat).trans (Nat.mod_eq_of_lt w.isLt)
  rw [wordAt, putWord, h, hval, BitVec.ofNat_toNat, BitVec.setWidth_eq]

theorem wordAt_blit (m : ℕ → UInt8) {a i : ℕ} {xs : List UInt8}
    (h : a + 8 ≤ i ∨ i + xs.length ≤ a) : wordAt (blit m i xs) a = wordAt m a := by
  rw [wordAt, slice_blit_disjoint m h, wordAt]

theorem wordAt_putWord_disjoint (m : ℕ → UInt8) {a i : ℕ} (w : BitVec 64)
    (h : a + 8 ≤ i ∨ i + 8 ≤ a) : wordAt (putWord m i w) a = wordAt m a :=
  wordAt_blit m (by rwa [length_littleEndian])

theorem slice_putWord (m : ℕ → UInt8) {a i n : ℕ} (w : BitVec 64) (h : a + n ≤ i ∨ i + 8 ≤ a) :
    slice (putWord m i w) a n = slice m a n :=
  slice_blit_disjoint m (by rwa [length_littleEndian])

theorem wordAt_eq_zero {m : ℕ → UInt8} {a : ℕ} (h : ∀ k, k < a + 8 → m k = 0) : wordAt m a = 0 := by
  have hslice : slice m a 8 = List.replicate 8 0 := by
    apply List.eq_replicate_iff.mpr
    refine ⟨length_slice m a 8, ?_⟩
    intro b hb
    obtain ⟨k, hk, rfl⟩ := List.mem_map.mp hb
    have hlt := List.mem_range.mp hk
    exact h (a + k) (by omega)
  rw [wordAt, hslice]
  rfl

theorem malloc_eq (h : Heap) (size : ℕ) (contents : ℕ → UInt8) :
    h.malloc size contents = (Heap.holding (h ++ [none]) h.length size contents,
      ⟨h.length, 0⟩) := by
  simp [Heap.malloc, Heap.holding]

section Holding

variable {h : Heap} {i size : ℕ} (hi : i < h.length) (m : ℕ → UInt8)
include hi

theorem span_holding {a : ℤ} {n : ℕ} (h0 : 0 ≤ a) (hfit : a.toNat + n ≤ size) :
    (h.holding i size m).span ⟨i, a⟩ n = some ⟨size, m⟩ := by
  simp [Heap.span, Heap.holding, List.getElem?_set_self hi, h0, hfit]

theorem read_holding {a : ℤ} {n : ℕ} (h0 : 0 ≤ a) (hfit : a.toNat + n ≤ size) :
    (h.holding i size m).read ⟨i, a⟩ n = some (slice m a.toNat n) := by
  rw [Heap.read, span_holding hi m h0 hfit]
  rfl

theorem write_holding {a : ℤ} {xs : List UInt8} (h0 : 0 ≤ a) (hfit : a.toNat + xs.length ≤ size) :
    (h.holding i size m).write ⟨i, a⟩ xs = some (h.holding i size (blit m a.toNat xs)) := by
  rw [Heap.write, span_holding hi m h0 hfit]
  simp [Heap.holding]

theorem load_holding {a : ℤ} (h0 : 0 ≤ a) (hfit : a.toNat + 8 ≤ size) :
    (h.holding i size m).load ⟨i, a⟩ = some (wordAt m a.toNat) := by
  rw [Heap.load, span_holding hi m h0 hfit]
  rfl

theorem span_holding_none {a : ℤ} {n : ℕ} (hfit : size < a.toNat + n) :
    (h.holding i size m).span ⟨i, a⟩ n = none := by
  simp [Heap.span, Heap.holding, List.getElem?_set_self hi, hfit]

theorem load_holding_none {a : ℤ} (hfit : size < a.toNat + 8) :
    (h.holding i size m).load ⟨i, a⟩ = none := by
  rw [Heap.load, span_holding_none hi m hfit]
  rfl

theorem store_holding {a : ℤ} (w : BitVec 64) (h0 : 0 ≤ a) (hfit : a.toNat + 8 ≤ size) :
    (h.holding i size m).store ⟨i, a⟩ w = some (h.holding i size (putWord m a.toNat w)) :=
  write_holding hi m h0 (by rwa [length_littleEndian])

end Holding

end Foundations.ByteHeap
