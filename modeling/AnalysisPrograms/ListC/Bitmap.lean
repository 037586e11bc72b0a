import AnalysisPrograms.Foundations.ByteHeap

namespace AnalysisPrograms.ListC

open Foundations ByteHeap

structure Bitmap where
  matrix : Ptr
  len : ℤ

/-- `__matrix__` is an array of `intptr_t`, while `__len__` counts bytes. -/
def Bitmap.word (bm : Bitmap) (index : ℤ) : Ptr := bm.matrix.add (8 * index)

def bitmapSet (h : Heap) (bm : Bitmap) (pos set : ℤ) : Option (ℤ × Heap) :=
  if pos < 0 then some (-1, h)
  else if pos < 8 * bm.len then do
    let value : BitVec 64 := if set ≠ 0 then 1 else 0
    let offset := pos / 8
    let shift := pos - offset * 8
    let w ← h.load (bm.word offset)
    let h ← h.store (bm.word offset) (w ||| value <<< shift.toNat)
    some (0, h)
  else some (-1, h)

def bitmapIsSet (h : Heap) (bm : Bitmap) (pos : ℤ) : Option ℤ :=
  if pos < 0 then some 0
  else if pos < 8 * bm.len then do
    let offset := pos / 8
    let shift := pos - offset * 8
    let w ← h.load (bm.word offset)
    some (if w &&& (1 : BitVec 64) <<< shift.toNat ≠ 0 then 1 else 0)
  else some 0

/-- The inner loop; it has no bound of its own, and `1 << 31` is no `int`. -/
def firstBit (set : Bool) (w : BitVec 64) : ℕ → ℕ → Option ℕ
  | 0, _ => none
  | room + 1, j => if w.getLsbD j = set then some j else firstBit set w room (j + 1)

def searchFrom (h : Heap) (bm : Bitmap) (set : Bool) : ℕ → ℤ → Option ℤ
  | 0, index => some index
  | room + 1, index => do
    let w ← h.load (bm.word index)
    if w = (if set then 0 else -1) then searchFrom h bm set room (index + 1)
    else
      let j ← firstBit set w 31 0
      some (index * 8 + j)

def bitmapSearchFirst (h : Heap) (bm : Bitmap) (set : Bool) : Option ℤ := do
  let index ← searchFrom h bm set bm.len.toNat 0
  some (if index ≥ 8 * bm.len then -1 else index)

section Holding

variable {h : Heap} {b size : ℕ} (hb : b < h.length) (m : ℕ → UInt8)

def marked (m : ℕ → UInt8) (e : ℕ) : ℕ → UInt8 :=
  putWord m (8 * (e / 8)) (wordAt m (8 * (e / 8)) ||| (1 : BitVec 64) <<< (e % 8))

include hb

omit hb in
theorem word_holding (b len i : ℕ) : (⟨⟨b, 0⟩, len⟩ : Bitmap).word i = ⟨b, (8 * i : ℕ)⟩ := by
  simp [Bitmap.word, Ptr.add]

omit hb in
theorem bitmapSet_inside (h : Heap) (b : ℕ) {len e : ℕ} (v : ℤ) (he : e < 8 * len) :
    bitmapSet h ⟨⟨b, 0⟩, len⟩ e v = (h.load ⟨b, (8 * (e / 8) : ℕ)⟩).bind fun w =>
      (h.store ⟨b, (8 * (e / 8) : ℕ)⟩
        (w ||| (if v ≠ 0 then (1 : BitVec 64) else 0) <<< (e % 8))).map fun h' => (0, h') := by
  have hword : (⟨⟨b, 0⟩, len⟩ : Bitmap).word (e / 8) = ⟨b, (8 * (e / 8) : ℕ)⟩ :=
    word_holding b len (e / 8)
  have hshift : ((e : ℤ) - e / 8 * 8).toNat = e % 8 := by omega
  unfold bitmapSet
  rw [if_neg (by omega), if_pos (by dsimp only; omega)]
  dsimp only
  rw [hword, hshift]
  simp only [Option.bind_eq_bind, Option.map_eq_bind, Function.comp_def]

omit hb in
theorem bitmapIsSet_inside (h : Heap) (b : ℕ) {len e : ℕ} (he : e < 8 * len) :
    bitmapIsSet h ⟨⟨b, 0⟩, len⟩ e =
      (h.load ⟨b, (8 * (e / 8) : ℕ)⟩).map fun w =>
        if w &&& (1 : BitVec 64) <<< (e % 8) ≠ 0 then 1 else 0 := by
  have hword : (⟨⟨b, 0⟩, len⟩ : Bitmap).word (e / 8) = ⟨b, (8 * (e / 8) : ℕ)⟩ :=
    word_holding b len (e / 8)
  have hshift : ((e : ℤ) - e / 8 * 8).toNat = e % 8 := by omega
  unfold bitmapIsSet
  rw [if_neg (by omega), if_pos (by dsimp only; omega)]
  dsimp only
  rw [hword, hshift]
  simp only [Option.bind_eq_bind, Option.map_eq_bind, Function.comp_def]

theorem bitmapSet_word {len e : ℕ} (v : ℤ) (he : e < 8 * len) (hfit : 8 * (e / 8) + 8 ≤ size) :
    bitmapSet (h.holding b size m) ⟨⟨b, 0⟩, len⟩ e v = some (0, h.holding b size
      (putWord m (8 * (e / 8))
        (wordAt m (8 * (e / 8)) ||| (if v ≠ 0 then (1 : BitVec 64) else 0) <<< (e % 8)))) := by
  rw [bitmapSet_inside _ b v he, load_holding hb m (by omega) (by omega), Option.bind_some,
    store_holding hb m _ (by omega) (by omega)]
  rfl

theorem bitmapSet_holding {len e : ℕ} (he : e < 8 * len) (hfit : 8 * (e / 8) + 8 ≤ size) :
    bitmapSet (h.holding b size m) ⟨⟨b, 0⟩, len⟩ e 1 = some (0, h.holding b size (marked m e)) :=
  bitmapSet_word hb m 1 he hfit

theorem searchFrom_first {len e : ℕ} (hlen : 0 < len) (hsize : 8 ≤ size) (hw : wordAt m 0 ≠ -1)
    (he : firstBit false (wordAt m 0) 31 0 = some e) :
    searchFrom (h.holding b size m) ⟨⟨b, 0⟩, len⟩ false len 0 = some (e : ℤ) := by
  obtain ⟨room, rfl⟩ := Nat.exists_eq_add_one_of_ne_zero (Nat.ne_of_gt hlen)
  have hword : (⟨⟨b, 0⟩, (room + 1 : ℕ)⟩ : Bitmap).word 0 = ⟨b, 0⟩ := word_holding b (room + 1) 0
  rw [searchFrom, hword, load_holding hb m (Int.le_refl 0) (by omega)]
  simp only [Option.bind_eq_bind, Option.bind_some, Bool.false_eq_true, ↓reduceIte,
    Int.toNat_zero, hw, he]
  simp

theorem bitmapSearchFirst_holding {len e : ℕ} (hlen : 8 ≤ 8 * len) (hsize : 8 ≤ size)
    (hw : wordAt m 0 ≠ -1) (he : firstBit false (wordAt m 0) 31 0 = some e) (hlt : e < 8 * len) :
    bitmapSearchFirst (h.holding b size m) ⟨⟨b, 0⟩, len⟩ false = some (e : ℤ) := by
  rw [bitmapSearchFirst]
  dsimp only
  rw [Int.toNat_natCast, searchFrom_first hb m (by omega) hsize hw he]
  simp only [Option.bind_eq_bind, Option.bind_some]
  rw [if_neg (by omega)]

end Holding

end AnalysisPrograms.ListC
