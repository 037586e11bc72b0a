import Mathlib.Data.Option.Basic
import AnalysisPrograms.ListC.Dlist

namespace AnalysisPrograms.ListC

open Foundations Bytes ByteHeap

def slot (s i : ℕ) : ℕ := 8 + (s + 16) * i

theorem slot_lt {s i j : ℕ} (h : i < j) : slot s i + (s + 16) ≤ slot s j := by
  have := Nat.mul_le_mul_left (s + 16) h
  rw [Nat.mul_succ] at this
  unfold slot
  omega

theorem slot_pos {s i : ℕ} (h : 0 < i) : 8 + (s + 16) ≤ slot s i := slot_lt h

theorem slot_disjoint {s i j : ℕ} (h : i ≠ j) :
    slot s i + (s + 16) ≤ slot s j ∨ slot s j + (s + 16) ≤ slot s i := by
  rcases Nat.lt_or_gt_of_ne h with h | h
  · exact .inl (slot_lt h)
  · exact .inr (slot_lt h)

theorem slot_apart {s i a len : ℕ} (n : ℕ)
    (ha : slot s i ≤ a ∧ a + len ≤ slot s i + s ∨
      slot s i + s + 8 ≤ a ∧ a + len ≤ slot s i + s + 16) :
    a + len ≤ slot s n + s ∨ slot s n + s + 8 ≤ a := by
  by_cases hni : n = i
  · rw [hni]
    omega
  · have hdisj := slot_disjoint (s := s) hni
    omega

def dlistAt (b s : ℕ) : Dlist where
  objSize := s
  segment := ⟨b, 0⟩
  cache := ⟨b, 8⟩
  cacheSize := 64
  serviceConditionBitmap := ⟨⟨b, 0⟩, (8 : ℕ)⟩
  head := ⟨b, (8 + s : ℕ)⟩

theorem obj_dlistAt (b s i : ℕ) : (dlistAt b s).obj i = ⟨b, (slot s i : ℕ)⟩ := by
  simp [Dlist.obj, Dlist.shellSize, dlistAt, Ptr.add, slot]

theorem node_dlistAt (b s i : ℕ) : (dlistAt b s).node i = ⟨b, (slot s i + s : ℕ)⟩ := by
  simp only [Dlist.node, Dlist.shellSize, dlistAt, Ptr.add, slot, Ptr.mk.injEq, true_and]
  have hshell : ((s + 16 : ℕ) : ℤ) = s + 16 := rfl
  rw [Int.natCast_add, Int.natCast_add, Int.natCast_mul, hshell]
  omega

def linked (m : ℕ → UInt8) (prev next node : ℕ) (w : BitVec 64) : ℕ → UInt8 :=
  let m₁ := putWord m (node + 8) (wordAt m (prev + 8))
  let m₂ := putWord m₁ node (wordAt m₁ next)
  putWord (putWord m₂ (prev + 8) w) next w

section Linked

variable (m : ℕ → UInt8) {prev next node : ℕ} (w : BitVec 64)

theorem wordAt_linked_head (h : next + 8 ≤ prev + 8 ∨ prev + 16 ≤ next) :
    wordAt (linked m prev next node w) (prev + 8) = w := by
  rw [linked, wordAt_putWord_disjoint _ w (by omega), wordAt_putWord]

theorem wordAt_linked_node (hprev : prev + 16 ≤ node + 8)
    (hnext : next + 8 ≤ node + 8 ∨ node + 16 ≤ next) :
    wordAt (linked m prev next node w) (node + 8) = wordAt m (prev + 8) := by
  rw [linked, wordAt_putWord_disjoint _ w (by omega), wordAt_putWord_disjoint _ w (by omega),
    wordAt_putWord_disjoint _ _ (by omega), wordAt_putWord]

theorem slice_linked {a n : ℕ} (hprev : a + n ≤ prev + 8 ∨ prev + 16 ≤ a)
    (hnext : a + n ≤ next ∨ next + 8 ≤ a) (hnode : a + n ≤ node ∨ node + 16 ≤ a) :
    slice (linked m prev next node w) a n = slice m a n := by
  rw [linked, slice_putWord _ w (by omega), slice_putWord _ w (by omega),
    slice_putWord _ _ (by omega), slice_putWord _ _ (by omega)]

theorem wordAt_linked {a : ℕ} (hprev : a + 8 ≤ prev + 8 ∨ prev + 16 ≤ a)
    (hnext : a + 8 ≤ next ∨ next + 8 ≤ a) (hnode : a + 8 ≤ node ∨ node + 16 ≤ a) :
    wordAt (linked m prev next node w) a = wordAt m a := by
  rw [wordAt, slice_linked m w hprev hnext hnode, wordAt]

end Linked

theorem arraydlistAdd_holding {h : Heap} {b size : ℕ} (hb : b < h.length) (m : ℕ → UInt8)
    {prev next node : ℕ} (e : ℤ) (hprev : prev + 16 ≤ size) (hnext : next + 8 ≤ size)
    (hnode : node + 16 ≤ size) :
    arraydlistAdd (h.holding b size m) ⟨b, prev⟩ ⟨b, next⟩ ⟨b, node⟩ e =
      some (h.holding b size (linked m prev next node (BitVec.ofInt 64 e))) := by
  have hadd : ∀ a : ℕ, (⟨b, a⟩ : Ptr).add 8 = ⟨b, (a + 8 : ℕ)⟩ := fun a => by simp [Ptr.add]
  unfold arraydlistAdd
  rw [hadd, hadd, load_holding hb m (by omega) (by omega)]
  simp only [Option.bind_eq_bind, Option.bind_some]
  rw [store_holding hb m _ (by omega) (by omega), Option.bind_some,
    load_holding hb _ (by omega) (by omega), Option.bind_some, store_holding hb _ _ (by omega)
    (by omega), Option.bind_some, store_holding hb _ _ (by omega) (by omega), Option.bind_some,
      store_holding hb _ _ (by omega) (by omega)]
  rfl

def inserted (s : ℕ) (m : ℕ → UInt8) (e n : ℕ) (obj : List UInt8) : ℕ → UInt8 :=
  linked (blit (marked m e) (slot s e) obj) (8 + s) (slot s n + s) (slot s e + s)
    (BitVec.ofNat 64 e)

structure Ready (s : ℕ) (m : ℕ → UInt8) (e n : ℕ) : Prop where
  bit : firstBit false (wordAt m 0) 31 0 = some e
  word : wordAt m 0 ≠ -1
  pos : 0 < e
  le : e ≤ 8
  head : wordAt m (8 + s + 8) = BitVec.ofNat 64 n
  first : n ≤ 8

theorem toInt_ofNat {n : ℕ} (h : n ≤ 8) : (BitVec.ofNat 64 n).toInt = n := by
  rw [BitVec.toInt_eq_toNat_of_lt] <;> rw [BitVec.toNat_ofNat] <;> omega

theorem wordAt_marked (m : ℕ → UInt8) {e a : ℕ} (h : a + 8 ≤ 8 * (e / 8) ∨ 8 * (e / 8) + 8 ≤ a) :
    wordAt (marked m e) a = wordAt m a :=
  wordAt_putWord_disjoint m _ h

theorem Ready.head_filled {s : ℕ} {m : ℕ → UInt8} {e n : ℕ} {obj : List UInt8} (h : Ready s m e n)
    (hobj : obj.length = s) :
    wordAt (blit (marked m e) (slot s e) obj) (8 + s + 8) = BitVec.ofNat 64 n := by
  have he := slot_pos (s := s) h.pos
  have hle := h.le
  rw [wordAt_blit _ (by omega), wordAt_marked m (by omega), h.head]

theorem dlistInsert_holding {h : Heap} {b s : ℕ} (hb : b < h.length) {m : ℕ → UInt8} {e n : ℕ}
    {obj : List UInt8} (hready : Ready s m e n) (hobj : obj.length = s) (junk : ℕ → UInt8) :
    dlistInsert junk (h.holding b (slot s 64) m, dlistAt b s) obj =
      some (h.holding b (slot s 64) (inserted s m e n obj), dlistAt b s) := by
  obtain ⟨hbit, hword, hpos, hle, -, hfirst⟩ := id hready
  have he := slot_lt (s := s) (show e < 64 by omega)
  have he0 := slot_lt (s := s) hpos
  have hn := slot_lt (s := s) (show n < 64 by omega)
  have hsearch : dlistSearchCache (h.holding b (slot s 64) m) (dlistAt b s) 1 =
      some ((e : ℤ), h.holding b (slot s 64) (marked m e)) := by
    unfold dlistSearchCache
    rw [show (dlistAt b s).serviceConditionBitmap = ⟨⟨b, 0⟩, (8 : ℕ)⟩ from rfl,
      bitmapSearchFirst_holding hb m (by omega) (by omega) hword hbit (by omega)]
    simp only [Option.bind_eq_bind, Option.bind_some]
    rw [if_pos (by omega), bitmapSet_holding hb m (by omega) (by omega)]
    rfl
  have hadd : dlistAdd (h.holding b (slot s 64) (blit (marked m e) (slot s e) obj))
      (dlistAt b s) e = some (h.holding b (slot s 64) (inserted s m e n obj)) := by
    unfold dlistAdd
    rw [show (dlistAt b s).head.add 8 = ⟨b, (8 + s + 8 : ℕ)⟩ by simp [dlistAt, Ptr.add],
      load_holding hb _ (by omega) (by omega), Int.toNat_natCast, hready.head_filled hobj]
    simp only [Option.bind_eq_bind, Option.bind_some]
    rw [toInt_ofNat hfirst, node_dlistAt, node_dlistAt,
      show (dlistAt b s).head = ⟨b, (8 + s : ℕ)⟩ from rfl, arraydlistAdd_holding hb _ e (by omega)
      (by omega) (by omega), BitVec.ofInt_natCast]
    rfl
  have hplace : dlistPlace (h.holding b (slot s 64) (marked m e)) (dlistAt b s) e obj =
      some (h.holding b (slot s 64) (inserted s m e n obj), dlistAt b s) := by
    have htake : obj.take (dlistAt b s).objSize.toNat = obj := by
      apply List.take_of_length_le
      exact Nat.le_of_eq (hobj.trans (Int.toNat_natCast s).symm)
    unfold dlistPlace
    rw [(Option.guard_eq_some' ()).mpr (Int.natCast_nonneg e), htake, obj_dlistAt,
      write_holding hb _ (by omega) (by omega), Int.toNat_natCast]
    simp only [hadd, Option.bind_eq_bind, Option.bind_some]
  rw [dlistInsert, hsearch]
  simp only [Option.bind_eq_bind, Option.bind_some]
  rw [if_neg (by omega), hplace]

end AnalysisPrograms.ListC
