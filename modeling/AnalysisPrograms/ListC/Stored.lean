import AnalysisPrograms.Foundations.Execution
import AnalysisPrograms.ListC.Slots

namespace AnalysisPrograms.ListC

open Foundations Bytes ByteHeap Execution

section Inserted

variable {s e n : ℕ} {m : ℕ → UInt8} {obj : List UInt8}

theorem Ready.bitmap_inserted (h : Ready s m e n) :
    wordAt (inserted s m e n obj) 0 = wordAt (marked m e) 0 := by
  have he := slot_pos (s := s) h.pos
  have hn : 8 ≤ slot s n := Nat.le_add_right 8 _
  rw [inserted, wordAt_linked _ _ (by omega) (by omega) (by omega), wordAt_blit _ (by omega)]

theorem Ready.head_inserted (h : Ready s m e n) :
    wordAt (inserted s m e n obj) (8 + s + 8) = BitVec.ofNat 64 e := by
  have hn : slot s n = 8 ∨ 8 + (s + 16) ≤ slot s n := by
    cases n with
    | zero => exact .inl rfl
    | succ n => exact .inr (slot_lt (Nat.succ_pos n))
  exact wordAt_linked_head _ _ (by omega)

theorem Ready.link_inserted (h : Ready s m e n) (hobj : obj.length = s) :
    wordAt (inserted s m e n obj) (slot s e + s + 8) = BitVec.ofNat 64 n := by
  have he := slot_pos (s := s) h.pos
  have hn : slot s e + s + 8 + 8 ≤ slot s n + s ∨ slot s n + s + 8 ≤ slot s e + s + 8 :=
    slot_apart n (.inr ⟨Nat.le_refl _, Nat.le_refl _⟩)
  rw [inserted, wordAt_linked_node _ _ (by omega) hn.symm, h.head_filled hobj]

theorem Ready.obj_inserted (h : Ready s m e n) (hobj : obj.length = s) :
    slice (inserted s m e n obj) (slot s e) s = obj := by
  have he := slot_pos (s := s) h.pos
  have hn : slot s e + s ≤ slot s n + s ∨ slot s n + s + 8 ≤ slot s e :=
    slot_apart n (.inl ⟨Nat.le_refl _, Nat.le_refl _⟩)
  have hblit := slice_blit_self (marked m e) (slot s e) obj
  rw [hobj] at hblit
  rw [inserted, slice_linked _ _ (by omega) hn (by omega), hblit]

theorem Ready.slice_inserted (h : Ready s m e n) (hobj : obj.length = s) {i a len : ℕ}
    (hi : 0 < i) (hie : i ≠ e)
    (ha : slot s i ≤ a ∧ a + len ≤ slot s i + s ∨
      slot s i + s + 8 ≤ a ∧ a + len ≤ slot s i + s + 16) :
    slice (inserted s m e n obj) a len = slice m a len := by
  have hi0 := slot_pos (s := s) hi
  have hdisj := slot_disjoint (s := s) hie
  have hle := h.le
  rw [inserted, slice_linked _ _ (by omega) (slot_apart n ha) (by omega),
    slice_blit_disjoint _ (by omega), marked, slice_putWord _ _ (by omega)]

end Inserted

structure Stores (s : ℕ) (objs : List (List UInt8)) (m : ℕ → UInt8) : Prop where
  few : objs.length ≤ 8
  bitmap : wordAt m 0 = BitVec.ofNat 64 (2 ^ min (objs.length + 1) 8 - 1)
  head : wordAt m (8 + s + 8) = BitVec.ofNat 64 objs.length
  obj : ∀ i (hi : i < objs.length), slice m (slot s (i + 1)) s = objs[i]
  link : ∀ i < objs.length, wordAt m (slot s (i + 1) + s + 8) = BitVec.ofNat 64 i

structure Stuck (s : ℕ) (m : ℕ → UInt8) : Prop where
  bitmap : wordAt m 0 = 255
  head : wordAt m (8 + s + 8) = 8
  link : wordAt m (slot s 8 + s + 8) = 8

theorem firstBit_ones : ∀ j ≤ 8, firstBit false (BitVec.ofNat 64 (2 ^ j - 1)) 31 0 = some j ∧
    BitVec.ofNat 64 (2 ^ j - 1) ≠ -1 := by
  decide

theorem ones_or :
    ∀ j < 8, BitVec.ofNat 64 (2 ^ j - 1) ||| (1 : BitVec 64) <<< j = BitVec.ofNat 64
      (2 ^ (j + 1) - 1) := by
  decide

theorem Stores.ready {s : ℕ} {objs : List (List UInt8)} {m : ℕ → UInt8} (h : Stores s objs m) :
    Ready s m (min (objs.length + 1) 8) objs.length := by
  obtain ⟨hbit, hword⟩ := firstBit_ones (min (objs.length + 1) 8) (Nat.min_le_right _ _)
  rw [← h.bitmap] at hbit hword
  exact ⟨hbit, hword, by omega, Nat.min_le_right _ _, h.head, h.few⟩

theorem Stuck.ready {s : ℕ} {m : ℕ → UInt8} (h : Stuck s m) : Ready s m 8 8 := by
  refine ⟨?_, ?_, by omega, Nat.le_refl 8, h.head, Nat.le_refl 8⟩
  · rw [h.bitmap]
    decide
  · rw [h.bitmap]
    decide

theorem bitmap_marked (m : ℕ → UInt8) {e : ℕ} (he : e < 8) :
    wordAt (marked m e) 0 = wordAt m 0 ||| (1 : BitVec 64) <<< e := by
  have hoffset : 8 * (e / 8) = 0 := by omega
  rw [marked, hoffset, wordAt_putWord, Nat.mod_eq_of_lt he]

theorem Stores.bitmap_inserted {s : ℕ} {objs : List (List UInt8)} {m : ℕ → UInt8} {obj : List UInt8}
    (h : Stores s objs m) (hlt : objs.length < 8) :
    wordAt (inserted s m (objs.length + 1) objs.length obj) 0 =
      BitVec.ofNat 64 (2 ^ min (objs.length + 2) 8 - 1) := by
  have hready := h.ready
  rw [Nat.min_eq_left hlt] at hready
  rw [hready.bitmap_inserted]
  by_cases hseven : objs.length = 7
  · -- the eighth object has its bit in the next word, which is the first of the cache
    rw [wordAt_marked m (by omega), h.bitmap, hseven]
    rfl
  · rw [bitmap_marked m (by omega), h.bitmap, Nat.min_eq_left hlt, ones_or _ (by omega),
      Nat.min_eq_left (by omega)]

theorem Stores.insert {s : ℕ} {objs : List (List UInt8)} {m : ℕ → UInt8} {obj : List UInt8}
    (h : Stores s objs m) (hlt : objs.length < 8) (hobj : obj.length = s) :
    Stores s (objs ++ [obj]) (inserted s m (objs.length + 1) objs.length obj) := by
  have hready := h.ready
  rw [Nat.min_eq_left hlt] at hready
  have hlen : (objs ++ [obj]).length = objs.length + 1 := by
    rw [List.length_append, List.length_singleton]
  refine ⟨?_, ?_, ?_, ?_, ?_⟩
  · rw [hlen]
    exact hlt
  · rw [h.bitmap_inserted hlt, hlen]
  · rw [hready.head_inserted, hlen]
  · intro i hi
    by_cases hlast : i = objs.length
    · subst hlast
      rw [hready.obj_inserted hobj, List.getElem_concat_length rfl]
    · have hold : i < objs.length := by omega
      rw [hready.slice_inserted (i := i + 1) hobj (by omega) (by omega) (.inl (by omega)),
        h.obj i hold, List.getElem_append_left hold]
  · intro i hi
    by_cases hlast : i = objs.length
    · subst hlast
      exact hready.link_inserted hobj
    · have hold : i < objs.length := by omega
      rw [wordAt, hready.slice_inserted (i := i + 1) hobj (by omega) (by omega) (.inr (by omega)),
        ← wordAt, h.link i hold]

theorem Ready.stuck {s : ℕ} {m : ℕ → UInt8} {obj : List UInt8} (h : Ready s m 8 8)
    (hword : wordAt m 0 = 255) (hobj : obj.length = s) : Stuck s (inserted s m 8 8 obj) := by
  refine ⟨?_, h.head_inserted, h.link_inserted hobj⟩
  rw [h.bitmap_inserted, wordAt_marked m (by omega), hword]

def After (s : ℕ) (objs : List (List UInt8)) (m : ℕ → UInt8) : Prop :=
  Stores s objs m ∨ 8 < objs.length ∧ Stuck s m

theorem After.insert {h : Heap} {b s : ℕ} (hb : b < h.length) {m : ℕ → UInt8}
    {objs : List (List UInt8)} {obj : List UInt8} (hafter : After s objs m)
    (hobj : obj.length = s) (junk : ℕ → UInt8) :
    ∃ m', dlistInsert junk (h.holding b (slot s 64) m, dlistAt b s) obj =
      some (h.holding b (slot s 64) m', dlistAt b s) ∧ After s (objs ++ [obj]) m' := by
  have hlen : (objs ++ [obj]).length = objs.length + 1 := by
    rw [List.length_append, List.length_singleton]
  rcases hafter with hstores | ⟨hmany, hstuck⟩
  · refine ⟨_, dlistInsert_holding hb hstores.ready hobj junk, ?_⟩
    by_cases hlt : objs.length < 8
    · rw [Nat.min_eq_left hlt]
      exact .inl (hstores.insert hlt hobj)
    · have height : objs.length = 8 := Nat.le_antisymm hstores.few (by omega)
      have hready := hstores.ready
      have hword := hstores.bitmap
      rw [height] at hready hword
      rw [height]
      exact .inr ⟨by omega, hready.stuck hword hobj⟩
  · refine ⟨_, dlistInsert_holding hb hstuck.ready hobj junk, ?_⟩
    exact .inr ⟨by omega, hstuck.ready.stuck hstuck.bitmap hobj⟩

theorem exec_after {h : Heap} {b s : ℕ} (hb : b < h.length) {junk m : ℕ → UInt8}
    {before : List (List UInt8)} (hm : After s before m) (objs : List (List UInt8))
    (hobjs : ∀ obj ∈ objs, obj.length = s) :
    ∃ m', exec (dlistInsert junk) (h.holding b (slot s 64) m, dlistAt b s) objs =
      some (h.holding b (slot s 64) m', dlistAt b s) ∧ After s (before ++ objs) m' := by
  induction objs generalizing before m with
  | nil =>
    refine ⟨m, rfl, ?_⟩
    rwa [List.append_nil]
  | cons obj objs ih =>
    obtain ⟨m₁, hinsert, hm₁⟩ := hm.insert hb (hobjs obj List.mem_cons_self) junk
    obtain ⟨m₂, hexec, hm₂⟩ := ih hm₁ fun o ho => hobjs o (List.mem_cons_of_mem obj ho)
    refine ⟨m₂, exec_cons_iff.mpr ⟨_, hinsert, hexec⟩, ?_⟩
    rwa [List.append_assoc] at hm₂

theorem stores_nil (s : ℕ) {m : ℕ → UInt8} (hm : ∀ k, k < slot s 1 → m k = 0) :
    Stores s [] (marked m 0) := by
  have hslot : slot s 1 = 8 + (s + 16) := by rw [slot, Nat.mul_one]
  refine ⟨Nat.zero_le 8, ?_, ?_, ?_, ?_⟩
  · rw [bitmap_marked m (by omega), wordAt_eq_zero fun k hk => hm k (by omega)]
    rfl
  · rw [wordAt_marked m (by omega), wordAt_eq_zero fun k hk => hm k (by omega)]
    rfl
  · intro i hi
    cases hi
  · intro i hi
    cases hi

theorem length_lt_grown (h : Heap) : h.length < (h ++ [none]).length := by
  rw [List.length_append, List.length_singleton]
  exact Nat.lt_succ_self _

theorem initDlist_eq (h : Heap) (junk : ℕ → UInt8) {s : ℕ} (hfits : slot s 64 < 2 ^ 63) :
    ∃ m, initDlist h junk s = some (Heap.holding (h ++ [none]) h.length (slot s 64) m,
      dlistAt h.length s) ∧
      Stores s [] m := by
  have hb := length_lt_grown h
  have htotal : ((8 * 8 - 1) / 8 + 1 + ((s : ℤ) + 16) * (8 * 8)).toNat = slot s 64 := by
    unfold slot
    omega
  have hslot := slot_pos (s := s) (show 0 < 64 by omega)
  have hone := slot_lt (s := s) (show 1 < 64 by omega)
  let cleared := blit junk 0 (List.replicate (slot s 64) 0)
  have hmemset :
      (Heap.holding (h ++ [none]) h.length (slot s 64) junk).memset ⟨h.length, 0⟩ 0 (slot s 64) =
        some (Heap.holding (h ++ [none]) h.length (slot s 64) cleared) :=
    write_holding hb junk (Int.le_refl 0) (by rw [List.length_replicate]; omega)
  have hset : bitmapSet (Heap.holding (h ++ [none]) h.length (slot s 64) cleared)
      ⟨⟨h.length, 0⟩, (8 : ℕ)⟩ (0 : ℕ) 1 =
        some (0, Heap.holding (h ++ [none]) h.length (slot s 64) (marked cleared 0)) :=
    bitmapSet_holding hb cleared (by omega) (by omega)
  refine ⟨marked cleared 0, ?_, stores_nil s ?_⟩
  · have hguard : (8 * 8 - 1) / 8 + 1 + ((s : ℤ) + 16) * (8 * 8) < 2 ^ 63 := by omega
    unfold initDlist
    dsimp only
    rw [htotal, malloc_eq]
    dsimp only
    rw [hmemset, (Option.guard_eq_some' ()).mpr hguard]
    simp only [Option.bind_eq_bind, Option.bind_some]
    change (bitmapSet _ ⟨⟨h.length, 0⟩, (8 : ℕ)⟩ (0 : ℕ) 1).bind _ = _
    rw [hset]
    simp [dlistAt, Ptr.add]
  · intro k hk
    exact blit_replicate junk 0 (by omega)

section Walk

variable {h : Heap} {b s : ℕ} (hb : b < h.length) {m : ℕ → UInt8}
include hb

theorem dlistNext_holding {i : ℕ} (hi : i < 64) :
    dlistNext (h.holding b (slot s 64) m) (dlistAt b s) i =
      some (wordAt m (slot s i + s + 8)).toInt := by
  have hslot := slot_lt (s := s) hi
  have hadd : ((dlistAt b s).node i).add 8 = ⟨b, (slot s i + s + 8 : ℕ)⟩ := by
    rw [node_dlistAt]
    rfl
  rw [dlistNext, hadd, load_holding hb m (by omega) (by omega)]
  rfl

theorem read_obj {i : ℕ} (hi : i < 64) :
    (h.holding b (slot s 64) m).read ((dlistAt b s).obj i) s = some (slice m (slot s i) s) := by
  have hslot := slot_lt (s := s) hi
  rw [obj_dlistAt, read_holding hb m (by omega) (by omega)]
  rfl

theorem walk_stores {objs : List (List UInt8)} (hstores : Stores s objs m) {i : ℕ}
    (hi : i ≤ objs.length) :
    walk (h.holding b (slot s 64) m) (dlistAt b s) (i + 1) i = some (objs.take i).reverse := by
  have hfew := hstores.few
  induction i with
  | zero => rfl
  | succ i ih =>
    have hsize : (dlistAt b s).objSize.toNat = s := Int.toNat_natCast s
    rw [walk, if_neg (by omega), hsize, read_obj hb (by omega), dlistNext_holding hb (by omega),
      hstores.link i (by omega), toInt_ofNat (by omega)]
    simp only [Option.bind_eq_bind, Option.bind_some]
    rw [ih (by omega), Option.bind_some, hstores.obj i (by omega),
      List.take_succ_eq_append_getElem (by omega), List.reverse_concat]

theorem walk_stuck (hstuck : Stuck s m) (fuel : ℕ) :
    walk (h.holding b (slot s 64) m) (dlistAt b s) fuel (8 : ℕ) = none := by
  induction fuel with
  | zero => rfl
  | succ fuel ih =>
    have hsize : (dlistAt b s).objSize.toNat = s := Int.toNat_natCast s
    have hback : (8 : BitVec 64).toInt = (8 : ℕ) := by decide
    rw [walk, if_neg (by omega), hsize, read_obj hb (by omega), dlistNext_holding hb (by omega),
      hstuck.link, hback]
    simp only [Option.bind_eq_bind, Option.bind_some]
    rw [ih, Option.bind_none]

theorem load_head :
    (h.holding b (slot s 64) m).load ((dlistAt b s).head.add 8) = some (wordAt m (8 + s + 8)) := by
  have hslot := slot_pos (s := s) (show 0 < 64 by omega)
  have hadd : (dlistAt b s).head.add 8 = ⟨b, (8 + s + 8 : ℕ)⟩ := rfl
  rw [hadd, load_holding hb m (by omega) (by omega)]
  rfl

theorem After.visits_iff {objs : List (List UInt8)} (hafter : After s objs m) :
    Visits (h.holding b (slot s 64) m, dlistAt b s) objs.reverse ↔ objs.length ≤ 8 := by
  rcases hafter with hstores | ⟨hmany, hstuck⟩
  · refine ⟨fun _ => hstores.few, fun _ => ?_⟩
    have hwalk := walk_stores hb hstores (Nat.le_refl _)
    rw [List.take_length] at hwalk
    refine ⟨_, objs.length + 1, load_head hb, ?_⟩
    rw [hstores.head, toInt_ofNat hstores.few]
    exact hwalk
  · refine ⟨?_, fun hfew => by omega⟩
    rintro ⟨first, fuel, hfirst, hwalk⟩
    obtain rfl := Option.some.inj ((load_head hb).symm.trans hfirst)
    have hnone := walk_stuck hb hstuck fuel
    rw [hstuck.head] at hwalk
    cases hnone.symm.trans hwalk

end Walk

def insertAll (h : Heap) (junk : ℕ → UInt8) (objSize : ℕ) (objs : List (List UInt8)) :
    Option (Heap × Dlist) :=
  (initDlist h junk objSize).bind fun s => exec (dlistInsert junk) s objs

theorem insertAll_after (h : Heap) (junk : ℕ → UInt8) {s : ℕ} (hfits : slot s 64 < 2 ^ 63)
    {objs : List (List UInt8)} (hobjs : ∀ obj ∈ objs, obj.length = s) :
    ∃ m, insertAll h junk s objs = some (Heap.holding (h ++ [none]) h.length (slot s 64) m,
      dlistAt h.length s) ∧
      After s objs m := by
  have hb := length_lt_grown h
  obtain ⟨m, hinit, hm⟩ := initDlist_eq h junk hfits
  obtain ⟨m', hexec, hm'⟩ := exec_after hb (.inl hm) objs hobjs
  exact ⟨m', by rw [insertAll, hinit, Option.bind_some, hexec], hm'⟩

structure ObjSize where
  val : ℕ
  fits : slot val 64 < 2 ^ 63

theorem dlist_visits_iff (h : Heap) (junk : ℕ → UInt8) (size : ObjSize)
    (objs : List { obj : List UInt8 // obj.length = size.val }) :
    ∃ s, insertAll h junk size.val (objs.map Subtype.val) = some s ∧
      (Visits s (objs.map Subtype.val).reverse ↔ objs.length ≤ 8) := by
  have hobjs : ∀ obj ∈ objs.map Subtype.val, obj.length = size.val := by
    intro obj hobj
    obtain ⟨o, -, rfl⟩ := List.mem_map.mp hobj
    exact o.2
  obtain ⟨m, hall, hm⟩ := insertAll_after h junk size.fits hobjs
  have hb := length_lt_grown h
  refine ⟨_, hall, ?_⟩
  rw [hm.visits_iff hb, List.length_map]

theorem nine_objects_not_visited :
    ∃ s, insertAll [] (fun _ => 0) 1 [[1], [2], [3], [4], [5], [6], [7], [8], [9]] = some s ∧
      ¬Visits s [[9], [8], [7], [6], [5], [4], [3], [2], [1]] := by
  have hobjs : ∀ obj ∈ [[1], [2], [3], [4], [5], [6], [7], [8], [(9 : UInt8)]], obj.length =
    1 := by decide
  obtain ⟨m, hall, hm⟩ := insertAll_after [] (fun _ => 0) (by decide) hobjs
  refine ⟨_, hall, ?_⟩
  have hiff := hm.visits_iff (h := [none]) (b := 0) (by decide)
  exact fun hvisits => absurd (hiff.mp hvisits) (by decide)

end AnalysisPrograms.ListC
