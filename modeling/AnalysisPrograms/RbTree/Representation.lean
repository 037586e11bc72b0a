import Mathlib.Data.List.Nodup
import Mathlib.Data.List.Perm.Subperm
import AnalysisPrograms.Foundations.RedBlack
import AnalysisPrograms.GraphC.RbTree

namespace AnalysisPrograms.RbTree

open Foundations.RedBlack ColorTree
open GraphC Heap

def side : Bool → Side
  | false => .left
  | true => .right

def bit : Color → ℕ
  | .red => RB_RED
  | .black => RB_BLACK

/-- The address of a `struct rb_node`: two low bits are left for the color. -/
structure IsNode (n : ℕ) : Prop where
  ne_zero : n ≠ 0
  aligned : 4 ∣ n
  fits : n < 2 ^ 64

def addr : ColorTree ℕ → ℕ
  | .nil => 0
  | .node _ _ n _ => n

def top : List (Frame ℕ) → ℕ
  | [] => 0
  | f :: _ => f.value

def cellAbove : List (Frame ℕ) → Cell
  | [] => .root
  | f :: _ => .child (side f.dir) f.value

def nodesAbove : List (Frame ℕ) → List ℕ
  | [] => []
  | f :: fs => f.value :: (f.sibling.toList ++ nodesAbove fs)

def Below (h : Heap) (parent : ℕ) : ColorTree ℕ → Prop
  | .nil => True
  | .node c l n r => h.cells (.child .left n) = addr l ∧ h.cells (.child .right n) = addr r ∧
    h.parentColor n = parent + bit c ∧ Below h n l ∧ Below h n r

def Above (h : Heap) : List (Frame ℕ) → Prop
  | [] => True
  | f :: fs =>
    h.cells (.child (side !f.dir) f.value) = addr f.sibling ∧
      h.parentColor f.value = top fs + bit f.color ∧
    h.cells (cellAbove fs) = f.value ∧ Below h f.value f.sibling ∧ Above h fs

def Kept (S : Set ℕ) (h h' : Heap) : Prop :=
  ∀ n ∉ S, h'.parentColor n = h.parentColor n ∧ ∀ s, h'.cells (.child s n) = h.cells (.child s n)

/-- The nodes of the heap form the tree `t` in the hole of `fs`, every node with its parent and its
color. They belong to `S`, and the rest of the heap is as in `h₀`. -/
structure Holds (S : Set ℕ) (h₀ h : Heap) (t : ColorTree ℕ) (fs : List (Frame ℕ)) : Prop where
  below : Below h (top fs) t
  pointer : h.cells (cellAbove fs) = addr t
  above : Above h fs
  nodup : (t.toList ++ nodesAbove fs).Nodup
  valid : ∀ n ∈ t.toList ++ nodesAbove fs, IsNode n
  owned : ∀ n ∈ t.toList ++ nodesAbove fs, n ∈ S
  kept : Kept S h₀ h

theorem side_ne (d : Bool) : side d ≠ side (!d) := by
  cases d <;> decide

theorem side_other (d : Bool) : (side d).other = side (!d) := by
  cases d <;> rfl

section Words

variable {p q : ℕ}

theorem add_bit_eq_or (hp : 4 ∣ p) (c : Color) : p + bit c = p ||| bit c := by
  obtain ⟨m, rfl⟩ := hp
  refine Nat.two_pow_add_eq_or_of_lt (i := 2) ?_ m
  cases c <;> decide

theorem and_pointer_mask (hp : 4 ∣ p) (hlt : p < 2 ^ 64) : p &&& (2 ^ 64 - 4) = p := by
  obtain ⟨m, rfl⟩ := hp
  have hmask : 2 ^ 64 - 4 = (2 ^ 62 - 1) <<< 2 := by decide
  have hm : 4 * m = m <<< 2 := by
    rw [Nat.shiftLeft_eq]
    omega
  rw [hmask, hm, ← Nat.shiftLeft_and_distrib, Nat.and_two_pow_sub_one_eq_mod,
    Nat.mod_eq_of_lt (by omega)]

theorem and_color_mask (hp : 4 ∣ p) (hlt : p < 2 ^ 64) : p &&& (2 ^ 64 - 2) = p := by
  obtain ⟨m, rfl⟩ := hp
  have hmask : 2 ^ 64 - 2 = (2 ^ 63 - 1) <<< 1 := by decide
  have hm : 4 * m = (2 * m) <<< 1 := by
    rw [Nat.shiftLeft_eq]
    omega
  rw [hmask, hm, ← Nat.shiftLeft_and_distrib, Nat.and_two_pow_sub_one_eq_mod,
    Nat.mod_eq_of_lt (by omega)]

theorem word_parent (hp : 4 ∣ p) (hlt : p < 2 ^ 64) (c : Color) :
    (p + bit c) &&& (2 ^ 64 - 4) = p := by
  have hbit : bit c &&& (2 ^ 64 - 4) = 0 := by
    cases c <;> decide
  rw [add_bit_eq_or hp, Nat.and_or_distrib_right, and_pointer_mask hp hlt, hbit, Nat.or_zero]

theorem word_color (hp : 4 ∣ p) (c : Color) : (p + bit c) &&& 1 = bit c := by
  rw [Nat.and_one_is_mod]
  cases c with
  | red => show (p + 0) % 2 = 0; omega
  | black => show (p + 1) % 2 = 1; omega

theorem word_uncolored (hp : 4 ∣ p) (hlt : p < 2 ^ 64) (c : Color) :
    (p + bit c) &&& (2 ^ 64 - 2) = p := by
  have hbit : bit c &&& (2 ^ 64 - 2) = 0 := by
    cases c <;> decide
  rw [add_bit_eq_or hp, Nat.and_or_distrib_right, and_color_mask hp hlt, hbit, Nat.or_zero]

theorem word_setParent (hp : 4 ∣ p) (hq : 4 ∣ q) (c : Color) :
    ((p + bit c) &&& 3) ||| q = q + bit c := by
  have hlow : (p + bit c) &&& 3 = bit c := by
    have hlt : bit c < 4 := by
      cases c <;> decide
    rw [show 3 = 2 ^ 2 - 1 from rfl, Nat.and_two_pow_sub_one_eq_mod]
    omega
  rw [hlow, Nat.or_comm, add_bit_eq_or hq]

theorem word_setBlack (hp : 4 ∣ p) (c : Color) : (p + bit c) ||| 1 = p + bit .black := by
  have hbit : bit c ||| 1 = bit .black := by
    cases c <;> decide
  rw [add_bit_eq_or hp, Nat.or_assoc, hbit, add_bit_eq_or hp]

end Words

section Node

variable {h : Heap} {n p q : ℕ} {c : Color}

theorem rbChild_eq (hn : n ≠ 0) (s : Side) : h.rbChild s n = some (h.cells (.child s n)) :=
  if_neg hn

theorem setChild_eq (hn : n ≠ 0) (s : Side) (p : ℕ) :
    h.setChild s n p = some (h.store (.child s n) p) := if_neg hn

theorem updateParentColor_eq (hn : n ≠ 0) (f : ℕ → ℕ) :
    h.updateParentColor n f = some (h.storeParentColor n (f (h.parentColor n))) := if_neg hn

theorem rbParentColor_eq (hn : n ≠ 0) : h.rbParentColor n = some (h.parentColor n) := if_neg hn

theorem rbParent_eq (hn : n ≠ 0) (hw : h.parentColor n = p + bit c) (hp : 4 ∣ p)
    (hlt : p < 2 ^ 64) : h.rbParent n = some p := by
  rw [rbParent, rbParentColor_eq hn, hw, Option.map_some, word_parent hp hlt]

theorem rbColor_eq (hn : n ≠ 0) (hw : h.parentColor n = p + bit c) (hp : 4 ∣ p) :
    h.rbColor n = some (bit c) := by
  rw [rbColor, rbParentColor_eq hn, hw, Option.map_some, word_color hp]

theorem rbIsRed_eq (hn : n ≠ 0) (hw : h.parentColor n = p + bit c) (hp : 4 ∣ p) :
    h.rbIsRed n = some (decide (c = .red)) := by
  rw [rbIsRed, rbColor_eq hn hw hp]
  cases c <;> rfl

theorem rbIsBlack_eq (hn : n ≠ 0) (hw : h.parentColor n = p + bit c) (hp : 4 ∣ p) :
    h.rbIsBlack n = some !decide (c = .red) := by
  rw [rbIsBlack, rbColor_eq hn hw hp]
  cases c <;> rfl

theorem rbSetParent_eq (hn : n ≠ 0) (hw : h.parentColor n = p + bit c) (hp : 4 ∣ p) (hq : 4 ∣ q) :
    h.rbSetParent n q = some (h.storeParentColor n (q + bit c)) := by
  rw [rbSetParent, updateParentColor_eq hn, hw, word_setParent hp hq]

theorem rbSetBlack_eq (hn : n ≠ 0) (hw : h.parentColor n = p + bit c) (hp : 4 ∣ p) :
    h.rbSetBlack n = some (h.storeParentColor n (p + bit .black)) := by
  rw [rbSetBlack, updateParentColor_eq hn, hw, word_setBlack hp]

theorem rbSetRed_eq (hn : n ≠ 0) (hw : h.parentColor n = p + bit c) (hp : 4 ∣ p)
    (hlt : p < 2 ^ 64) : h.rbSetRed n = some (h.storeParentColor n (p + bit .red)) := by
  rw [rbSetRed, updateParentColor_eq hn, hw, word_uncolored hp hlt]
  rfl

theorem rbSetColor_eq (hn : n ≠ 0) (hw : h.parentColor n = p + bit c) (hp : 4 ∣ p)
    (hlt : p < 2 ^ 64) (c' : Color) :
    h.rbSetColor n (bit c') = some (h.storeParentColor n (p + bit c')) := by
  rw [rbSetColor, updateParentColor_eq hn, hw, word_uncolored hp hlt, add_bit_eq_or hp]

end Node

section Footprint

variable {S T : Set ℕ} {h₀ h h' : Heap} {c : Cell} {n : ℕ} {t : ColorTree ℕ}

theorem Kept.refl (S : Set ℕ) (h : Heap) : Kept S h h := fun _ _ => ⟨rfl, fun _ => rfl⟩

theorem Kept.trans (hk : Kept S h₀ h) (hk' : Kept S h h') : Kept S h₀ h' := fun n hn =>
  ⟨(hk' n hn).1.trans (hk n hn).1, fun s => ((hk' n hn).2 s).trans ((hk n hn).2 s)⟩

theorem Kept.mono (hk : Kept S h h') (hsub : S ⊆ T) : Kept T h h' :=
  fun n hn => hk n fun hS => hn (hsub hS)

theorem Kept.store (hk : Kept S h₀ h) (hc : ∀ s n, c = .child s n → n ∈ S) (p : ℕ) :
    Kept S h₀ (h.store c p) := by
  intro n hn
  refine ⟨(hk n hn).1, fun s => ?_⟩
  have hne : .child s n ≠ c := fun heq => hn (hc s n heq.symm)
  exact (Function.update_of_ne hne _ _).trans ((hk n hn).2 s)

theorem Kept.storeChild (hk : Kept S h₀ h) (hn : n ∈ S) (s : Side) (p : ℕ) :
    Kept S h₀ (h.store (.child s n) p) := by
  refine hk.store ?_ p
  rintro s' n' ⟨⟩
  exact hn

theorem Kept.storeParentColor (hk : Kept S h₀ h) (hn : n ∈ S) (w : ℕ) :
    Kept S h₀ (h.storeParentColor n w) := by
  intro m hm
  have hne : m ≠ n := fun heq => hm (heq ▸ hn)
  exact ⟨(Function.update_of_ne hne _ _).trans (hk m hm).1, (hk m hm).2⟩

end Footprint

section Agreement

variable {h h' : Heap} {t : ColorTree ℕ} {fs : List (Frame ℕ)} {p q : ℕ}

theorem Below.congr (hb : Below h p t)
    (hcells : ∀ n ∈ t.toList, ∀ s, h'.cells (.child s n) = h.cells (.child s n))
    (hwords : ∀ n ∈ t.toList, h'.parentColor n = h.parentColor n) : Below h' p t := by
  induction t generalizing p with
  | nil => trivial
  | node c l n r ihl ihr =>
    obtain ⟨hl, hr, hw, hbl, hbr⟩ := hb
    rw [toList] at hcells hwords
    have hn : n ∈ l.toList ++ n :: r.toList := by simp
    refine ⟨(hcells n hn _).trans hl, (hcells n hn _).trans hr, (hwords n hn).trans hw,
      ihl hbl ?_ ?_, ihr hbr ?_ ?_⟩
    · exact fun m hm => hcells m (List.mem_append_left _ hm)
    · exact fun m hm => hwords m (List.mem_append_left _ hm)
    · exact fun m hm => hcells m (List.mem_append_right _ (List.mem_cons_of_mem _ hm))
    · exact fun m hm => hwords m (List.mem_append_right _ (List.mem_cons_of_mem _ hm))

theorem Above.congr (ha : Above h fs) (hnodup : (nodesAbove fs).Nodup)
    (hcells : ∀ c, c ≠ cellAbove fs → (∀ s n, c = .child s n → n ∈ nodesAbove fs) →
      h'.cells c = h.cells c)
    (hwords : ∀ n ∈ nodesAbove fs, h'.parentColor n = h.parentColor n) : Above h' fs := by
  induction fs with
  | nil => trivial
  | cons f fs ih =>
    obtain ⟨hs, hw, hptr, hb, ha⟩ := ha
    rw [nodesAbove, List.nodup_cons, List.nodup_append'] at hnodup
    obtain ⟨hf, hsib, hfs, hdisj⟩ := hnodup
    rw [List.mem_append, not_or] at hf
    have hcell : ∀ n ∈ f.sibling.toList ++ nodesAbove fs, ∀ s,
        Cell.child s n ≠ cellAbove (f :: fs) := by
      intro n hn s heq
      injection heq with _ heq
      rw [heq, List.mem_append] at hn
      exact hn.elim hf.1 hf.2
    have hmem : ∀ n ∈ f.sibling.toList ++ nodesAbove fs, n ∈ nodesAbove (f :: fs) :=
      fun n hn => List.mem_cons_of_mem _ hn
    refine ⟨?_, ?_, ?_, hb.congr ?_ ?_, ih ha hfs ?_ ?_⟩
    · refine (hcells _ ?_ ?_).trans hs
      · intro heq
        injection heq with heq _
        exact side_ne f.dir heq.symm
      · rintro s n heq
        injection heq with _ heq
        rw [← heq]
        exact List.mem_cons_self
    · exact (hwords _ List.mem_cons_self).trans hw
    · refine (hcells _ ?_ ?_).trans hptr
      · cases fs with
        | nil => exact Cell.noConfusion
        | cons g gs => exact hcell g.value (List.mem_append_right _ List.mem_cons_self) _
      · intro s n heq
        cases fs with
        | nil => cases heq
        | cons g gs =>
          injection heq with _ heq
          rw [← heq]
          exact hmem _ (List.mem_append_right _ List.mem_cons_self)
    · intro n hn s
      refine hcells _ (hcell n (List.mem_append_left _ hn) s) ?_
      rintro s' n' heq
      injection heq with _ heq
      rw [← heq]
      exact hmem n (List.mem_append_left _ hn)
    · exact fun n hn => hwords n (hmem n (List.mem_append_left _ hn))
    · intro c hc hin
      refine hcells c ?_ fun s n heq => hmem n (List.mem_append_right _ (hin s n heq))
      rintro rfl
      exact hf.2 (hin _ _ rfl)
    · exact fun n hn => hwords n (hmem n (List.mem_append_right _ hn))

def reparent (t : ColorTree ℕ) (p : ℕ) (words : ℕ → ℕ) : ℕ → ℕ :=
  match t with
  | .nil => words
  | .node c _ n _ => Function.update words n (p + bit c)

theorem reparent_of_ne {n : ℕ} (hn : n ≠ addr t) (words : ℕ → ℕ) :
    reparent t p words n = words n := by
  cases t with
  | nil => rfl
  | node c l m r => exact Function.update_of_ne hn _ _

theorem Kept.reparent {S : Set ℕ} {h₀ : Heap} (hk : Kept S h₀ h) (ht : ∀ n ∈ t.toList, n ∈ S)
    (p : ℕ) : Kept S h₀ { h with parentColor := RbTree.reparent t p h.parentColor } := by
  cases t with
  | nil => exact hk
  | node c l n r => exact hk.storeParentColor (ht n (List.mem_append_right _ List.mem_cons_self)) _

theorem Below.reparent (hb : Below h p t) (hnodup : t.toList.Nodup)
    (hcells : ∀ n ∈ t.toList, ∀ s, h'.cells (.child s n) = h.cells (.child s n))
    (hwords : ∀ n ∈ t.toList, h'.parentColor n = RbTree.reparent t q h.parentColor n) :
    Below h' q t := by
  cases t with
  | nil => trivial
  | node c l n r =>
    obtain ⟨hl, hr, hw, hbl, hbr⟩ := hb
    rw [toList] at hcells hwords hnodup
    have hn : n ∈ l.toList ++ n :: r.toList := by simp
    have hnot : n ∉ l.toList ∧ n ∉ r.toList := by
      rw [List.nodup_middle, List.nodup_cons, List.mem_append, not_or] at hnodup
      exact hnodup.1
    have hkeep : ∀ m ∈ l.toList ++ n :: r.toList, m ≠ n → h'.parentColor m = h.parentColor m :=
      fun m hm hne => (hwords m hm).trans (reparent_of_ne (t := .node c l n r) hne _)
    have hkeepl : ∀ m ∈ l.toList, h'.parentColor m = h.parentColor m :=
      fun m hm => hkeep m (List.mem_append_left _ hm) fun heq => hnot.1 (heq ▸ hm)
    have hkeepr : ∀ m ∈ r.toList, h'.parentColor m = h.parentColor m :=
      fun m hm => hkeep m (List.mem_append_right _ (List.mem_cons_of_mem _ hm)) fun heq =>
        hnot.2 (heq ▸ hm)
    refine ⟨(hcells n hn _).trans hl, (hcells n hn _).trans hr, ?_, hbl.congr ?_ hkeepl,
      hbr.congr ?_ hkeepr⟩
    · exact (hwords n hn).trans (Function.update_self _ _ _)
    · exact fun m hm => hcells m (List.mem_append_left _ hm)
    · exact fun m hm => hcells m (List.mem_append_right _ (List.mem_cons_of_mem _ hm))

end Agreement

section Moves

variable {S : Set ℕ} {h₀ h h' : Heap} {t t' : ColorTree ℕ} {f : Frame ℕ} {fs gs : List (Frame ℕ)}
  {d : Bool} {c c' : Color} {l r a b : ColorTree ℕ}
  {n m p q : ℕ}

theorem addr_join (d : Bool) (c : Color) (a b : ColorTree ℕ) (n : ℕ) :
    addr (join d c a n b) = n := by
  cases d <;> rfl

theorem below_join : Below h p (join d c a n b) ↔ h.cells (.child (side d) n) = addr a ∧
    h.cells (.child (side !d) n) = addr b ∧ h.parentColor n = p + bit c ∧ Below h n a ∧
    Below h n b := by
  cases d with
  | false => rfl
  | true =>
    show _ ∧ _ ∧ _ ∧ _ ∧ _ ↔ _
    simp only [side, Bool.not_true]
    tauto

theorem nodes_cons (t : ColorTree ℕ) (f : Frame ℕ) (fs : List (Frame ℕ)) :
    (t.toList ++ nodesAbove (f :: fs)).Perm
      ((join f.dir f.color t f.value f.sibling).toList ++ nodesAbove fs) := by
  refine List.perm_middle.trans (((toList_join_perm ..).append_right _).trans ?_).symm
  rw [List.cons_append, List.append_assoc]

theorem holds_cons :
    Holds S h₀ h t (f :: fs) ↔ Holds S h₀ h (join f.dir f.color t f.value f.sibling) fs := by
  have hperm := nodes_cons t f fs
  constructor
  · rintro ⟨hb, hptr, ⟨hs, hw, hup, hbs, ha⟩, hnodup, hvalid, howned, hkept⟩
    refine ⟨below_join.mpr ⟨hptr, hs, hw, hb, hbs⟩, hup.trans (addr_join ..).symm, ha,
      hperm.nodup_iff.mp hnodup, ?_, ?_, hkept⟩
    · exact fun x hx => hvalid x (hperm.mem_iff.mpr hx)
    · exact fun x hx => howned x (hperm.mem_iff.mpr hx)
  · rintro ⟨hb, hup, ha, hnodup, hvalid, howned, hkept⟩
    obtain ⟨hptr, hs, hw, hb, hbs⟩ := below_join.mp hb
    refine ⟨hb, hptr, ⟨hs, hw, hup.trans (addr_join ..), hbs, ha⟩, hperm.nodup_iff.mpr hnodup,
      ?_, ?_, hkept⟩
    · exact fun x hx => hvalid x (hperm.mem_iff.mp hx)
    · exact fun x hx => howned x (hperm.mem_iff.mp hx)

theorem holds_append : Holds S h₀ h t (fs ++ gs) ↔ Holds S h₀ h (fill t fs) gs := by
  induction fs generalizing t with
  | nil => rfl
  | cons f fs ih => exact holds_cons.trans ih

theorem holds_fill : Holds S h₀ h t fs ↔ Holds S h₀ h (fill t fs) [] := by
  rw [← holds_append, List.append_nil]

theorem nodesAbove_append (fs gs : List (Frame ℕ)) :
    nodesAbove (fs ++ gs) = nodesAbove fs ++ nodesAbove gs := by
  induction fs with
  | nil => rfl
  | cons f fs ih =>
    rw [List.cons_append, nodesAbove, ih, nodesAbove, List.cons_append, List.append_assoc]

theorem toList_fill_perm (t : ColorTree ℕ) (fs : List (Frame ℕ)) :
    (fill t fs).toList.Perm (t.toList ++ nodesAbove fs) := by
  induction fs generalizing t with
  | nil => rw [nodesAbove, List.append_nil, fill]
  | cons f fs ih => exact (ih _).trans (nodes_cons t f fs).symm

theorem length_le_nodesAbove (fs : List (Frame ℕ)) : fs.length ≤ (nodesAbove fs).length := by
  induction fs with
  | nil => exact Nat.le_refl 0
  | cons f fs ih =>
    rw [nodesAbove, List.length_cons, List.length_cons, List.length_append]
    omega

theorem Holds.length_lt (hh : Holds S h₀ h t fs) :
    (t.toList ++ nodesAbove fs).length < walkLimit := by
  have hnodup : (0 :: (t.toList ++ nodesAbove fs)).Nodup :=
    List.nodup_cons.mpr ⟨fun h0 => (hh.valid 0 h0).ne_zero rfl, hh.nodup⟩
  have hsub : 0 :: (t.toList ++ nodesAbove fs) ⊆ List.range walkLimit := by
    intro n hn
    rw [List.mem_range]
    rcases List.mem_cons.mp hn with rfl | hn
    · exact Nat.two_pow_pos 64
    · exact (hh.valid n hn).fits
  have hle := (List.subperm_of_subset hnodup hsub).length_le
  rwa [List.length_cons, List.length_range] at hle

theorem Holds.frames_lt (hh : Holds S h₀ h t fs) : fs.length < walkLimit := by
  have hlt := hh.length_lt
  rw [List.length_append] at hlt
  exact Nat.lt_of_le_of_lt ((length_le_nodesAbove fs).trans (Nat.le_add_left _ _)) hlt

theorem Holds.height_lt (hh : Holds S h₀ h t fs) : t.height < walkLimit := by
  have hlt := hh.length_lt
  rw [List.length_append] at hlt
  exact Nat.lt_of_le_of_lt (t.height_le_length.trans (Nat.le_add_right _ _)) hlt

theorem Holds.down (d : Bool) (hh : Holds S h₀ h (join d c a n b) fs) :
    Holds S h₀ h a (⟨d, c, n, b⟩ :: fs) := holds_cons.mpr hh

theorem Holds.down_other (d : Bool) (hh : Holds S h₀ h (join d c a n b) fs) :
    Holds S h₀ h b (⟨!d, c, n, a⟩ :: fs) := by
  refine holds_cons.mpr ?_
  rwa [join_not]

theorem Holds.isNode_top (hh : Holds S h₀ h t (f :: fs)) : IsNode f.value :=
  hh.valid f.value (List.mem_append_right _ List.mem_cons_self)

theorem Holds.aligned_top (hh : Holds S h₀ h t fs) : 4 ∣ top fs ∧ top fs < 2 ^ 64 := by
  cases fs with
  | nil => decide
  | cons f fs => exact ⟨hh.isNode_top.aligned, hh.isNode_top.fits⟩

theorem Holds.isNode (hh : Holds S h₀ h (join d c a n b) fs) : IsNode n := by
  refine hh.valid n (List.mem_append_left _ ?_)
  rw [(toList_join_perm ..).mem_iff]
  exact List.mem_cons_self

theorem Holds.mem_join (hh : Holds S h₀ h (join d c a n b) fs) : n ∈ S := by
  refine hh.owned n (List.mem_append_left _ ?_)
  rw [(toList_join_perm ..).mem_iff]
  exact List.mem_cons_self

theorem Holds.kept_above {h₁ : Heap} (hh : Holds S h₀ h t fs) (hk : Kept S h₁ h') (p : ℕ) :
    Kept S h₁ (h'.store (cellAbove fs) p) := by
  refine hk.store (fun s n heq => ?_) p
  cases fs with
  | nil => cases heq
  | cons f fs =>
    obtain ⟨-, rfl⟩ := Cell.child.inj heq
    exact hh.owned _ (List.mem_append_right _ List.mem_cons_self)

theorem Holds.start (hh : Holds S h₀ h t fs) {T : Set ℕ}
    (howned : ∀ n ∈ t.toList ++ nodesAbove fs, n ∈ T) : Holds T h h t fs :=
  { hh with owned := howned, kept := .refl T h }

theorem Holds.replace (hh : Holds S h₀ h t fs) (hbelow : Below h' (top fs) t')
    (hptr : h'.cells (cellAbove fs) = addr t')
    (hcells : ∀ c, c ≠ cellAbove fs → (∀ s n, c = .child s n → n ∈ nodesAbove fs) →
      h'.cells c = h.cells c)
    (hwords : ∀ n ∈ nodesAbove fs, h'.parentColor n = h.parentColor n)
    (hnodup : (t'.toList ++ nodesAbove fs).Nodup) (hvalid : ∀ n ∈ t'.toList, IsNode n)
    (howned : ∀ n ∈ t'.toList, n ∈ S) (hkept : Kept S h₀ h') : Holds S h₀ h' t' fs where
  below := hbelow
  pointer := hptr
  above := hh.above.congr (List.nodup_append'.mp hnodup).2.1 hcells hwords
  nodup := hnodup
  valid n hn := (List.mem_append.mp hn).elim (hvalid n) fun hn =>
    hh.valid n (List.mem_append_right _ hn)
  owned n hn := (List.mem_append.mp hn).elim (howned n) fun hn =>
    hh.owned n (List.mem_append_right _ hn)
  kept := hkept

end Moves

end AnalysisPrograms.RbTree
