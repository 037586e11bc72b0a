import AnalysisPrograms.RbTree.Representation

namespace AnalysisPrograms.RbTree

open Foundations.RedBlack ColorTree
open GraphC Heap

variable {S : Set ℕ} {h₀ h h' : Heap} {t : ColorTree ℕ} {f : Frame ℕ} {fs : List (Frame ℕ)}
  {d : Bool} {c c' : Color} {a b e : ColorTree ℕ}
  {n m p q : ℕ}

section Reading

theorem Holds.rbChild (hh : Holds S h₀ h (join d c a n b) fs) :
    h.rbChild (side d) n = some (addr a) := by
  rw [rbChild_eq hh.isNode.ne_zero, (below_join.mp hh.below).1]

theorem Holds.rbChild_other (hh : Holds S h₀ h (join d c a n b) fs) :
    h.rbChild (side !d) n = some (addr b) := by
  rw [rbChild_eq hh.isNode.ne_zero, (below_join.mp hh.below).2.1]

theorem Holds.rbLeft (hh : Holds S h₀ h (.node c a n b) fs) : h.rbLeft n = some (addr a) :=
  Holds.rbChild (d := false) hh

theorem Holds.rbRight (hh : Holds S h₀ h (.node c a n b) fs) : h.rbRight n = some (addr b) :=
  Holds.rbChild_other (d := false) hh

theorem Holds.word (hh : Holds S h₀ h (join d c a n b) fs) : h.parentColor n = top fs + bit c :=
  (below_join.mp hh.below).2.2.1

theorem Holds.rbParent (hh : Holds S h₀ h (join d c a n b) fs) : h.rbParent n = some (top fs) :=
  rbParent_eq hh.isNode.ne_zero hh.word hh.aligned_top.1 hh.aligned_top.2

theorem Holds.rbColor (hh : Holds S h₀ h (join d c a n b) fs) : h.rbColor n = some (bit c) :=
  rbColor_eq hh.isNode.ne_zero hh.word hh.aligned_top.1

theorem Holds.rbIsRed (hh : Holds S h₀ h (join d c a n b) fs) :
    h.rbIsRed n = some (decide (c = .red)) :=
  rbIsRed_eq hh.isNode.ne_zero hh.word hh.aligned_top.1

theorem Holds.isRedNode (hh : Holds S h₀ h t fs) : h.isRedNode (addr t) = some t.isRed := by
  cases t with
  | nil => rfl
  | node c l n r =>
    have hn := Holds.isNode (d := false) hh
    rw [Heap.isRedNode, addr, if_neg hn.ne_zero, Holds.rbIsRed (d := false) hh]
    cases c <;> rfl

theorem Holds.isBlackOrNull (hh : Holds S h₀ h t fs) :
    h.isBlackOrNull (addr t) = some !t.isRed := by
  cases t with
  | nil => rfl
  | node c l n r =>
    have hn := Holds.isNode (d := false) hh
    rw [Heap.isBlackOrNull, addr, if_neg hn.ne_zero,
      rbIsBlack_eq hn.ne_zero (Holds.word (d := false) hh) hh.aligned_top.1]
    cases c <;> rfl

theorem cellAbove_ne (hn : n ∉ nodesAbove fs) (s : Side) : .child s n ≠ cellAbove fs := by
  intro heq
  cases fs with
  | nil => cases heq
  | cons f fs =>
    injection heq with _ heq
    rw [heq] at hn
    exact hn List.mem_cons_self

theorem addr_mem (ht : t ≠ .nil) : addr t ∈ t.toList := by
  cases t with
  | nil => exact absurd rfl ht
  | node c l n r => simp [addr, toList]

theorem ne_addr {x : ℕ} (hx : x ∉ t.toList) (h0 : x ≠ 0) : x ≠ addr t := by
  rintro rfl
  cases t with
  | nil => exact h0 rfl
  | node c l n r => exact hx (addr_mem node_ne_nil)

theorem Holds.addr_eq_zero (hh : Holds S h₀ h t fs) : addr t = 0 ↔ t = .nil := by
  constructor
  · intro h0
    by_contra ht
    exact (hh.valid _ (List.mem_append_left _ (addr_mem ht))).ne_zero h0
  · rintro rfl
    rfl

theorem Holds.addr_ne (hh : Holds S h₀ h t (f :: fs)) (hsome : t ≠ .nil ∨ f.sibling ≠ .nil) :
    addr f.sibling ≠ addr t := by
  intro heq
  have hsib : Holds S h₀ h f.sibling (⟨!f.dir, f.color, f.value, t⟩ :: fs) :=
    (holds_cons.mp hh).down_other
  have hzero : t = .nil ↔ f.sibling = .nil := by
    rw [← hh.addr_eq_zero, ← hsib.addr_eq_zero, heq]
  have ht : t ≠ .nil := fun ht => hsome.elim (fun h => h ht) fun h => h (hzero.mp ht)
  have hs := addr_mem fun hs => ht (hzero.mpr hs)
  rw [heq] at hs
  exact (List.nodup_append'.mp hh.nodup).2.2 (addr_mem ht)
    (List.mem_cons_of_mem _ (List.mem_append_left _ hs))

theorem Holds.cell_eq_iff (hh : Holds S h₀ h t (f :: fs)) (hsome : t ≠ .nil ∨ f.sibling ≠ .nil)
    (d : Bool) : h.cells (.child (side d) f.value) = addr t ↔ d = f.dir := by
  have hptr := hh.pointer
  rw [cellAbove] at hptr
  by_cases hd : d = f.dir
  · rw [hd]
    exact iff_of_true hptr rfl
  · obtain rfl : d = !f.dir := by
      revert hd
      cases d <;> cases f.dir <;> decide
    rw [hh.above.1]
    exact iff_of_false (hh.addr_ne hsome) hd

end Reading

section Painting

theorem Holds.paint (hh : Holds S h₀ h (join d c a n b) fs) (c' : Color) :
    Holds S h₀ (h.storeParentColor n (top fs + bit c')) (join d c' a n b) fs := by
  obtain ⟨ha, hb, hw, hba, hbb⟩ := below_join.mp hh.below
  have hperm : (join d c' a n b).toList.Perm (join d c a n b).toList :=
    (toList_join_perm ..).trans (toList_join_perm ..).symm
  have hnodup : ((join d c' a n b).toList ++ nodesAbove fs).Nodup :=
    (hperm.append_right _).nodup_iff.mpr hh.nodup
  have hnot : n ∉ a.toList ++ b.toList ∧ n ∉ nodesAbove fs := by
    have := ((toList_join_perm d c' a b n).append_right (nodesAbove fs)).nodup_iff.mp hnodup
    rw [List.cons_append, List.nodup_cons, List.mem_append, not_or] at this
    exact this.1
  have hkeep : ∀ x, x ≠ n →
      (h.storeParentColor n (top fs + bit c')).parentColor x = h.parentColor x :=
    fun x hx => Function.update_of_ne hx _ _
  refine hh.replace (below_join.mpr ⟨ha, hb, Function.update_self _ _ _, ?_, ?_⟩) ?_
    (fun _ _ _ => rfl) ?_ hnodup ?_ ?_
    (hh.kept.storeParentColor hh.mem_join _)
  · refine hba.congr (fun _ _ _ => rfl) fun x hx => hkeep x ?_
    rintro rfl
    exact hnot.1 (List.mem_append_left _ hx)
  · refine hbb.congr (fun _ _ _ => rfl) fun x hx => hkeep x ?_
    rintro rfl
    exact hnot.1 (List.mem_append_right _ hx)
  · exact hh.pointer.trans ((addr_join ..).trans (addr_join ..).symm)
  · intro x hx
    refine hkeep x ?_
    rintro rfl
    exact hnot.2 hx
  · exact fun x hx => hh.valid x (List.mem_append_left _ (hperm.mem_iff.mp hx))
  · exact fun x hx => hh.owned x (List.mem_append_left _ (hperm.mem_iff.mp hx))

theorem Holds.rbSetBlack (hh : Holds S h₀ h (join d c a n b) fs) :
    ∃ h', h.rbSetBlack n = some h' ∧ Holds S h₀ h' (join d .black a n b) fs :=
  ⟨_, rbSetBlack_eq hh.isNode.ne_zero hh.word hh.aligned_top.1, hh.paint .black⟩

theorem Holds.rbSetRed (hh : Holds S h₀ h (join d c a n b) fs) :
    ∃ h', h.rbSetRed n = some h' ∧ Holds S h₀ h' (join d .red a n b) fs :=
  ⟨_, rbSetRed_eq hh.isNode.ne_zero hh.word hh.aligned_top.1 hh.aligned_top.2, hh.paint .red⟩

theorem Holds.rbSetColor (hh : Holds S h₀ h (join d c a n b) fs) (c' : Color) :
    ∃ h', h.rbSetColor n (bit c') = some h' ∧ Holds S h₀ h' (join d c' a n b) fs :=
  ⟨_, rbSetColor_eq hh.isNode.ne_zero hh.word hh.aligned_top.1 hh.aligned_top.2 c', hh.paint c'⟩

end Painting

section Rotation

theorem setParent_child (h' : Heap) (hb : Below h p t)
    (hsame : h'.parentColor (addr t) = h.parentColor (addr t)) (hvalid : ∀ n ∈ t.toList, IsNode n)
    (hp : 4 ∣ p) (hq : 4 ∣ q) :
    (if addr t ≠ 0 then h'.rbSetParent (addr t) q else some h') =
      some { h' with parentColor := reparent t q h'.parentColor } := by
  cases t with
  | nil => rfl
  | node c l n r =>
    have hn := (hvalid n (addr_mem (t := .node c l n r) node_ne_nil)).ne_zero
    rw [addr, if_pos hn, rbSetParent_eq hn (hsame.trans hb.2.2.1) hp hq]
    rfl

theorem Holds.relink (h' : Heap) (hh : Holds S h₀ h t fs) (ht : t ≠ .nil)
    (hsame : ∀ f ∈ fs.head?, ∀ s, h'.cells (.child s f.value) = h.cells (.child s f.value))
    (d : Bool) (q : ℕ) :
    (if top fs ≠ 0 then (h'.rbChild (side d) (top fs)).bind fun child =>
        if addr t = child then h'.setChild (side d) (top fs) q
        else h'.setChild (side d).other (top fs) q
      else some (h'.store .root q)) = some (h'.store (cellAbove fs) q) := by
  cases fs with
  | nil => rfl
  | cons f fs =>
    have hn := hh.isNode_top.ne_zero
    have hcell := hh.cell_eq_iff (.inl ht) d
    rw [top, if_pos hn, rbChild_eq hn, hsame f rfl, Option.bind_some, cellAbove]
    by_cases hd : d = f.dir
    · rw [if_pos (hcell.mpr hd).symm, setChild_eq hn, hd]
    · have hother : side f.dir = (side d).other := by
        revert hd
        cases d <;> cases f.dir <;> decide
      rw [if_neg (fun heq => hd (hcell.mp heq.symm)), setChild_eq hn, hother]

def rotated (h : Heap) (d : Bool) (c c' : Color) (b : ColorTree ℕ) (n m : ℕ) (fs : List (Frame ℕ)) :
    Heap where
  cells :=
    Function.update
      (Function.update (Function.update h.cells (.child (side !d) n) (addr b))
        (.child (side d) m) n)
      (cellAbove fs) m
  parentColor := Function.update (Function.update (reparent b n h.parentColor) m (top fs + bit c'))
    n (m + bit c)

theorem rotated_cells {x : ℕ} (hn : x ≠ n) (hm : x ≠ m) {s : Side}
    (hx : .child s x ≠ cellAbove fs) :
    (rotated h d c c' b n m fs).cells (.child s x) = h.cells (.child s x) := by
  have hne : ∀ s' y, x ≠ y → Cell.child s x ≠ .child s' y :=
    fun _ _ hxy heq => hxy (Cell.child.inj heq).2
  unfold rotated
  dsimp only
  rw [Function.update_of_ne hx, Function.update_of_ne (hne _ _ hm),
    Function.update_of_ne (hne _ _ hn)]

theorem rotated_words {x : ℕ} (hn : x ≠ n) (hm : x ≠ m) (hb : x ≠ addr b) :
    (rotated h d c c' b n m fs).parentColor x = h.parentColor x := by
  unfold rotated
  dsimp only
  rw [Function.update_of_ne hn, Function.update_of_ne hm, reparent_of_ne hb]

structure Apart (a b e : ColorTree ℕ) (n m : ℕ) (fs : List (Frame ℕ)) : Prop where
  ne : n ≠ m
  pivots : ∀ x ∈ a.toList ++ (b.toList ++ (e.toList ++ nodesAbove fs)), x ≠ n ∧ x ≠ m
  above : ∀ x ∈ a.toList ++ (b.toList ++ e.toList), x ∉ nodesAbove fs
  inner : ∀ x ∈ a.toList ++ (e.toList ++ nodesAbove fs), x ∉ b.toList
  nodup : b.toList.Nodup

theorem Holds.apart (hh : Holds S h₀ h (join d c a n (join d c' b m e)) fs) :
    Apart a b e n m fs := by
  have hperm := (toList_join_perm d c a (join d c' b m e) n).trans
    (((toList_join_perm d c' b e m).append_left a.toList).cons n)
  have hnodup := (hperm.append_right (nodesAbove fs)).nodup_iff.mp hh.nodup
  simp only [List.cons_append, List.append_assoc, List.nodup_cons, List.mem_append,
    List.mem_cons, not_or, List.nodup_append', List.disjoint_cons_right,
    List.disjoint_append_right] at hnodup
  obtain ⟨⟨hna, hnm, hnb, hne, hnf⟩, -, ⟨⟨hmb, hme, hmf⟩, hb, ⟨-, -, hef⟩, hbe, hbf⟩, hma, hab, hae,
    haf⟩ := hnodup
  refine ⟨hnm, ?_, ?_, ?_, hb⟩
  · intro x hx
    constructor
    · rintro rfl
      simp only [List.mem_append] at hx
      tauto
    · rintro rfl
      simp only [List.mem_append] at hx
      tauto
  · intro x hx
    rw [List.mem_append, List.mem_append] at hx
    exact hx.elim (@haf x) fun hx => hx.elim (@hbf x) (@hef x)
  · intro x hx hxb
    rw [List.mem_append, List.mem_append] at hx
    exact hx.elim (fun hx => hab hx hxb) fun hx => hx.elim (hbe hxb) (hbf hxb)

theorem Apart.notMem_above (hapart : Apart a b e n m fs) : n ∉ nodesAbove fs ∧ m ∉ nodesAbove fs :=
  ⟨fun hx => (hapart.pivots n (by simp [hx])).1 rfl,
    fun hx => (hapart.pivots m (by simp [hx])).2 rfl⟩

theorem Apart.cell_ne (hapart : Apart a b e n m fs) (s s' : Side) : Cell.child s n ≠ .child s' m :=
  fun heq => hapart.ne (Cell.child.inj heq).2

theorem child_side_ne (d : Bool) (x : ℕ) : Cell.child (side d) x ≠ .child (side !d) x :=
  fun heq => side_ne d (Cell.child.inj heq).1

theorem Apart.cells_rotated (hapart : Apart a b e n m fs) {x : ℕ}
    (hx : x ∈ a.toList ++ (b.toList ++ e.toList)) (s : Side) :
    (rotated h d c c' b n m fs).cells (.child s x) = h.cells (.child s x) := by
  have hx' := hapart.pivots x (by
    simp only [List.mem_append] at hx ⊢
    tauto)
  exact rotated_cells hx'.1 hx'.2 (cellAbove_ne (hapart.above x hx) s)

theorem Holds.words_rotated (hh : Holds S h₀ h (join d c a n (join d c' b m e)) fs) {x : ℕ}
    (hx : x ∈ a.toList ++ (e.toList ++ nodesAbove fs)) :
    (rotated h d c c' b n m fs).parentColor x = h.parentColor x := by
  obtain ⟨-, hpivots, -, hinner, -⟩ := hh.apart
  have hx' := hpivots x (by
    simp only [List.mem_append] at hx ⊢
    tauto)
  refine rotated_words hx'.1 hx'.2 (ne_addr (hinner x hx) (hh.valid x ?_).ne_zero)
  rw [List.mem_append, (toList_join_perm ..).mem_iff, List.mem_cons, List.mem_append,
    (toList_join_perm ..).mem_iff, List.mem_cons, List.mem_append]
  simp only [List.mem_append] at hx
  tauto

theorem Holds.below_rotated (hh : Holds S h₀ h (join d c a n (join d c' b m e)) fs) :
    Below (rotated h d c c' b n m fs) m (join d c a n b) := by
  obtain ⟨ha, -, -, hba, hbm⟩ := below_join.mp hh.below
  obtain ⟨-, -, -, hbb, -⟩ := below_join.mp hbm
  have hapart := hh.apart
  have hn := hapart.notMem_above.1
  refine below_join.mpr ⟨?_, ?_, Function.update_self _ _ _, ?_, ?_⟩
  · refine Eq.trans ?_ ha
    unfold RbTree.rotated
    dsimp only
    rw [Function.update_of_ne (cellAbove_ne hn _), Function.update_of_ne (hapart.cell_ne _ _),
      Function.update_of_ne (child_side_ne d n)]
  · unfold RbTree.rotated
    dsimp only
    rw [Function.update_of_ne (cellAbove_ne hn _), Function.update_of_ne (hapart.cell_ne _ _),
      Function.update_self]
  · exact hba.congr (fun x hx => hapart.cells_rotated (List.mem_append_left _ hx))
      fun x hx => hh.words_rotated (List.mem_append_left _ hx)
  · refine hbb.reparent hapart.nodup (fun x hx => hapart.cells_rotated (by simp [hx]))
      fun x hx => ?_
    have hx' := hapart.pivots x (by simp [hx])
    unfold RbTree.rotated
    dsimp only
    rw [Function.update_of_ne hx'.1, Function.update_of_ne hx'.2]

theorem Holds.kept_rotated (hh : Holds S h₀ h (join d c a n (join d c' b m e)) fs) :
    Kept S h₀ (rotated h d c c' b n m fs) := by
  have hup := Holds.down_other d hh
  have hn := hh.mem_join
  have hm := hup.mem_join
  have hb : ∀ x ∈ b.toList, x ∈ S :=
    fun x hx => (Holds.down d hup).owned x (List.mem_append_left _ hx)
  have hcells :=
    hh.kept_above (((hh.kept.storeChild hn (side !d) (addr b)).storeChild hm (side d) n)) m
  exact ((hcells.reparent hb n).storeParentColor hm _).storeParentColor hn _

theorem Holds.rotated (hh : Holds S h₀ h (join d c a n (join d c' b m e)) fs) :
    Holds S h₀ (rotated h d c c' b n m fs) (join d c' (join d c a n b) m e) fs := by
  obtain ⟨-, -, -, -, hbm⟩ := below_join.mp hh.below
  obtain ⟨-, he, -, -, hbe⟩ := below_join.mp hbm
  have hapart := hh.apart
  obtain ⟨hn, hm⟩ := hapart.notMem_above
  have hlist : (join d c' (join d c a n b) m e).toList =
      (join d c a n (join d c' b m e)).toList := by
    cases d <;> simp [join, toList]
  refine hh.replace (below_join.mpr ⟨?_, ?_, ?_, hh.below_rotated, ?_⟩)
    ?_ ?_ ?_ ?_ ?_ ?_ hh.kept_rotated
  · unfold RbTree.rotated
    dsimp only
    rw [Function.update_of_ne (cellAbove_ne hm _), Function.update_self, addr_join]
  · refine Eq.trans ?_ he
    unfold RbTree.rotated
    dsimp only
    rw [Function.update_of_ne (cellAbove_ne hm _), Function.update_of_ne (child_side_ne d m).symm,
      Function.update_of_ne (hapart.cell_ne _ _).symm]
  · unfold RbTree.rotated
    dsimp only
    rw [Function.update_of_ne hapart.ne.symm, Function.update_self]
  · exact hbe.congr (fun x hx => hapart.cells_rotated (by simp [hx])) fun x hx =>
      hh.words_rotated (by simp [hx])
  · rw [addr_join]
    exact Function.update_self _ _ _
  · intro x hx hin
    unfold RbTree.rotated
    dsimp only
    rw [Function.update_of_ne hx, Function.update_of_ne, Function.update_of_ne]
    · rintro rfl
      exact hn (hin _ _ rfl)
    · rintro rfl
      exact hm (hin _ _ rfl)
  · exact fun x hx => hh.words_rotated (by simp [hx])
  · rw [hlist]
    exact hh.nodup
  · rw [hlist]
    exact fun x hx => hh.valid x (List.mem_append_left _ hx)
  · rw [hlist]
    exact fun x hx => hh.owned x (List.mem_append_left _ hx)

theorem ite_bind {α β : Type} {P : Prop} [Decidable P] (x y : Option α) (f : α → Option β) :
    (if P then x else y).bind f = if P then x.bind f else y.bind f :=
  apply_ite (Option.bind · f) P x y

theorem rotateTo_eq (s : Side) (h : Heap) (n : ℕ) : Heap.rotateTo s h n =
    (h.rbChild s.other n).bind fun up => (h.rbParent n).bind fun parent =>
    (h.rbChild s up).bind fun inner => (h.setChild s.other n inner).bind fun h₁ =>
    (if inner ≠ 0 then h₁.rbSetParent inner n else some h₁).bind fun h₂ =>
    (h₂.setChild s up n).bind fun h₃ => (h₃.rbSetParent up parent).bind fun h₄ =>
    (if parent ≠ 0 then (h₄.rbChild s parent).bind fun child =>
        if n = child then h₄.setChild s parent up else h₄.setChild s.other parent up
      else some (h₄.store .root up)).bind fun h₅ => h₅.rbSetParent n up := by
  simp only [Heap.rotateTo, ite_bind, Option.bind_assoc]
  rfl

theorem Holds.rotateTo (hh : Holds S h₀ h (join d c a n (join d c' b m e)) fs) :
    Heap.rotateTo (side d) h n = some (RbTree.rotated h d c c' b n m fs) := by
  obtain ⟨-, -, hwn, -, hbm⟩ := below_join.mp hh.below
  obtain ⟨-, -, hwm, hbb, -⟩ := below_join.mp hbm
  obtain ⟨hne, hpivots, habove, hinner, hnodupb⟩ := hh.apart
  have hup := Holds.down_other d hh
  have hn := hh.isNode
  have hm := hup.isNode
  have hnb : n ∉ b.toList := fun hx => (hpivots n (by simp [hx])).1 rfl
  have hmb : m ∉ b.toList := fun hx => (hpivots m (by simp [hx])).2 rfl
  have hvalidb : ∀ x ∈ b.toList, IsNode x :=
    fun x hx => (Holds.down d hup).valid x (List.mem_append_left _ hx)
  rw [rotateTo_eq, side_other, hh.rbChild_other, Option.bind_some, addr_join, hh.rbParent,
    Option.bind_some, hup.rbChild, Option.bind_some, setChild_eq hn.ne_zero, Option.bind_some,
    setParent_child (h.store _ _) hbb rfl hvalidb hm.aligned hn.aligned, Option.bind_some,
    setChild_eq hm.ne_zero, Option.bind_some]
  have hwm' : reparent b n h.parentColor m = n + bit c' :=
    (reparent_of_ne (ne_addr hmb hm.ne_zero) _).trans hwm
  rw [rbSetParent_eq hm.ne_zero hwm' hn.aligned hh.aligned_top.1, Option.bind_some]
  have hnil : join d c a n (join d c' b m e) ≠ .nil := join_ne_nil
  have hrelink := fun h' hsame => hh.relink h' hnil hsame d m
  rw [addr_join, side_other] at hrelink
  rw [hrelink, Option.bind_some]
  · have hwn' : Function.update (reparent b n h.parentColor) m (top fs + bit c') n =
        top fs + bit c := by
      rw [Function.update_of_ne hne, reparent_of_ne (ne_addr hnb hn.ne_zero), hwn]
    rw [rbSetParent_eq hn.ne_zero hwn' hh.aligned_top.1 hm.aligned]
    rfl
  · intro f hf s
    have hf' := hpivots f.value (by
      cases fs with
      | nil => cases hf
      | cons g gs =>
        cases hf
        simp [nodesAbove])
    have hother : ∀ s' y, f.value ≠ y → Cell.child s f.value ≠ .child s' y :=
      fun _ _ hxy heq => hxy (Cell.child.inj heq).2
    exact (Function.update_of_ne (hother _ _ hf'.2) _ _).trans
      (Function.update_of_ne (hother _ _ hf'.1) _ _)

end Rotation

end AnalysisPrograms.RbTree
