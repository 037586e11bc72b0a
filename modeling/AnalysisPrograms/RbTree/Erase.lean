import AnalysisPrograms.RbTree.EraseColor

namespace AnalysisPrograms.RbTree

open Foundations.RedBlack ColorTree
open GraphC Heap

variable {S : Set ℕ} {h₀ h h' : Heap} {t t' : ColorTree ℕ} {f : Frame ℕ} {fs ds : List (Frame ℕ)}
  {d : Bool} {c c' : Color} {l r s : ColorTree ℕ}
  {n m x p q : ℕ}

section Replacing

def spliced (h : Heap) (s : ColorTree ℕ) (fs : List (Frame ℕ)) : Heap where
  cells := Function.update h.cells (cellAbove fs) (addr s)
  parentColor := reparent s (top fs) h.parentColor

theorem Holds.spliced (hh : Holds S h₀ h (join d c .nil n s) fs) :
    Holds S h₀ (spliced h s fs) s fs := by
  have hnodup :=
    ((toList_join_perm d c .nil s n).append_right (nodesAbove fs)).nodup_iff.mp hh.nodup
  have hsub : (s.toList ++ nodesAbove fs).Nodup := (List.nodup_cons.mp hnodup).2
  have hmem : ∀ y ∈ s.toList, y ∈ (join d c .nil n s).toList := by
    intro y hy
    rw [(toList_join_perm ..).mem_iff]
    exact List.mem_cons_of_mem _ hy
  have hdisj := (List.nodup_append'.mp hsub).2.2
  have howned : ∀ y ∈ s.toList, y ∈ S := fun y hy => hh.owned y (List.mem_append_left _ (hmem y hy))
  refine hh.replace ?_ (Function.update_self _ _ _) (fun y hy _ => Function.update_of_ne hy _ _)
    ?_ hsub ?_ howned
    ((hh.kept_above hh.kept (addr s)).reparent howned (top fs))
  · refine (below_join.mp hh.below).2.2.2.2.reparent (List.nodup_append'.mp hsub).1 ?_
      fun _ _ => rfl
    exact fun y hy s' => Function.update_of_ne (cellAbove_ne (fun h => hdisj hy h) s') _ _
  · intro y hy
    exact reparent_of_ne
      (ne_addr (fun h => hdisj h hy) (hh.valid y (List.mem_append_right _ hy)).ne_zero) _
  · exact fun y hy => hh.valid y (List.mem_append_left _ (hmem y hy))

theorem reparent_congr {w w' : ℕ → ℕ} (hx : w x = w' x) : reparent t p w x = reparent t p w' x := by
  cases t with
  | nil => exact hx
  | node c l n r =>
    rw [reparent, reparent, Function.update_apply, Function.update_apply, hx]

theorem forall_mem_node {p : ℕ → Prop} {xs : List ℕ} (hm : p m)
    (hrest : ∀ y ∈ l.toList ++ (r.toList ++ xs), p y) : ∀ y ∈ (node c l m r).toList, p y := by
  intro y hy
  rw [toList, List.mem_append, List.mem_cons] at hy
  rcases hy with hy | rfl | hy
  · exact hrest y (List.mem_append_left _ hy)
  · exact hm
  · exact hrest y (List.mem_append_right _ (List.mem_append_left _ hy))

theorem Holds.substitute (hh : Holds S h₀ h (.node c l n r) fs) (hm : IsNode m) (hmS : m ∈ S)
    (hkept : Kept S h₀ h') (hfresh : m ∉ l.toList ++ (r.toList ++ nodesAbove fs))
    (hptr : h'.cells (cellAbove fs) = m) (hleft : h'.cells (.child .left m) = addr l)
    (hright : h'.cells (.child .right m) = addr r) (hword : h'.parentColor m = top fs + bit c)
    (hcells : ∀ y, y ≠ cellAbove fs →
      (∀ s x, y = .child s x → x ∈ l.toList ++ (r.toList ++ nodesAbove fs)) →
      h'.cells y = h.cells y)
    (hwords : ∀ x ∈ l.toList ++ (r.toList ++ nodesAbove fs),
      h'.parentColor x = reparent l m (reparent r m h.parentColor) x) :
    Holds S h₀ h' (.node c l m r) fs := by
  have hnodup :=
    ((toList_join_perm false c l r n).append_right (nodesAbove fs)).nodup_iff.mp hh.nodup
  rw [List.cons_append, List.append_assoc, List.nodup_cons] at hnodup
  obtain ⟨hl, hrfs, hdisj⟩ := List.nodup_append'.mp hnodup.2
  obtain ⟨hr, -, hrf⟩ := List.nodup_append'.mp hrfs
  have hinside : ∀ y ∈ l.toList ++ (r.toList ++ nodesAbove fs),
      y ∈ (node c l n r).toList ++ nodesAbove fs := by
    intro y hy
    refine ((toList_join_perm false c l r n).append_right _).mem_iff.mpr ?_
    rw [List.cons_append, List.append_assoc]
    exact List.mem_cons_of_mem _ hy
  have hvalid : ∀ y ∈ l.toList ++ (r.toList ++ nodesAbove fs), IsNode y :=
    fun y hy => hh.valid y (hinside y hy)
  have hchild : ∀ y ∈ l.toList ++ r.toList, ∀ s, h'.cells (.child s y) = h.cells (.child s y) := by
    intro y hy s
    have hy' : y ∈ l.toList ++ (r.toList ++ nodesAbove fs) := by
      simp only [List.mem_append] at hy ⊢
      tauto
    refine hcells _ (cellAbove_ne (fun hf => ?_) s) fun s' x heq => (Cell.child.inj heq).2 ▸ hy'
    exact (List.mem_append.mp hy).elim (fun hy => hdisj hy (List.mem_append_right _ hf))
      fun hy => hrf hy hf
  obtain ⟨-, -, -, hbl, hbr⟩ := hh.below
  refine hh.replace ⟨hleft, hright, hword, hbl.reparent hl ?_ ?_, hbr.reparent hr ?_ ?_⟩
    hptr ?_ ?_ ?_ ?_ ?_ hkept
  · exact fun y hy => hchild y (List.mem_append_left _ hy)
  · intro y hy
    refine (hwords y (List.mem_append_left _ hy)).trans
      (reparent_congr (reparent_of_ne (ne_addr (fun hyr => ?_) ?_) _))
    · exact hdisj hy (List.mem_append_left _ hyr)
    · exact (hvalid y (List.mem_append_left _ hy)).ne_zero
  · exact fun y hy => hchild y (List.mem_append_right _ hy)
  · intro y hy
    have hy' := List.mem_append_right l.toList (List.mem_append_left (nodesAbove fs) hy)
    refine (hwords y hy').trans (reparent_of_ne (ne_addr (fun hyl => ?_) (hvalid y hy').ne_zero) _)
    exact hdisj hyl (List.mem_append_left _ hy)
  · exact fun y hne hin => hcells y hne fun s x heq => List.mem_append_right _
      (List.mem_append_right _ (hin s x heq))
  · intro y hy
    have hy' := List.mem_append_right l.toList (List.mem_append_right r.toList hy)
    rw [hwords y hy', reparent_of_ne, reparent_of_ne]
    · exact ne_addr (fun hyr => hrf hyr hy) (hvalid y hy').ne_zero
    · exact ne_addr (fun hyl => hdisj hyl (List.mem_append_right _ hy)) (hvalid y hy').ne_zero
  · refine ((toList_join_perm false c l r m).append_right (nodesAbove fs)).nodup_iff.mpr ?_
    rw [List.cons_append, List.append_assoc]
    exact List.nodup_cons.mpr ⟨hfresh, hnodup.2⟩
  · exact forall_mem_node hm hvalid
  · exact forall_mem_node hmS fun y hy => hh.owned y (hinside y hy)

end Replacing

section Walking

theorem Holds.farthest (hh : Holds S h₀ h t fs) (ht : t ≠ .nil) {fuel : ℕ}
    (hfuel : t.height ≤ fuel) (d : Bool) :
    Heap.farthest (side d) fuel h (addr t) = if d then t.toList.getLast? else t.toList.head? := by
  induction t generalizing fs fuel with
  | nil => exact absurd rfl ht
  | node c l n r ihl ihr =>
    rw [height] at hfuel
    obtain ⟨k, rfl⟩ : ∃ k, fuel = k + 1 := ⟨fuel - 1, by omega⟩
    have hchild : h.rbChild (side d) n = some (addr (pick d l r)) := by
      rw [← join_pick d] at hh
      exact hh.rbChild
    rw [Heap.farthest, addr, hchild, Option.bind_eq_bind, Option.bind_some, toList]
    cases d with
    | false =>
      cases l with
      | nil => rfl
      | node cl a m b =>
        have hl : Holds S h₀ h (.node cl a m b) _ := Holds.down (c := c) (n := n) (b := r) false hh
        have hlist : (node cl a m b).toList ≠ [] :=
          List.ne_nil_of_mem (addr_mem (t := .node cl a m b) node_ne_nil)
        rw [pick, if_pos (mt hl.addr_eq_zero.mp node_ne_nil), ihl hl node_ne_nil (by omega)]
        exact (List.head?_append_of_ne_nil _ hlist).symm
    | true =>
      cases r with
      | nil => simp [pick, addr, toList]
      | node cr a m b =>
        have hr : Holds S h₀ h (.node cr a m b) _ := Holds.down (c := c) (n := n) (b := l) true hh
        have hlist : (node cr a m b).toList ≠ [] :=
          List.ne_nil_of_mem (addr_mem (t := .node cr a m b) node_ne_nil)
        rw [pick, if_pos (mt hr.addr_eq_zero.mp node_ne_nil), ihr hr node_ne_nil (by omega)]
        rw [if_pos rfl, if_pos rfl, List.append_cons, List.getLast?_append_of_ne_nil _ hlist]

end Walking

section Erasing

theorem Holds.replaceChild (h' : Heap) (hh : Holds S h₀ h t fs) (ht : t ≠ .nil)
    (hsame : ∀ f ∈ fs.head?, ∀ s, h'.cells (.child s f.value) = h.cells (.child s f.value))
    (q : ℕ) : h'.replaceChild (top fs) (addr t) q = some (h'.store (cellAbove fs) q) := by
  cases fs with
  | nil => rfl
  | cons f fs =>
    have hn := hh.isNode_top.ne_zero
    have hcell : h.cells (.child .left f.value) = addr t ↔ false = f.dir :=
      hh.cell_eq_iff (.inl ht) false
    rw [Heap.replaceChild, top, if_pos hn, Heap.rbLeft, rbChild_eq hn, hsame f rfl,
      Option.bind_eq_bind, Option.bind_some, setRbLeft, setRbRight, setChild_eq hn,
      setChild_eq hn, cellAbove]
    cases hd : f.dir with
    | false => rw [if_pos (hcell.mpr hd.symm), side]
    | true =>
      rw [if_neg, side]
      intro heq
      rw [← hcell.mp heq] at hd
      cases hd

theorem eraseOuter_eq (h : Heap) (n child : ℕ) : eraseOuter h n child =
    (h.rbParent n).bind fun parent => (h.rbColor n).bind fun color =>
    (if child ≠ 0 then h.rbSetParent child parent else some h).bind fun h₁ =>
    (h₁.replaceChild parent n child).bind fun h₂ =>
    some (h₂, child, parent, color) := by
  simp only [eraseOuter, ite_bind]
  rfl

theorem Holds.eraseOuter (hh : Holds S h₀ h (join d c .nil n s) fs) :
    Heap.eraseOuter h n (addr s) = some (RbTree.spliced h s fs, addr s, top fs, bit c) := by
  have hother := Holds.down_other d hh
  have hnil : join d c .nil n s ≠ .nil := join_ne_nil
  have hreplace := hh.replaceChild { h with parentColor := reparent s (top fs) h.parentColor } hnil
    (fun _ _ _ => rfl) (addr s)
  rw [addr_join] at hreplace
  rw [eraseOuter_eq, hh.rbParent, Option.bind_some, hh.rbColor, Option.bind_some,
    setParent_child h hother.below rfl (fun y hy => hother.valid y (List.mem_append_left _ hy))
    hh.isNode.aligned
      hh.aligned_top.1, Option.bind_some, hreplace, Option.bind_some]
  rfl

def takePlace (h : Heap) (old node : ℕ) : Option Heap :=
  (h.rbParentColor old).bind fun w => (h.updateParentColor node fun _ => w).bind fun h₁ =>
    (h₁.rbLeft old).bind fun left => (h₁.setRbLeft node left).bind fun h₂ =>
      h₂.rbSetParent left node

theorem eraseInner_eq (h : Heap) (old : ℕ) : eraseInner h old =
    (h.rbRight old).bind fun right => (farthest .left walkLimit h right).bind fun node =>
    (h.rbParent old).bind fun oldParent =>
    (h.replaceChild oldParent old node).bind fun h₁ => (h₁.rbRight node).bind fun child =>
    (h₁.rbParent node).bind fun parent =>
    (h₁.rbColor node).bind fun color => (h₁.detachSuccessor old node child parent).bind fun r =>
    (takePlace r.1 old node).bind fun h₂ => some (h₂, child, r.2, color) := by
  simp only [eraseInner, takePlace, Option.bind_assoc]
  rfl

theorem detachSuccessor_of_ne (h : Heap) {old node child parent : ℕ} (hne : parent ≠ old) :
    h.detachSuccessor old node child parent =
      (if child ≠ 0 then h.rbSetParent child parent else some h).bind fun h₁ =>
      (h₁.setRbLeft parent child).bind fun h₂ =>
      (h₂.rbRight old).bind fun right => (h₂.setRbRight node right).bind fun h₃ =>
      (h₃.rbRight old).bind fun right' =>
      (h₃.rbSetParent right' node).bind fun h₄ => some (h₄, parent) := by
  simp only [detachSuccessor, if_neg hne, ite_bind]
  rfl

def root : ColorTree ℕ → Option (Color × ℕ)
  | .nil => none
  | .node c _ n _ => some (c, n)

theorem root_join : root (join d c l n r) = some (c, n) := by
  cases d <;> rfl

theorem root_fill (hds : ds ≠ []) (t t' : ColorTree ℕ) : root (fill t ds) = root (fill t' ds) := by
  have hcongr : ∀ (fs : List (Frame ℕ)) (t t' : ColorTree ℕ), root t = root t' →
      root (fill t fs) = root (fill t' fs) := by
    intro fs
    induction fs with
    | nil => exact fun _ _ heq => heq
    | cons f fs ih => exact fun _ _ _ => ih _ _ (root_join.trans root_join.symm)
  cases ds with
  | nil => exact absurd rfl hds
  | cons f fs => exact hcongr fs _ _ (root_join.trans root_join.symm)

theorem addr_congr (heq : root t = root t') : addr t = addr t' := by
  cases t <;> cases t' <;> simp_all [root, addr]

theorem addr_fill_mem (hds : ds ≠ []) (t : ColorTree ℕ) : addr (fill t ds) ∈ nodesAbove ds := by
  rw [addr_congr (root_fill hds t .nil), ← List.nil_append (nodesAbove ds)]
  refine (toList_fill_perm .nil ds).mem_iff.mp (addr_mem ?_)
  cases ds with
  | nil => exact absurd rfl hds
  | cons f ds =>
    exact fill_ne_nil join_ne_nil ds

theorem reparent_root (heq : root t = root t') (p : ℕ) (w : ℕ → ℕ) :
    reparent t p w = reparent t' p w := by
  cases t <;> cases t' <;> simp_all [root, reparent]

theorem Below.reparent_self (hb : Below h p t) (q x : ℕ) :
    RbTree.reparent t p (RbTree.reparent t q h.parentColor) x = h.parentColor x := by
  cases t with
  | nil => rfl
  | node c l n r =>
    rw [RbTree.reparent, RbTree.reparent, Function.update_idem, ← hb.2.2.1, Function.update_eq_self]

structure Around (l r : ColorTree ℕ) (n m : ℕ) (ds fs : List (Frame ℕ)) : Prop where
  successor : m ∉ l.toList ++ (r.toList ++ (nodesAbove ds ++ nodesAbove fs))
  erased : n ∉ l.toList ++ (r.toList ++ (nodesAbove ds ++ nodesAbove fs))
  ne : m ≠ n
  between : ∀ x ∈ nodesAbove ds, x ∉ l.toList ++ (r.toList ++ nodesAbove fs)
  left : ∀ x ∈ l.toList, x ∉ r.toList

theorem Holds.around (hh : Holds S h₀ h (.node c' .nil m r) (ds ++ ⟨true, c, n, l⟩ :: fs)) :
    Around l r n m ds fs := by
  have hnodup := hh.nodup
  rw [nodesAbove_append, nodesAbove, toList, toList, List.nil_append] at hnodup
  simp only [List.cons_append, List.nodup_cons, List.mem_append, List.mem_cons, not_or,
    List.nodup_append', List.disjoint_cons_right, List.disjoint_append_right] at hnodup
  obtain ⟨⟨hmr, hmd, hmn, hml, hmf⟩, -, ⟨-, ⟨⟨hnl, hnf⟩, -, -, -⟩, hnd, hdl, hdf⟩, hrd, hnr, hrl,
    hrf⟩ := hnodup
  refine ⟨?_, ?_, hmn, ?_, fun x hl hr => hrl hr hl⟩
  · simp only [List.mem_append]
    tauto
  · simp only [List.mem_append]
    tauto
  · intro x hx
    simp only [List.mem_append, not_or]
    exact ⟨fun hl => hdl hx hl, fun hr => hrd hr hx, fun hf => hdf hx hf⟩

theorem takePlace_eq (hb : Below h n l) (hl : l ≠ .nil)
    (hword : h'.parentColor (addr l) = h.parentColor (addr l))
    (hcell : h'.cells (.child .left n) = addr l) (hn : IsNode n) (hm : IsNode m)
    (hvalid : IsNode (addr l)) (hml : m ≠ addr l) :
    takePlace h' n m = some ⟨Function.update h'.cells (.child .left m) (addr l),
      reparent l m (Function.update h'.parentColor m (h'.parentColor n))⟩ := by
  cases l with
  | nil => exact absurd rfl hl
  | node c a x b =>
    have hw : Function.update h'.parentColor m (h'.parentColor n) x = n + bit c := by
      have hmx : x ≠ m := hml.symm
      rw [Function.update_of_ne hmx]
      exact hword.trans hb.2.2.1
    have hcell' : (h'.storeParentColor m (h'.parentColor n)).cells (.child .left n) = x := hcell
    have hset := rbSetParent_eq (h := ⟨Function.update h'.cells (.child .left m) x,
      Function.update h'.parentColor m (h'.parentColor n)⟩) hvalid.ne_zero hw hn.aligned hm.aligned
    rw [takePlace, rbParentColor_eq hn.ne_zero, Option.bind_some, updateParentColor_eq hm.ne_zero,
      Option.bind_some, Heap.rbLeft, rbChild_eq hn.ne_zero, Option.bind_some, setRbLeft,
      setChild_eq hm.ne_zero, Option.bind_some, hcell']
    exact hset

structure Detached (S : Set ℕ) (h h' : Heap) (c : Color) (l r : ColorTree ℕ) (n m : ℕ)
    (ds fs : List (Frame ℕ)) : Prop where
  pointer : h'.cells (cellAbove fs) = m
  right : h'.cells (.child .right m) = addr (fill r ds)
  cells : ∀ y, y ≠ cellAbove fs →
    (∀ s x, y = .child s x → x ∈ l.toList ++ ((fill r ds).toList ++ nodesAbove fs)) →
    h'.cells y = (spliced h r (ds ++ ⟨true, c, n, l⟩ :: fs)).cells y
  words : ∀ x ∈ l.toList ++ ((fill r ds).toList ++ nodesAbove fs),
    h'.parentColor x = reparent (fill r ds) m
    (spliced h r (ds ++ ⟨true, c, n, l⟩ :: fs)).parentColor x
  oldWord : h'.parentColor n = top fs + bit c
  oldLeft : h'.cells (.child .left n) = addr l
  leftWord : h'.parentColor (addr l) = h.parentColor (addr l)
  kept : Kept S h h'

theorem Holds.takePlace (hh : Holds S h₀ h (.node c' .nil m r) (ds ++ ⟨true, c, n, l⟩ :: fs))
    (hl : l ≠ .nil) (hdet : Detached S h h' c l r n m ds fs) :
    ∃ h'', RbTree.takePlace h' n m = some h'' ∧ Holds S h₀ h'' r (ds ++ ⟨true, c, m, l⟩ :: fs) := by
  have haround := hh.around
  have hm : IsNode m := Holds.isNode (d := false) hh
  have hold := holds_cons.mp (holds_append.mp hh)
  have hspliced := holds_cons.mp (holds_append.mp (Holds.spliced (d := false) hh))
  have hfresh : m ∉ l.toList ++ ((fill r ds).toList ++ nodesAbove fs) := by
    have := haround.successor
    simp only [List.mem_append, (toList_fill_perm r ds).mem_iff] at this ⊢
    tauto
  have hml : m ≠ addr l := ne_addr (fun hx => hfresh (List.mem_append_left _ hx)) hm.ne_zero
  have hmf : m ∉ nodesAbove fs :=
    fun hx => hfresh (List.mem_append_right _ (List.mem_append_right _ hx))
  have hsides : Cell.child .right m ≠ .child .left m :=
    fun heq => Side.noConfusion (Cell.child.inj heq).1
  have hvalid : IsNode (addr l) :=
    (Holds.down_other true hold).valid _ (List.mem_append_left _ (addr_mem hl))
  refine ⟨_, takePlace_eq (below_join.mp hold.below).2.2.2.2 hl hdet.leftWord hdet.oldLeft
    hold.isNode hm hvalid hml, ?_⟩
  rw [hdet.oldWord]
  have hmS : m ∈ S := Holds.mem_join (d := false) hh
  have howned : ∀ x ∈ l.toList, x ∈ S :=
    fun x hx => (Holds.down_other true hold).owned x (List.mem_append_left _ hx)
  have hkept :=
    (((hh.kept.trans hdet.kept).storeChild hmS .left (addr l)).storeParentColor hmS
      (top fs + bit c)).reparent howned m
  refine holds_append.mpr (Holds.down true
    (Holds.substitute hspliced hm hmS hkept hfresh ?_ (Function.update_self _ _ _) ?_ ?_ ?_ ?_))
  · exact (Function.update_of_ne (cellAbove_ne hmf _).symm _ _).trans hdet.pointer
  · exact (Function.update_of_ne hsides (addr l) h'.cells).trans hdet.right
  · exact (reparent_of_ne hml _).trans (Function.update_self _ _ _)
  · intro y hy hin
    refine (Function.update_of_ne (fun heq => ?_) _ _).trans (hdet.cells y hy hin)
    exact hfresh (hin _ _ heq)
  · intro x hx
    refine reparent_congr ((Function.update_of_ne (fun heq => ?_) _ _).trans (hdet.words x hx))
    exact hfresh (heq ▸ hx)

theorem Holds.detached_child (hh : Holds S h₀ h (.node c' .nil m r) (⟨true, c, n, l⟩ :: fs)) :
    Detached S h (h.store (cellAbove fs) m) c l r n m [] fs := by
  have haround : Around l r n m [] fs := Holds.around hh
  have hold : Holds S h₀ h (.node c l n (.node c' .nil m r)) fs := holds_cons.mp hh
  have hn := haround.erased
  have hm := haround.successor
  simp only [nodesAbove, List.nil_append, List.mem_append, not_or] at hn hm
  refine ⟨Function.update_self _ _ _, ?_, ?_, ?_, hold.below.2.2.1, ?_, rfl,
    hold.kept_above (.refl S h) m⟩
  · exact (Function.update_of_ne (cellAbove_ne hm.2.2 _) _ _).trans hh.below.2.1
  · intro y hy hin
    refine (Function.update_of_ne hy _ _).trans (Function.update_of_ne (fun heq => ?_) _ _).symm
    have hmem := hin _ _ heq
    simp only [fill, List.mem_append] at hmem
    tauto
  · exact fun x _ => (Below.reparent_self hh.below.2.2.2.2 n x).symm
  · exact (Function.update_of_ne (cellAbove_ne hn.2.2 _) _ _).trans hold.below.1

theorem Holds.detached_below
    (hh : Holds S h₀ h (.node c' .nil m r) (f :: ds ++ ⟨true, c, n, l⟩ :: fs))
    (hf : f.dir = false) (hl : l ≠ .nil) : Detached S h
      ⟨Function.update
        (Function.update (Function.update h.cells (cellAbove fs) m) (.child .left f.value) (addr r))
        (.child .right m) (addr (fill (.node c' .nil m r) (f :: ds))),
        reparent (fill (.node c' .nil m r) (f :: ds)) m (reparent r f.value h.parentColor)⟩
        c l r n m (f :: ds) fs := by
  have haround := hh.around
  have hold := holds_cons.mp (holds_append.mp hh)
  have hroot : root (fill (.node c' .nil m r) (f :: ds)) = root (fill r (f :: ds)) :=
    root_fill (List.cons_ne_nil _ _) _ _
  have hn := haround.erased
  have hm := haround.successor
  have hfv := haround.between f.value List.mem_cons_self
  simp only [List.mem_append, not_or] at hn hm hfv
  have hfn : n ≠ f.value := fun heq => hn.2.2.1 (heq ▸ List.mem_cons_self)
  have hsides : ∀ x y, Cell.child .left x ≠ .child .right y :=
    fun _ _ heq => Side.noConfusion (Cell.child.inj heq).1
  -- The right child of `n` and the right child of its successor are other nodes than `n` and those
  -- on its left.
  have hkeep : ∀ x, x ≠ 0 → x ≠ m → x ∉ r.toList → x ∉ nodesAbove (f :: ds) →
      reparent (fill (.node c' .nil m r) (f :: ds)) m (reparent r f.value h.parentColor) x =
      h.parentColor x := by
    intro x h0 hxm hxr hxd
    refine (reparent_of_ne (ne_addr (fun hx => ?_) h0) _).trans (reparent_of_ne (ne_addr hxr h0) _)
    rw [(toList_fill_perm _ _).mem_iff, List.mem_append, toList, toList, List.nil_append,
      List.mem_cons] at hx
    tauto
  have hleft := (hold.kept_above (.refl S h) m).storeChild
    (hh.owned f.value (by simp [nodesAbove])) .left (addr r)
  have hkept := hleft.storeChild (Holds.mem_join (d := false) hh) .right
    (addr (fill (.node c' .nil m r) (f :: ds)))
  have hr : ∀ x ∈ r.toList, x ∈ S := fun x hx => hh.owned x (by simp [toList, hx])
  have hR : ∀ x ∈ (fill (.node c' .nil m r) (f :: ds)).toList, x ∈ S :=
    fun x hx => (holds_append.mp hh).owned x (List.mem_append_left _ hx)
  refine ⟨?_, (Function.update_self _ _ _).trans (addr_congr hroot), ?_, ?_, ?_, ?_, ?_,
    (hkept.reparent hr f.value).reparent hR m⟩
  · dsimp only
    rw [Function.update_of_ne (cellAbove_ne hm.2.2.2 _).symm,
      Function.update_of_ne (cellAbove_ne hfv.2.2 _).symm, Function.update_self]
  · intro y hy hin
    refine (Function.update_of_ne (fun heq => ?_) _ _).trans ?_
    · have hmem := hin _ _ heq
      simp only [List.mem_append, (toList_fill_perm r (f :: ds)).mem_iff] at hmem
      tauto
    · rw [RbTree.spliced, List.cons_append, cellAbove, hf, side, Function.update_apply,
        Function.update_of_ne hy]
      exact (Function.update_apply ..).symm
  · exact fun x _ => congrFun (reparent_root hroot _ _) x
  · exact (hkeep n hold.isNode.ne_zero haround.ne.symm hn.2.1 hn.2.2.1).trans
      (below_join.mp hold.below).2.2.1
  · dsimp only
    rw [Function.update_of_ne (hsides n m),
      Function.update_of_ne (fun heq => hfn (Cell.child.inj heq).2), Function.update_of_ne
      (cellAbove_ne hn.2.2.2 _)]
    exact (below_join.mp hold.below).2.1
  · have hmem := addr_mem hl
    refine hkeep _ ((Holds.down_other true hold).valid _ (List.mem_append_left _ hmem)).ne_zero ?_
      (haround.left _ hmem) ?_
    · exact fun heq => hm.1 (heq ▸ hmem)
    · exact fun hx => haround.between _ hx (List.mem_append_left _ hmem)

theorem Holds.detachSuccessor
    (hh : Holds S h₀ h (.node c' .nil m r) (ds ++ ⟨true, c, n, l⟩ :: fs))
    (hleft : ∀ f ∈ ds, f.dir = false) (hl : l ≠ .nil) :
    ∃ h', (h.store (cellAbove fs) m).detachSuccessor n m (addr r)
      (top (ds ++ ⟨true, c, n, l⟩ :: fs)) =
        some (h', top (ds ++ ⟨true, c, m, l⟩ :: fs)) ∧ Detached S h h' c l r n m ds fs := by
  cases ds with
  | nil => exact ⟨_, if_pos rfl, hh.detached_child⟩
  | cons f ds =>
    refine ⟨_, ?_, hh.detached_below (hleft f List.mem_cons_self) hl⟩
    have haround := hh.around
    have hsub := holds_append.mp hh
    have hold := holds_cons.mp hsub
    have hn := haround.erased
    have hm := haround.successor
    have hfv := hh.isNode_top
    simp only [List.mem_append, not_or] at hn hm
    have hne : f.value ≠ n := fun heq => hn.2.2.1 (heq ▸ List.mem_cons_self)
    have hmnode := (Holds.isNode (d := false) hh)
    have hrvalid : ∀ x ∈ r.toList, IsNode x := fun x hx =>
      hh.valid x (List.mem_append_left _ (List.mem_append_right _ (List.mem_cons_of_mem _ hx)))
    have hRvalid : ∀ x ∈ (fill (.node c' .nil m r) (f :: ds)).toList, IsNode x :=
      fun x hx => hsub.valid x (List.mem_append_left _ hx)
    have hRnil : fill (.node c' .nil m r) (f :: ds) ≠ .nil :=
      fill_ne_nil (t := .node c' .nil m r) node_ne_nil _
    have hRmem := addr_fill_mem (List.cons_ne_nil f ds) (.node c' .nil m r)
    generalize hR : fill (.node c' .nil m r) (f :: ds) = R at hsub hold hRvalid hRnil hRmem
    have hright : Function.update (Function.update h.cells (cellAbove fs) m) (.child .left f.value)
        (addr r) (.child .right n) = addr R := by
      rw [Function.update_of_ne (fun heq => Side.noConfusion (Cell.child.inj heq).1),
        Function.update_of_ne (cellAbove_ne hn.2.2.2 _)]
      exact (below_join.mp hold.below).1
    have hright' : Function.update
        (Function.update (Function.update h.cells (cellAbove fs) m) (.child .left f.value) (addr r))
          (.child .right m) (addr R) (.child .right n) = addr R := by
      rw [Function.update_of_ne (fun heq => haround.ne.symm (Cell.child.inj heq).2), hright]
    have hword : reparent r f.value h.parentColor (addr R) = h.parentColor (addr R) := by
      have hx := haround.between _ hRmem
      simp only [List.mem_append, not_or] at hx
      exact reparent_of_ne (ne_addr hx.2.1 (mt hsub.addr_eq_zero.mp hRnil)) _
    have hset :=
      setParent_child
        ⟨Function.update (Function.update (Function.update h.cells (cellAbove fs) m)
          (.child .left f.value) (addr r)) (.child .right m) (addr R),
          reparent r f.value h.parentColor⟩
        hsub.below hword hRvalid hold.isNode.aligned hmnode.aligned
    rw [if_pos (mt hsub.addr_eq_zero.mp hRnil)] at hset
    rw [List.cons_append, List.cons_append, top, top, detachSuccessor_of_ne _ hne,
      setParent_child (h.store _ _) hh.below.2.2.2.2 rfl hrvalid hmnode.aligned hfv.aligned,
      Option.bind_some, setRbLeft, setChild_eq hfv.ne_zero, Option.bind_some, Heap.rbRight,
      rbChild_eq hold.isNode.ne_zero, Option.bind_some, setRbRight, setChild_eq hmnode.ne_zero,
      Option.bind_some, Heap.rbRight, rbChild_eq hold.isNode.ne_zero, Option.bind_some]
    simp only [store] at hset ⊢
    rw [hright, hright', hset, Option.bind_some]

theorem Holds.eraseInner (hh : Holds S h₀ h (.node c' .nil m r) (ds ++ ⟨true, c, n, l⟩ :: fs))
    (hleft : ∀ f ∈ ds, f.dir = false) (hl : l ≠ .nil) :
    ∃ h', Heap.eraseInner h n = some (h', addr r, top (ds ++ ⟨true, c, m, l⟩ :: fs), bit c') ∧
      Holds S h₀ h' r (ds ++ ⟨true, c, m, l⟩ :: fs) := by
  have hsub := holds_append.mp hh
  have hold : Holds S h₀ h (.node c l n (fill (.node c' .nil m r) ds)) fs := holds_cons.mp hsub
  have hm := hh.around.successor
  simp only [List.mem_append, not_or] at hm
  have hmnode := Holds.isNode (d := false) hh
  have hfirst : Heap.farthest .left walkLimit h (addr (fill (.node c' .nil m r) ds)) = some m := by
    refine (hsub.farthest (fill_ne_nil (t := .node c' .nil m r) node_ne_nil _)
      hsub.height_lt.le false).trans ?_
    rw [if_neg Bool.false_ne_true, toList_fill, before_left hleft]
    rfl
  have hreplace := hold.replaceChild h node_ne_nil (fun _ _ _ => rfl) m
  obtain ⟨h₂, hdetach, hdet⟩ := hh.detachSuccessor hleft hl
  obtain ⟨h₃, htake, hh₃⟩ := hh.takePlace hl hdet
  have hchild : (h.store (cellAbove fs) m).cells (.child .right m) = addr r :=
    (Function.update_of_ne (cellAbove_ne hm.2.2.2 _) _ _).trans hh.below.2.1
  have hparent : (h.store (cellAbove fs) m).rbParent m = some (top (ds ++ ⟨true, c, n, l⟩ :: fs)) :=
    rbParent_eq hmnode.ne_zero hh.below.2.2.1 hh.aligned_top.1 hh.aligned_top.2
  have hcolor : (h.store (cellAbove fs) m).rbColor m = some (bit c') :=
    rbColor_eq hmnode.ne_zero hh.below.2.2.1 hh.aligned_top.1
  refine ⟨h₃, ?_, hh₃⟩
  rw [eraseInner_eq, hold.rbRight, Option.bind_some, hfirst, Option.bind_some,
    Holds.rbParent (d := false) hold, Option.bind_some]
  rw [addr] at hreplace
  rw [hreplace, Option.bind_some, Heap.rbRight, rbChild_eq hmnode.ne_zero, hchild,
    Option.bind_some, hparent, Option.bind_some, hcolor, Option.bind_some, hdetach,
    Option.bind_some, htake, Option.bind_some]

theorem rbErase_eq (h : Heap) (n : ℕ) : h.rbErase n =
    (h.rbLeft n).bind fun left => (h.rbRight n).bind fun right =>
    (if left = 0 then Heap.eraseOuter h n right
      else if right = 0 then Heap.eraseOuter h n left else Heap.eraseInner h n).bind fun r =>
    if r.2.2.2 = RB_BLACK then r.1.rbEraseColor r.2.1 r.2.2.1 else some r.1 := by
  simp only [Heap.rbErase, ite_bind]
  rfl

theorem Holds.rbEraseColor (hh : Holds S h₀ h s fs)
    (hrun : (if c = .black then eraseRepair s fs else some (fill s fs)) = some t') :
    ∃ h', (if bit c = RB_BLACK then h.rbEraseColor (addr s) (top fs) else some h) = some h' ∧
      Holds S h₀ h' t' [] := by
  cases c with
  | red =>
    cases hrun
    exact ⟨h, rfl, holds_fill.mp hh⟩
  | black => exact hh.eraseColorLoop hrun hh.frames_lt

theorem Holds.rbErase (hh : Holds S h₀ h (.node c l n r) fs)
    (hrb : IsRedBlack (fill (.node c l n r) fs)) :
    ∃ h' t', h.rbErase n = some h' ∧ Holds S h₀ h' t' [] ∧ IsRedBlack t' ∧
      t'.toList = before fs ++ (l.toList ++ r.toList) ++ after fs := by
  by_cases hl : l = .nil
  · subst hl
    obtain ⟨t', hrun, hrb', hlist⟩ := IsRedBlack.splice (d := false) hrb
    obtain ⟨h', hcolor, hh'⟩ := (Holds.spliced (d := false) hh).rbEraseColor hrun
    refine ⟨h', t', ?_, hh', hrb', hlist.trans (toList_fill ..)⟩
    rw [rbErase_eq, hh.rbLeft, Option.bind_some, hh.rbRight, Option.bind_some, addr, if_pos rfl,
      Holds.eraseOuter (d := false) hh, Option.bind_some]
    exact hcolor
  have hleft0 : addr l ≠ 0 := mt (Holds.down (c := c) (n := n) (b := r) false hh).addr_eq_zero.mp hl
  by_cases hr : r = .nil
  · subst hr
    obtain ⟨t', hrun, hrb', hlist⟩ := IsRedBlack.splice (d := true) hrb
    obtain ⟨h', hcolor, hh'⟩ := (Holds.spliced (d := true) hh).rbEraseColor hrun
    refine ⟨h', t', ?_, hh', hrb', ?_⟩
    · rw [rbErase_eq, hh.rbLeft, Option.bind_some, hh.rbRight, Option.bind_some, if_neg hleft0,
        addr, if_pos rfl, Holds.eraseOuter (d := true) hh, Option.bind_some]
      exact hcolor
    · rw [hlist, toList_fill, toList, List.append_nil]
  · -- The successor takes the place of `n`; the tree is repaired where it was before.
    have hright0 : addr r ≠ 0 :=
      mt (Holds.down (c := c) (n := n) (b := l) true hh).addr_eq_zero.mp hr
    obtain ⟨c', m, s, ds, rfl, hdir⟩ := exists_fill_leftmost hr
    have hsucc : Holds S h₀ h (.node c' .nil m s) (ds ++ ⟨true, c, n, l⟩ :: fs) :=
      holds_append.mpr (Holds.down true hh)
    obtain ⟨h₁, hinner, hh₁⟩ := hsucc.eraseInner hdir hl
    have hrb₁ : IsRedBlack (fill (join false c' .nil m s) (ds ++ ⟨true, c, m, l⟩ :: fs)) := by
      rw [fill_append]
      exact IsRedBlack.fill_value (d := true) m hrb
    obtain ⟨t', hrun, hrb', hlist⟩ := hrb₁.splice
    obtain ⟨h', hcolor, hh'⟩ := hh₁.rbEraseColor hrun
    refine ⟨h', t', ?_, hh', hrb', ?_⟩
    · rw [rbErase_eq, hh.rbLeft, Option.bind_some, hh.rbRight, Option.bind_some, if_neg hleft0,
        if_neg hright0, hinner, Option.bind_some]
      exact hcolor
    · rw [hlist, fill_append, fill, toList_fill, toList_join, if_pos rfl, toList_fill, toList_fill,
        before_left hdir]
      rfl

end Erasing

end AnalysisPrograms.RbTree
