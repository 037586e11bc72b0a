import AnalysisPrograms.GraphC.Shape

namespace AnalysisPrograms.GraphC

open Foundations SearchTree Heap

variable {h : Heap} {n p x k fuel child : ℕ} {t l r : BinaryTree ℕ}

def parentless (h : Heap) (n : ℕ) : Prop := h.parentColor n = RB_RED ∨ h.parentColor n = RB_BLACK

theorem parentless.elim (hp : parentless h n) (P : ℕ → Prop) (hred : P RB_RED)
    (hblack : P RB_BLACK) : P (h.parentColor n) := by
  obtain he | he := hp
  · rwa [he]
  · rwa [he]

theorem parentless.rbParent_eq (hp : parentless h n) (hn : n ≠ 0) : h.rbParent n = some 0 := by
  rw [rbParent, rbParentColor, if_neg hn]
  exact hp.elim (fun w => some (w &&& (2 ^ 64 - 4)) = some 0) rfl rfl

theorem parentless.rbColor_eq (hp : parentless h n) (hn : n ≠ 0) :
    h.rbColor n = some (h.parentColor n) := by
  rw [rbColor, rbParentColor, if_neg hn]
  exact hp.elim (fun w => some (w &&& 1) = some w) rfl rfl

theorem parentless.rbSetParent_zero (hp : parentless h n) (hn : n ≠ 0) :
    h.rbSetParent n 0 = some h := by
  have hw : h.parentColor n &&& 3 ||| 0 = h.parentColor n :=
    hp.elim (fun w => w &&& 3 ||| 0 = w) rfl rfl
  rw [rbSetParent, updateParentColor, if_neg hn, hw, storeParentColor, Function.update_eq_self]

theorem parentless.rbSetBlack_eq (hp : parentless h n) (hn : n ≠ 0) :
    h.rbSetBlack n = some (h.storeParentColor n RB_BLACK) := by
  have hw : h.parentColor n ||| 1 = RB_BLACK := hp.elim (fun w => w ||| 1 = RB_BLACK) rfl rfl
  rw [rbSetBlack, updateParentColor, if_neg hn, hw]

theorem walkLimit_eq : walkLimit = (2 ^ 64 - 1) + 1 := by
  unfold walkLimit
  omega

theorem rbInsertColor_eq (hp : parentless h n) (hn : n ≠ 0) :
    h.rbInsertColor n = h.rbSetBlack (h.cells .root) := by
  rw [rbInsertColor, walkLimit_eq, insertColorLoop, hp.rbParent_eq hn]
  rfl

theorem rbEraseColor_root (hroot : h.cells .root = child)
    (hchild : child ≠ 0 → parentless h child) (parent : ℕ) :
    h.rbEraseColor child parent =
      some (if child = 0 then h else h.storeParentColor child RB_BLACK) := by
  rw [rbEraseColor, walkLimit_eq, eraseColorLoop, hroot]
  by_cases hz : child = 0
  · simp [hz, isBlackOrNull]
  · have hc := hchild hz
    have hblack : ∃ b, h.isBlackOrNull child = some b := by
      rw [isBlackOrNull, if_neg hz, rbIsBlack, hc.rbColor_eq hz]
      exact ⟨_, rfl⟩
    obtain ⟨b, hb⟩ := hblack
    simp [hb, hz, hc.rbSetBlack_eq hz]

theorem eraseOuter_eq (hp : parentless h n) (hn : n ≠ 0) (hchild : child ≠ 0 → parentless h child) :
    eraseOuter h n child = some (h.store .root child, child, 0, h.parentColor n) := by
  rw [eraseOuter, hp.rbParent_eq hn, hp.rbColor_eq hn]
  by_cases hz : child = 0
  · simp [hz, replaceChild]
  · simp [hz, (hchild hz).rbSetParent_zero hz, replaceChild]

theorem rbErase_outer (hp : parentless h n) (hn : n ≠ 0) {side : Side}
    (hside : h.cells (.child side.other n) = 0) (hchild : h.cells (.child side n) = child)
    (hless : child ≠ 0 → parentless h child) :
    h.rbErase n = if h.parentColor n = RB_BLACK then
        some (if child = 0 then h.store .root child
          else (h.store .root child).storeParentColor child RB_BLACK)
      else some (h.store .root child) := by
  have houter := eraseOuter_eq hp hn hless
  have hroot : (h.store .root child).cells .root = child := by simp [store]
  have hcolor := rbEraseColor_root hroot (fun hz => hless hz) 0
  cases side with
  | left =>
    by_cases hz : child = 0
    · subst hz
      simp [rbErase, rbLeft, rbRight, rbChild, hn, hchild, show h.cells (.child .right n) =
        0 from hside, houter, hcolor]
    · simp [rbErase, rbLeft, rbRight, rbChild, hn, hchild, hz, show h.cells (.child .right n) =
        0 from hside, houter, hcolor]
  | right =>
    simp [rbErase, rbLeft, rbRight, rbChild, hn, hchild, show h.cells (.child .left n) =
      0 from hside, houter, hcolor]

theorem farthest_left_mem (hs : Shape h p t) {m : ℕ} (hm : farthest .left fuel h p = some m) :
    ∃ k ∈ keys t, m = k + offsetOfRbNode := by
  induction fuel generalizing p t with
  | zero => cases hm
  | succ fuel ih =>
    cases t with
    | nil =>
      have hp : p = 0 := hs
      subst hp
      cases hm
    | node k l r =>
      obtain ⟨rfl, hl, -⟩ := hs
      rw [farthest, rbChild, if_neg (by rw [offsetOfRbNode]; omega), Option.bind_eq_bind,
        Option.bind_some] at hm
      split_ifs at hm with hz
      · obtain ⟨k', hk', he⟩ := ih hl hm
        exact ⟨k', mem_keys_node.mpr (.inr (.inl hk')), he⟩
      · exact ⟨k, mem_keys_node.mpr (.inl rfl), (Option.some.inj hm).symm⟩

theorem replaceChild_zero (h : Heap) (n child : ℕ) :
    h.replaceChild 0 n child = some (h.store .root child) := rfl

theorem detachSuccessor_zero (h : Heap) {old : ℕ} (hold : old ≠ 0) (n child : ℕ) :
    h.detachSuccessor old n child 0 = none := by
  rw [detachSuccessor, if_neg hold.symm]
  by_cases hz : child = 0
  · rw [if_neg (not_not.mpr hz)]
    rfl
  · rw [if_pos hz, rbSetParent, updateParentColor, if_neg hz]
    rfl

theorem rbErase_inner (hs : Shape h n (.node x l r))
    (hless : ∀ k ∈ keys (.node x l r), parentless h (k + offsetOfRbNode))
    (hl : h.cells (.child .left n) ≠ 0) (hr : h.cells (.child .right n) ≠ 0) :
    h.rbErase n = none := by
  have hn := hs.ne_zero
  have hinner : eraseInner h n = none := by
    have hright : h.rbRight n = some (h.cells (.child .right n)) := by
      rw [rbRight, rbChild, if_neg hn]
    rw [eraseInner, hright, Option.bind_eq_bind, Option.bind_some]
    cases hm : farthest .left walkLimit h (h.cells (.child .right n)) with
    | none => rfl
    | some m =>
      obtain ⟨k, hk, he⟩ := farthest_left_mem hs.2.2 hm
      have hm0 : m ≠ 0 := by
        rw [he, offsetOfRbNode]
        omega
      have hself : parentless h n := hs.1 ▸ hless x (mem_keys_node.mpr (.inl rfl))
      have hsucc : parentless (h.store .root m) m :=
        he ▸ hless k (mem_keys_node.mpr (.inr (.inr hk)))
      have hchild : (h.store .root m).rbRight m = some (h.cells (.child .right m)) := by
        simp [rbRight, rbChild, hm0, store]
      simp only [Option.bind_eq_bind, Option.bind_some, hself.rbParent_eq hn,
        replaceChild_zero, hchild, hsucc.rbParent_eq hm0, hsucc.rbColor_eq hm0,
        detachSuccessor_zero _ hn, Option.bind_none]
  simp [rbErase, rbLeft, rbRight, rbChild, hn, hl, hr, hinner]

end AnalysisPrograms.GraphC
