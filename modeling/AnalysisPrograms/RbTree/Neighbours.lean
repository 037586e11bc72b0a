import AnalysisPrograms.RbTree.Sequence

namespace AnalysisPrograms.RbTree

open Foundations.RedBlack ColorTree
open GraphC Heap

variable {S : Set ℕ} {h₀ h : Heap} {t : ColorTree ℕ} {fs : List (Frame ℕ)} {c : Color}
  {l r : ColorTree ℕ} {n : ℕ} {xs : List ℕ}

def nearest (d : Bool) (xs : List ℕ) : ℕ := if d then xs.headD 0 else xs.getLastD 0

def beyond (d : Bool) (fs : List (Frame ℕ)) : List ℕ := if d then after fs else before fs

theorem nearest_beyond_cons (d : Bool) (f : Frame ℕ) (fs : List (Frame ℕ)) :
    nearest d (beyond d (f :: fs)) = if f.dir = d then nearest d (beyond d fs) else f.value := by
  cases d with
  | false => cases hf : f.dir <;> simp [nearest, beyond, before, hf]
  | true => cases hf : f.dir <;> simp [nearest, beyond, after, hf]

theorem Holds.climb (hh : Holds S h₀ h t fs) (ht : t ≠ .nil) (d : Bool) {fuel : ℕ}
    (hfuel : fs.length < fuel) :
    Heap.climb (side d) fuel h (addr t) = some (nearest d (beyond d fs)) := by
  obtain ⟨k, rfl⟩ : ∃ k, fuel = k + 1 := ⟨fuel - 1, by omega⟩
  induction fs generalizing t k with
  | nil =>
    cases t with
    | nil => exact absurd rfl ht
    | node c l n r =>
      rw [Heap.climb, addr, Holds.rbParent (d := false) hh]
      cases d <;> rfl
  | cons f fs ih =>
    have hcell := hh.cell_eq_iff (.inl ht) d
    have hparent := holds_cons.mp hh
    have hnil : join f.dir f.color t f.value f.sibling ≠ .nil := join_ne_nil
    rw [List.length_cons] at hfuel
    obtain ⟨j, rfl⟩ : ∃ j, k = j + 1 := ⟨k - 1, by omega⟩
    have hup := ih hparent hnil j (by omega)
    rw [addr_join] at hup
    cases t with
    | nil => exact absurd rfl ht
    | node c l n r =>
      rw [Heap.climb, addr, Holds.rbParent (d := false) hh, Option.bind_eq_bind,
        Option.bind_some, top, if_neg hparent.isNode.ne_zero, rbChild_eq hparent.isNode.ne_zero,
        Option.bind_some, nearest_beyond_cons]
      rw [addr] at hcell
      by_cases hd : f.dir = d
      · rw [if_pos (hcell.mpr hd.symm).symm, if_pos hd, hup]
      · rw [if_neg (fun heq => hd (hcell.mp heq.symm).symm), if_neg hd]

theorem Holds.neighbour (hh : Holds S h₀ h (.node c l n r) fs) (d : Bool) :
    Heap.neighbour (side d) h n =
      some (nearest d (if d then r.toList ++ after fs else before fs ++ l.toList)) := by
  have hn : IsNode n := Holds.isNode (d := false) hh
  have hloop : top fs ≠ n := by
    cases fs with
    | nil => exact hn.ne_zero.symm
    | cons f fs =>
      rintro rfl
      exact (List.nodup_append'.mp hh.nodup).2.2 (addr_mem (t := .node c l f.value r) node_ne_nil)
        List.mem_cons_self
  have hchild : h.rbChild (side d) n = some (addr (pick d l r)) := by
    rw [← join_pick d] at hh
    exact hh.rbChild
  have hsub : Holds S h₀ h (pick d l r) (⟨d, c, n, pick (!d) l r⟩ :: fs) := by
    rw [← join_pick d] at hh
    exact Holds.down d hh
  rw [Heap.neighbour, Holds.rbParent (d := false) hh, Option.bind_eq_bind, Option.bind_some,
    if_neg hloop, hchild, Option.bind_some, side_other]
  by_cases hnil : pick d l r = .nil
  · rw [if_neg (not_not.mpr (hsub.addr_eq_zero.mpr hnil)), show n = addr (.node c l n r) from rfl,
      hh.climb node_ne_nil d hh.frames_lt]
    cases d with
    | false =>
      rw [show l = .nil from hnil, toList, List.append_nil]
      rfl
    | true =>
      rw [show r = .nil from hnil]
      rfl
  · have hne : (pick d l r).toList ≠ [] := List.ne_nil_of_mem (addr_mem hnil)
    rw [if_pos (mt hsub.addr_eq_zero.mp hnil), hsub.farthest hnil hsub.height_lt.le]
    cases d with
    | false =>
      obtain ⟨as, a, has⟩ := List.eq_nil_or_concat l.toList |>.resolve_left hne
      simp [nearest, pick, has]
    | true =>
      obtain ⟨a, as, has⟩ := List.exists_cons_of_ne_nil hne
      rw [pick] at has
      simp [nearest, pick, has]

theorem order_followed (htree : IsTree h xs) :
    rbFirst h = some (xs.headD 0) ∧ rbLast h = some (xs.getLastD 0) ∧
      ∀ as n bs, xs = as ++ n :: bs →
      rbNext h n = some (bs.headD 0) ∧ rbPrev h n = some (as.getLastD 0) := by
  obtain ⟨t, hh, -, rfl⟩ := htree
  have hroot : h.cells .root = addr t := hh.pointer
  refine ⟨?_, ?_, ?_⟩
  · rw [rbFirst, hroot]
    by_cases ht : t = .nil
    · rw [ht]
      rfl
    · obtain ⟨a, as, has⟩ := List.exists_cons_of_ne_nil (List.ne_nil_of_mem (addr_mem ht))
      rw [if_neg (mt hh.addr_eq_zero.mp ht), show Side.left = side false from rfl,
        hh.farthest ht hh.height_lt.le, has]
      rfl
  · rw [rbLast, hroot]
    by_cases ht : t = .nil
    · rw [ht]
      rfl
    · obtain ⟨as, a, has⟩ :=
        (List.eq_nil_or_concat t.toList).resolve_left (List.ne_nil_of_mem (addr_mem ht))
      rw [if_neg (mt hh.addr_eq_zero.mp ht), show Side.right = side true from rfl,
        hh.farthest ht hh.height_lt.le, has]
      simp
  · intro as n bs hxs
    have hn : n ∈ t.toList := by
      rw [hxs]
      exact List.mem_append_right _ List.mem_cons_self
    obtain ⟨c, l, r, fs, rfl⟩ := exists_fill_of_mem hn
    have hnode := holds_fill.mpr hh
    have hsplit : (fill (.node c l n r) fs).toList = (before fs ++ l.toList) ++ n ::
        (r.toList ++ after fs) := by
      simp [toList_fill, toList]
    have hnodup := hh.nodup
    rw [nodesAbove, List.append_nil, hsplit] at hnodup
    rw [hsplit, List.append_cons_inj_of_notMem] at hxs
    · obtain ⟨rfl, -, rfl⟩ := hxs
      exact ⟨hnode.neighbour true, hnode.neighbour false⟩
    · exact (notMem_of_nodup hnodup).1
    · exact (notMem_of_nodup hnodup).2

theorem order_followed_threeNodes : rbFirst threeNodes = some 8 ∧ rbLast threeNodes = some 24 ∧
    rbNext threeNodes 8 = some 16 ∧ rbNext threeNodes 24 = some 0 ∧
    rbPrev threeNodes 16 = some 8 := by
  obtain ⟨hfirst, hlast, hbetween⟩ := order_followed threeNodes_isTree
  exact ⟨hfirst, hlast, (hbetween [] 8 [16, 24] rfl).1, (hbetween [8, 16] 24 [] rfl).1,
    (hbetween [8] 16 [24] rfl).2⟩

end AnalysisPrograms.RbTree
