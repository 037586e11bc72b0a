import AnalysisPrograms.RbTree.Rotation

namespace AnalysisPrograms.RbTree

open Foundations.RedBlack ColorTree
open GraphC Heap

variable {S : Set ℕ} {h₀ h h' : Heap} {t t' : ColorTree ℕ} {f g : Frame ℕ} {fs : List (Frame ℕ)}
  {d : Bool} {c c' : Color} {a b e : ColorTree ℕ}
  {n m p q : ℕ}

theorem rotate_side (h : Heap) (n : ℕ) (d : Bool) :
    h.rotate n (side d) = Heap.rotateTo (side d) h n := by
  cases d <;> rfl

theorem Holds.rotate (hh : Holds S h₀ h (join d c a n (join d c' b m e)) fs) :
    ∃ h', h.rotate n (side d) = some h' ∧ Holds S h₀ h' (join d c' (join d c a n b) m e) fs :=
  ⟨_, (rotate_side h n d).trans hh.rotateTo, hh.rotated⟩

theorem Holds.rotate_back (hh : Holds S h₀ h (join d c (join d c' a m b) n e) fs) :
    ∃ h', h.rotate n (side !d) = some h' ∧ Holds S h₀ h' (join d c' a m (join d c b n e)) fs := by
  rw [← join_not d c, ← join_not d c'] at hh
  obtain ⟨h', hrun, hh'⟩ := hh.rotate
  rw [join_not, join_not] at hh'
  exact ⟨h', hrun, hh'⟩

theorem insertFix_eq (s : Side) (h : Heap) (n p g : ℕ) : insertFix s h n p g =
    (h.rbChild s.other g).bind fun uncle => (h.isRedNode uncle).bind fun red =>
      if red then
        (h.rbSetBlack uncle).bind fun h₁ => (h₁.rbSetBlack p).bind fun h₂ =>
        (h₂.rbSetRed g).bind fun h₃ => some (h₃, g)
      else
        (h.rbChild s.other p).bind fun inner =>
        (if inner = n then (h.rotate p s).map fun h₁ => (h₁, n, p)
          else some (h, p, n)).bind fun r =>
        (r.1.rbSetBlack r.2.1).bind fun h₂ => (h₂.rbSetRed g).bind fun h₃ =>
        (h₃.rotate g s.other).bind fun h₄ => some (h₄, r.2.2) := by
  simp only [insertFix, ite_bind]
  rfl

theorem insertColorLoop_succ (fuel : ℕ) (h : Heap) (n : ℕ) : insertColorLoop (fuel + 1) h n =
    (h.rbParent n).bind fun p => (h.isRedNode p).bind fun red =>
      if red then
        (h.rbParent p).bind fun g => (h.rbLeft g).bind fun left =>
        (insertFix (if p = left then .left else .right) h n p g).bind fun r =>
        insertColorLoop fuel r.1 r.2
      else h.rbSetBlack (h.cells .root) := rfl

theorem Holds.insertFix_red (hh : Holds S h₀ h t (f :: g :: fs)) (hred : g.sibling.isRed = true)
    (n : ℕ) :
    ∃ h', insertFix (side g.dir) h n f.value g.value = some (h', g.value) ∧
      Holds S h₀ h'
      (join g.dir .red (join f.dir .black t f.value f.sibling) g.value g.sibling.blacken) fs := by
  have hg := holds_cons.mp (holds_cons.mp hh)
  have huncle := Holds.down_other g.dir hg
  obtain ⟨l, u, r, hu⟩ : ∃ l u r, g.sibling = join false .red l u r := exists_of_isRed hred
  rw [hu] at huncle
  obtain ⟨h₁, hset₁, hh₁⟩ := huncle.rbSetBlack
  have hg₁ := holds_cons.mp hh₁
  rw [join_not] at hg₁
  obtain ⟨h₂, hset₂, hh₂⟩ := (Holds.down g.dir hg₁).rbSetBlack
  obtain ⟨h₃, hset₃, hh₃⟩ := (holds_cons.mp hh₂).rbSetRed
  refine ⟨h₃, ?_, ?_⟩
  · rw [insertFix_eq, side_other, hg.rbChild_other, Option.bind_some,
      (Holds.down_other g.dir hg).isRedNode, hred, Option.bind_some, if_pos rfl, hu, addr_join,
      hset₁, Option.bind_some, hset₂, Option.bind_some, hset₃, Option.bind_some]
  · rw [hu]
    exact hh₃

theorem Holds.lift (hh : Holds S h₀ h (join d c (join d c' a p b) q e) fs) (n : ℕ) :
    ∃ h', ((h.rbSetBlack p).bind fun h₂ => (h₂.rbSetRed q).bind fun h₃ =>
        (h₃.rotate q (side !d)).bind fun h₄ => some (h₄, n)) = some (h', n) ∧
      Holds S h₀ h' (join d .black a p (join d .red b q e)) fs := by
  obtain ⟨h₁, hset₁, hh₁⟩ := (Holds.down d hh).rbSetBlack
  obtain ⟨h₂, hset₂, hh₂⟩ := (holds_cons.mp hh₁).rbSetRed
  obtain ⟨h₃, hrot, hh₃⟩ := hh₂.rotate_back
  refine ⟨h₃, ?_, hh₃⟩
  rw [hset₁, Option.bind_some, hset₂, Option.bind_some, hrot, Option.bind_some]

theorem Holds.insertFix_black (hh : Holds S h₀ h t (f :: g :: fs)) (ht : t.isRed = true)
    (hf : f.color = .red) (hblack : g.sibling.isRed = false) :
    ∃ h' a p b, insertFix (side g.dir) h (addr t) f.value g.value = some (h', addr a) ∧ a ≠ .nil ∧
      rotateUp t f g = join g.dir .black a p b ∧ Holds S h₀ h' (join g.dir .black a p b) fs := by
  have hparent := holds_cons.mp hh
  have hg := holds_cons.mp hparent
  have htnil := ne_nil_of_isRed ht
  have hstart : insertFix (side g.dir) h (addr t) f.value g.value =
      (if h.cells (.child (side !g.dir) f.value) = addr t then (h.rotate f.value (side g.dir)).map
        fun h₁ => (h₁, addr t, f.value)
        else some (h, f.value, addr t)).bind fun r =>
      (r.1.rbSetBlack r.2.1).bind fun h₂ => (h₂.rbSetRed g.value).bind fun h₃ =>
      (h₃.rotate g.value (side !g.dir)).bind fun h₄ => some (h₄, r.2.2) := by
    rw [insertFix_eq, side_other, hg.rbChild_other, Option.bind_some,
      (Holds.down_other g.dir hg).isRedNode, hblack, Option.bind_some, if_neg Bool.false_ne_true,
      rbChild_eq hparent.isNode.ne_zero, Option.bind_some]
  have hinner := hh.cell_eq_iff (.inl htnil) !g.dir
  rw [hstart]
  unfold rotateUp
  by_cases hd : f.dir = g.dir
  · rw [hd, hf] at hg
    obtain ⟨h', hrun, hh'⟩ := hg.lift (addr t)
    refine ⟨h', t, f.value, _, ?_, htnil, if_pos hd, hh'⟩
    rw [if_neg, Option.bind_some, hrun]
    rw [hinner, hd]
    cases g.dir <;> decide
  · -- The node is the inner grandchild: a first rotation puts it above its parent.
    have hd' : f.dir = !g.dir := by
      revert hd
      cases f.dir <;> cases g.dir <;> decide
    cases t with
    | nil => cases ht
    | node ct l x r =>
      rw [hd', hf, join_not, ← join_pick g.dir] at hparent
      obtain ⟨h₁, hrot, hh₁⟩ := hparent.rotate
      obtain ⟨h', hrun, hh'⟩ := (holds_cons.mp hh₁).lift f.value
      refine ⟨h', join g.dir .red f.sibling f.value (pick g.dir l r), x, _, ?_, ?_, if_neg hd, ?_⟩
      · rw [if_pos (hinner.mpr hd'.symm), hrot, Option.map_some, Option.bind_some, addr_join]
        exact hrun
      · exact join_ne_nil
      · rw [hd']
        exact hh'

theorem blacken_join : (join d c a n b).blacken = join d .black a n b := by
  cases d <;> rfl

theorem fill_ne_nil (ht : t ≠ .nil) (fs : List (Frame ℕ)) : fill t fs ≠ .nil := by
  induction fs generalizing t with
  | nil => exact ht
  | cons f fs ih =>
    exact ih join_ne_nil

theorem Holds.isRedNode_top (hh : Holds S h₀ h t fs) :
    h.isRedNode (top fs) = some (decide (fs.head?.map (·.color) = some .red)) := by
  cases fs with
  | nil => rfl
  | cons f fs =>
    have := (holds_cons.mp hh).isRedNode
    rw [addr_join, isRed_join] at this
    rw [top, this]
    simp

theorem Holds.insertColorLoop_done (hh : Holds S h₀ h t fs) (ht : t ≠ .nil)
    (hstop : fs.head?.map (·.color) ≠ some .red) (fuel : ℕ) :
    ∃ h', insertColorLoop (fuel + 1) h (addr t) = some h' ∧
      Holds S h₀ h' (fill t fs).blacken [] := by
  have hroot := holds_fill.mp hh
  have hnil := fill_ne_nil ht fs
  cases t with
  | nil => exact absurd rfl ht
  | node ct l x r =>
    cases hfill : fill (.node ct l x r) fs with
    | nil => exact absurd hfill hnil
    | node c a n b =>
      rw [hfill] at hroot
      obtain ⟨h', hset, hh'⟩ := Holds.rbSetBlack (d := false) hroot
      refine ⟨h', ?_, hh'⟩
      rw [insertColorLoop_succ, addr, Holds.rbParent (d := false) hh, Option.bind_some,
        hh.isRedNode_top, Option.bind_some, if_neg (by simpa using hstop), ← hset]
      exact congrArg _ hroot.pointer

theorem Holds.side_eq (hh : Holds S h₀ h t (f :: fs)) (hsome : t ≠ .nil ∨ f.sibling ≠ .nil) :
    (if h.cells (.child .left f.value) = addr t then Side.left else .right) = side f.dir := by
  have hcell := hh.cell_eq_iff hsome false
  cases hd : f.dir with
  | false => exact if_pos (hcell.mpr hd.symm)
  | true =>
    refine if_neg fun heq => ?_
    rw [← hcell.mp heq] at hd
    cases hd

theorem Holds.insertColorLoop_step (hh : Holds S h₀ h t (f :: g :: fs)) (ht : t ≠ .nil)
    (hred : f.color = .red) (fuel : ℕ) :
    Heap.insertColorLoop (fuel + 1) h (addr t) =
      (insertFix (side g.dir) h (addr t) f.value g.value).bind fun r =>
      Heap.insertColorLoop fuel r.1 r.2 := by
  have hparent := holds_cons.mp hh
  have hg := holds_cons.mp hparent
  have hpnil : join f.dir f.color t f.value f.sibling ≠ .nil := join_ne_nil
  have hside := hparent.side_eq (.inl hpnil)
  rw [addr_join] at hside
  cases t with
  | nil => exact absurd rfl ht
  | node ct l x r =>
    rw [insertColorLoop_succ, addr, Holds.rbParent (d := false) hh, Option.bind_some,
      hh.isRedNode_top, Option.bind_some, if_pos (by simpa using hred), top, hparent.rbParent,
      Option.bind_some, top, Heap.rbLeft, rbChild_eq hg.isNode.ne_zero, Option.bind_some, ← hside]
    simp only [eq_comm]

theorem Holds.insertColorLoop (hh : Holds S h₀ h t fs) (ht : t.isRed = true)
    (hrun : insertRepair t fs = some t') {fuel : ℕ} (hfuel : fs.length < fuel) :
    ∃ h', Heap.insertColorLoop fuel h (addr t) = some h' ∧ Holds S h₀ h' t' [] := by
  obtain ⟨k, rfl⟩ : ∃ k, fuel = k + 1 := ⟨fuel - 1, by omega⟩
  have hnil := ne_nil_of_isRed ht
  induction t, fs using insertRepair.induct generalizing h k with
  | case1 t =>
    cases hrun
    exact hh.insertColorLoop_done hnil (Option.some_ne_none _).symm k
  | case2 t f hred =>
    rw [insertRepair, if_pos hred] at hrun
    cases hrun
  | case3 t f hred =>
    rw [insertRepair, if_neg hred] at hrun
    cases hrun
    exact hh.insertColorLoop_done hnil (by simpa using hred) k
  | case4 t f g fs hred hsib ih =>
    rw [insertRepair, if_pos hred, if_pos hsib] at hrun
    obtain ⟨h₁, hfix, hh₁⟩ := hh.insertFix_red hsib (addr t)
    rw [List.length_cons, List.length_cons] at hfuel
    obtain ⟨j, rfl⟩ : ∃ j, k = j + 1 := ⟨k - 1, by omega⟩
    obtain ⟨h', hloop, hh'⟩ := ih hh₁ isRed_join hrun j (by omega) join_ne_nil
    refine ⟨h', ?_, hh'⟩
    rw [hh.insertColorLoop_step hnil hred, hfix, Option.bind_some, ← hloop, addr_join]
  | case5 t f g fs hred hsib =>
    rw [insertRepair, if_pos hred, if_neg hsib] at hrun
    cases hrun
    obtain ⟨h₁, a, p, b, hfix, hanil, hup, hh₁⟩ :=
      hh.insertFix_black ht hred (Bool.eq_false_iff.mpr hsib)
    rw [List.length_cons, List.length_cons] at hfuel
    obtain ⟨j, rfl⟩ : ∃ j, k = j + 1 := ⟨k - 1, by omega⟩
    -- The parent is black now, so the next round is the last.
    obtain ⟨h', hloop, hh'⟩ := (Holds.down g.dir hh₁).insertColorLoop_done hanil (by simp) j
    refine ⟨h', ?_, ?_⟩
    · rw [hh.insertColorLoop_step hnil hred, hfix, Option.bind_some, hloop]
    · rw [hup]
      exact hh'
  | case6 t f g fs hred =>
    rw [insertRepair, if_neg hred] at hrun
    cases hrun
    exact hh.insertColorLoop_done hnil (by simpa using hred) k

end AnalysisPrograms.RbTree
