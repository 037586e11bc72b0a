import AnalysisPrograms.RbTree.InsertColor

namespace AnalysisPrograms.RbTree

open Foundations.RedBlack ColorTree
open GraphC Heap

variable {S : Set ℕ} {h₀ h h' : Heap} {t t' : ColorTree ℕ} {f : Frame ℕ} {fs : List (Frame ℕ)}
  {d : Bool} {c c' : Color} {a b i u : ColorTree ℕ}
  {n o x : ℕ} {s : Side}

def exposeSibling (s : Side) (h : Heap) (parent other : ℕ) : Option (Heap × ℕ) :=
  (h.rbIsRed other).bind fun red =>
    if red then (h.rbSetBlack other).bind fun h₁ => (h₁.rbSetRed parent).bind fun h₂ =>
      (h₂.rotate parent s).bind fun h₃ =>
      (h₃.rbChild s.other parent).bind fun other' => some (h₃, other')
    else some (h, other)

def exposeNephew (s : Side) (h : Heap) (parent other : ℕ) : Option (Heap × ℕ) :=
  (h.rbChild s.other other).bind fun outer => (h.isBlackOrNull outer).bind fun black =>
    if black then (h.rbChild s other).bind fun inner => (h.rbSetBlack inner).bind fun h₁ =>
      (h₁.rbSetRed other).bind fun h₂ =>
      (h₂.rotate other s.other).bind fun h₃ => (h₃.rbChild s.other parent).bind fun other' =>
        some (h₃, other')
    else some (h, other)

def raiseSibling (s : Side) (h : Heap) (parent other : ℕ) : Option (Heap × Option (ℕ × ℕ)) :=
  (h.rbColor parent).bind fun color => (h.rbSetColor other color).bind fun h₁ =>
    (h₁.rbSetBlack parent).bind fun h₂ =>
    (h₂.rbChild s.other other).bind fun outer => (h₂.rbSetBlack outer).bind fun h₃ =>
      (h₃.rotate parent s).bind fun h₄ =>
    some (h₄, none)

def balanceSibling (s : Side) (h : Heap) (parent other : ℕ) : Option (Heap × Option (ℕ × ℕ)) :=
  (h.rbLeft other).bind fun left => (h.rbRight other).bind fun right =>
    (h.isBlackOrNull left).bind fun bl => (h.isBlackOrNull right).bind fun br =>
    if bl && br then
      (h.rbSetRed other).bind fun h₁ => (h₁.rbParent parent).bind fun up =>
        some (h₁, some (parent, up))
    else (exposeNephew s h parent other).bind fun r => raiseSibling s r.1 parent r.2

theorem eraseFix_eq (s : Side) (h : Heap) (parent : ℕ) : eraseFix s h parent =
    (h.rbChild s.other parent).bind fun other => (exposeSibling s h parent other).bind fun r =>
      balanceSibling s r.1 parent r.2 := by
  simp only [eraseFix, exposeSibling, balanceSibling, exposeNephew, raiseSibling, ite_bind,
    Option.bind_assoc]
  rfl

theorem eraseColorLoop_succ (fuel : ℕ) (h : Heap) (n parent : ℕ) :
    eraseColorLoop (fuel + 1) h n parent =
      (h.isBlackOrNull n).bind fun black =>
        if black && decide (n ≠ h.cells .root) then
          (h.rbLeft parent).bind fun left =>
          (eraseFix (if left = n then .left else .right) h parent).bind fun r =>
            match r with
          | (h', some (n', parent')) => eraseColorLoop fuel h' n' parent'
          | (h', none) => some (h', h'.cells .root)
      else some (h, n) := rfl

theorem Holds.exposeSibling (hh : Holds S h₀ h t (f :: fs)) (hsib : f.sibling ≠ .nil) :
    ∃ h', RbTree.exposeSibling (side f.dir) h f.value (addr f.sibling) =
      some (h', addr (exposeBlack f).1.sibling) ∧
      Holds S h₀ h' t ((exposeBlack f).1 :: ((exposeBlack f).2 ++ fs)) := by
  obtain ⟨d, c, x, s⟩ := f
  have hg := holds_cons.mp hh
  have hother := Holds.down_other d hg
  match s with
  | .nil => exact absurd rfl hsib
  | .node .black l o r =>
    refine ⟨h, ?_, hh⟩
    rw [RbTree.exposeSibling, addr, Holds.rbIsRed (d := false) hother]
    rfl
  | .node .red l o r =>
    rw [← join_pick d] at hother hg
    obtain ⟨h₁, hset₁, hh₁⟩ := hother.rbSetBlack
    have hg₁ := holds_cons.mp hh₁
    rw [join_not] at hg₁
    obtain ⟨h₂, hset₂, hh₂⟩ := hg₁.rbSetRed
    obtain ⟨h₃, hrot, hh₃⟩ := hh₂.rotate
    refine ⟨h₃, ?_, Holds.down d (Holds.down d hh₃)⟩
    rw [RbTree.exposeSibling, addr, hother.rbIsRed, Option.bind_some, if_pos (by decide), hset₁,
      Option.bind_some, hset₂, Option.bind_some, hrot, Option.bind_some, side_other,
      (Holds.down d hh₃).rbChild_other, Option.bind_some]
    rfl

theorem Holds.raiseSibling (hh : Holds S h₀ h (join d c t x (join d c' i o u)) fs) (hu : u ≠ .nil) :
    ∃ h', RbTree.raiseSibling (side d) h x o = some (h', none) ∧
      Holds S h₀ h' (join d c (join d .black t x i) o u.blacken) fs := by
  obtain ⟨h₁, hset₁, hh₁⟩ := (Holds.down_other d hh).rbSetColor c
  have hg₁ := holds_cons.mp hh₁
  rw [join_not] at hg₁
  obtain ⟨h₂, hset₂, hh₂⟩ := hg₁.rbSetBlack
  have hother := Holds.down_other d hh₂
  cases u with
  | nil => exact absurd rfl hu
  | node cu l m r =>
    obtain ⟨h₃, hset₃, hh₃⟩ := Holds.rbSetBlack (d := false) (Holds.down_other d hother)
    have hg₃ := holds_cons.mp hh₃
    rw [join_not] at hg₃
    have hg₃' := holds_cons.mp hg₃
    rw [join_not] at hg₃'
    obtain ⟨h₄, hrot, hh₄⟩ := hg₃'.rotate
    refine ⟨h₄, ?_, hh₄⟩
    rw [RbTree.raiseSibling, hh.rbColor, Option.bind_some, hset₁, Option.bind_some, hset₂,
      Option.bind_some, side_other, hother.rbChild_other, Option.bind_some, addr, hset₃,
      Option.bind_some, hrot, Option.bind_some]

theorem Holds.exposeNephew_red (hh : Holds S h₀ h (join d c t x (join d c' i o u)) fs)
    (hu : u.isRed = true) : RbTree.exposeNephew (side d) h x o = some (h, o) := by
  have hother := Holds.down_other d hh
  rw [RbTree.exposeNephew, side_other, hother.rbChild_other, Option.bind_some,
    (Holds.down_other d hother).isBlackOrNull, Option.bind_some, hu]
  rfl

theorem Holds.exposeNephew_black
    (hh : Holds S h₀ h (join d c t x (join d c' (.node .red a n b) o u)) fs)
    (hu : u.isRed = false) :
    ∃ h', RbTree.exposeNephew (side d) h x o = some (h', n) ∧
      Holds S h₀ h' (join d c t x (join d .black (pick d a b) n (join d .red (pick (!d) a b) o u)))
      fs := by
  have hother := Holds.down_other d hh
  have hinner := Holds.down d hother
  rw [← join_pick d] at hinner
  obtain ⟨h₁, hset₁, hh₁⟩ := hinner.rbSetBlack
  obtain ⟨h₂, hset₂, hh₂⟩ := (holds_cons.mp hh₁).rbSetRed
  obtain ⟨h₃, hrot, hh₃⟩ := hh₂.rotate_back
  have hg₃ := holds_cons.mp hh₃
  rw [join_not] at hg₃
  refine ⟨h₃, ?_, hg₃⟩
  rw [RbTree.exposeNephew, side_other, hother.rbChild_other, Option.bind_some,
    (Holds.down_other d hother).isBlackOrNull, Option.bind_some, hu, if_pos (by rfl),
    hother.rbChild, Option.bind_some, addr, hset₁, Option.bind_some, hset₂, Option.bind_some, hrot,
    Option.bind_some, hg₃.rbChild_other, Option.bind_some, addr_join]

theorem Holds.balanceSibling_eq (hh : Holds S h₀ h (join d c t x (.node c' a o b)) fs) :
    RbTree.balanceSibling (side d) h x o =
      if !(pick d a b).isRed && !(pick (!d) a b).isRed then
        (h.rbSetRed o).bind fun h₁ => (h₁.rbParent x).bind fun up => some (h₁, some (x, up))
      else (RbTree.exposeNephew (side d) h x o).bind fun r => RbTree.raiseSibling (side d)
      r.1 x r.2 := by
  have hother := Holds.down_other d hh
  have hnephews : (!a.isRed && !b.isRed) = (!(pick d a b).isRed && !(pick (!d) a b).isRed) := by
    cases d with
    | false => rfl
    | true => exact Bool.and_comm _ _
  rw [RbTree.balanceSibling, hother.rbLeft, Option.bind_some, hother.rbRight, Option.bind_some,
    (Holds.down (c := c') (a := a) (b := b) false hother).isBlackOrNull,
    Option.bind_some, (Holds.down (c := c') (a := b) (b := a) true hother).isBlackOrNull,
    Option.bind_some, hnephews]

theorem Holds.balanceSibling (hh : Holds S h₀ h t (f :: fs)) {lacks : Bool}
    (hrun : balanceAt f.dir f.color t f.value f.sibling = some (t', lacks)) :
    ∃ h', RbTree.balanceSibling (side f.dir) h f.value (addr f.sibling) =
        some (h', if lacks then some (f.value, top fs) else none) ∧
      Holds S h₀ h' t' fs ∧
      (lacks = true → addr t' = f.value ∧ t'.isRed = decide (f.color = .red)) := by
  obtain ⟨d, c, x, s⟩ := f
  cases s with
  | nil => cases hrun
  | node cs l o r =>
    have hg := holds_cons.mp hh
    have hother := Holds.down_other d hg
    rw [addr, hg.balanceSibling_eq]
    rw [balanceAt] at hrun
    split at hrun
    case isTrue hblack =>
      cases hrun
      obtain ⟨h₁, hset, hh₁⟩ := Holds.rbSetRed (d := false) hother
      have hg₁ := holds_cons.mp hh₁
      rw [join_not] at hg₁
      refine ⟨h₁, ?_, hg₁, fun _ => ⟨addr_join .., isRed_join⟩⟩
      rw [if_pos hblack, hset, Option.bind_some, hg₁.rbParent, Option.bind_some, if_pos rfl]
    case isFalse hnot =>
      rw [← join_pick d] at hg
      rw [if_neg hnot]
      split at hrun
      case isTrue hred =>
        cases hrun
        obtain ⟨h₁, hraise, hh₁⟩ := hg.raiseSibling (ne_nil_of_isRed hred)
        refine ⟨h₁, ?_, hh₁, fun h => absurd h Bool.false_ne_true⟩
        rw [hg.exposeNephew_red hred, Option.bind_some]
        exact hraise
      case isFalse hblack =>
        have hblack' : (pick (!d) l r).isRed = false := Bool.eq_false_iff.mpr hblack
        have hred : (pick d l r).isRed = true := by
          rw [hblack'] at hnot
          simpa using hnot
        obtain ⟨a, n, b, hi⟩ := exists_of_isRed hred
        rw [hi] at hg hrun
        cases hrun
        obtain ⟨h₁, hexpose, hh₁⟩ := hg.exposeNephew_black hblack'
        obtain ⟨h₂, hraise, hh₂⟩ := hh₁.raiseSibling join_ne_nil
        refine ⟨h₂, ?_, ?_, fun h => absurd h Bool.false_ne_true⟩
        · rw [hexpose, Option.bind_some]
          exact hraise
        · rw [blacken_join] at hh₂
          exact hh₂

theorem Holds.eraseFix (hh : Holds S h₀ h t (f :: fs)) {lacks : Bool}
    (hrun : balanceAt (exposeBlack f).1.dir (exposeBlack f).1.color t (exposeBlack f).1.value
      (exposeBlack f).1.sibling = some (t', lacks)) :
    ∃ h', Heap.eraseFix (side f.dir) h f.value =
        some (h', if lacks then some (addr t', top ((exposeBlack f).2 ++ fs)) else none) ∧
      Holds S h₀ h' t' ((exposeBlack f).2 ++ fs) ∧
      (lacks = true → t'.isRed = false → (exposeBlack f).2 = []) := by
  have hg := holds_cons.mp hh
  have hsib : f.sibling ≠ .nil := by
    obtain ⟨d, c, x, s⟩ := f
    rintro rfl
    cases hrun
  obtain ⟨h₁, hexpose, hh₁⟩ := hh.exposeSibling hsib
  obtain ⟨h₂, hbalance, hh₂, hlacks⟩ := hh₁.balanceSibling hrun
  have hsame : (exposeBlack f).1.dir = f.dir ∧ (exposeBlack f).1.value = f.value ∧
      ((exposeBlack f).1.color ≠ .red → (exposeBlack f).2 = []) := by
    obtain ⟨d, c, x, s⟩ := f
    match s with
    | .nil => exact ⟨rfl, rfl, fun _ => rfl⟩
    | .node .black l o r => exact ⟨rfl, rfl, fun _ => rfl⟩
    | .node .red l o r => exact ⟨rfl, rfl, fun h => absurd rfl h⟩
  rw [hsame.1, hsame.2.1] at hbalance
  refine ⟨h₂, ?_, hh₂, fun hl hblack => hsame.2.2 ?_⟩
  · rw [eraseFix_eq, side_other, hg.rbChild_other, Option.bind_some, hexpose,
      Option.bind_some, hbalance]
    cases lacks with
    | false => rfl
    | true => rw [(hlacks rfl).1, hsame.2.1]
  · rw [(hlacks hl).2] at hblack
    exact of_decide_eq_false hblack

theorem Above.root_mem (ha : Above h fs) (hfs : fs ≠ []) : h.cells .root ∈ nodesAbove fs := by
  induction fs with
  | nil => exact absurd rfl hfs
  | cons f fs ih =>
    cases fs with
    | nil =>
      rw [show h.cells .root = f.value from ha.2.2.1]
      exact List.mem_cons_self
    | cons g gs =>
      exact List.mem_cons_of_mem _ (List.mem_append_right _ (ih ha.2.2.2.2 (List.cons_ne_nil g gs)))

theorem Holds.root_ne (hh : Holds S h₀ h t (f :: fs)) : addr t ≠ h.cells .root := by
  intro heq
  have hroot := hh.above.root_mem (List.cons_ne_nil _ _)
  have hne := (hh.valid _ (List.mem_append_right _ hroot)).ne_zero
  rw [← heq] at hroot hne
  have ht : t ≠ .nil := fun ht => hne (hh.addr_eq_zero.mpr ht)
  exact (List.nodup_append'.mp hh.nodup).2.2 (addr_mem ht) hroot

def blackenNode (r : Heap × ℕ) : Option Heap := if r.2 ≠ 0 then r.1.rbSetBlack r.2 else some r.1

theorem Holds.blackenNode (hh : Holds S h₀ h t fs) :
    ∃ h', RbTree.blackenNode (h, addr t) = some h' ∧ Holds S h₀ h' t.blacken fs := by
  cases t with
  | nil => exact ⟨h, rfl, hh⟩
  | node c l n r =>
    obtain ⟨h', hset, hh'⟩ := Holds.rbSetBlack (d := false) hh
    exact ⟨h', (if_pos (Holds.isNode (d := false) hh).ne_zero).trans hset, hh'⟩

theorem Holds.eraseColorLoop_red (hh : Holds S h₀ h t fs) (hred : t.isRed = true) (fuel : ℕ) :
    ∃ h', (Heap.eraseColorLoop (fuel + 1) h (addr t) (top fs)).bind RbTree.blackenNode = some h' ∧
      Holds S h₀ h' (fill t.blacken fs) [] := by
  obtain ⟨h', hset, hh'⟩ := hh.blackenNode
  refine ⟨h', ?_, holds_fill.mp hh'⟩
  rw [eraseColorLoop_succ, hh.isBlackOrNull, Option.bind_some, hred, if_neg (by simp),
    Option.bind_some, hset]

theorem Holds.eraseColorLoop (hh : Holds S h₀ h t fs) (hrun : eraseRepair t fs = some t')
    {fuel : ℕ} (hfuel : fs.length < fuel) :
    ∃ h', (Heap.eraseColorLoop fuel h (addr t) (top fs)).bind RbTree.blackenNode = some h' ∧
      Holds S h₀ h' t' [] := by
  obtain ⟨k, rfl⟩ : ∃ k, fuel = k + 1 := ⟨fuel - 1, by omega⟩
  induction fs generalizing h t k with
  | nil =>
    cases hrun
    obtain ⟨h', hset, hh'⟩ := hh.blackenNode
    refine ⟨h', ?_, hh'⟩
    rw [eraseColorLoop_succ, hh.isBlackOrNull, Option.bind_some, if_neg, Option.bind_some, hset]
    rw [hh.pointer.symm]
    simp [cellAbove]
  | cons f fs ih =>
    by_cases hred : t.isRed = true
    · rw [eraseRepair_red hred] at hrun
      cases hrun
      exact hh.eraseColorLoop_red hred k
    · rw [eraseRepair, if_neg hred] at hrun
      cases hbal : balanceAt (exposeBlack f).1.dir (exposeBlack f).1.color t (exposeBlack f).1.value
        (exposeBlack f).1.sibling with
      | none =>
        rw [hbal] at hrun
        cases hrun
      | some r =>
        obtain ⟨t₁, lacks⟩ := r
        rw [hbal, Option.bind_some] at hrun
        obtain ⟨h₁, hfix, hh₁, habove⟩ := hh.eraseFix hbal
        have hsib : f.sibling ≠ .nil := by
          obtain ⟨d, c, x, s⟩ := f
          rintro rfl
          cases hbal
        have hstep := eraseColorLoop_succ k h (addr t) (top (f :: fs))
        rw [hh.isBlackOrNull, Option.bind_some, if_pos (by simpa [hh.root_ne] using hred),
          top, Heap.rbLeft, rbChild_eq hh.isNode_top.ne_zero, Option.bind_some,
          hh.side_eq (.inr hsib), hfix, Option.bind_some] at hstep
        rw [List.length_cons] at hfuel
        obtain ⟨j, rfl⟩ : ∃ j, k = j + 1 := ⟨k - 1, by omega⟩
        rw [top, hstep]
        cases lacks with
        | false =>
          cases hrun
          have hroot := holds_fill.mp hh₁
          obtain ⟨h', hset, hh'⟩ := hroot.blackenNode
          refine ⟨h', ?_, hh'⟩
          rw [← hroot.pointer] at hset
          exact hset
        | true =>
          dsimp only at hrun ⊢
          rw [if_pos rfl] at hrun ⊢
          split at hrun
          case isTrue hred₁ =>
            cases hrun
            exact hh₁.eraseColorLoop_red hred₁ j
          case isFalse hred₁ =>
            have hnone := habove rfl (Bool.eq_false_iff.mpr hred₁)
            rw [hnone] at hh₁ ⊢
            exact ih hh₁ hrun j (by omega)

end AnalysisPrograms.RbTree
