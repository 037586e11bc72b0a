import AnalysisPrograms.Foundations.Execution
import AnalysisPrograms.RbTree.Erase

namespace AnalysisPrograms.RbTree

open Foundations Execution RedBlack ColorTree
open GraphC Heap

variable {S : Set ℕ} {h₀ h h' : Heap} {t : ColorTree ℕ} {fs : List (Frame ℕ)} {c : Color}
  {l r : ColorTree ℕ} {n v : ℕ} {xs : List ℕ}

/-- What the tree is for: its nodes are a sequence, and each call changes the sequence in one
place. -/
inductive Call
  | insert (node parent : ℕ) (rbLink : Cell)
  | erase (node : ℕ)
  | replace (victim new : ℕ)
deriving DecidableEq

def Call.brings : Call → List ℕ
  | .insert n _ _ => [n]
  | .erase _ => []
  | .replace _ n => [n]

def insertBefore (n p : ℕ) : List ℕ → List ℕ
  | [] => []
  | x :: xs => if x = p then n :: x :: xs else x :: insertBefore n p xs

def insertAfter (n p : ℕ) : List ℕ → List ℕ
  | [] => []
  | x :: xs => if x = p then x :: n :: xs else x :: insertAfter n p xs

def effect (xs : List ℕ) : Call → List ℕ
  | .insert n _ .root => n :: xs
  | .insert n _ (.child .left p) => insertBefore n p xs
  | .insert n _ (.child .right p) => insertAfter n p xs
  | .erase n => xs.erase n
  | .replace v n => xs.map fun x => if x = v then n else x

def call (h : Heap) : Call → Option Heap
  | .insert n parent rbLink => (h.rbLinkNode n parent rbLink).rbInsertColor n
  | .erase n => h.rbErase n
  | .replace v n => h.rbReplaceNode v n

/-- A place for a new node: a child pointer that is NULL, or the root of an empty tree. -/
def IsLink (h : Heap) (xs : List ℕ) (parent : ℕ) : Cell → Prop
  | .root => parent = 0 ∧ xs = []
  | .child s p => p = parent ∧ parent ∈ xs ∧ h.cells (.child s p) = 0

def Allowed (h : Heap) (xs : List ℕ) : Call → Prop
  | .insert n parent rbLink => IsNode n ∧ n ∉ xs ∧ IsLink h xs parent rbLink
  | .erase n => n ∈ xs
  | .replace v n => v ∈ xs ∧ IsNode n ∧ n ∉ xs

def IsTreeIn (S : Set ℕ) (h₀ h : Heap) (xs : List ℕ) : Prop :=
  ∃ t, Holds S h₀ h t [] ∧ IsRedBlack t ∧ t.toList = xs

def IsTree (h : Heap) (xs : List ℕ) : Prop := IsTreeIn {n | n ∈ xs} h h xs

section Insert

theorem Holds.rbLinkNode (hh : Holds S h₀ h .nil fs) (hn : IsNode n) (hnS : n ∈ S)
    (hfresh : n ∉ nodesAbove fs) :
    Holds S h₀ (h.rbLinkNode n (top fs) (cellAbove fs)) (.node .red .nil n .nil) fs := by
  have hne : ∀ s, Cell.child s n ≠ cellAbove fs := cellAbove_ne hfresh
  have hsides : Cell.child .right n ≠ .child .left n :=
    fun heq => Side.noConfusion (Cell.child.inj heq).1
  have hnode := (hh.kept.storeParentColor hnS (top fs)).storeChild hnS .right 0
  have hkept := hh.kept_above (hnode.storeChild hnS .left 0) n
  have hbelow : Below (h.rbLinkNode n (top fs) (cellAbove fs)) (top fs)
      (.node .red .nil n .nil) := by
    refine ⟨?_, ?_, Function.update_self _ _ _, trivial, trivial⟩
    · exact (Function.update_of_ne (hne .left) _ _).trans (Function.update_self _ _ _)
    · show Function.update
        (Function.update (Function.update h.cells (.child .right n) 0) (.child .left n) 0)
        (cellAbove fs) n (.child .right n) = 0
      rw [Function.update_of_ne (hne .right), Function.update_of_ne hsides, Function.update_self]
  refine hh.replace hbelow (Function.update_self _ _ _) ?_ ?_ ?_ ?_ ?_ hkept
  · intro y hy hin
    have hnot : ∀ s, y ≠ .child s n := fun s heq => hfresh (hin s n heq)
    exact (Function.update_of_ne hy _ _).trans
      ((Function.update_of_ne (hnot _) _ _).trans (Function.update_of_ne (hnot _) _ _))
  · intro x hx
    refine Function.update_of_ne ?_ _ _
    rintro rfl
    exact hfresh hx
  · exact List.nodup_cons.mpr ⟨hfresh, hh.nodup⟩
  · intro x hx
    rw [List.mem_singleton.mp hx]
    exact hn
  · intro x hx
    rw [List.mem_singleton.mp hx]
    exact hnS

theorem Holds.rbInsertColor (hh : Holds S h₀ h .nil fs) (hrb : IsRedBlack (fill .nil fs))
    (hn : IsNode n) (hnS : n ∈ S) (hfresh : n ∉ nodesAbove fs) :
    ∃ h', (h.rbLinkNode n (top fs) (cellAbove fs)).rbInsertColor n = some h' ∧
      IsTreeIn S h₀ h' (before fs ++ n :: after fs) := by
  have hlinked := hh.rbLinkNode hn hnS hfresh
  obtain ⟨cp, c', k, ht, hole, -, -⟩ := hrb.split
  cases ht
  obtain ⟨t', hrun, hrb', hlist⟩ := insertRepair_spec (.red (x := n) .nil .nil) hole
  obtain ⟨h', hloop, hh'⟩ := hlinked.insertColorLoop rfl hrun hlinked.frames_lt
  refine ⟨h', hloop, t', hh', hrb', ?_⟩
  rw [hlist, toList_fill, toList, toList, List.nil_append, List.append_assoc]
  rfl

theorem notMem_of_nodup {p : ℕ} {as bs : List ℕ} (hnodup : (as ++ p :: bs).Nodup) :
    p ∉ as ∧ p ∉ bs := by
  rw [List.nodup_middle, List.nodup_cons, List.mem_append, not_or] at hnodup
  exact hnodup.1

theorem insertBefore_append {p : ℕ} {as bs : List ℕ} (hp : p ∉ as) :
    insertBefore n p (as ++ p :: bs) = as ++ n :: p :: bs := by
  induction as with
  | nil => exact if_pos rfl
  | cons a as ih =>
    rw [List.mem_cons, not_or] at hp
    rw [List.cons_append, insertBefore, if_neg (Ne.symm hp.1), ih hp.2, List.cons_append]

theorem insertAfter_append {p : ℕ} {as bs : List ℕ} (hp : p ∉ as) :
    insertAfter n p (as ++ p :: bs) = as ++ p :: n :: bs := by
  induction as with
  | nil => exact if_pos rfl
  | cons a as ih =>
    rw [List.mem_cons, not_or] at hp
    rw [List.cons_append, insertAfter, if_neg (Ne.symm hp.1), ih hp.2, List.cons_append]

theorem Holds.exists_hole (hh : Holds S h₀ h t []) {s : Side} {p : ℕ} (hp : p ∈ t.toList)
    (hnull : h.cells (.child s p) = 0) :
    ∃ d c u fs, s = side d ∧ t = fill .nil (⟨d, c, p, u⟩ :: fs) := by
  obtain ⟨c, l, r, fs, rfl⟩ := exists_fill_of_mem hp
  obtain ⟨d, rfl⟩ : ∃ d, s = side d := by
    cases s with
    | left => exact ⟨false, rfl⟩
    | right => exact ⟨true, rfl⟩
  have hnode := holds_fill.mpr hh
  rw [← join_pick d] at hnode
  have hnil : pick d l r = .nil := by
    rw [← (Holds.down d hnode).addr_eq_zero, ← (below_join.mp hnode.below).1, hnull]
  refine ⟨d, c, pick (!d) l r, fs, rfl, ?_⟩
  rw [← join_pick d, hnil]
  rfl

theorem insert_isTree {parent : ℕ} {rbLink : Cell} (htree : IsTreeIn S h₀ h xs) (hn : IsNode n)
    (hnS : n ∈ S) (hfresh : n ∉ xs) (hlink : IsLink h xs parent rbLink) :
    ∃ h', call h (.insert n parent rbLink) = some h' ∧
      IsTreeIn S h₀ h' (effect xs (.insert n parent rbLink)) := by
  obtain ⟨t, hh, hrb, rfl⟩ := htree
  cases rbLink with
  | root =>
    obtain ⟨rfl, hnil⟩ := hlink
    obtain rfl : t = .nil := by
      cases t with
      | nil => rfl
      | node c l x r => cases List.append_ne_nil_of_right_ne_nil _ (List.cons_ne_nil _ _) hnil
    exact hh.rbInsertColor hrb hn hnS List.not_mem_nil
  | child s p =>
    obtain ⟨rfl, hp, hnull⟩ := hlink
    obtain ⟨d, c, u, fs, rfl, rfl⟩ := hh.exists_hole hp hnull
    have hhole := holds_fill.mpr hh
    have hfresh' : n ∉ nodesAbove (⟨d, c, p, u⟩ :: fs) := by
      rwa [(toList_fill_perm _ _).mem_iff, toList, List.nil_append] at hfresh
    obtain ⟨h', hrun, htree⟩ := hhole.rbInsertColor hrb hn hnS hfresh'
    refine ⟨h', hrun, ?_⟩
    have hnodup := hh.nodup
    rw [nodesAbove, List.append_nil] at hnodup
    cases d with
    | false =>
      have hlist : (fill .nil (⟨false, c, p, u⟩ :: fs)).toList = before fs ++ p ::
          (u.toList ++ after fs) := by
        simp [toList_fill, toList, before, after]
      rw [hlist] at hnodup ⊢
      rw [before, after, if_neg Bool.false_ne_true, if_neg Bool.false_ne_true,
        List.append_nil] at htree
      rw [side, effect, insertBefore_append (notMem_of_nodup hnodup).1]
      exact htree
    | true =>
      have hlist : (fill .nil (⟨true, c, p, u⟩ :: fs)).toList = (before fs ++ u.toList) ++ p ::
          after fs := by
        simp [toList_fill, toList, before, after]
      rw [hlist] at hnodup ⊢
      rw [before, after, if_pos rfl, if_pos rfl, List.nil_append, ← List.append_assoc,
        ← List.append_cons] at htree
      rw [side, effect, insertAfter_append (notMem_of_nodup hnodup).1]
      exact htree

end Insert

section Replace

theorem reparent_comm (hne : l ≠ .nil → r ≠ .nil → addr l ≠ addr r) (p : ℕ) (w : ℕ → ℕ) :
    reparent l p (reparent r p w) = reparent r p (reparent l p w) := by
  cases l with
  | nil => rfl
  | node c a x b =>
    cases r with
    | nil => rfl
    | node c' a' y b' => exact Function.update_comm (Ne.symm (hne node_ne_nil node_ne_nil)) _ _ _

theorem rbReplaceNode_eq (h : Heap) (v n : ℕ) : h.rbReplaceNode v n =
    (h.rbParent v).bind fun parent => (h.replaceChild parent v n).bind fun h₁ =>
    (h₁.rbLeft v).bind fun left =>
    (if left ≠ 0 then h₁.rbSetParent left n else some h₁).bind fun h₂ =>
    (h₂.rbRight v).bind fun right =>
    (if right ≠ 0 then h₂.rbSetParent right n else some h₂).bind fun h₃ => h₃.copyNode v n := by
  simp only [Heap.rbReplaceNode, ite_bind]
  rfl

theorem copyNode_eq (hv : v ≠ 0) (hn : n ≠ 0) : h.copyNode v n =
    some ⟨Function.update (Function.update h.cells (.child .right n) (h.cells (.child .right v)))
        (.child .left n) (h.cells (.child .left v)),
      Function.update h.parentColor n (h.parentColor v)⟩ := by
  rw [copyNode, rbParentColor_eq hv, Heap.rbRight, rbChild_eq hv, Heap.rbLeft, rbChild_eq hv]
  simp only [Option.bind_eq_bind, Option.bind_some, updateParentColor_eq hn, setRbRight,
    setChild_eq hn, setRbLeft]
  rfl

def replaced (h : Heap) (c : Color) (l r : ColorTree ℕ) (n : ℕ) (fs : List (Frame ℕ)) : Heap where
  cells :=
    Function.update
      (Function.update (h.store (cellAbove fs) n).cells (.child .right n) (addr r))
      (.child .left n) (addr l)
  parentColor :=
    Function.update (reparent r n (reparent l n h.parentColor)) n (top fs + bit c)

theorem Holds.rbReplaceNode (hh : Holds S h₀ h (.node c l v r) fs) (hn : IsNode n) :
    h.rbReplaceNode v n = some (replaced h c l r n fs) := by
  have hv : IsNode v := Holds.isNode (d := false) hh
  have hleft : Holds S h₀ h l (⟨false, c, v, r⟩ :: fs) := Holds.down false hh
  have hright : Holds S h₀ h r (⟨true, c, v, l⟩ :: fs) := Holds.down true hh
  obtain ⟨-, hvabove, hvdisj⟩ := List.nodup_append'.mp hleft.nodup
  have hvl : v ∉ l.toList := fun hx => hvdisj hx List.mem_cons_self
  have hvf : v ∉ nodesAbove fs :=
    fun hx => (List.nodup_cons.mp hvabove).1 (List.mem_append_right _ hx)
  have hvr : v ∉ r.toList :=
    fun hx => (List.nodup_append'.mp hright.nodup).2.2 hx List.mem_cons_self
  have hword : reparent l n h.parentColor (addr r) = h.parentColor (addr r) := by
    by_cases hl : l = .nil
    · rw [hl]
      rfl
    · exact reparent_of_ne (hleft.addr_ne (.inl hl)) _
  have hold : reparent r n (reparent l n h.parentColor) v = top fs + bit c := by
    rw [reparent_of_ne (ne_addr hvr hv.ne_zero), reparent_of_ne (ne_addr hvl hv.ne_zero)]
    exact hh.below.2.2.1
  have hcellL : (h.store (cellAbove fs) n).cells (.child .left v) = addr l :=
    (Function.update_of_ne (cellAbove_ne hvf _) _ _).trans hh.below.1
  have hcellR : (h.store (cellAbove fs) n).cells (.child .right v) = addr r :=
    (Function.update_of_ne (cellAbove_ne hvf _) _ _).trans hh.below.2.1
  have hreplace : h.replaceChild (top fs) v n = some (h.store (cellAbove fs) n) :=
    hh.replaceChild h node_ne_nil (fun _ _ _ => rfl) n
  have hset := setParent_child ⟨(h.store (cellAbove fs) n).cells, reparent l n h.parentColor⟩
    hright.below hword
    (fun x hx => hright.valid x (List.mem_append_left _ hx)) hv.aligned hn.aligned
  have hchild : Heap.rbRight ⟨(h.store (cellAbove fs) n).cells, reparent l n h.parentColor⟩ v =
      some (addr r) :=
    (rbChild_eq hv.ne_zero _).trans (congrArg some hcellR)
  have hcopy :=
    copyNode_eq
      (h := ⟨(h.store (cellAbove fs) n).cells, reparent r n (reparent l n h.parentColor)⟩)
      hv.ne_zero hn.ne_zero
  dsimp only at hcopy
  rw [hcellL, hcellR, hold] at hcopy
  rw [rbReplaceNode_eq, Holds.rbParent (d := false) hh, Option.bind_some, hreplace,
    Option.bind_some, Heap.rbLeft, rbChild_eq hv.ne_zero, hcellL, Option.bind_some,
    setParent_child (h.store _ _) hleft.below rfl
      (fun x hx => hleft.valid x (List.mem_append_left _ hx)) hv.aligned hn.aligned,
    Option.bind_some]
  exact (congrArg (Option.bind · _) hchild).trans ((congrArg (Option.bind · _) hset).trans hcopy)

theorem Holds.kept_replaced (hh : Holds S h₀ h (.node c l v r) fs) (hnS : n ∈ S) :
    Kept S h₀ (replaced h c l r n fs) := by
  have hl : ∀ x ∈ l.toList, x ∈ S :=
    fun x hx => (Holds.down false hh).owned x (List.mem_append_left _ hx)
  have hr : ∀ x ∈ r.toList, x ∈ S :=
    fun x hx => (Holds.down true hh).owned x (List.mem_append_left _ hx)
  have hright := (hh.kept_above hh.kept n).storeChild hnS .right (addr r)
  have hleft := hright.storeChild hnS .left (addr l)
  exact ((hleft.reparent hl n).reparent hr n).storeParentColor hnS (top fs + bit c)

theorem Holds.replaced (hh : Holds S h₀ h (.node c l v r) fs) (hn : IsNode n) (hnS : n ∈ S)
    (hfresh : n ∉ (node c l v r).toList ++ nodesAbove fs) :
    Holds S h₀ (RbTree.replaced h c l r n fs) (.node c l n r) fs := by
  have hfresh' : n ∉ l.toList ++ (r.toList ++ nodesAbove fs) := by
    simp only [toList, List.mem_append, List.mem_cons] at hfresh ⊢
    tauto
  have hnf : n ∉ nodesAbove fs := fun hx => hfresh (List.mem_append_right _ hx)
  have hsides : Cell.child .right n ≠ .child .left n :=
    fun heq => Side.noConfusion (Cell.child.inj heq).1
  refine hh.substitute hn hnS (hh.kept_replaced hnS) hfresh' ?_ (Function.update_self _ _ _) ?_
    (Function.update_self _ _ _) ?_ ?_
  · exact (Function.update_of_ne (cellAbove_ne hnf _).symm _ _).trans
      ((Function.update_of_ne (cellAbove_ne hnf _).symm _ _).trans (Function.update_self _ _ _))
  · exact (Function.update_of_ne hsides (addr l) _).trans (Function.update_self _ _ _)
  · intro y hy hin
    have hnot : ∀ s, y ≠ .child s n := fun s heq => hfresh' (hin s n heq)
    exact (Function.update_of_ne (hnot _) _ _).trans
      ((Function.update_of_ne (hnot _) _ _).trans (Function.update_of_ne hy _ _))
  · intro x hx
    have hxn : x ≠ n := by
      rintro rfl
      exact hfresh' hx
    refine (Function.update_of_ne hxn _ _).trans ?_
    refine (congrFun (reparent_comm (fun hl _ => ?_) n h.parentColor) x).symm
    exact ((Holds.down false hh).addr_ne (.inl hl)).symm

end Replace

section Runs

theorem erase_isTree (htree : IsTreeIn S h₀ h xs) (hn : n ∈ xs) :
    ∃ h', call h (.erase n) = some h' ∧ IsTreeIn S h₀ h' (effect xs (.erase n)) := by
  obtain ⟨t, hh, hrb, rfl⟩ := htree
  obtain ⟨c, l, r, fs, rfl⟩ := exists_fill_of_mem hn
  obtain ⟨h', t', hrun, hh', hrb', hlist⟩ := (holds_fill.mpr hh).rbErase hrb
  refine ⟨h', hrun, t', hh', hrb', ?_⟩
  have hsplit : (fill (.node c l n r) fs).toList =
      (before fs ++ l.toList) ++ n :: (r.toList ++ after fs) := by
    simp [toList_fill, toList]
  have hnodup := hh.nodup
  rw [nodesAbove, List.append_nil, hsplit] at hnodup
  rw [effect, hsplit, List.erase_append_right _ (notMem_of_nodup hnodup).1,
    List.erase_cons_head, hlist]
  simp

theorem replace_isTree (htree : IsTreeIn S h₀ h xs) (hv : v ∈ xs) (hn : IsNode n) (hnS : n ∈ S)
    (hfresh : n ∉ xs) :
    ∃ h', call h (.replace v n) = some h' ∧ IsTreeIn S h₀ h' (effect xs (.replace v n)) := by
  obtain ⟨t, hh, hrb, rfl⟩ := htree
  obtain ⟨c, l, r, fs, rfl⟩ := exists_fill_of_mem hv
  rw [(toList_fill_perm _ _).mem_iff] at hfresh
  have hh' := (holds_fill.mpr hh).replaced hn hnS hfresh
  refine ⟨_, (holds_fill.mpr hh).rbReplaceNode hn, _, holds_fill.mp hh',
    IsRedBlack.fill_value (d := false) n hrb, ?_⟩
  have hsplit : ∀ x, (fill (.node c l x r) fs).toList =
      (before fs ++ l.toList) ++ x :: (r.toList ++ after fs) := by
    intro x
    simp [toList_fill, toList]
  have hnodup := hh.nodup
  rw [nodesAbove, List.append_nil, hsplit] at hnodup
  have hkeep : ∀ as : List ℕ, v ∉ as → as.map (fun x => if x = v then n else x) = as := by
    intro as has
    refine (List.map_congr_left fun x hx => ?_).trans (List.map_id as)
    refine if_neg ?_
    rintro rfl
    exact has hx
  rw [effect, hsplit, hsplit, List.map_append, List.map_cons, if_pos rfl,
    hkeep _ (notMem_of_nodup hnodup).1, hkeep _ (notMem_of_nodup hnodup).2]

theorem call_isTree (htree : IsTreeIn S h₀ h xs) {a : Call} (hallowed : Allowed h xs a)
    (hbrings : ∀ n ∈ a.brings, n ∈ S) :
    ∃ h', call h a = some h' ∧ IsTreeIn S h₀ h' (effect xs a) := by
  cases a with
  | insert n parent rbLink =>
    exact insert_isTree htree hallowed.1 (hbrings n List.mem_cons_self) hallowed.2.1 hallowed.2.2
  | erase n => exact erase_isTree htree hallowed
  | replace v n =>
    exact replace_isTree htree hallowed.1 hallowed.2.1 (hbrings n List.mem_cons_self) hallowed.2.2

structure Session where
  heap : Heap
  nodes : List ℕ

def Session.step (s : Session) (a : Call) : Option Session :=
  (call s.heap a).map fun h' => ⟨h', effect s.nodes a⟩

def Session.allowed (s : Session) (a : Call) : Prop := Allowed s.heap s.nodes a

def Session.reach (s : Session) (calls : List Call) : Set ℕ :=
  {n | n ∈ s.nodes ∨ ∃ a ∈ calls, n ∈ a.brings}

theorem calls_keep_tree {s : Session} (htree : IsTree s.heap s.nodes) {calls : List Call}
    (hallowed : Along Session.step Session.allowed s calls) :
    ∃ s', exec Session.step s calls = some s' ∧ s'.nodes = calls.foldl effect s.nodes ∧
      (∃ t, Holds {n | n ∈ s'.nodes} s'.heap s'.heap t [] ∧ IsRedBlack t ∧ t.toList = s'.nodes ∧
        t.height ≤ 2 * Nat.log 2 (s'.nodes.length + 1)) ∧
      Kept (s.reach calls) s.heap s'.heap := by
  obtain ⟨t₀, hh₀, hrb₀, hlist₀⟩ := htree
  have hstart : IsTreeIn (s.reach calls) s.heap s.heap s.nodes := by
    refine ⟨t₀, hh₀.start fun n hn => ?_, hrb₀, hlist₀⟩
    exact .inl (hh₀.owned n hn)
  have hbrings : ∀ a ∈ calls, ∀ n ∈ a.brings, n ∈ s.reach calls := fun a ha n hn => .inr ⟨a, ha, hn⟩
  have hstep : ∀ (s' : Session) a, IsTreeIn (s.reach calls) s.heap s'.heap s'.nodes →
      s'.allowed a ∧ (∀ n ∈ a.brings, n ∈ s.reach calls) →
      ∃ s'', s'.step a = some s'' ∧ IsTreeIn (s.reach calls) s.heap s''.heap s''.nodes := by
    rintro s' a htree ⟨hallowed, hbrings⟩
    obtain ⟨h', hrun, htree'⟩ := call_isTree htree hallowed hbrings
    exact ⟨⟨h', effect s'.nodes a⟩, by rw [Session.step, hrun, Option.map_some], htree'⟩
  obtain ⟨s', hrun, t, hh, hrb, hlist⟩ :=
    exec_total_along _ _ hstep hstart (hallowed.and (along_of_forall hbrings s))
  refine ⟨s', hrun, ?_, ⟨t, hh.start fun n hn => ?_, hrb, hlist, hlist ▸ hrb.height_le⟩, hh.kept⟩
  · refine exec_tracked (fun (s : Session) xs => s.nodes = xs) effect ?_ rfl hrun
    intro s s' xs a hxs hs
    obtain ⟨h', -, rfl⟩ := Option.map_eq_some_iff.mp hs
    rw [hxs]
  · rw [nodesAbove, List.append_nil, hlist] at hn
    exact hn

def threeNodes : Heap where
  cells
    | .root => 16
    | .child .left 16 => 8
    | .child .right 16 => 24
    | _ => 0
  parentColor
    | 8 | 24 => 16
    | 16 => 1
    | _ => 0

theorem threeNodes_isTree : IsTree threeNodes [8, 16, 24] := by
  refine ⟨.node .black (.node .red .nil 8 .nil) 16 (.node .red .nil 24 .nil),
    ⟨?_, rfl, trivial, by decide, ?_, ?_, .refl _ _⟩,
    ⟨1, .black (.red .nil .nil) (.red .nil .nil)⟩, rfl⟩
  · exact ⟨rfl, rfl, rfl, ⟨rfl, rfl, rfl, trivial, trivial⟩, rfl, rfl, rfl, trivial, trivial⟩
  · have hvalid : ∀ n ∈ [8, 16, 24], n ≠ 0 ∧ 4 ∣ n ∧ n < 2 ^ 64 := by
      decide
    exact fun n hn => ⟨(hvalid n hn).1, (hvalid n hn).2.1, (hvalid n hn).2.2⟩
  · exact fun n hn => hn

def threeCalls : List Call := [.insert 32 24 (.child .right 24), .erase 16, .replace 8 40]

theorem threeCalls_allowed :
    Along Session.step Session.allowed ⟨threeNodes, [8, 16, 24]⟩ threeCalls := by
  refine ⟨⟨⟨by decide, by decide, by decide⟩, by decide, rfl, by decide, rfl⟩, fun s hs => ?_⟩
  obtain ⟨h₁, -, rfl⟩ := Option.map_eq_some_iff.mp hs
  refine ⟨(by decide : 16 ∈ [8, 16, 24, 32]), fun s hs => ?_⟩
  obtain ⟨h₂, -, rfl⟩ := Option.map_eq_some_iff.mp hs
  exact ⟨⟨List.mem_cons_self, ⟨by decide, by decide, by decide⟩, (by decide : 40 ∉ [8, 24, 32])⟩,
    fun _ _ => trivial⟩

theorem calls_keep_tree_threeNodes :
    ∃ s', exec Session.step ⟨threeNodes, [8, 16, 24]⟩ threeCalls = some s' ∧
      s'.nodes = [40, 24, 32] ∧
      IsTree s'.heap s'.nodes ∧ s'.heap.parentColor 48 = 0 := by
  obtain ⟨s', hrun, hnodes, ⟨t, hh, hrb, hlist, -⟩, hkept⟩ :=
    calls_keep_tree threeNodes_isTree threeCalls_allowed
  refine ⟨s', hrun, hnodes, ⟨t, hh, hrb, hlist⟩, (hkept 48 ?_).1⟩
  simp [Session.reach, threeCalls, Call.brings]

end Runs

end AnalysisPrograms.RbTree
