import AnalysisPrograms.Foundations.SearchTree
import AnalysisPrograms.GraphC.Vertices

namespace AnalysisPrograms.GraphC

open Foundations SearchTree

def Shape (h : Heap) : ℕ → BinaryTree ℕ → Prop
  | p, .nil => p = 0
  | p, .node k l r => p = k + offsetOfRbNode ∧ Shape h (h.cells (.child .left p)) l ∧
    Shape h (h.cells (.child .right p)) r

variable {h h' : Heap} {p x k fuel : ℕ} {t l r : BinaryTree ℕ} {iter c : Cell}

theorem Shape.congr (hs : Shape h p t)
    (hc : ∀ k ∈ keys t, ∀ side, h'.cells (.child side (k + offsetOfRbNode)) =
      h.cells (.child side (k + offsetOfRbNode))) : Shape h' p t := by
  induction t generalizing p with
  | nil => exact hs
  | node k l r ihl ihr =>
    obtain ⟨rfl, hl, hr⟩ := hs
    have hk := hc k (mem_keys_node.mpr (.inl rfl))
    refine ⟨rfl, ?_, ?_⟩
    · rw [hk .left]
      exact ihl hl fun k' hk' => hc k' (mem_keys_node.mpr (.inr (.inl hk')))
    · rw [hk .right]
      exact ihr hr fun k' hk' => hc k' (mem_keys_node.mpr (.inr (.inr hk')))

theorem Shape.ne_zero (hs : Shape h p (.node k l r)) : p ≠ 0 := by
  rw [hs.1, offsetOfRbNode]
  omega

theorem Shape.ne_zero_of_mem (hs : Shape h p t) (hx : x ∈ keys t) : p ≠ 0 := by
  cases t with
  | nil => simp [keys] at hx
  | node k l r => exact hs.ne_zero

theorem Shape.mem (hs : Shape h p t) (hp : p ≠ 0) : ∃ k ∈ keys t, p = k + offsetOfRbNode := by
  cases t with
  | nil => exact absurd hs hp
  | node k l r => exact ⟨k, mem_keys_node.mpr (.inl rfl), hs.1⟩

theorem Shape.subtree (hord : Ordered t) (hs : Shape h p t) (hx : x ∈ keys t) :
    ∃ l r, Shape h (x + offsetOfRbNode) (.node x l r) ∧ Ordered (.node x l r) ∧
      keys (.node x l r) ⊆ keys t ∧ (BinaryTree.node x l r).height ≤ t.height ∧
      ∀ k, p = k + offsetOfRbNode → k ≠ x → k ∉ keys (.node x l r) := by
  induction t generalizing p with
  | nil => simp [keys] at hx
  | node k l r ihl ihr =>
    obtain ⟨rfl, hl, hr⟩ := hs
    have hroot : ∀ {y}, k + offsetOfRbNode = y + offsetOfRbNode → y = k := fun he => by omega
    obtain rfl | hxl | hxr := mem_keys_node.mp hx
    · exact ⟨l, r, ⟨rfl, hl, hr⟩, hord, subset_rfl, le_rfl, fun y he hne => absurd (hroot he) hne⟩
    · obtain ⟨l', r', hs', hord', hsub, hheight, -⟩ := ihl hord.2.2.1 hl hxl
      refine ⟨l', r', hs', hord', fun y hy => mem_keys_node.mpr (.inr (.inl (hsub hy))), ?_, ?_⟩
      · simp only [BinaryTree.height] at hheight ⊢
        omega
      · intro y he hne hy
        rw [hroot he] at hy
        exact hord.notMem_left (hsub hy)
    · obtain ⟨l', r', hs', hord', hsub, hheight, -⟩ := ihr hord.2.2.2 hr hxr
      refine ⟨l', r', hs', hord', fun y hy => mem_keys_node.mpr (.inr (.inr (hsub hy))), ?_, ?_⟩
      · simp only [BinaryTree.height] at hheight ⊢
        omega
      · intro y he hne hy
        rw [hroot he] at hy
        exact hord.notMem_right (hsub hy)

def Reach (t : BinaryTree ℕ) (iter c : Cell) : Prop :=
  c = iter ∨ ∃ side, ∃ k ∈ keys t, c = .child side (k + offsetOfRbNode)

theorem Reach.node {side : Side} (hc : Reach t (.child side (k + offsetOfRbNode)) c)
    (ht : keys t ⊆ keys (.node k l r)) : Reach (.node k l r) iter c := by
  obtain rfl | ⟨side', k', hk', rfl⟩ := hc
  · exact .inr ⟨side, k, mem_keys_node.mpr (.inl rfl), rfl⟩
  · exact .inr ⟨side', k', ht hk', rfl⟩

theorem child_ne {side side' : Side} {k k' : ℕ} (hk : k ≠ k') :
    Cell.child side (k + offsetOfRbNode) ≠ .child side' (k' + offsetOfRbNode) := by
  intro he
  obtain ⟨-, he⟩ := Cell.child.inj he
  omega

theorem Reach.ne {side : Side} (hc : Reach t (.child side (k + offsetOfRbNode)) c) (hk : x ≠ k)
    (hx : x ∉ keys t) (side' : Side) : Cell.child side' (x + offsetOfRbNode) ≠ c := by
  obtain rfl | ⟨side'', k', hk', rfl⟩ := hc
  · exact child_ne hk
  · exact child_ne fun he => hx (he ▸ hk')

theorem Reach.sibling_ne {side side' : Side} (hc : Reach t (.child side (k + offsetOfRbNode)) c)
    (hk : k ∉ keys t) (hside : side' ≠ side) : Cell.child side' (k + offsetOfRbNode) ≠ c := by
  obtain rfl | ⟨side'', k', hk', rfl⟩ := hc
  · intro he
    exact hside (Cell.child.inj he).1
  · exact child_ne fun he => hk (he ▸ hk')

theorem searchLoop_node (hs : Shape h (h.cells iter) (.node k l r)) (x fuel : ℕ) :
    searchLoop h x (fuel + 1) iter =
      if x < k then searchLoop h x fuel (.child .left (k + offsetOfRbNode))
      else if x > k then searchLoop h x fuel (.child .right (k + offsetOfRbNode))
      else some iter := by
  have hne := hs.ne_zero
  have hsub : h.cells iter - offsetOfRbNode = k := by
    rw [hs.1]
    omega
  rw [searchLoop, if_neg hne]
  simp only [hsub]
  rw [hs.1]

theorem searchLoop_present (hord : Ordered t) (hs : Shape h (h.cells iter) t)
    (hfuel : t.height < fuel) (hx : x ∈ keys t) :
    ∃ c, searchLoop h x fuel iter = some c ∧ h.cells c = x + offsetOfRbNode := by
  induction t generalizing iter fuel with
  | nil => simp [keys] at hx
  | node k l r ihl ihr =>
    obtain ⟨fuel, rfl⟩ : ∃ n, fuel = n + 1 := ⟨fuel - 1, by omega⟩
    simp only [BinaryTree.height] at hfuel
    rw [searchLoop_node hs]
    obtain ⟨hp, hl, hr⟩ := hs
    rw [hp] at hl hr
    obtain hlt | rfl | hgt := lt_trichotomy x k
    · rw [if_pos hlt]
      exact ihl hord.2.2.1 hl (by omega) ((hord.mem_of_lt hlt).mp hx)
    · rw [if_neg (lt_irrefl x), if_neg (lt_irrefl x)]
      exact ⟨iter, rfl, hp⟩
    · rw [if_neg (lt_asymm hgt), if_pos hgt]
      exact ihr hord.2.2.2 hr (by omega) ((hord.mem_of_gt hgt).mp hx)

theorem cells_rbLinkNode (h : Heap) (n parent : ℕ) (c : Cell) :
    (h.rbLinkNode n parent c).cells c = n := by
  simp only [Heap.rbLinkNode, Heap.store, Function.update_self]

theorem cells_rbLinkNode_child (h : Heap) (n parent : ℕ) {c : Cell} {side : Side}
    (hc : .child side n ≠ c) : (h.rbLinkNode n parent c).cells (.child side n) = 0 := by
  cases side with
  | left => simp [Heap.rbLinkNode, Heap.store, hc]
  | right => simp [Heap.rbLinkNode, Heap.store, hc]

theorem cells_rbLinkNode_of_ne (h : Heap) (n parent : ℕ) {c d : Cell} (hc : d ≠ c)
    (hd : ∀ side, d ≠ .child side n) : (h.rbLinkNode n parent c).cells d = h.cells d := by
  simp [Heap.rbLinkNode, Heap.store, Heap.storeParentColor, hc, hd]

theorem Shape.link (hs : Shape h p t) {sub : BinaryTree ℕ} {side : Side} {parent : ℕ}
    (hc : Reach sub (.child side (k + offsetOfRbNode)) c)
    (hout : ∀ y ∈ keys t, y ≠ k ∧ y ∉ keys sub ∧ y ≠ x) :
    Shape (h.rbLinkNode (x + offsetOfRbNode) parent c) p t := by
  apply hs.congr
  intro y hy side'
  obtain ⟨hyk, hysub, hyx⟩ := hout y hy
  exact cells_rbLinkNode_of_ne h _ _ (hc.ne hyk hysub side') fun _ => child_ne hyx

theorem cells_link_below {l r sub : BinaryTree ℕ} {side : Side} {parent : ℕ}
    (hp : h.cells iter = k + offsetOfRbNode)
    (hiter : ∀ side, ∀ y, y = x ∨ y ∈ keys (.node k l r) → iter ≠ .child side (y + offsetOfRbNode))
    (hc : Reach sub (.child side (k + offsetOfRbNode)) c) (hsub : keys sub ⊆ keys (.node k l r)) :
    (h.rbLinkNode (x + offsetOfRbNode) parent c).cells iter = k + offsetOfRbNode := by
  rw [cells_rbLinkNode_of_ne h _ _ ?_ fun side' => hiter side' x (.inl rfl), hp]
  obtain rfl | ⟨side', y, hy, rfl⟩ := hc
  · exact hiter side k (.inr (mem_keys_node.mpr (.inl rfl)))
  · exact hiter side' y (.inr (hsub hy))

theorem child_ne_below {side : Side} {sub : BinaryTree ℕ} (hxk : x ≠ k) (hk : k ∉ keys sub)
    (side' : Side) {y : ℕ} (hy : y = x ∨ y ∈ keys sub) :
    Cell.child side (k + offsetOfRbNode) ≠ .child side' (y + offsetOfRbNode) := by
  rcases hy with rfl | hy
  · exact child_ne hxk.symm
  · exact child_ne fun he => hk (he ▸ hy)

theorem Shape.link_sibling {other sub : BinaryTree ℕ} {side side' : Side} {parent : ℕ}
    (hs : Shape h (h.cells (.child side' (k + offsetOfRbNode))) other)
    (hc : Reach sub (.child side (k + offsetOfRbNode)) c) (hside : side' ≠ side)
    (hk : k ∉ keys sub) (hxk : x ≠ k) (hout : ∀ y ∈ keys other, y ≠ k ∧ y ∉ keys sub ∧ y ≠ x) :
    Shape (h.rbLinkNode (x + offsetOfRbNode) parent c)
      ((h.rbLinkNode (x + offsetOfRbNode) parent c).cells (.child side' (k + offsetOfRbNode)))
      other := by
  rw [cells_rbLinkNode_of_ne h _ _ (hc.sibling_ne hk hside) fun _ => child_ne hxk.symm]
  exact hs.link hc hout

theorem searchLoop_absent (hord : Ordered t) (hs : Shape h (h.cells iter) t)
    (hfuel : t.height < fuel) (hx : x ∉ keys t)
    (hiter : ∀ side, ∀ y, y = x ∨ y ∈ keys t → iter ≠ .child side (y + offsetOfRbNode))
    (parent : ℕ) :
    ∃ c, searchLoop h x fuel iter = some c ∧ h.cells c = 0 ∧ Reach t iter c ∧
      Shape (h.rbLinkNode (x + offsetOfRbNode) parent c)
        ((h.rbLinkNode (x + offsetOfRbNode) parent c).cells iter) (insertKey x t) := by
  induction t generalizing iter fuel with
  | nil =>
    obtain ⟨fuel, rfl⟩ : ∃ n, fuel = n + 1 := ⟨fuel - 1, by omega⟩
    have hz : h.cells iter = 0 := hs
    have hne : ∀ side, .child side (x + offsetOfRbNode) ≠ iter :=
      fun side => (hiter side x (.inl rfl)).symm
    refine ⟨iter, by rw [searchLoop, if_pos hz], hz, .inl rfl, ?_⟩
    rw [cells_rbLinkNode]
    refine ⟨rfl, ?_, ?_⟩
    · exact cells_rbLinkNode_child h _ _ (hne .left)
    · exact cells_rbLinkNode_child h _ _ (hne .right)
  | node k l r ihl ihr =>
    obtain ⟨fuel, rfl⟩ : ∃ n, fuel = n + 1 := ⟨fuel - 1, by omega⟩
    simp only [BinaryTree.height] at hfuel
    rw [searchLoop_node hs]
    obtain ⟨hp, hl, hr⟩ := hs
    rw [hp] at hl hr
    have hxk : x ≠ k := fun he => hx (mem_keys_node.mpr (.inl he))
    have hxl : x ∉ keys l := fun hm => hx (mem_keys_node.mpr (.inr (.inl hm)))
    have hxr : x ∉ keys r := fun hm => hx (mem_keys_node.mpr (.inr (.inr hm)))
    obtain hlt | hgt := Nat.lt_or_gt_of_ne hxk
    · have hout : ∀ y ∈ keys r, y ≠ k ∧ y ∉ keys l ∧ y ≠ x := by
        intro y hy
        have hky := hord.2.1 y hy
        exact ⟨hky.ne', fun hyl => lt_asymm hky (hord.1 y hyl), fun he => hxr (he ▸ hy)⟩
      obtain ⟨c, hc, hz, hreach, hlink⟩ := ihl hord.2.2.1 hl (show l.height < fuel by omega) hxl
        fun side _ hy => child_ne_below hxk hord.notMem_left side hy
      have hsub : keys l ⊆ keys (.node k l r) := fun y hy => mem_keys_node.mpr (.inr (.inl hy))
      refine ⟨c, by rw [if_pos hlt, hc], hz, hreach.node hsub, ?_⟩
      rw [cells_link_below hp hiter hreach hsub, insertKey, if_pos hlt]
      exact ⟨rfl, hlink, hr.link_sibling hreach (by decide) hord.notMem_left hxk hout⟩
    · have hout : ∀ y ∈ keys l, y ≠ k ∧ y ∉ keys r ∧ y ≠ x := by
        intro y hy
        have hyk := hord.1 y hy
        exact ⟨hyk.ne, fun hyr => lt_asymm hyk (hord.2.1 y hyr), fun he => hxl (he ▸ hy)⟩
      obtain ⟨c, hc, hz, hreach, hlink⟩ := ihr hord.2.2.2 hr (show r.height < fuel by omega) hxr
        fun side _ hy => child_ne_below hxk hord.notMem_right side hy
      have hsub : keys r ⊆ keys (.node k l r) := fun y hy => mem_keys_node.mpr (.inr (.inr hy))
      refine ⟨c, by rw [if_neg (lt_asymm hgt), if_pos hgt, hc], hz, hreach.node hsub, ?_⟩
      rw [cells_link_below hp hiter hreach hsub, insertKey, if_neg (lt_asymm hgt), if_pos hgt]
      exact ⟨rfl, hl.link_sibling hreach (by decide) hord.notMem_right hxk hout, hlink⟩

end AnalysisPrograms.GraphC
