import AnalysisPrograms.GraphC.Erase

namespace AnalysisPrograms.GraphC

open Foundations SearchTree Heap

structure Plain (h : Heap) (t : BinaryTree ℕ) : Prop where
  ordered : Ordered t
  shape : Shape h (h.cells .root) t
  color : ∀ k ∈ keys t, h.parentColor (k + offsetOfRbNode) =
    if h.cells .root = k + offsetOfRbNode then RB_BLACK else RB_RED
  fits : ∀ k ∈ keys t, k + sizeofVertex ≤ 2 ^ 64

section Plain

variable {h : Heap} {t l r : BinaryTree ℕ} {k x : ℕ}

theorem Plain.parentless_of_mem (hp : Plain h t) (hk : k ∈ keys t) :
    parentless h (k + offsetOfRbNode) := by
  have hcolor := hp.color k hk
  split_ifs at hcolor
  · exact .inr hcolor
  · exact .inl hcolor

theorem height_lt_walkLimit (hord : Ordered t) (hfits : ∀ k ∈ keys t, k + sizeofVertex ≤ 2 ^ 64) :
    t.height < walkLimit := by
  have hsub : keys t ⊆ Finset.range (2 ^ 64 - 47) := by
    intro k hk
    have hk := hfits k hk
    rw [sizeofVertex] at hk
    rw [Finset.mem_range]
    omega
  have hcard := Finset.card_le_card hsub
  rw [Finset.card_range, ← hord.numNodes_eq] at hcard
  have hheight := t.height_le_numNodes
  rw [walkLimit]
  omega

theorem Plain.search_present (hp : Plain h t) (hx : x ∈ keys t) :
    ∃ c, searchLoop h x walkLimit .root = some c ∧ h.cells c = x + offsetOfRbNode :=
  searchLoop_present hp.ordered hp.shape (height_lt_walkLimit hp.ordered hp.fits) hx

theorem Plain.found_of_mem (hp : Plain h t) (hx : x ∈ keys t) : found h x := by
  obtain ⟨c, hc, hcell⟩ := hp.search_present hx
  rw [found, hc, Option.map_some, hcell]

theorem root_ne_child (side : Side) (n : ℕ) : Cell.root ≠ .child side n := by
  intro he
  cases he

theorem search_absent (hord : Ordered t) (hs : Shape h (h.cells .root) t)
    (hfits : ∀ k ∈ keys t, k + sizeofVertex ≤ 2 ^ 64) (hx : x ∉ keys t) :
    ∃ c, searchLoop h x walkLimit .root = some c ∧ h.cells c = 0 ∧ Reach t .root c ∧
      Shape (h.rbLinkNode (x + offsetOfRbNode) 0 c)
      ((h.rbLinkNode (x + offsetOfRbNode) 0 c).cells .root)
        (insertKey x t) :=
  searchLoop_absent hord hs (height_lt_walkLimit hord hfits) hx (fun _ _ _ => root_ne_child _ _) 0

theorem not_found (hord : Ordered t) (hs : Shape h (h.cells .root) t)
    (hfits : ∀ k ∈ keys t, k + sizeofVertex ≤ 2 ^ 64) (hx : x ∉ keys t) : ¬found h x := by
  obtain ⟨c, hc, hz, -⟩ := search_absent hord hs hfits hx
  rw [found, hc, Option.map_some, hz, offsetOfRbNode]
  intro he
  have hval := Option.some.inj he
  omega

theorem plain_blacken (hord : Ordered t) (hs : Shape h (h.cells .root) t)
    (hfits : ∀ k ∈ keys t, k + sizeofVertex ≤ 2 ^ 64)
    (hred : ∀ k ∈ keys t, h.cells .root ≠ k + offsetOfRbNode →
      h.parentColor (k + offsetOfRbNode) = RB_RED) :
    Plain (h.storeParentColor (h.cells .root) RB_BLACK) t where
  ordered := hord
  shape := hs.congr fun _ _ _ => rfl
  color k hk := by
    by_cases hroot : h.cells .root = k + offsetOfRbNode
    · simp only [storeParentColor, hroot, Function.update_self, ↓reduceIte]
    · simp only [storeParentColor, hroot, Function.update_of_ne (Ne.symm hroot), ↓reduceIte]
      exact hred k hk hroot
  fits := hfits

theorem Plain.linked (hp : Plain h t) {c : Cell} (hz : h.cells c = 0) (hreach : Reach t .root c)
    {h₁ : Heap} (hlink : h.rbLinkNode (x + offsetOfRbNode) 0 c = h₁) {k : ℕ}
    (hk : k ∈ insert x (keys t)) :
    parentless h₁ (k + offsetOfRbNode) ∧
      (h₁.cells .root ≠ k + offsetOfRbNode → h₁.parentColor (k + offsetOfRbNode) = RB_RED) := by
  have hcolor : h₁.parentColor = Function.update h.parentColor (x + offsetOfRbNode) RB_RED := by
    rw [← hlink]
    rfl
  by_cases hkx : k = x
  · have hnew : h₁.parentColor (k + offsetOfRbNode) = RB_RED := by
      rw [hcolor, hkx, Function.update_self]
    exact ⟨.inl hnew, fun _ => hnew⟩
  · have hkt := Finset.mem_of_mem_insert_of_ne hk hkx
    have hold : h₁.parentColor (k + offsetOfRbNode) = h.parentColor (k + offsetOfRbNode) := by
      rw [hcolor, Function.update_of_ne (by omega)]
    rw [parentless, hold]
    refine ⟨hp.parentless_of_mem hkt, fun hroot => ?_⟩
    rw [hp.color k hkt, if_neg]
    obtain rfl | ⟨side, y, -, rfl⟩ := hreach
    · exact absurd hz (hp.shape.ne_zero_of_mem hkt)
    · rw [← hlink,
        cells_rbLinkNode_of_ne h _ _ (root_ne_child _ _) fun _ => root_ne_child _ _] at hroot
      exact hroot

theorem Plain.insert (hp : Plain h t) (hx : x ∉ keys t) (hfits : x + sizeofVertex ≤ 2 ^ 64) :
    ∃ c h', searchLoop h x walkLimit .root = some c ∧ h.cells c = 0 ∧
      (h.rbLinkNode (x + offsetOfRbNode) 0 c).rbInsertColor (x + offsetOfRbNode) = some h' ∧
      Plain h' (insertKey x t) := by
  obtain ⟨c, hc, hz, hreach, hshape⟩ := search_absent hp.ordered hp.shape hp.fits hx
  generalize hlink : h.rbLinkNode (x + offsetOfRbNode) 0 c = h₁ at hshape
  have hlinked : ∀ k ∈ keys (insertKey x t), parentless h₁ (k + offsetOfRbNode) ∧
      (h₁.cells .root ≠ k + offsetOfRbNode → h₁.parentColor (k + offsetOfRbNode) = RB_RED) := by
    rw [keys_insertKey]
    exact fun k hk => hp.linked hz hreach hlink hk
  have hself : x ∈ keys (insertKey x t) := by
    rw [keys_insertKey]
    exact Finset.mem_insert_self x _
  have hn : x + offsetOfRbNode ≠ 0 := by
    rw [offsetOfRbNode]
    omega
  have hroot := hshape.ne_zero_of_mem hself
  obtain ⟨k₀, hk₀, hroot₀⟩ := hshape.mem hroot
  have hless₀ : parentless h₁ (h₁.cells .root) := hroot₀ ▸ (hlinked k₀ hk₀).1
  refine ⟨c, h₁.storeParentColor (h₁.cells .root) RB_BLACK, hc, hz, ?_, ?_⟩
  · rw [hlink, rbInsertColor_eq (hlinked x hself).1 hn, hless₀.rbSetBlack_eq hroot]
  apply plain_blacken (hp.ordered.insertKey x) hshape ?_ fun k hk => (hlinked k hk).2
  intro k hk
  rw [keys_insertKey] at hk
  obtain rfl | hk := Finset.mem_insert.mp hk
  · exact hfits
  · exact hp.fits k hk

end Plain

end AnalysisPrograms.GraphC
