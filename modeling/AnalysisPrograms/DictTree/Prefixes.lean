import Mathlib.Data.List.Perm.Basic
import AnalysisPrograms.Foundations.Execution
import AnalysisPrograms.DictTree.Shape

namespace AnalysisPrograms.DictTree

open Foundations Foundations.Execution

section Shape

variable {h : Heap} {l : Loc} {n : ℕ} {t : ChildSibling (ℕ × Rune)}

theorem Shape.node_of_some (hs : Shape h (h.cells l) t) (hl : h.cells l = some n) :
    ∃ c s, t = .node (n, h.tag n) c s ∧ Shape h (h.cells (.leftChild n)) c ∧
      Shape h (h.cells (.rightSibling n)) s := by
  rw [hl] at hs
  cases t with
  | nil => cases hs
  | node a c s =>
    obtain ⟨k, b⟩ := a
    obtain ⟨hk, rfl, hc, hsib⟩ := hs
    obtain rfl := Option.some.inj hk
    exact ⟨c, s, rfl, hc, hsib⟩

theorem Shape.tag_mem_chain (hs : Shape h (h.cells l) t) (hn : OnChain h l n) :
    h.tag n ∈ (tagTree t).chain := by
  induction hn generalizing t with
  | here hl =>
    obtain ⟨c, s, rfl, -, -⟩ := hs.node_of_some hl
    exact List.mem_cons_self
  | next hl _ ih =>
    obtain ⟨c, s, rfl, -, hsib⟩ := hs.node_of_some hl
    exact List.mem_cons_of_mem _ (ih hsib)

theorem Shape.of_reach {P : ChildSibling (ℕ × Rune) → Prop}
    (hP : ∀ a c s, P (.node a c s) → P c ∧ P s) (hs : Shape h (h.cells .root) t) (ht : P t)
    (hr : Reach h l) : ∃ u, Shape h (h.cells l) u ∧ P u := by
  induction hr with
  | root => exact ⟨t, hs, ht⟩
  | leftChild _ hl ih =>
    obtain ⟨u, hu, hPu⟩ := ih
    obtain ⟨c, s, rfl, hc, -⟩ := hu.node_of_some hl
    exact ⟨c, hc, (hP _ _ _ hPu).1⟩
  | rightSibling _ hl ih =>
    obtain ⟨u, hu, hPu⟩ := ih
    obtain ⟨c, s, rfl, -, hsib⟩ := hu.node_of_some hl
    exact ⟨s, hsib, (hP _ _ _ hPu).2⟩

theorem Shape.tag_ne_of_reach (hs : Shape h (h.cells .root) t) (hd : (tagTree t).Distinct)
    (hr : Reach h l) (hl : h.cells l = some n) {m : ℕ} (hm : OnChain h (.rightSibling n) m) :
    h.tag m ≠ h.tag n := by
  obtain ⟨u, hu, hdu⟩ :=
    hs.of_reach (P := fun u => (tagTree u).Distinct) (fun _ _ _ hdu => hdu.2) hd hr
  obtain ⟨c, s, rfl, -, hsib⟩ := hu.node_of_some hl
  intro heq
  apply hdu.1
  exact heq ▸ hsib.tag_mem_chain hm

theorem Shape.spells_tagTree (hs : Shape h (h.cells l) t) {w : List Rune} (hw : Spells h l w) :
    (tagTree t).Spells w := by
  induction hw generalizing t with
  | here hl =>
    obtain ⟨c, s, rfl, -, -⟩ := hs.node_of_some hl
    exact .inl rfl
  | down hl _ ih =>
    obtain ⟨c, s, rfl, hc, -⟩ := hs.node_of_some hl
    exact .inr (.inl ⟨_, rfl, ih hc⟩)
  | next hl _ ih =>
    obtain ⟨c, s, rfl, -, hsib⟩ := hs.node_of_some hl
    exact .inr (.inr (ih hsib))

theorem Shape.spells_iff (hs : Shape h (h.cells l) t) (w : List Rune) :
    Spells h l w ↔ (tagTree t).Spells w := by
  refine ⟨hs.spells_tagTree, ?_⟩
  intro hw
  induction t generalizing l w with
  | nil => exact hw.elim
  | node a c s ihc ihs =>
    obtain ⟨n, b⟩ := a
    obtain ⟨hl, rfl, hc, hsib⟩ := hs
    rcases hw with rfl | ⟨v, rfl, hv⟩ | hw
    · exact .here hl
    · exact .down hl (ihc hc v hv)
    · exact .next hl (ihs hsib w hw)

end Shape

theorem Standing.size_le {h : Heap} {l : Loc} {t : ChildSibling (ℕ × Rune)} (hst : Standing h l t) :
    t.size ≤ h.size := by
  have hsub : nodes t ⊆ List.range h.size := fun n hn => List.mem_range.mpr (hst.old n hn)
  have hle := (List.subperm_of_subset hst.nodup hsub).length_le
  rwa [length_nodes, List.length_range] at hle

def Holds (h : Heap) (u : ChildSibling Rune) : Prop := ∃ t, Standing h .root t ∧ tagTree t = u

theorem holds_start : Holds start .nil := by
  refine ⟨.nil, ⟨rfl, List.nodup_nil, ?_, ?_⟩, rfl⟩
  · intro n hn
    exact absurd hn List.not_mem_nil
  · intro n hn
    cases hn

theorem step_holds {h : Heap} {u : ChildSibling Rune} (word : List UInt8) (hu : Holds h u) :
    ∃ h', step h word = some h' ∧ Holds h' (u.insert (runes word)) := by
  obtain ⟨t, hst, rfl⟩ := hu
  have hsize := hst.size_le
  have hfuel : t.size + (runes word).length < h.size + (runes word).length + 1 := by omega
  obtain ⟨h', t', hrun, htree, hins⟩ := insertLoop_spec hst hfuel
  refine ⟨h', ?_, t', hins.standing hst, htree⟩
  rw [step, insertWord, if_neg (not_not_intro rfl), hrun]

def built (words : List (List UInt8)) : ChildSibling Rune := (words.map runes).foldl .insert .nil

theorem built_distinct (words : List (List UInt8)) : (built words).Distinct :=
  ChildSibling.distinct_nil.insertAll _

theorem built_spells (words : List (List UInt8)) (s : List Rune) :
    (built words).Spells s ↔ s ≠ [] ∧ ∃ word ∈ words, s <+: runes word := by
  rw [built, ChildSibling.spells_insertAll]
  simp only [ChildSibling.Spells, false_or, List.mem_map, exists_exists_and_eq_and]

theorem exec_holds (words : List (List UInt8)) :
    ∃ h, exec step start words = some h ∧ Holds h (built words) := by
  rw [built, List.foldl_map]
  exact exec_foldl Holds (fun u word => u.insert (runes word))
    (fun _ _ word hu => step_holds word hu) holds_start words

theorem Holds.spells_iff {h : Heap} {u : ChildSibling Rune} (hu : Holds h u) (s : List Rune) :
    Spells h .root s ↔ u.Spells s := by
  obtain ⟨t, hst, rfl⟩ := hu
  exact hst.shape.spells_iff s

theorem exec_spells {words : List (List UInt8)} {h : Heap} (hrun : exec step start words = some h)
    (s : List Rune) : Spells h .root s ↔ s ≠ [] ∧ ∃ word ∈ words, s <+: runes word := by
  obtain ⟨h', hrun', hu⟩ := exec_holds words
  obtain rfl := Option.some.inj (hrun.symm.trans hrun')
  rw [hu.spells_iff, built_spells]

theorem dict_tree_prefixes (words : List (List UInt8)) :
    ∃ h, exec step start words = some h ∧
      (∀ l n m, Reach h l → h.cells l = some n → OnChain h (.rightSibling n) m →
        h.tag m ≠ h.tag n) ∧
      (∀ s, Spells h .root s ↔ s ≠ [] ∧ ∃ word ∈ words, s <+: runes word) ∧
      ∀ words' h', (∀ word, word ∈ words' ↔ word ∈ words) → exec step start words' = some h' →
        ∀ s, Spells h' .root s ↔ Spells h .root s := by
  obtain ⟨h, hrun, t, hst, htree⟩ := exec_holds words
  refine ⟨h, hrun, ?_, exec_spells hrun, ?_⟩
  · intro l n m hr hl hm
    have hd : (tagTree t).Distinct := by
      rw [htree]
      exact built_distinct words
    exact hst.shape.tag_ne_of_reach hd hr hl hm
  · intro words' h' hsame hrun' s
    rw [exec_spells hrun', exec_spells hrun]
    simp only [hsame]

end AnalysisPrograms.DictTree
