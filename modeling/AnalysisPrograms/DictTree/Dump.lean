import AnalysisPrograms.DictTree.Prefixes

namespace AnalysisPrograms.DictTree

open Foundations Foundations.Execution

def isLeafNode (h : Heap) (node : ℕ) : Bool := (h.cells (.leftChild node)).isNone

def dumpDictTree (h : Heap) : ℕ → Option ℕ → Option (List Rune)
  | 0, _ => none
  | _ + 1, none => some []
  | fuel + 1, some node =>
    if isLeafNode h node then some [h.tag node]
    else do
      let below ← dumpDictTree h fuel (h.cells (.leftChild node))
      let beside ← dumpDictTree h fuel (h.cells (.rightSibling node))
      return (if h.tag node > 0 then [h.tag node] else []) ++ (below ++ beside)

def Dumps (h : Heap) (printed : List Rune) : Prop :=
  ∃ fuel, dumpDictTree h fuel (h.cells .root) = some printed

def InTree (h : Heap) (node : ℕ) : Prop := ∃ l, Reach h l ∧ h.cells l = some node

def PrintsAll (h : Heap) (printed : List Rune) : Prop :=
  ∃ ns : List ℕ, ns.Nodup ∧ (∀ n, n ∈ ns ↔ InTree h n) ∧ printed.Perm (ns.map h.tag)

def dumped : ChildSibling Rune → List Rune
  | .nil => []
  | .node tag .nil _ => [tag]
  | .node tag (.node tag' c s) beside =>
    (if tag > 0 then [tag] else []) ++ (dumped (.node tag' c s) ++ dumped beside)

/-- No node without a child has a sibling behind it. -/
def Filled : ChildSibling Rune → Prop
  | .nil => True
  | .node _ c s => (c = .nil → s = .nil) ∧ Filled c ∧ Filled s

theorem length_dumped_le (t : ChildSibling Rune) : (dumped t).length ≤ t.tags.length := by
  fun_induction dumped t with
  | case1 => exact Nat.le_refl _
  | case2 tag s =>
    rw [ChildSibling.tags, List.length_cons]
    exact Nat.succ_le_succ (Nat.zero_le _)
  | case3 tag tag' c s beside ihc ihs =>
    rw [ChildSibling.tags]
    simp only [List.length_append, List.length_cons]
    split
    · rw [List.length_singleton]
      omega
    · rw [List.length_nil]
      omega

theorem dumped_eq_of_filled {t : ChildSibling Rune} (hpos : 0 ∉ t.tags) (hf : Filled t) :
    dumped t = t.tags := by
  fun_induction dumped t with
  | case1 => rfl
  | case2 tag s =>
    obtain rfl := hf.1 rfl
    rfl
  | case3 tag tag' c s beside ihc ihs =>
    rw [ChildSibling.tags, List.mem_cons, List.mem_append, not_or, not_or] at hpos
    obtain ⟨htag, hc, hs⟩ := hpos
    rw [ihc hc hf.2.1, ihs hs hf.2.2, if_pos (Nat.pos_of_ne_zero (Ne.symm htag))]
    rfl

theorem filled_of_length {t : ChildSibling Rune} (hlen : t.tags.length ≤ (dumped t).length) :
    Filled t := by
  fun_induction dumped t with
  | case1 => trivial
  | case2 tag s =>
    cases s with
    | nil => exact ⟨fun _ => rfl, trivial, trivial⟩
    | node b c s =>
      simp only [ChildSibling.tags, List.length_cons, List.length_append, List.length_nil] at hlen
      omega
  | case3 tag tag' c s beside ihc ihs =>
    have hc := length_dumped_le (.node tag' c s)
    have hs := length_dumped_le beside
    have hone : (if tag > 0 then [tag] else []).length ≤ 1 := by
      split
      · exact Nat.le_refl 1
      · exact Nat.zero_le 1
    rw [ChildSibling.tags, List.length_cons, List.length_append, List.length_append,
      List.length_append] at hlen
    refine ⟨?_, ihc ?_, ihs ?_⟩
    · intro hnil
      cases hnil
    · omega
    · omega

theorem dumped_perm_iff {t : ChildSibling Rune} (hpos : 0 ∉ t.tags) :
    (dumped t).Perm t.tags ↔ Filled t := by
  constructor
  · intro hperm
    exact filled_of_length (Nat.le_of_eq hperm.length_eq.symm)
  · intro hf
    rw [dumped_eq_of_filled hpos hf]

section Shape

variable {h : Heap} {p : Option ℕ} {l : Loc} {t : ChildSibling (ℕ × Rune)}

theorem Shape.eq_nil_iff (hs : Shape h p t) : t = .nil ↔ p = none := by
  cases t with
  | nil => exact iff_of_true rfl hs
  | node a c s =>
    refine iff_of_false nofun ?_
    rw [hs.1]
    exact Option.some_ne_none _

theorem tagTree_eq_nil_iff : tagTree t = .nil ↔ t = .nil := by
  cases t with
  | nil => exact iff_of_true rfl rfl
  | node a c s => exact iff_of_false nofun nofun

theorem Shape.map_tag (hs : Shape h p t) : (nodes t).map h.tag = (tagTree t).tags := by
  induction t generalizing p with
  | nil => rfl
  | node a c s ihc ihs =>
    obtain ⟨n, b⟩ := a
    obtain ⟨-, htag, hc, hsib⟩ := hs
    rw [nodes, List.map_cons, List.map_append, ihc hc, ihs hsib, htag]
    rfl

theorem Shape.dump (hs : Shape h p t) {fuel : ℕ} (hfuel : t.size < fuel) :
    dumpDictTree h fuel p = some (dumped (tagTree t)) := by
  induction t generalizing p fuel with
  | nil =>
    obtain ⟨fuel, rfl⟩ := Nat.exists_eq_add_one_of_ne_zero (Nat.ne_zero_of_lt hfuel)
    obtain rfl : p = none := hs
    rfl
  | node a c s ihc ihs =>
    obtain ⟨n, b⟩ := a
    obtain ⟨fuel, rfl⟩ := Nat.exists_eq_add_one_of_ne_zero (Nat.ne_zero_of_lt hfuel)
    obtain ⟨rfl, rfl, hc, hsib⟩ := hs
    rw [ChildSibling.size] at hfuel
    rw [dumpDictTree]
    cases c with
    | nil =>
      have hleaf : isLeafNode h n = true := Option.isNone_iff_eq_none.mpr hc
      rw [if_pos hleaf]
      rfl
    | node a' c s' =>
      have hleaf : ¬isLeafNode h n = true := by
        rw [isLeafNode, hc.1]
        exact Bool.false_ne_true
      rw [if_neg hleaf, ihc hc (by omega), ihs hsib (by omega)]
      rfl

theorem Shape.inTree_of_mem {n : ℕ} (hs : Shape h (h.cells l) t) (hl : Reach h l)
    (hn : n ∈ nodes t) : InTree h n := by
  induction t generalizing l with
  | nil => cases hn
  | node a c s ihc ihs =>
    obtain ⟨m, b⟩ := a
    obtain ⟨hm, -, hc, hsib⟩ := hs
    rcases mem_nodes_node.mp hn with rfl | hn | hn
    · exact ⟨l, hl, hm⟩
    · exact ihc hc (hl.leftChild hm) hn
    · exact ihs hsib (hl.rightSibling hm) hn

theorem Shape.mem_nodes_iff (hs : Shape h (h.cells .root) t) (n : ℕ) :
    n ∈ nodes t ↔ InTree h n := by
  refine ⟨hs.inTree_of_mem .root, ?_⟩
  rintro ⟨l, hl, hn⟩
  obtain ⟨u, hu, hsub⟩ := hs.of_reach (P := fun u => ∀ m ∈ nodes u, m ∈ nodes t)
    (fun _ _ _ hsub => ⟨fun m hm => hsub m (mem_nodes_child hm),
      fun m hm => hsub m (mem_nodes_sibling hm)⟩)
    (fun _ hm => hm) hl
  obtain ⟨c, s, rfl, -, -⟩ := hu.node_of_some hn
  exact hsub n List.mem_cons_self

theorem Shape.filled_of_inTree (hs : Shape h (h.cells l) t) (hl : Reach h l)
    (hall : ∀ n, InTree h n → h.cells (.leftChild n) = none → h.cells (.rightSibling n) = none) :
    Filled (tagTree t) := by
  induction t generalizing l with
  | nil => trivial
  | node a c s ihc ihs =>
    obtain ⟨n, b⟩ := a
    obtain ⟨hn, -, hc, hsib⟩ := hs
    refine ⟨?_, ihc hc (hl.leftChild hn), ihs hsib (hl.rightSibling hn)⟩
    intro hnil
    apply tagTree_eq_nil_iff.mpr
    apply hsib.eq_nil_iff.mpr
    apply hall n ⟨l, hl, hn⟩
    exact hc.eq_nil_iff.mp (tagTree_eq_nil_iff.mp hnil)

theorem Shape.filled_iff (hs : Shape h (h.cells .root) t) :
    Filled (tagTree t) ↔ ∀ n, InTree h n → h.cells (.leftChild n) = none →
      h.cells (.rightSibling n) = none := by
  refine ⟨?_, hs.filled_of_inTree .root⟩
  rintro hf n ⟨l, hl, hn⟩ hleaf
  obtain ⟨u, hu, hfu⟩ :=
    hs.of_reach (P := fun u => Filled (tagTree u)) (fun _ _ _ hfu => hfu.2) hf hl
  obtain ⟨c, s, rfl, hc, hsib⟩ := hu.node_of_some hn
  have hnil := hfu.1 (tagTree_eq_nil_iff.mpr (hc.eq_nil_iff.mpr hleaf))
  exact hsib.eq_nil_iff.mp (tagTree_eq_nil_iff.mp hnil)

end Shape

theorem dumpDictTree_mono {h : Heap} {fuel more : ℕ} {p : Option ℕ} {printed : List Rune}
    (hd : dumpDictTree h fuel p = some printed) (hle : fuel ≤ more) :
    dumpDictTree h more p = some printed := by
  induction fuel generalizing more p printed with
  | zero => cases hd
  | succ fuel ih =>
    obtain ⟨more, rfl⟩ := Nat.exists_eq_add_one_of_ne_zero (n := more) (by omega)
    cases p with
    | none => exact hd
    | some node =>
      rw [dumpDictTree] at hd ⊢
      split at hd
      · rename_i hleaf
        rw [if_pos hleaf, hd]
      · rename_i hleaf
        obtain ⟨below, hbelow, hd⟩ := Option.bind_eq_some_iff.mp hd
        obtain ⟨beside, hbeside, hd⟩ := Option.bind_eq_some_iff.mp hd
        have hfuel := Nat.le_of_succ_le_succ hle
        rw [if_neg hleaf, ih hbelow hfuel, ih hbeside hfuel]
        exact hd

theorem Shape.dumps_iff {h : Heap} {t : ChildSibling (ℕ × Rune)} (hs : Shape h (h.cells .root) t)
    (printed : List Rune) : Dumps h printed ↔ printed = dumped (tagTree t) := by
  have hdump := hs.dump (Nat.lt_succ_self t.size)
  constructor
  · rintro ⟨fuel, hd⟩
    have hl := dumpDictTree_mono hd (Nat.le_max_left fuel (t.size + 1))
    have hr := dumpDictTree_mono hdump (Nat.le_max_right fuel (t.size + 1))
    exact Option.some.inj (hl.symm.trans hr)
  · rintro rfl
    exact ⟨t.size + 1, hdump⟩

theorem Standing.printsAll_iff {h : Heap} {t : ChildSibling (ℕ × Rune)} (hst : Standing h .root t)
    (printed : List Rune) : PrintsAll h printed ↔ printed.Perm (tagTree t).tags := by
  rw [← hst.shape.map_tag]
  constructor
  · rintro ⟨ns, hnodup, hmem, hperm⟩
    apply hperm.trans
    apply List.Perm.map
    apply (List.perm_ext_iff_of_nodup hnodup hst.nodup).mpr
    intro n
    rw [hmem, hst.shape.mem_nodes_iff]
  · intro hperm
    exact ⟨nodes t, hst.nodup, hst.shape.mem_nodes_iff, hperm⟩

theorem built_tags {words : List (List UInt8)} (hzero : ∀ word ∈ words, 0 ∉ runes word) :
    0 ∉ (built words).tags := by
  intro hmem
  rcases ChildSibling.mem_tags_insertAll hmem with hmem | ⟨w, hw, hmem⟩
  · cases hmem
  · obtain ⟨word, hword, rfl⟩ := List.mem_map.mp hw
    exact hzero word hword hmem

theorem dump_prints_all_iff (words : List (List UInt8)) (hzero : ∀ word ∈ words, 0 ∉ runes word) :
    ∃ h, exec step start words = some h ∧
      ((∃ printed, Dumps h printed ∧ PrintsAll h printed) ↔
        ∀ n, InTree h n → h.cells (.leftChild n) = none → h.cells (.rightSibling n) = none) := by
  obtain ⟨h, hrun, t, hst, htree⟩ := exec_holds words
  refine ⟨h, hrun, ?_⟩
  have hpos : 0 ∉ (tagTree t).tags := htree ▸ built_tags hzero
  rw [← hst.shape.filled_iff, ← dumped_perm_iff hpos]
  simp only [hst.shape.dumps_iff, hst.printsAll_iff, exists_eq_left]

theorem dump_prints_all_ab :
    ∃ h, exec step start [[97], [97, 98]] = some h ∧ ∃ printed, Dumps h printed ∧
      PrintsAll h printed := by
  have hzero : ∀ word ∈ [[97], [97, 98]], 0 ∉ runes word := by
    simp [runes, decodeRune]
  have hbuilt : built [[97], [97, 98]] = .node 97 (.node 98 .nil .nil) .nil := by
    simp [built, runes, decodeRune, ChildSibling.insert, ChildSibling.path]
  obtain ⟨h, hrun, hiff⟩ := dump_prints_all_iff [[97], [97, 98]] hzero
  obtain ⟨h', hrun', t, hst, htree⟩ := exec_holds [[97], [97, 98]]
  obtain rfl := Option.some.inj (hrun.symm.trans hrun')
  refine ⟨h, hrun, hiff.mpr (hst.shape.filled_iff.mp ?_)⟩
  rw [htree, hbuilt]
  simp [Filled]

theorem dump_misses_sibling :
    ∃ h, exec step start [[97], [98]] = some h ∧ Dumps h [97] ∧ ¬∃ printed, Dumps h printed ∧
      PrintsAll h printed := by
  obtain ⟨h, hrun, t, hst, htree⟩ := exec_holds [[97], [98]]
  have hbuilt : built [[97], [98]] = .node 97 .nil (.node 98 .nil .nil) := by
    simp [built, runes, decodeRune, ChildSibling.insert, ChildSibling.path]
  rw [hbuilt] at htree
  refine ⟨h, hrun, ?_, ?_⟩
  · rw [hst.shape.dumps_iff, htree]
    rfl
  · rintro ⟨printed, hd, hall⟩
    rw [hst.shape.dumps_iff, htree] at hd
    rw [hst.printsAll_iff, htree, hd] at hall
    cases hall.length_eq

end AnalysisPrograms.DictTree
