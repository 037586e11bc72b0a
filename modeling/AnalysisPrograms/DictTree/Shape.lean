import AnalysisPrograms.DictTree.InsertWord

namespace AnalysisPrograms.DictTree

open Foundations

def Shape (h : Heap) : Option ℕ → ChildSibling (ℕ × Rune) → Prop
  | p, .nil => p = none
  | p, .node (n, tag) c s =>
    p = some n ∧ h.tag n = tag ∧ Shape h (h.cells (.leftChild n)) c ∧
      Shape h (h.cells (.rightSibling n)) s

def nodes : ChildSibling (ℕ × Rune) → List ℕ
  | .nil => []
  | .node (n, _) c s => n :: (nodes c ++ nodes s)

def tagTree (t : ChildSibling (ℕ × Rune)) : ChildSibling Rune := t.map Prod.snd

def Loc.owner : Loc → Option ℕ
  | .root => none
  | .leftChild n => some n
  | .rightSibling n => some n

def Outside (h : Heap) (t : ChildSibling (ℕ × Rune)) (l : Loc) : Prop :=
  ∀ n, l.owner = some n → n < h.size ∧ n ∉ nodes t

theorem length_nodes (t : ChildSibling (ℕ × Rune)) : (nodes t).length = t.size := by
  induction t with
  | nil => rfl
  | node a c s ihc ihs =>
    rw [nodes, List.length_cons, List.length_append, ihc, ihs, ChildSibling.size]

theorem Shape.congr {h h' : Heap} {p : Option ℕ} {t : ChildSibling (ℕ × Rune)} (hs : Shape h p t)
    (hsame : ∀ n ∈ nodes t, h'.tag n = h.tag n ∧ h'.cells (.leftChild n) = h.cells (.leftChild n) ∧
      h'.cells (.rightSibling n) = h.cells (.rightSibling n)) : Shape h' p t := by
  induction t generalizing p with
  | nil => exact hs
  | node a c s ihc ihs =>
    obtain ⟨n, tag⟩ := a
    obtain ⟨hp, htag, hc, hsib⟩ := hs
    obtain ⟨htag', hc', hsib'⟩ := hsame n List.mem_cons_self
    refine ⟨hp, htag'.trans htag, ?_, ?_⟩
    · rw [hc']
      exact ihc hc fun m hm => hsame m (List.mem_cons_of_mem n (List.mem_append_left _ hm))
    · rw [hsib']
      exact ihs hsib fun m hm => hsame m (List.mem_cons_of_mem n (List.mem_append_right _ hm))

structure Inserted (h h' : Heap) (l : Loc) (t t' : ChildSibling (ℕ × Rune)) : Prop where
  shape : Shape h' (h'.cells l) t'
  nodup : (nodes t').Nodup
  fresh : ∀ n ∈ nodes t', n ∈ nodes t ∨ h.size ≤ n ∧ n < h'.size
  size : h.size ≤ h'.size
  cells : ∀ l', l' ≠ l → Outside h t l' → h'.cells l' = h.cells l'
  tags : ∀ n < h.size, h'.tag n = h.tag n

theorem Inserted.refl {h : Heap} {l : Loc} {t : ChildSibling (ℕ × Rune)}
    (hs : Shape h (h.cells l) t) (hnodup : (nodes t).Nodup) : Inserted h h l t t :=
  ⟨hs, hnodup, fun _ hn => .inl hn, Nat.le_refl _, fun _ _ _ => rfl, fun _ _ => rfl⟩

structure Added (h h' : Heap) (l : Loc) (tag : Rune) : Prop where
  here : h'.cells l = some h.size
  child : h'.cells (.leftChild h.size) = none
  sibling : h'.cells (.rightSibling h.size) = none
  tag : h'.tag h.size = tag
  size : h'.size = h.size + 1
  cells : ∀ l', l' ≠ l → l'.owner ≠ some h.size → h'.cells l' = h.cells l'
  tags : ∀ n < h.size, h'.tag n = h.tag n

theorem added_store {h : Heap} {l : Loc} (tag : Rune) (hl : l.owner ≠ some h.size) :
    Added h ((h.newNode tag).store l (some h.size)) l tag := by
  have hleft : Loc.leftChild h.size ≠ l := fun heq => hl (heq ▸ rfl)
  have hright : Loc.rightSibling h.size ≠ l := fun heq => hl (heq ▸ rfl)
  refine ⟨?_, ?_, ?_, ?_, rfl, ?_, ?_⟩
  · exact Function.update_self _ _ _
  · simp [Heap.store, Heap.newNode, Function.update_of_ne hleft]
  · simp [Heap.store, Heap.newNode, Function.update_of_ne hright]
  · exact Function.update_self _ _ _
  · intro l' hne howner
    have hleft' : l' ≠ .leftChild h.size := fun heq => howner (heq ▸ rfl)
    have hright' : l' ≠ .rightSibling h.size := fun heq => howner (heq ▸ rfl)
    simp [Heap.store, Heap.newNode, Function.update_of_ne hne, Function.update_of_ne hleft',
      Function.update_of_ne hright']
  · intro n hn
    exact Function.update_of_ne (Nat.ne_of_lt hn) _ _

theorem Outside.owner_ne {h : Heap} {t : ChildSibling (ℕ × Rune)} {l : Loc} (ho : Outside h t l) :
    l.owner ≠ some h.size :=
  fun heq => Nat.lt_irrefl _ (ho h.size heq).1

theorem Added.outside {h h' : Heap} {l : Loc} {tag : Rune} (hadd : Added h h' l tag) :
    Outside h' .nil (.leftChild h.size) := by
  intro n hn
  obtain rfl := Option.some.inj hn
  rw [hadd.size]
  exact ⟨Nat.lt_succ_self _, List.not_mem_nil⟩

theorem Added.inserted {h h₁ h' : Heap} {l : Loc} {tag : Rune} {t' : ChildSibling (ℕ × Rune)}
    (hadd : Added h h₁ l tag) (hout : Outside h .nil l)
    (hins : Inserted h₁ h' (.leftChild h.size) .nil t') :
    Inserted h h' l .nil (.node (h.size, tag) t' .nil) := by
  have hsize := hins.size
  rw [hadd.size] at hsize
  have hfresh : ∀ n ∈ nodes t', h.size < n ∧ n < h'.size := by
    intro n hn
    rcases hins.fresh n hn with hn | ⟨hle, hlt⟩
    · exact absurd hn List.not_mem_nil
    · rw [hadd.size] at hle
      exact ⟨hle, hlt⟩
  have hkeep : ∀ l', l' ≠ .leftChild h.size → (∀ n, l'.owner = some n → n ≤ h.size) →
      h'.cells l' = h₁.cells l' := by
    intro l' hne howner
    apply hins.cells l' hne
    intro n hn
    rw [hadd.size]
    exact ⟨Nat.lt_succ_of_le (howner n hn), List.not_mem_nil⟩
  have hnodes : nodes (.node (h.size, tag) t' .nil) = h.size :: nodes t' := by
    rw [nodes, nodes, List.append_nil]
  refine ⟨⟨?_, ?_, hins.shape, ?_⟩, ?_, ?_, by omega, ?_, ?_⟩
  · rw [hkeep l (fun heq => hout.owner_ne (heq ▸ rfl)) fun n hn => Nat.le_of_lt (hout n hn).1,
      hadd.here]
  · rw [hins.tags _ (by rw [hadd.size]; omega), hadd.tag]
  · refine (hkeep _ Loc.noConfusion fun n hn => ?_).trans hadd.sibling
    exact Nat.le_of_eq (Option.some.inj hn).symm
  · rw [hnodes]
    exact List.nodup_cons.mpr ⟨fun hmem => Nat.lt_irrefl _ (hfresh _ hmem).1, hins.nodup⟩
  · intro n hn
    rw [hnodes] at hn
    rcases List.mem_cons.mp hn with rfl | hn
    · exact .inr ⟨Nat.le_refl _, by omega⟩
    · exact .inr ⟨Nat.le_of_lt (hfresh n hn).1, (hfresh n hn).2⟩
  · intro l' hne hout'
    have hne' : l' ≠ .leftChild h.size := fun heq => hout'.owner_ne (heq ▸ rfl)
    rw [hkeep l' hne' fun n hn => Nat.le_of_lt (hout' n hn).1, hadd.cells l' hne hout'.owner_ne]
  · intro n hn
    rw [hins.tags n (by rw [hadd.size]; omega), hadd.tags n hn]

theorem insertLoop_empty {fuel : ℕ} {h : Heap} {l : Loc} {tags : List Rune}
    (hnil : h.cells l = none) (hout : Outside h .nil l) (hfuel : tags.length < fuel) :
    ∃ h' t', insertLoop fuel h l tags = some h' ∧ tagTree t' = .path tags ∧
      Inserted h h' l .nil t' := by
  induction tags generalizing fuel h l with
  | nil =>
    obtain ⟨fuel, rfl⟩ := Nat.exists_eq_add_one_of_ne_zero (Nat.ne_of_gt hfuel)
    exact ⟨h, .nil, rfl, rfl, .refl hnil List.nodup_nil⟩
  | cons tag tags ih =>
    obtain ⟨fuel, rfl⟩ := Nat.exists_eq_add_one_of_ne_zero (n := fuel) (by omega)
    have hadd := added_store tag hout.owner_ne
    obtain ⟨h', t', hrun, htree, hins⟩ := ih hadd.child hadd.outside (Nat.lt_of_succ_lt_succ hfuel)
    refine ⟨h', .node (h.size, tag) t' .nil, ?_, ?_, hadd.inserted hout hins⟩
    · rw [insertLoop, hnil]
      exact hrun
    · rw [tagTree, ChildSibling.map, ← tagTree, htree]
      rfl

structure Standing (h : Heap) (l : Loc) (t : ChildSibling (ℕ × Rune)) : Prop where
  shape : Shape h (h.cells l) t
  nodup : (nodes t).Nodup
  old : ∀ n ∈ nodes t, n < h.size
  out : Outside h t l

theorem Inserted.notMem {h h' : Heap} {f : Loc} {x x' : ChildSibling (ℕ × Rune)} {n : ℕ}
    (hins : Inserted h h' f x x') (hn : n < h.size) (hx : n ∉ nodes x) : n ∉ nodes x' := by
  intro hmem
  rcases hins.fresh n hmem with hmem | ⟨hle, -⟩
  · exact hx hmem
  · omega

theorem Inserted.beside {h h' : Heap} {f : Loc} {x x' y : ChildSibling (ℕ × Rune)} {n : ℕ}
    (hins : Inserted h h' f x x') (hf : f.owner = some n) (hn : n ∉ nodes y)
    (hold : ∀ m ∈ nodes y, m < h.size) (hdisj : ∀ m ∈ nodes y, m ∉ nodes x) {p : Option ℕ}
    (hy : Shape h p y) : Shape h' p y := by
  apply hy.congr
  intro m hm
  have hout : ∀ l', l'.owner = some m → h'.cells l' = h.cells l' := by
    intro l' howner
    apply hins.cells l'
    · rintro rfl
      exact hn (Option.some.inj (howner.symm.trans hf) ▸ hm)
    · intro k hk
      obtain rfl := Option.some.inj (howner.symm.trans hk)
      exact ⟨hold m hm, hdisj m hm⟩
  exact ⟨hins.tags m (hold m hm), hout _ rfl, hout _ rfl⟩

theorem Inserted.standing {h h' : Heap} {l : Loc} {t t' : ChildSibling (ℕ × Rune)}
    (hins : Inserted h h' l t t') (hst : Standing h l t) : Standing h' l t' := by
  refine ⟨hins.shape, hins.nodup, ?_, ?_⟩
  · intro n hn
    rcases hins.fresh n hn with hn | ⟨-, hlt⟩
    · exact Nat.lt_of_lt_of_le (hst.old n hn) hins.size
    · exact hlt
  · intro n hn
    obtain ⟨hlt, hnot⟩ := hst.out n hn
    exact ⟨Nat.lt_of_lt_of_le hlt hins.size, hins.notMem hlt hnot⟩

theorem Outside.mono {h : Heap} {x y : ChildSibling (ℕ × Rune)} {l : Loc} (ho : Outside h y l)
    (hsub : ∀ n ∈ nodes x, n ∈ nodes y) : Outside h x l :=
  fun n hn => ⟨(ho n hn).1, fun hmem => (ho n hn).2 (hsub n hmem)⟩

section Node

variable {h h' : Heap} {l : Loc} {n : ℕ} {b : Rune} {c c' s s' : ChildSibling (ℕ × Rune)}

theorem mem_nodes_child {m : ℕ} (hm : m ∈ nodes c) : m ∈ nodes (.node (n, b) c s) :=
  List.mem_cons_of_mem n (List.mem_append_left _ hm)

theorem mem_nodes_sibling {m : ℕ} (hm : m ∈ nodes s) : m ∈ nodes (.node (n, b) c s) :=
  List.mem_cons_of_mem n (List.mem_append_right _ hm)

theorem mem_nodes_node {m : ℕ} :
    m ∈ nodes (.node (n, b) c s) ↔ m = n ∨ m ∈ nodes c ∨ m ∈ nodes s := by
  rw [nodes, List.mem_cons, List.mem_append]

theorem nodup_node :
    (nodes (.node (n, b) c s)).Nodup ↔
      n ∉ nodes c ∧ n ∉ nodes s ∧ (nodes c).Nodup ∧ (nodes s).Nodup ∧ ∀ m ∈ nodes c,
      m ∉ nodes s := by
  rw [nodes, List.nodup_cons, List.mem_append, not_or, List.nodup_append, and_assoc]
  simp only [ne_eq, List.forall_mem_ne]

theorem Standing.child (hst : Standing h l (.node (n, b) c s)) : Standing h (.leftChild n) c := by
  obtain ⟨hnc, -, hnodup, -, -⟩ := nodup_node.mp hst.nodup
  refine ⟨hst.shape.2.2.1, hnodup, fun m hm => hst.old m (mem_nodes_child hm), ?_⟩
  intro k hk
  obtain rfl := Option.some.inj hk
  exact ⟨hst.old n List.mem_cons_self, hnc⟩

theorem Standing.sibling (hst : Standing h l (.node (n, b) c s)) :
    Standing h (.rightSibling n) s := by
  obtain ⟨-, hns, -, hnodup, -⟩ := nodup_node.mp hst.nodup
  refine ⟨hst.shape.2.2.2, hnodup, fun m hm => hst.old m (mem_nodes_sibling hm), ?_⟩
  intro k hk
  obtain rfl := Option.some.inj hk
  exact ⟨hst.old n List.mem_cons_self, hns⟩

theorem Outside.ne_field {f : Loc} (ho : Outside h (.node (n, b) c s) l) (hf : f.owner = some n) :
    l ≠ f := by
  rintro rfl
  exact (ho n hf).2 List.mem_cons_self

theorem Standing.grow_child (hst : Standing h l (.node (n, b) c s))
    (hins : Inserted h h' (.leftChild n) c c') :
    Inserted h h' l (.node (n, b) c s) (.node (n, b) c' s) := by
  obtain ⟨hnc, hns, -, hsnodup, hdisj⟩ := nodup_node.mp hst.nodup
  obtain ⟨hl, hb, -, hs⟩ := hst.shape
  have hn := hst.old n List.mem_cons_self
  have hsold : ∀ m ∈ nodes s, m < h.size := fun m hm => hst.old m (mem_nodes_sibling hm)
  have hsc : ∀ m ∈ nodes s, m ∉ nodes c := fun m hms hmc => hdisj m hmc hms
  refine ⟨⟨?_, ?_, hins.shape, ?_⟩, ?_, ?_, hins.size, ?_, hins.tags⟩
  · rw [hins.cells l (hst.out.ne_field rfl) (hst.out.mono fun m => mem_nodes_child), hl]
  · rw [hins.tags n hn, hb]
  · rw [hins.cells (.rightSibling n) Loc.noConfusion fun k hk => Option.some.inj hk ▸ ⟨hn, hnc⟩]
    exact hins.beside rfl hns hsold hsc hs
  · apply nodup_node.mpr
    refine ⟨hins.notMem hn hnc, hns, hins.nodup, hsnodup, ?_⟩
    intro m hmc hms
    exact hins.notMem (hsold m hms) (hsc m hms) hmc
  · intro m hm
    rcases mem_nodes_node.mp hm with rfl | hm | hm
    · exact .inl List.mem_cons_self
    · exact (hins.fresh m hm).imp_left mem_nodes_child
    · exact .inl (mem_nodes_sibling hm)
  · intro l' _ ho
    exact hins.cells l' (ho.ne_field rfl) (ho.mono fun m => mem_nodes_child)

theorem Standing.grow_sibling (hst : Standing h l (.node (n, b) c s))
    (hins : Inserted h h' (.rightSibling n) s s') :
    Inserted h h' l (.node (n, b) c s) (.node (n, b) c s') := by
  obtain ⟨hnc, hns, hcnodup, -, hdisj⟩ := nodup_node.mp hst.nodup
  obtain ⟨hl, hb, hc, -⟩ := hst.shape
  have hn := hst.old n List.mem_cons_self
  have hcold : ∀ m ∈ nodes c, m < h.size := fun m hm => hst.old m (mem_nodes_child hm)
  refine ⟨⟨?_, ?_, ?_, hins.shape⟩, ?_, ?_, hins.size, ?_, hins.tags⟩
  · rw [hins.cells l (hst.out.ne_field rfl) (hst.out.mono fun m => mem_nodes_sibling), hl]
  · rw [hins.tags n hn, hb]
  · rw [hins.cells (.leftChild n) Loc.noConfusion fun k hk => Option.some.inj hk ▸ ⟨hn, hns⟩]
    exact hins.beside rfl hnc hcold hdisj hc
  · apply nodup_node.mpr
    exact ⟨hnc, hins.notMem hn hns, hcnodup, hins.nodup,
      fun m hm => hins.notMem (hcold m hm) (hdisj m hm)⟩
  · intro m hm
    rcases mem_nodes_node.mp hm with rfl | hm | hm
    · exact .inl List.mem_cons_self
    · exact .inl (mem_nodes_child hm)
    · exact (hins.fresh m hm).imp_left mem_nodes_sibling
  · intro l' _ ho
    exact hins.cells l' (ho.ne_field rfl) (ho.mono fun m => mem_nodes_sibling)

end Node

theorem insertLoop_spec {fuel : ℕ} {h : Heap} {l : Loc} {t : ChildSibling (ℕ × Rune)}
    {tags : List Rune} (hst : Standing h l t) (hfuel : t.size + tags.length < fuel) :
    ∃ h' t', insertLoop fuel h l tags = some h' ∧ tagTree t' = (tagTree t).insert tags ∧
      Inserted h h' l t t' := by
  induction t generalizing fuel l tags with
  | nil =>
    have hfuel' : tags.length < fuel := Nat.lt_of_le_of_lt (Nat.le_add_left _ _) hfuel
    obtain ⟨h', t', hrun, htree, hins⟩ := insertLoop_empty hst.shape hst.out hfuel'
    refine ⟨h', t', hrun, ?_, hins⟩
    cases tags with
    | nil => exact htree
    | cons tag tags => exact htree
  | node a c s ihc ihs =>
    obtain ⟨n, b⟩ := a
    obtain ⟨fuel, rfl⟩ := Nat.exists_eq_add_one_of_ne_zero (Nat.ne_zero_of_lt hfuel)
    cases tags with
    | nil => exact ⟨h, .node (n, b) c s, rfl, rfl, .refl hst.shape hst.nodup⟩
    | cons tag tags =>
      obtain ⟨hl, hb, -, -⟩ := hst.shape
      rw [ChildSibling.size, List.length_cons] at hfuel
      by_cases htag : tag = b
      · have hlen : c.size + tags.length < fuel := by omega
        obtain ⟨h', c', hrun, htree, hins⟩ := ihc hst.child hlen
        refine ⟨h', .node (n, b) c' s, ?_, ?_, hst.grow_child hins⟩
        · rw [insertLoop, hl]
          dsimp only
          rw [hb, if_pos htag, hrun]
        · rw [tagTree, tagTree, ChildSibling.map, ChildSibling.map, ChildSibling.insert,
            if_pos htag, ← tagTree, htree]
          rfl
      · have hlen : s.size + (tag :: tags).length < fuel := by
          rw [List.length_cons]
          omega
        obtain ⟨h', s', hrun, htree, hins⟩ := ihs hst.sibling hlen
        refine ⟨h', .node (n, b) c s', ?_, ?_, hst.grow_sibling hins⟩
        · rw [insertLoop, hl]
          dsimp only
          rw [hb, if_neg htag, hrun]
        · rw [tagTree, tagTree, ChildSibling.map, ChildSibling.map, ChildSibling.insert,
            if_neg htag, ← tagTree, ← tagTree, htree]
          rfl

end AnalysisPrograms.DictTree
