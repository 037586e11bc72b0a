import AnalysisPrograms.Foundations.LabelledTree
import AnalysisPrograms.Trie.Nodes

namespace AnalysisPrograms.Trie

open Foundations LabelledTree

def childOf (nodes : List Node) (n : ℕ) (c : UInt8) : Option ℕ := do
  let l ← slot (letter c)
  let node ← nodes[n]?
  node.child l

/-- A trie is described by what it stores for each word: how often the word was passed, and
whether it ends there. Words that lead to no node store nothing; the others can be indexed. -/
structure Describes (nodes : List Node) (head : ℕ) (count : List UInt8 → ℕ)
    (ends : List UInt8 → Prop) : Prop where
  onePath : OnePath (childOf nodes) head
  node : ∀ w n, follow (childOf nodes) head w = some n →
    ∃ node, nodes[n]? = some node ∧ node.prefixCount = count w ∧ (node.isEnd = true ↔ ends w)
  absent : ∀ w, follow (childOf nodes) head w = none → count w = 0 ∧ ¬ends w
  short : ∀ w n, follow (childOf nodes) head w = some n → w.length < 2 ^ 32

def Lower (c : UInt8) : Prop := 97 ≤ c.toNat ∧ c.toNat ≤ 122

instance (c : UInt8) : Decidable (Lower c) := inferInstanceAs (Decidable (_ ∧ _))

theorem slot_lower {c : UInt8} (h : Lower c) : ∃ l, slot (letter c) = some l := by
  have hc : 0 ≤ letter c ∧ letter c < 26 := by
    obtain ⟨h₁, h₂⟩ := h
    rw [letter, if_pos (by omega)]
    omega
  exact ⟨_, dif_pos hc⟩

theorem toNat_of_slot {c : UInt8} {l : Fin 26} (h : slot (letter c) = some l) :
    c.toNat = l.val + 97 := by
  unfold slot at h
  split_ifs at h with hr
  have hl : (letter c).toNat = l.val := congrArg Fin.val (Option.some.inj h)
  have hc : c.toNat < 256 := c.toNat_lt
  unfold letter at hl hr
  split_ifs at hl hr
  · omega
  · -- a negative `char`
    omega

theorem slot_letter_inj {c d : UInt8} {l : Fin 26} (hc : slot (letter c) = some l)
    (hd : slot (letter d) = some l) : c = d := by
  apply UInt8.toNat.inj
  rw [toNat_of_slot hc, toNat_of_slot hd]

variable {nodes nodes' : List Node} {head n : ℕ} {count : List UInt8 → ℕ} {ends : List UInt8 → Prop}
  {v : List UInt8} {c : UInt8} {l : Fin 26}

theorem childOf_eq (hl : slot (letter c) = some l) {node : Node} (hn : nodes[n]? = some node) :
    childOf nodes n c = node.child l := by
  simp only [childOf, hl, hn, Option.bind_eq_bind, Option.bind_some]

theorem childOf_set {node node' : Node} (hn : nodes[n]? = some node)
    (hchild : node'.child = node.child) : childOf (nodes.set n node') = childOf nodes := by
  funext m d
  have hlt : n < nodes.length := (List.getElem?_eq_some_iff.mp hn).1
  cases hd : slot (letter d) with
  | none => simp only [childOf, hd, Option.bind_eq_bind, Option.bind_none]
  | some l =>
    by_cases hm : m = n
    · rw [hm, childOf_eq hd (List.getElem?_set_self hlt), childOf_eq hd hn, hchild]
    · simp only [childOf, hd, List.getElem?_set_ne (Ne.symm hm)]

theorem Describes.set (h : Describes nodes head count ends)
    (hv : follow (childOf nodes) head v = some n) {node node' : Node} (hn : nodes[n]? = some node)
    (hchild : node'.child = node.child) {count' : List UInt8 → ℕ} {ends' : List UInt8 → Prop}
    (hcount : node'.prefixCount = count' v) (hends : node'.isEnd = true ↔ ends' v)
    (hother : ∀ w, w ≠ v → count' w = count w ∧ (ends' w ↔ ends w)) :
    Describes (nodes.set n node') head count' ends' := by
  have hlt : n < nodes.length := (List.getElem?_eq_some_iff.mp hn).1
  have hchildren := childOf_set hn hchild
  refine ⟨by rw [hchildren]; exact h.onePath, ?_, ?_, by rw [hchildren]; exact h.short⟩
  · intro w m hw
    rw [hchildren] at hw
    by_cases hwv : w = v
    · obtain rfl : m = n := Option.some.inj (hw.symm.trans (hwv ▸ hv))
      rw [hwv]
      exact ⟨node', List.getElem?_set_self hlt, hcount, hends⟩
    · have hmn : n ≠ m := by
        rintro rfl
        exact hwv (h.onePath w v n hw hv)
      rw [List.getElem?_set_ne hmn, (hother w hwv).1, (hother w hwv).2]
      exact h.node w m hw
  · intro w hw
    rw [hchildren] at hw
    have hwv : w ≠ v := by
      rintro rfl
      rw [hv] at hw
      cases hw
    rw [(hother w hwv).1, (hother w hwv).2]
    exact h.absent w hw

theorem Describes.countUp (h : Describes nodes head count ends)
    (hv : follow (childOf nodes) head v = some n) (hmax : count v + 1 < 2 ^ 31) :
    ∃ nodes', Trie.countUp nodes n = some nodes' ∧ childOf nodes' = childOf nodes ∧
      Describes nodes' head (fun w => count w + if w = v then 1 else 0) ends := by
  obtain ⟨node, hn, hcount, hends⟩ := h.node v n hv
  have hroom : node.prefixCount + 1 < 2 ^ 31 := by rw [hcount]; omega
  refine ⟨nodes.set n { node with prefixCount := node.prefixCount + 1 }, ?_, childOf_set hn rfl, ?_⟩
  · simp only [Trie.countUp, hn, Option.bind_eq_bind, Option.bind_some, hroom, ↓reduceIte]
  · refine h.set hv hn ?_ ?_ hends ?_
    · rfl
    · simp only [hcount, ↓reduceIte, Nat.cast_succ]
    · intro w hw
      rw [if_neg hw]
      exact ⟨rfl, Iff.rfl⟩

theorem Describes.mark (h : Describes nodes head count ends)
    (hv : follow (childOf nodes) head v = some n) :
    ∃ node, nodes[n]? = some node ∧
      Describes (nodes.set n { node with isEnd := true }) head count (fun w => w = v ∨ ends w) := by
  obtain ⟨node, hn, hcount, -⟩ := h.node v n hv
  refine ⟨node, hn, h.set hv hn ?_ hcount ?_ ?_⟩
  · rfl
  · exact iff_of_true rfl (.inl rfl)
  · intro w hw
    exact ⟨rfl, or_iff_right hw⟩

theorem Describes.fresh (h : Describes nodes head count ends) (w : List UInt8) :
    follow (childOf nodes) head w ≠ some nodes.length := by
  intro hw
  obtain ⟨node, hn, -⟩ := h.node w _ hw
  exact absurd (List.getElem?_eq_some_iff.mp hn).1 (Nat.lt_irrefl _)

theorem childOf_addChild {node : Node} (hn : nodes[n]? = some node)
    (hl : slot (letter c) = some l) :
    childOf ((nodes ++ [newNode]).set n (node.setChild l nodes.length)) =
      link (childOf nodes) n c nodes.length := by
  have hlt : n < nodes.length := (List.getElem?_eq_some_iff.mp hn).1
  have hlt' : n < (nodes ++ [newNode]).length := by
    rw [List.length_append]
    omega
  funext m d
  rw [link]
  cases hd : slot (letter d) with
  | none =>
    have hne : ¬(m = n ∧ d = c) := by
      rintro ⟨-, rfl⟩
      rw [hl] at hd
      cases hd
    rw [if_neg hne]
    simp only [childOf, hd, Option.bind_eq_bind, Option.bind_none]
  | some k =>
    by_cases hm : m = n
    · rw [hm, childOf_eq hd (List.getElem?_set_self hlt'), childOf_eq hd hn]
      by_cases hdc : d = c
      · obtain rfl : k = l := by
          rw [hdc, hl] at hd
          exact (Option.some.inj hd).symm
        rw [if_pos ⟨rfl, hdc⟩]
        exact Function.update_self _ _ _
      · have hkl : k ≠ l := by
          rintro rfl
          exact hdc (slot_letter_inj hd hl)
        rw [if_neg (fun h => hdc h.2)]
        exact Function.update_of_ne hkl _ _
    · rw [if_neg (fun h => hm h.1)]
      simp only [childOf, hd, List.getElem?_set_ne (Ne.symm hm), Option.bind_eq_bind,
        Option.bind_some]
      by_cases hml : m < nodes.length
      · rw [List.getElem?_append_left hml]
      · -- the new node has no children
        rw [List.getElem?_append_right (by omega),
          List.getElem?_eq_none (show nodes.length ≤ m by omega)]
        cases hk : m - nodes.length with
        | zero => rfl
        | succ k => rfl

theorem Describes.addChild (h : Describes nodes head count ends)
    (hv : follow (childOf nodes) head v = some n) (hl : slot (letter c) = some l)
    (hshort : v.length + 1 < 2 ^ 32) :
    ∃ nodes' node m, addChild nodes n l = some nodes' ∧ nodes'[n]? = some node ∧
      node.child l = some m ∧
      follow (childOf nodes') head (v ++ [c]) = some m ∧ Describes nodes' head count ends := by
  obtain ⟨node, hn, -⟩ := h.node v n hv
  have hlt : n < nodes.length := (List.getElem?_eq_some_iff.mp hn).1
  cases hm : node.child l with
  | some m =>
    refine ⟨nodes, node, m, ?_, hn, hm, ?_, h⟩
    · simp only [Trie.addChild, hn, hm, Option.bind_eq_bind, Option.bind_some]
    · rw [follow_concat, hv, Option.bind_some, childOf_eq hl hn, hm]
  | none =>
    have hedge : childOf nodes n c = none := by rw [childOf_eq hl hn, hm]
    have hleaf : ∀ d, childOf nodes nodes.length d = none := by
      intro d
      simp only [childOf, List.getElem?_eq_none (Nat.le_refl _), Option.bind_eq_bind,
        Option.bind_none, Option.bind_fun_none]
    have hchildren := childOf_addChild hn hl
    have hfollow := follow_link h.onePath hv hedge h.fresh hleaf
    have hself : n < (nodes ++ [newNode]).length := by
      rw [List.length_append]
      omega
    refine ⟨_, node.setChild l nodes.length, nodes.length, ?_, List.getElem?_set_self hself,
      Function.update_self _ _ _, ?_, ?_⟩
    · simp only [Trie.addChild, hn, hm, Option.bind_eq_bind, Option.bind_some]
    · rw [hchildren, hfollow, if_pos rfl]
    · refine ⟨?_, ?_, ?_, ?_⟩
      · rw [hchildren]
        exact onePath_link h.onePath hv hedge h.fresh hleaf
      · intro w m hw
        rw [hchildren, hfollow] at hw
        by_cases hwv : w = v ++ [c]
        · rw [if_pos hwv] at hw
          obtain rfl : nodes.length = m := Option.some.inj hw
          have hnone : follow (childOf nodes) head w = none := by
            rw [hwv, follow_concat, hv, Option.bind_some, hedge]
          obtain ⟨hzero, hno⟩ := h.absent w hnone
          refine ⟨newNode, ?_, by rw [hzero]; rfl, iff_of_false Bool.false_ne_true hno⟩
          rw [List.getElem?_set_ne (by omega), List.getElem?_concat_length]
        · rw [if_neg hwv] at hw
          obtain ⟨old, ho, hcount, hends⟩ := h.node w m hw
          by_cases hmn : m = n
          · obtain rfl : node = old := by
              rw [hmn, hn] at ho
              exact Option.some.inj ho
            exact ⟨node.setChild l nodes.length, by rw [hmn,
              List.getElem?_set_self hself], hcount, hends⟩
          · have hlm := (List.getElem?_eq_some_iff.mp ho).1
            refine ⟨old, ?_, hcount, hends⟩
            rw [List.getElem?_set_ne (Ne.symm hmn), List.getElem?_append_left hlm, ho]
      · intro w hw
        rw [hchildren, hfollow] at hw
        split_ifs at hw
        exact h.absent w hw
      · intro w m hw
        rw [hchildren, hfollow] at hw
        split_ifs at hw with hwv
        · rw [hwv, List.length_append]
          exact hshort
        · exact h.short w m hw

end AnalysisPrograms.Trie
