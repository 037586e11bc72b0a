import Mathlib.Data.List.Induction
import Mathlib.Data.Option.Basic
import Mathlib.Tactic.Basic

namespace Foundations.LabelledTree

variable {N L : Type} {child : N → L → Option N}

def follow (child : N → L → Option N) : N → List L → Option N
  | n, [] => some n
  | n, l :: w => (child n l).bind fun m => follow child m w

@[simp] theorem follow_nil (child : N → L → Option N) (n : N) : follow child n [] = some n := rfl

theorem follow_append (child : N → L → Option N) (n : N) (v w : List L) :
    follow child n (v ++ w) = (follow child n v).bind fun m => follow child m w := by
  induction v generalizing n with
  | nil => rfl
  | cons l v ih => simp only [List.cons_append, follow, Option.bind_assoc, ih]

theorem follow_concat (child : N → L → Option N) (n : N) (v : List L) (l : L) :
    follow child n (v ++ [l]) = (follow child n v).bind fun m => child m l := by
  rw [follow_append]
  congr 1
  funext m
  simp only [follow, Option.bind_fun_some]

def OnePath (child : N → L → Option N) (root : N) : Prop :=
  ∀ v w n, follow child root v = some n → follow child root w = some n → v = w

section Link

variable [DecidableEq N] [DecidableEq L]

def link (child : N → L → Option N) (a : N) (c : L) (f : N) : N → L → Option N :=
  fun n l => if n = a ∧ l = c then some f else child n l

variable {root a f : N} {c : L} {v : List L}

theorem follow_link (hone : OnePath child root) (ha : follow child root v = some a)
    (hc : child a c = none) (hfresh : ∀ w, follow child root w ≠ some f)
    (hleaf : ∀ l, child f l = none) (w : List L) :
    follow (link child a c f) root w = if w = v ++ [c] then some f else follow child root w := by
  have hfa : f ≠ a := by
    rintro rfl
    exact hfresh v ha
  induction w using List.reverseRecOn with
  | nil => rw [if_neg (by simp), follow_nil, follow_nil]
  | append_singleton w l ih =>
    rw [follow_concat, follow_concat, ih]
    by_cases hw : w = v ++ [c]
    · -- the new node is a leaf, and nothing was behind the edge before
      have hne : w ++ [l] ≠ v ++ [c] := by
        intro he
        have hlen := congrArg List.length (he.trans hw.symm)
        simp at hlen
      rw [if_pos hw, if_neg hne, hw, follow_concat, ha, Option.bind_some, Option.bind_some, hc,
        Option.bind_none, link, if_neg (fun h => hfa h.1), hleaf]
    · rw [if_neg hw]
      cases hn : follow child root w with
      | none =>
        have hne : w ++ [l] ≠ v ++ [c] := by
          intro he
          obtain ⟨rfl, -⟩ := List.append_inj' he rfl
          rw [ha] at hn
          cases hn
        rw [if_neg hne, Option.bind_none, Option.bind_none]
      | some n =>
        rw [Option.bind_some, Option.bind_some, link]
        by_cases hnl : n = a ∧ l = c
        · obtain ⟨rfl, rfl⟩ := hnl
          obtain rfl := hone w v n hn ha
          rw [if_pos ⟨rfl, rfl⟩, if_pos rfl]
        · have hne : w ++ [l] ≠ v ++ [c] := by
            intro he
            obtain ⟨rfl, hl⟩ := List.append_inj' he rfl
            exact hnl ⟨Option.some.inj (hn.symm.trans ha), List.singleton_inj.mp hl⟩
          rw [if_neg hnl, if_neg hne]

theorem onePath_link (hone : OnePath child root) (ha : follow child root v = some a)
    (hc : child a c = none) (hfresh : ∀ w, follow child root w ≠ some f)
    (hleaf : ∀ l, child f l = none) : OnePath (link child a c f) root := by
  intro u w n hu hw
  rw [follow_link hone ha hc hfresh hleaf] at hu hw
  split_ifs at hu hw with h₁ h₂ h₂
  · rw [h₁, h₂]
  · exact absurd (hw.trans hu.symm) (hfresh w)
  · exact absurd (hu.trans hw.symm) (hfresh u)
  · exact hone u w n hu hw

end Link

end Foundations.LabelledTree
