import Mathlib.Data.List.Infix
import Mathlib.Data.Nat.Notation
import Mathlib.Tactic.Basic

namespace Foundations.Splitting

variable {α : Type} {d s p rest t : List α} {ps qs : List (List α)}

theorem infix_iff_drop : d <:+: t ↔ ∃ i, i ≤ t.length ∧ d <+: t.drop i := by
  constructor
  · rintro ⟨front, back, rfl⟩
    refine ⟨front.length, by simp only [List.length_append]; omega, back, ?_⟩
    rw [List.append_assoc, List.drop_left]
  · rintro ⟨i, -, h⟩
    exact h.isInfix.trans (List.drop_suffix i t).isInfix

def NoneBefore (d t : List α) (i : ℕ) : Prop := ∀ j, j < i → ¬d <+: t.drop j

inductive Cut (d : List α) : List α → List (List α) → Prop
  | last {t : List α} : ¬d <:+: t → Cut d t [t]
  | next {p rest : List α} {ps : List (List α)} :
    NoneBefore d (p ++ (d ++ rest)) p.length → Cut d rest ps → Cut d (p ++ (d ++ rest)) (p :: ps)

theorem not_infix_of_noneBefore (hd : d ≠ []) (h : NoneBefore d (p ++ (d ++ rest)) p.length) :
    ¬d <:+: p := by
  rintro ⟨front, back, rfl⟩
  have hpos := List.length_pos_iff.mpr hd
  apply h front.length
  · simp only [List.length_append]
    omega
  · rw [List.append_assoc, List.append_assoc, List.drop_left]
    exact ⟨_, rfl⟩

theorem Cut.not_infix (hd : d ≠ []) (h : Cut d s ps) : ∀ p ∈ ps, ¬d <:+: p := by
  induction h with
  | last hnone =>
    intro p hp
    rwa [List.mem_singleton.mp hp]
  | next hnone _ ih =>
    intro q hq
    rcases List.mem_cons.mp hq with rfl | hq
    · exact not_infix_of_noneBefore hd hnone
    · exact ih q hq

theorem length_le_of_noneBefore {p q rest rest' : List α}
    (h : NoneBefore d (p ++ (d ++ rest)) p.length) (heq : p ++ (d ++ rest) = q ++ (d ++ rest')) :
    p.length ≤ q.length := by
  by_contra hlt
  apply h q.length (by omega)
  rw [heq, List.drop_left]
  exact ⟨rest', rfl⟩

theorem Cut.unique (h : Cut d s ps) (h' : Cut d s qs) : ps = qs := by
  induction h generalizing qs with
  | last hnone =>
    cases h' with
    | last _ => rfl
    | next _ _ => exact absurd ⟨_, _, List.append_assoc _ _ _⟩ hnone
  | @next p rest ps hnone _ ih =>
    generalize heq : p ++ (d ++ rest) = t at h'
    cases h' with
    | last hnot =>
      rw [← heq] at hnot
      exact absurd ⟨_, _, List.append_assoc _ _ _⟩ hnot
    | @next q rest' qs hnone' h' =>
      have hlen : p.length = q.length :=
        Nat.le_antisymm (length_le_of_noneBefore hnone heq)
          (length_le_of_noneBefore hnone' heq.symm)
      obtain ⟨rfl, htail⟩ := List.append_inj heq hlen
      rw [ih (List.append_cancel_left htail ▸ h')]

section Find

variable [DecidableEq α]

def find (s d : List α) (pos : ℕ) : Option ℕ :=
  (List.range' pos (s.length + 1 - pos)).find? fun i => d.isPrefixOf (s.drop i)

theorem find_eq_none {pos : ℕ} (hpos : pos ≤ s.length) (h : find s d pos = none) :
    ¬d <:+: s.drop pos := by
  intro hin
  obtain ⟨i, hi, hocc⟩ := infix_iff_drop.mp hin
  rw [List.length_drop] at hi
  rw [List.drop_drop] at hocc
  rw [find, List.find?_range'_eq_none] at h
  have hnot := h (pos + i) (by omega) (by omega)
  rw [List.isPrefixOf_iff_prefix.mpr hocc] at hnot
  cases hnot

theorem find_eq_some {pos i : ℕ} (h : find s d pos = some i) :
    pos ≤ i ∧ i + d.length ≤ s.length ∧
      s.drop pos = (s.drop pos).take (i - pos) ++ (d ++ s.drop (i + d.length)) ∧
      NoneBefore d (s.drop pos) (i - pos) := by
  rw [find, List.find?_range'_eq_some] at h
  obtain ⟨hocc, hmem, hfirst⟩ := h
  rw [List.mem_range'_1] at hmem
  rw [List.isPrefixOf_iff_prefix] at hocc
  have hlen := hocc.length_le
  rw [List.length_drop] at hlen
  refine ⟨hmem.1, by omega, ?_, ?_⟩
  · obtain ⟨rest, hrest⟩ := hocc
    have hbehind : rest = s.drop (i + d.length) := by rw [← List.drop_drop, ← hrest, List.drop_left]
    rw [← hbehind, hrest]
    conv_lhs => rw [← List.take_append_drop (i - pos) (s.drop pos)]
    rw [List.drop_drop, Nat.add_sub_cancel' hmem.1]
  · intro j hj hearlier
    rw [List.drop_drop] at hearlier
    have hnot := hfirst (pos + j) (by omega) (by omega)
    rw [List.isPrefixOf_iff_prefix.mpr hearlier] at hnot
    cases hnot

theorem find_nil {pos : ℕ} (h : pos ≤ s.length) : find s [] pos = some pos := by
  rw [find, List.find?_range'_eq_some]
  refine ⟨rfl, ?_, ?_⟩
  · rw [List.mem_range'_1]
    omega
  · intro j hj hj'
    omega

end Find

end Foundations.Splitting
