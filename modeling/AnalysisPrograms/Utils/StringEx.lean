import AnalysisPrograms.Foundations.Iteration
import AnalysisPrograms.Foundations.Splitting

namespace AnalysisPrograms.StringEx

open Foundations.Iteration Foundations.Splitting

def substr (str : List UInt8) (pos count : ℕ) : List UInt8 := (str.drop pos).take count

/-- A turn of the loop of `toList`, on `iterIdL` and the list that it appends to; `npos` is
`none`. -/
def toListBody (str dlmt : List UInt8) (st : ℕ × List (List UInt8)) :
    (ℕ × List (List UInt8)) ⊕ List (List UInt8) :=
  if st.1 < str.length then
    match find str dlmt st.1 with
    | none => .inr (st.2 ++ [str.drop st.1])
    | some iterIdR =>
      let elmt := substr str st.1 (iterIdR - st.1)
      .inl (iterIdR + dlmt.length, if elmt ≠ [] then st.2 ++ [elmt] else st.2)
  else .inr st.2

def ToList (str dlmt : List UInt8) (l out : List (List UInt8)) : Prop :=
  Returns (toListBody str dlmt) (0, l) out

def nonEmpty (pieces : List (List UInt8)) : List (List UInt8) := pieces.filter fun p => p ≠ []

variable {str dlmt : List UInt8} {pos : ℕ} {l : List (List UInt8)}

theorem nonEmpty_cons (p : List UInt8) (ps : List (List UInt8)) :
    nonEmpty (p :: ps) = nonEmpty [p] ++ nonEmpty ps :=
  List.filter_append [p] ps

theorem toListBody_end (h : ¬pos < str.length) : toListBody str dlmt (pos, l) = .inr l := if_neg h

theorem toListBody_none (h : pos < str.length) (hfind : find str dlmt pos = none) :
    toListBody str dlmt (pos, l) = .inr (l ++ [str.drop pos]) := by
  rw [toListBody, if_pos h, hfind]

theorem toListBody_some {i : ℕ} (h : pos < str.length) (hfind : find str dlmt pos = some i) :
    toListBody str dlmt (pos, l) =
      .inl (i + dlmt.length, l ++ nonEmpty [substr str pos (i - pos)]) := by
  rw [toListBody, if_pos h, hfind]
  by_cases hp : substr str pos (i - pos) = []
  · simp [hp, nonEmpty]
  · simp [hp, nonEmpty]

theorem returns_pieces (hd : dlmt ≠ []) (hpos : pos ≤ str.length) :
    ∃ pieces, Cut dlmt (str.drop pos) pieces ∧
      Returns (toListBody str dlmt) (pos, l) (l ++ nonEmpty pieces) := by
  induction hn : str.length - pos using Nat.strongRecOn generalizing pos l with
  | ind n ih =>
    by_cases hlt : pos < str.length
    · cases hfind : find str dlmt pos with
      | none =>
        refine ⟨[str.drop pos], .last (find_eq_none hpos hfind),
          (returns_inr (toListBody_none hlt hfind) _).mpr ?_⟩
        have hne : str.drop pos ≠ [] := by
          rw [← List.length_pos_iff, List.length_drop]
          omega
        simp [nonEmpty, hne]
      | some i =>
        obtain ⟨hle, hin, hsplit, hnone⟩ := find_eq_some hfind
        have hlen := List.length_pos_iff.mpr hd
        obtain ⟨pieces, hcut, hret⟩ := ih (str.length - (i + dlmt.length)) (by omega) hin
          (l := l ++ nonEmpty [substr str pos (i - pos)]) rfl
        have hcount : (substr str pos (i - pos)).length = i - pos := by
          rw [substr, List.length_take, List.length_drop]
          omega
        refine ⟨substr str pos (i - pos) :: pieces, ?_, ?_⟩
        · rw [hsplit]
          apply Cut.next _ hcut
          rwa [← hsplit, ← substr, hcount]
        · rwa [returns_inl (toListBody_some hlt hfind), nonEmpty_cons _ pieces, ← List.append_assoc]
    · refine ⟨[str.drop pos], .last ?_, (returns_inr (toListBody_end hlt) _).mpr ?_⟩
      · rw [List.drop_of_length_le (by omega), List.infix_nil]
        exact hd
      · rw [List.drop_of_length_le (by omega)]
        simp [nonEmpty]

theorem to_list_splits (str dlmt : List UInt8) (hd : dlmt ≠ []) (l : List (List UInt8)) :
    ∃ pieces, Cut dlmt str pieces ∧ (∀ pieces', Cut dlmt str pieces' → pieces' = pieces) ∧
      ToList str dlmt l (l ++ nonEmpty pieces) ∧
      ∀ p ∈ nonEmpty pieces, ¬dlmt <:+: p := by
  obtain ⟨pieces, hcut, hret⟩ := returns_pieces (l := l) hd (Nat.zero_le str.length)
  rw [List.drop_zero] at hcut
  refine ⟨pieces, hcut, fun pieces' h => h.unique hcut, hret, ?_⟩
  intro p hp
  exact hcut.not_infix hd p (List.mem_filter.mp hp).1

theorem hello_split : ∃ pieces, Cut [108, 111] [104, 101, 108, 108, 111] pieces ∧
    ToList [104, 101, 108, 108, 111] [108, 111] [] (nonEmpty pieces) := by
  obtain ⟨pieces, hcut, -, hret, -⟩ :=
    to_list_splits [104, 101, 108, 108, 111] [108, 111] (by decide) []
  exact ⟨pieces, hcut, hret⟩

theorem not_returns_empty (h : str ≠ []) (l out : List (List UInt8)) : ¬ToList str [] l out := by
  have hlen := List.length_pos_iff.mpr h
  apply not_returns (fun st => st.1 = 0) _ rfl
  rintro ⟨pos, l⟩ rfl
  exact ⟨_, toListBody_some hlen (find_nil (Nat.zero_le _)), rfl⟩

theorem to_list_terminates_iff (str dlmt : List UInt8) (l : List (List UInt8)) :
    (∃ out, ToList str dlmt l out) ↔ dlmt ≠ [] ∨ str = [] := by
  constructor
  · rintro ⟨out, hret⟩
    by_contra hbad
    rw [not_or, not_not] at hbad
    obtain ⟨rfl, hne⟩ := hbad
    exact not_returns_empty hne l out hret
  · rintro (hd | rfl)
    · obtain ⟨pieces, -, hret⟩ := returns_pieces (l := l) hd (Nat.zero_le str.length)
      exact ⟨_, hret⟩
    · exact ⟨l, (returns_inr (toListBody_end (by simp)) _).mpr rfl⟩

theorem empty_delimiter_loops : ¬∃ out, ToList [97] [] [] out := by
  rintro ⟨out, hret⟩
  exact not_returns_empty (by decide) [] out hret

end AnalysisPrograms.StringEx
