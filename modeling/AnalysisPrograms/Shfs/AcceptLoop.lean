import Mathlib.Tactic.SplitIfs
import AnalysisPrograms.Foundations.Iteration
import AnalysisPrograms.Shfs.AcceptLock

namespace AnalysisPrograms.Shfs

open Foundations Execution

abbrev AcceptAnswers := ℕ → ℤ × Errno

def acceptBody (answers : AcceptAnswers) (call : ℕ) : ℕ ⊕ ℤ :=
  if acceptBreaks (answers call).1 (answers call).2 then .inr (answers call).1 else .inl (call + 1)

/-- The result and the lock word; `none` when the loop is not over after `fuel` calls. -/
def handleAccept (fuel : ℕ) (answers : AcceptAnswers) (lock : UInt32) : Option (ℤ × UInt32) :=
  if lock ≠ 0 then some (-1, lock)
  else
    match atomicCmpSet lock 0 1 with
    | (false, lock) => some (-1, lock)
    | (true, _) =>
      match Iteration.run (acceptBody answers) fuel 0 with
      | some rslt => some (rslt, 0)
      | none => none

variable {answers : AcceptAnswers} {call : ℕ} {rslt : ℤ}

theorem acceptBreaks_iff {rslt : ℤ} {e : Errno} :
    acceptBreaks rslt e = true ↔ rslt > 0 ∨ e = .enosys ∨ e = .econnaborted := by
  unfold acceptBreaks
  split_ifs with h₁ h₂ h₃
  · exact iff_of_true rfl (.inl h₁)
  · exact iff_of_true rfl (.inr h₂)
  · exact iff_of_false id (not_or.mpr ⟨h₁, h₂⟩)
  · exact iff_of_false id (not_or.mpr ⟨h₁, h₂⟩)

def acceptSteps (answers : AcceptAnswers) (call n : ℕ) : List SlaveStep :=
  (List.range' call n).map fun k => .accept (answers k).1 (answers k).2

theorem exec_acceptSteps {fuel : ℕ} {lock : UInt32}
    (h : Iteration.run (acceptBody answers) fuel call = some rslt) :
    ∃ n, exec (fun s e => slaveStep s.1 s.2 e) (Stage.accepting, lock)
      (acceptSteps answers call n ++ [.release]) = some (.serving, 0) := by
  induction fuel generalizing call with
  | zero => cases h
  | succ fuel ih =>
    rw [Iteration.run, acceptBody] at h
    by_cases hb : acceptBreaks (answers call).1 (answers call).2 = true
    · refine ⟨1, exec_cons_iff.mpr ⟨(.releasing (answers call).1, lock), ?_, rfl⟩⟩
      simp only [slaveStep, hb, ↓reduceIte]
    · rw [if_neg hb] at h
      obtain ⟨n, hn⟩ := ih h
      refine ⟨n + 1, exec_cons_iff.mpr ⟨(.accepting, lock), ?_, hn⟩⟩
      simp only [slaveStep, hb, Bool.false_eq_true, ↓reduceIte]

theorem handleAccept_eq (fuel : ℕ) (answers : AcceptAnswers) :
    handleAccept fuel answers 0 = (Iteration.run (acceptBody answers) fuel 0).map fun rslt =>
      (rslt, 0) := by
  simp only [handleAccept, atomicCmpSet, ne_eq, not_true_eq_false, ↓reduceIte]
  cases Iteration.run (acceptBody answers) fuel 0 with
  | none => rfl
  | some rslt => rfl

theorem handleAccept_steps {fuel : ℕ} {lock : UInt32}
    (h : handleAccept fuel answers 0 = some (rslt, lock)) :
    ∃ n, exec (fun s e => slaveStep s.1 s.2 e) (Stage.serving, 0)
      (.readLock :: .cmpSet :: (acceptSteps answers 0 n ++ [.release])) =
      some (.serving, lock) := by
  rw [handleAccept_eq] at h
  obtain ⟨r, hr, he⟩ := Option.map_eq_some_iff.mp h
  obtain ⟨-, rfl⟩ := Prod.mk.inj he
  obtain ⟨n, hn⟩ := exec_acceptSteps hr
  exact ⟨n, exec_cons_iff.mpr ⟨(.sawZero, 0), rfl, exec_cons_iff.mpr ⟨(.accepting, 1), rfl, hn⟩⟩⟩

theorem acceptBody_returns {last : ℕ} (h : acceptBreaks (answers last).1 (answers last).2 = true)
    (hcall : call ≤ last) : ∃ rslt, Iteration.Returns (acceptBody answers) call rslt := by
  have hstep : ∀ k, k ≤ last →
      (∃ t, acceptBody answers k = .inl t ∧ t ≤ last ∧ last - t < last - k) ∨
        ∃ r, acceptBody answers k = .inr r ∧ True := by
    intro k hk
    by_cases hb : acceptBreaks (answers k).1 (answers k).2 = true
    · exact .inr ⟨(answers k).1, if_pos hb, trivial⟩
    · have hne : k ≠ last := by
        rintro rfl
        exact hb h
      exact .inl ⟨k + 1, if_neg hb, by omega, by omega⟩
  obtain ⟨rslt, hret, -⟩ := Iteration.returns_of_measure (fun k => k ≤ last) (fun _ => True)
    (fun k => last - k) hstep call hcall
  exact ⟨rslt, hret⟩

theorem handleAccept_comes_back_iff (answers : AcceptAnswers) :
    (∃ fuel rslt, handleAccept fuel answers 0 = some (rslt, 0)) ↔
      ∃ n, (answers n).1 > 0 ∨ (answers n).2 = .enosys ∨ (answers n).2 = .econnaborted := by
  simp only [handleAccept_eq, ← acceptBreaks_iff]
  constructor
  · rintro ⟨fuel, rslt, h⟩
    obtain ⟨r, hr, -⟩ := Option.map_eq_some_iff.mp h
    by_contra hnone
    apply Iteration.not_returns (fun _ => True) _ trivial r ⟨fuel, hr⟩
    intro k _
    exact ⟨k + 1, if_neg fun hb => hnone ⟨k, hb⟩, trivial⟩
  · rintro ⟨n, hn⟩
    obtain ⟨rslt, fuel, hf⟩ := acceptBody_returns hn (Nat.zero_le n)
    exact ⟨fuel, rslt, by rw [hf]; rfl⟩

theorem empty_queue_spins :
    (∃ n, ∀ k, n ≤ k → (fun _ => (-1, .eagain) : AcceptAnswers) k = (-1, .eagain)) ∧
      ¬∃ fuel rslt, handleAccept fuel (fun _ => (-1, .eagain)) 0 = some (rslt, 0) := by
  refine ⟨⟨0, fun _ _ => rfl⟩, ?_⟩
  rintro ⟨fuel, rslt, h⟩
  rw [handleAccept_eq] at h
  obtain ⟨r, hr, -⟩ := Option.map_eq_some_iff.mp h
  exact Iteration.not_returns (fun _ => True) (fun k _ => ⟨k + 1, rfl, trivial⟩)
    trivial r ⟨fuel, hr⟩

end AnalysisPrograms.Shfs
