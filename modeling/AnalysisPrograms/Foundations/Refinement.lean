import Mathlib.Data.Nat.Notation
import Mathlib.Tactic.Basic

namespace Foundations.Refinement

variable {σ τ α ρ : Type}

def answers (step : σ → α → Option (σ × ρ)) : σ → List α → Option (σ × List ρ)
  | s, [] => some (s, [])
  | s, a :: as => do
    let (s, r) ← step s a
    let (s, rs) ← answers step s as
    some (s, r :: rs)

def specAnswers (spec : τ → α → τ × ρ) : τ → List α → τ × List ρ
  | t, [] => (t, [])
  | t, a :: as =>
    let r := spec t a
    let rs := specAnswers spec r.1 as
    (rs.1, r.2 :: rs.2)

def Simulates (R : σ → τ → Prop) (step : σ → α → Option (σ × ρ)) (spec : τ → α → τ × ρ) : Prop :=
  ∀ s t a, R s t → ∃ s', step s a = some (s', (spec t a).2) ∧ R s' (spec t a).1

theorem Simulates.answers_eq {R : σ → τ → Prop} {step : σ → α → Option (σ × ρ)}
    {spec : τ → α → τ × ρ} (h : Simulates R step spec) {s : σ} {t : τ} (hR : R s t) (as : List α) :
    ∃ s', answers step s as = some (s', (specAnswers spec t as).2) ∧
      R s' (specAnswers spec t as).1 := by
  induction as generalizing s t with
  | nil => exact ⟨s, rfl, hR⟩
  | cons a as ih =>
    obtain ⟨u, hu, hRu⟩ := h s t a hR
    obtain ⟨s', hs', hRs'⟩ := ih hRu
    refine ⟨s', ?_, hRs'⟩
    simp only [answers, hu, hs', specAnswers, Option.bind_eq_bind, Option.bind_some]

end Foundations.Refinement
