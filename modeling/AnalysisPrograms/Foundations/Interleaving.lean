import AnalysisPrograms.Foundations.Execution
import Mathlib.Logic.Function.Basic

namespace Foundations.Interleaving

variable {P ℓ γ ε : Type}

structure Global (P ℓ γ : Type) where
  locals : P → ℓ
  shared : γ

def Exclusive (holds : ℓ → Prop) (locals : P → ℓ) : Prop :=
  ∀ p q, holds (locals p) → holds (locals q) → p = q

structure Guarded (holds : ℓ → Prop) (locals : P → ℓ) (free : Prop) : Prop where
  one : Exclusive holds locals
  nobody : free → ∀ p, ¬holds (locals p)

variable {holds : ℓ → Prop} {locals : P → ℓ} {free free' : Prop} {p : P} {l : ℓ}

theorem guarded_of_nobody (h : ∀ p, ¬holds (locals p)) : Guarded holds locals free :=
  ⟨fun p _ hp => absurd hp (h p), fun _ => h⟩

variable [DecidableEq P]

def interleave (step : ℓ → γ → ε → Option (ℓ × γ)) (s : Global P ℓ γ) (a : P × ε) :
    Option (Global P ℓ γ) :=
  (step (s.locals a.1) s.shared a.2).map fun r => ⟨Function.update s.locals a.1 r.1, r.2⟩

theorem interleave_eq_some {step : ℓ → γ → ε → Option (ℓ × γ)} {s t : Global P ℓ γ} {p : P} {e : ε}
    (h : interleave step s (p, e) = some t) :
    ∃ l g, step (s.locals p) s.shared e = some (l, g) ∧ t = ⟨Function.update s.locals p l, g⟩ := by
  obtain ⟨⟨l, g⟩, hstep, rfl⟩ := Option.map_eq_some_iff.mp h
  exact ⟨l, g, hstep, rfl⟩

theorem nobody_update (h : ∀ q, ¬holds (locals q)) (hl : ¬holds l) :
    ∀ q, ¬holds (Function.update locals p l q) := by
  apply (Function.forall_update_iff locals fun _ x => ¬holds x).mpr
  exact ⟨hl, fun q _ => h q⟩

theorem Guarded.keep (h : Guarded holds locals free) (hl : holds l → holds (locals p))
    (hfree : free' → free) : Guarded holds (Function.update locals p l) free' := by
  have hsub : ∀ q, holds (Function.update locals p l q) → holds (locals q) := by
    apply (Function.forall_update_iff locals fun q x => holds x → holds (locals q)).mpr
    exact ⟨hl, fun q _ => id⟩
  refine ⟨fun q r hq hr => h.one q r (hsub q hq) (hsub r hr), fun hf q hq => ?_⟩
  exact h.nobody (hfree hf) q (hsub q hq)

theorem Guarded.acquire (h : Guarded holds locals free) (hfree : free) (htaken : ¬free') :
    Guarded holds (Function.update locals p l) free' := by
  have honly : ∀ q, holds (Function.update locals p l q) → q = p := by
    apply (Function.forall_update_iff locals fun q x => holds x → q = p).mpr
    exact ⟨fun _ => rfl, fun q _ hq => absurd hq (h.nobody hfree q)⟩
  refine ⟨fun q r hq hr => (honly q hq).trans (honly r hr).symm, fun hf => absurd hf htaken⟩

theorem Guarded.release (h : Guarded holds locals free) (hp : holds (locals p)) (hl : ¬holds l) :
    Guarded holds (Function.update locals p l) free' := by
  apply guarded_of_nobody
  apply (Function.forall_update_iff locals fun _ x => ¬holds x).mpr
  exact ⟨hl, fun q hqp hq => hqp (h.one q p hq hp)⟩

end Foundations.Interleaving
