import Mathlib.Data.Nat.Notation
import Mathlib.Tactic.Basic

namespace Foundations.Iteration

variable {σ ρ : Type}

/-- `inl` goes round the loop again, `inr` leaves it with a result. -/
def run (body : σ → σ ⊕ ρ) : ℕ → σ → Option ρ
  | 0, _ => none
  | fuel + 1, s =>
    match body s with
    | .inl t => run body fuel t
    | .inr r => some r

def Returns (body : σ → σ ⊕ ρ) (s : σ) (r : ρ) : Prop := ∃ fuel, run body fuel s = some r

theorem run_inl {body : σ → σ ⊕ ρ} {s t : σ} (h : body s = .inl t) (fuel : ℕ) :
    run body (fuel + 1) s = run body fuel t := by
  rw [run, h]

theorem run_inr {body : σ → σ ⊕ ρ} {s : σ} {r : ρ} (h : body s = .inr r) (fuel : ℕ) :
    run body (fuel + 1) s = some r := by
  rw [run, h]

theorem run_mono (body : σ → σ ⊕ ρ) {n m : ℕ} {s : σ} {r : ρ} (h : run body n s = some r)
    (hm : n ≤ m) : run body m s = some r := by
  induction n generalizing m s with
  | zero => cases h
  | succ n ih =>
    obtain ⟨m, rfl⟩ : ∃ k, m = k + 1 := ⟨m - 1, by omega⟩
    cases hb : body s with
    | inl t =>
      rw [run_inl hb] at h ⊢
      exact ih h (by omega)
    | inr r' =>
      rw [run_inr hb] at h ⊢
      exact h

theorem Returns.unique {body : σ → σ ⊕ ρ} {s : σ} {r r' : ρ} (h : Returns body s r)
    (h' : Returns body s r') : r = r' := by
  obtain ⟨n, hn⟩ := h
  obtain ⟨m, hm⟩ := h'
  have hl := run_mono body hn (Nat.le_max_left n m)
  have hr := run_mono body hm (Nat.le_max_right n m)
  exact Option.some.inj (hl.symm.trans hr)

theorem returns_inl {body : σ → σ ⊕ ρ} {s t : σ} (h : body s = .inl t) (r : ρ) :
    Returns body s r ↔ Returns body t r := by
  constructor
  · rintro ⟨fuel, hf⟩
    cases fuel with
    | zero => cases hf
    | succ n => exact ⟨n, (run_inl h n).symm.trans hf⟩
  · rintro ⟨fuel, hf⟩
    exact ⟨fuel + 1, (run_inl h fuel).trans hf⟩

theorem returns_inr {body : σ → σ ⊕ ρ} {s : σ} {r : ρ} (h : body s = .inr r) (r' : ρ) :
    Returns body s r' ↔ r' = r := by
  have hr : Returns body s r := ⟨1, run_inr h 0⟩
  constructor
  · intro h'
    exact h'.unique hr
  · rintro rfl
    exact hr

theorem returns_of_measure {body : σ → σ ⊕ ρ} (Inv : σ → Prop) (Post : ρ → Prop) (μ : σ → ℕ)
    (hstep : ∀ s, Inv s → (∃ t, body s = .inl t ∧ Inv t ∧ μ t < μ s) ∨
      ∃ r, body s = .inr r ∧ Post r)
    (s : σ) (hs : Inv s) : ∃ r, Returns body s r ∧ Post r := by
  induction hn : μ s using Nat.strongRecOn generalizing s with
  | ind n ih =>
    rcases hstep s hs with ⟨t, hb, ht, hlt⟩ | ⟨r, hb, hr⟩
    · obtain ⟨r, hret, hr⟩ := ih (μ t) (by omega) t ht rfl
      exact ⟨r, (returns_inl hb r).mpr hret, hr⟩
    · exact ⟨r, (returns_inr hb r).mpr rfl, hr⟩

theorem Returns.post {body : σ → σ ⊕ ρ} (Inv : σ → Prop) (Post : ρ → Prop)
    (hinl : ∀ s t, Inv s → body s = .inl t → Inv t)
    (hinr : ∀ s r, Inv s → body s = .inr r → Post r)
    {s : σ} {r : ρ} (hs : Inv s) (h : Returns body s r) : Post r := by
  obtain ⟨fuel, hf⟩ := h
  induction fuel generalizing s with
  | zero => cases hf
  | succ n ih =>
    cases hb : body s with
    | inl t =>
      rw [run_inl hb] at hf
      exact ih (hinl s t hs hb) hf
    | inr r' =>
      rw [run_inr hb] at hf
      obtain rfl : r' = r := Option.some.inj hf
      exact hinr s r' hs hb

theorem not_returns {body : σ → σ ⊕ ρ} (Inv : σ → Prop)
    (h : ∀ s, Inv s → ∃ t, body s = .inl t ∧ Inv t) {s : σ} (hs : Inv s) (r : ρ) :
    ¬Returns body s r := by
  intro hret
  have hpost : (fun _ : ρ => False) r := by
    apply hret.post Inv (fun _ => False) _ _ hs
    · intro s t hi hb
      obtain ⟨t', hb', ht'⟩ := h s hi
      obtain rfl : t' = t := Sum.inl.inj (hb'.symm.trans hb)
      exact ht'
    · intro s r hi hb
      obtain ⟨t', hb', -⟩ := h s hi
      rw [hb] at hb'
      cases hb'
  exact hpost

inductive Reaches (body : σ → σ ⊕ ρ) (s : σ) : σ → Prop
  | start : Reaches body s s
  | next {t u : σ} : Reaches body s t → body t = .inl u → Reaches body s u

theorem returns_of_decreasing {body : σ → σ ⊕ ρ} (μ : σ → ℕ) {s : σ}
    (h : ∀ t u, Reaches body s t → body t = .inl u → μ u < μ t) : ∃ r, Returns body s r := by
  have hstep : ∀ t, Reaches body s t →
      (∃ u, body t = .inl u ∧ Reaches body s u ∧ μ u < μ t) ∨ ∃ r, body t = .inr r ∧ True := by
    intro t ht
    cases hb : body t with
    | inl u => exact .inl ⟨u, rfl, ht.next hb, h t u ht hb⟩
    | inr r => exact .inr ⟨r, rfl, trivial⟩
  obtain ⟨r, hr, -⟩ := returns_of_measure (Reaches body s) (fun _ => True) μ hstep s .start
  exact ⟨r, hr⟩

section Faults

variable {ε : Type}

def catching (turn : σ → Except ε (σ ⊕ ρ)) (s : σ) : σ ⊕ Except ε ρ :=
  match turn s with
  | .ok (.inl t) => .inl t
  | .ok (.inr r) => .inr (.ok r)
  | .error e => .inr (.error e)

theorem returns_ok_of_measure {turn : σ → Except ε (σ ⊕ ρ)} (Inv : σ → Prop) (Post : ρ → Prop)
    (μ : σ → ℕ)
    (hstep : ∀ s, Inv s → (∃ t, turn s = .ok (.inl t) ∧ Inv t ∧ μ t < μ s) ∨
      ∃ r, turn s = .ok (.inr r) ∧ Post r)
    (s : σ) (hs : Inv s) : ∃ r, Returns (catching turn) s (.ok r) ∧ Post r := by
  have hbody : ∀ s, Inv s → (∃ t, catching turn s = .inl t ∧ Inv t ∧ μ t < μ s) ∨
      ∃ r, catching turn s = .inr r ∧ ∃ r', r = .ok r' ∧ Post r' := by
    intro s hs
    rcases hstep s hs with ⟨t, ht, hinv, hlt⟩ | ⟨r, hr, hpost⟩
    · exact .inl ⟨t, by rw [catching, ht], hinv, hlt⟩
    · exact .inr ⟨.ok r, by rw [catching, hr], r, rfl, hpost⟩
  obtain ⟨_, hret, r, rfl, hpost⟩ :=
    returns_of_measure Inv (fun r => ∃ r', r = Except.ok r' ∧ Post r') μ hbody s hs
  exact ⟨r, hret, hpost⟩

end Faults

end Foundations.Iteration
