import Mathlib.Data.Nat.Notation
import Mathlib.Tactic.Basic
import Mathlib.Tactic.ByContra

namespace Foundations.Execution

variable {σ α : Type} {step : σ → α → Option σ}

/-- Run a list of actions; `none` is an action that does not come back with a state. -/
def exec (step : σ → α → Option σ) : σ → List α → Option σ
  | s, [] => some s
  | s, a :: as => (step s a).bind fun t => exec step t as

/-- Every action of the run meets a condition on the state it starts from. -/
def Along (step : σ → α → Option σ) (ok : σ → α → Prop) : σ → List α → Prop
  | _, [] => True
  | s, a :: as => ok s a ∧ ∀ t, step s a = some t → Along step ok t as

theorem along_cons_some {ok : σ → α → Prop} {s t : σ} {a : α} {as : List α}
    (h : step s a = some t) : ok s a ∧ Along step ok t as ↔ Along step ok s (a :: as) := by
  constructor
  · rintro ⟨hok, hrest⟩
    exact ⟨hok, fun u hu => Option.some.inj (h.symm.trans hu) ▸ hrest⟩
  · intro hall
    exact ⟨hall.1, hall.2 t h⟩

theorem along_cons_none {ok : σ → α → Prop} {s : σ} {a : α} {as : List α} (h : step s a = none) :
    ok s a ↔ Along step ok s (a :: as) := by
  constructor
  · intro hok
    exact ⟨hok, fun u hu => by cases h.symm.trans hu⟩
  · exact And.left

instance decidableAlong (ok : σ → α → Prop) [∀ s a, Decidable (ok s a)] :
    ∀ s as, Decidable (Along step ok s as)
  | _, [] => isTrue trivial
  | s, a :: as =>
    match h : step s a with
    | none => decidable_of_iff _ (along_cons_none h)
    | some t =>
      have := decidableAlong ok t as
      decidable_of_iff _ (along_cons_some h)

theorem exec_cons_iff {s t : σ} {a : α} {as : List α} :
    exec step s (a :: as) = some t ↔ ∃ u, step s a = some u ∧ exec step u as = some t :=
  Option.bind_eq_some_iff

theorem exec_append {s t u : σ} {as bs : List α} (h : exec step s as = some t)
    (h' : exec step t bs = some u) : exec step s (as ++ bs) = some u := by
  induction as generalizing s with
  | nil =>
    obtain rfl := Option.some.inj h
    exact h'
  | cons a as ih =>
    obtain ⟨v, hv, ht⟩ := exec_cons_iff.mp h
    exact exec_cons_iff.mpr ⟨v, hv, ih ht⟩

theorem exec_of_append {s u : σ} {as bs : List α} (h : exec step s (as ++ bs) = some u) :
    ∃ t, exec step s as = some t ∧ exec step t bs = some u := by
  induction as generalizing s with
  | nil => exact ⟨s, rfl, h⟩
  | cons a as ih =>
    obtain ⟨v, hv, hrest⟩ := exec_cons_iff.mp h
    obtain ⟨t, ht, hu⟩ := ih hrest
    exact ⟨t, exec_cons_iff.mpr ⟨v, hv, ht⟩, hu⟩

theorem inv_exec (Inv : σ → Prop) (ok : σ → α → Prop)
    (hstep : ∀ s a t, Inv s → ok s a → step s a = some t → Inv t)
    {s t : σ} {as : List α} (hs : Inv s) (hok : Along step ok s as)
    (h : exec step s as = some t) : Inv t := by
  induction as generalizing s with
  | nil => obtain rfl : s = t := Option.some.inj h; exact hs
  | cons a as ih =>
    obtain ⟨u, hu, ht⟩ := exec_cons_iff.mp h
    exact ih (hstep s a u hs hok.1 hu) (hok.2 u hu) ht

theorem along_of_forall {p : α → Prop} {as : List α} (h : ∀ a ∈ as, p a) (s : σ) :
    Along step (fun _ a => p a) s as := by
  induction as generalizing s with
  | nil => exact trivial
  | cons a as ih =>
    exact ⟨h a List.mem_cons_self, fun t _ => ih (fun b hb => h b (List.mem_cons_of_mem a hb)) t⟩

theorem exec_total_along (Inv : σ → Prop) (ok : σ → α → Prop)
    (hstep : ∀ s a, Inv s → ok s a → ∃ t, step s a = some t ∧ Inv t)
    {s : σ} (hs : Inv s) {as : List α} (hok : Along step ok s as) :
    ∃ t, exec step s as = some t ∧ Inv t := by
  induction as generalizing s with
  | nil => exact ⟨s, rfl, hs⟩
  | cons a as ih =>
    obtain ⟨u, hu, hi⟩ := hstep s a hs hok.1
    obtain ⟨t, ht, hi⟩ := ih hi (hok.2 u hu)
    exact ⟨t, exec_cons_iff.mpr ⟨u, hu, ht⟩, hi⟩

theorem exec_foldl {τ : Type} (R : σ → τ → Prop) (f : τ → α → τ)
    (hstep : ∀ s t a, R s t → ∃ s', step s a = some s' ∧ R s' (f t a)) {s : σ} {t : τ} (h : R s t)
    (as : List α) : ∃ s', exec step s as = some s' ∧ R s' (as.foldl f t) := by
  induction as generalizing s t with
  | nil => exact ⟨s, rfl, h⟩
  | cons a as ih =>
    obtain ⟨u, hu, hR⟩ := hstep s t a h
    obtain ⟨s', hs', hR'⟩ := ih hR
    exact ⟨s', exec_cons_iff.mpr ⟨u, hu, hs'⟩, hR'⟩

theorem exec_tracked {τ : Type} (R : σ → τ → Prop) (f : τ → α → τ)
    (hstep : ∀ s s' t a, R s t → step s a = some s' → R s' (f t a)) {s s' : σ} {t : τ} (h : R s t)
    {as : List α} (hrun : exec step s as = some s') : R s' (as.foldl f t) := by
  induction as generalizing s t with
  | nil =>
    obtain rfl := Option.some.inj hrun
    exact h
  | cons a as ih =>
    obtain ⟨u, hu, hrest⟩ := exec_cons_iff.mp hrun
    exact ih (hstep s u t a h hu) hrest

theorem exec_refines {σ' α' : Type} {step' : σ' → α' → Option σ'} (view : σ → σ') (Inv : σ → Prop)
    (hstep : ∀ s a t, Inv s → step s a = some t →
      Inv t ∧ ∃ run, exec step' (view s) run = some (view t))
    {s t : σ} {as : List α} (hs : Inv s) (h : exec step s as = some t) :
    ∃ run, exec step' (view s) run = some (view t) := by
  induction as generalizing s with
  | nil =>
    obtain rfl := Option.some.inj h
    exact ⟨[], rfl⟩
  | cons a as ih =>
    obtain ⟨u, hu, hrest⟩ := exec_cons_iff.mp h
    obtain ⟨hinv, run, hrun⟩ := hstep s a u hs hu
    obtain ⟨run', hrun'⟩ := ih hinv hrest
    exact ⟨run ++ run', exec_append hrun hrun'⟩

theorem exec_total (Inv : σ → Prop) (hstep : ∀ s a, Inv s → ∃ t, step s a = some t ∧ Inv t)
    {s : σ} (hs : Inv s) (as : List α) : ∃ t, exec step s as = some t ∧ Inv t :=
  exec_total_along Inv (fun _ _ => True) (fun s a h _ => hstep s a h) hs
    (along_of_forall (fun _ _ => trivial) s)

theorem exec_unread (Inv : List α → σ → Prop)
    (hstep : ∀ a as s, Inv (a :: as) s → ∃ t, step s a = some t ∧ Inv as t) {s : σ} {as : List α}
    (hs : Inv as s) : ∃ t, exec step s as = some t ∧ Inv [] t := by
  induction as generalizing s with
  | nil => exact ⟨s, rfl, hs⟩
  | cons a as ih =>
    obtain ⟨u, hu, hinv⟩ := hstep a as s hs
    obtain ⟨t, ht, hlast⟩ := ih hinv
    exact ⟨t, exec_cons_iff.mpr ⟨u, hu, ht⟩, hlast⟩

theorem exec_filter (p : α → Bool) (hskip : ∀ s a, p a = false → step s a = some s) (s : σ)
    (as : List α) : exec step s (as.filter p) = exec step s as := by
  induction as generalizing s with
  | nil => rfl
  | cons a as ih =>
    cases hp : p a with
    | true =>
      rw [List.filter_cons_of_pos hp, exec, exec]
      exact congrArg _ (funext fun t => ih t)
    | false => rw [List.filter_cons_of_neg (by simp [hp]), ih, exec, hskip s a hp, Option.bind_some]

theorem exec_map {β : Type} (f : β → α) (s : σ) (bs : List β) :
    exec step s (bs.map f) = exec (fun s b => step s (f b)) s bs := by
  induction bs generalizing s with
  | nil => rfl
  | cons b bs ih => simp only [List.map_cons, exec, ih]

theorem exec_range {step : σ → ℕ → Option σ} (Inv : ℕ → σ → Prop) {lo count : ℕ}
    (hstep : ∀ i s, lo ≤ i → i < lo + count → Inv i s → ∃ t, step s i = some t ∧ Inv (i + 1) t)
    {s : σ} (hs : Inv lo s) :
    ∃ t, exec step s (List.range' lo count) = some t ∧ Inv (lo + count) t := by
  induction count generalizing lo s with
  | zero => exact ⟨s, rfl, hs⟩
  | succ count ih =>
    obtain ⟨t, ht, hinv⟩ := hstep lo s (Nat.le_refl lo) (by omega) hs
    obtain ⟨u, hu, hinv'⟩ := ih (fun i s hlo hhi => hstep i s (by omega) (by omega)) hinv
    refine ⟨u, exec_cons_iff.mpr ⟨t, ht, hu⟩, ?_⟩
    rwa [Nat.add_comm count, ← Nat.add_assoc]

theorem Along.of_append {ok : σ → α → Prop} {s : σ} {as bs : List α}
    (h : Along step ok s (as ++ bs)) : Along step ok s as := by
  induction as generalizing s with
  | nil => exact trivial
  | cons a as ih => exact ⟨h.1, fun t ht => ih (h.2 t ht)⟩

theorem Along.mono {ok ok' : σ → α → Prop} {s : σ} {as : List α} (h : Along step ok s as)
    (himp : ∀ s a, ok s a → ok' s a) : Along step ok' s as := by
  induction as generalizing s with
  | nil => exact trivial
  | cons a as ih => exact ⟨himp s a h.1, fun t ht => ih (h.2 t ht)⟩

theorem Along.and {ok ok' : σ → α → Prop} {s : σ} {as : List α} (h : Along step ok s as)
    (h' : Along step ok' s as) : Along step (fun s a => ok s a ∧ ok' s a) s as := by
  induction as generalizing s with
  | nil => exact trivial
  | cons a as ih => exact ⟨⟨h.1, h'.1⟩, fun t ht => ih (h.2 t ht) (h'.2 t ht)⟩

theorem Along.next {ok : σ → α → Prop} {s t : σ} {a : α} {as bs : List α}
    (h : Along step ok s (as ++ a :: bs)) (ht : exec step s as = some t) : ok t a := by
  induction as generalizing s with
  | nil =>
    obtain rfl := Option.some.inj ht
    exact h.1
  | cons b as ih =>
    obtain ⟨u, hu, ht⟩ := exec_cons_iff.mp ht
    exact ih (h.2 u hu) ht

theorem good_iff_along_of_valid (Inv Good : σ → Prop) (valid ok : σ → α → Prop)
    (hgood : ∀ s, Inv s → Good s)
    (hok : ∀ s a t, Inv s → valid s a → ok s a → step s a = some t → Inv t)
    (hbad : ∀ s a, Inv s → valid s a → ¬ok s a → ∃ t, step s a = some t ∧ ¬Good t) {s : σ}
    (hs : Inv s) {as : List α} (hvalid : Along step valid s as) :
    (∀ done rest t, as = done ++ rest → exec step s done = some t → Good t) ↔
      Along step ok s as := by
  constructor
  · intro h
    induction as generalizing s with
    | nil => exact trivial
    | cons a as ih =>
      have hoka : ok s a := by
        by_contra hn
        obtain ⟨t, ht, hb⟩ := hbad s a hs hvalid.1 hn
        exact hb (h [a] as t rfl (exec_cons_iff.mpr ⟨t, ht, rfl⟩))
      refine ⟨hoka, fun t ht => ih (hok s a t hs hvalid.1 hoka ht) (hvalid.2 t ht) ?_⟩
      rintro done rest u rfl hu
      exact h (a :: done) rest u rfl (exec_cons_iff.mpr ⟨t, ht, hu⟩)
  · rintro h done rest t rfl ht
    have hboth := hvalid.of_append.and h.of_append
    exact hgood t (inv_exec Inv _ (fun s a t hi hva => hok s a t hi hva.1 hva.2) hs hboth ht)

theorem good_iff_along (Inv Good : σ → Prop) (ok : σ → α → Prop) (hgood : ∀ s, Inv s → Good s)
    (hok : ∀ s a t, Inv s → ok s a → step s a = some t → Inv t)
    (hbad : ∀ s a, Inv s → ¬ok s a → ∃ t, step s a = some t ∧ ¬Good t) {s : σ} (hs : Inv s)
    (as : List α) :
    (∀ done rest t, as = done ++ rest → exec step s done = some t → Good t) ↔ Along step ok s as :=
  good_iff_along_of_valid Inv Good (fun _ _ => True) ok hgood (fun s a t hi _ => hok s a t hi)
    (fun s a hi _ => hbad s a hi) hs (along_of_forall (fun _ _ => trivial) s)

theorem safe_iff_along (Inv Good : σ → Prop) (ok : σ → α → Prop) (hgood : ∀ s, Inv s → Good s)
    (hok : ∀ s a, Inv s → ok s a → ∃ t, step s a = some t ∧ Inv t)
    (hbad : ∀ s a t, Inv s → ¬ok s a → step s a = some t → ¬Good t) {s : σ} (hs : Inv s)
    (as : List α) :
    (∀ done rest, as = done ++ rest → ∃ t, exec step s done = some t ∧ Good t) ↔
      Along step ok s as := by
  constructor
  · intro h
    induction as generalizing s with
    | nil => exact trivial
    | cons a as ih =>
      obtain ⟨t, ht, hg⟩ := h [a] as rfl
      obtain ⟨u, hu, hlast⟩ := exec_cons_iff.mp ht
      obtain rfl := Option.some.inj hlast
      have hoka : ok s a := by
        by_contra hn
        exact hbad s a u hs hn hu hg
      refine ⟨hoka, fun t ht => ?_⟩
      obtain ⟨t', ht', hinv⟩ := hok s a hs hoka
      obtain rfl := Option.some.inj (ht'.symm.trans ht)
      apply ih hinv
      rintro done rest rfl
      obtain ⟨v, hv, hgv⟩ := h (a :: done) rest rfl
      obtain ⟨w, hw, hv⟩ := exec_cons_iff.mp hv
      obtain rfl := Option.some.inj (ht.symm.trans hw)
      exact ⟨v, hv, hgv⟩
  · rintro h done rest rfl
    obtain ⟨t, ht, hinv⟩ := exec_total_along Inv ok hok hs h.of_append
    exact ⟨t, ht, hgood t hinv⟩

end Foundations.Execution
