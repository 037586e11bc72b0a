import Mathlib.Data.List.Basic
import AnalysisPrograms.JsonChecker.Grammar

namespace AnalysisPrograms.JsonChecker

open Classes States

inductive NumberTail : States → List Classes → Prop
  | minusZero {s : List Classes} : NumberTail ZE s → NumberTail MI (C_ZERO :: s)
  | minusDigit {s : List Classes} : NumberTail IN s → NumberTail MI (C_DIGIT :: s)
  | zero : NumberTail ZE []
  | zeroPoint {s : List Classes} : NumberTail FR s → NumberTail ZE (C_POINT :: s)
  | int : NumberTail IN []
  | intDigit {c : Classes} {s : List Classes} : IsDigit c → NumberTail IN s → NumberTail IN (c :: s)
  | intPoint {s : List Classes} : NumberTail FR s → NumberTail IN (C_POINT :: s)
  | intExp {c : Classes} {s : List Classes} : c = C_LOW_E ∨ c = C_E → NumberTail E1 s →
    NumberTail IN (c :: s)
  | frac : NumberTail FR []
  | fracDigit {c : Classes} {s : List Classes} : IsDigit c → NumberTail FR s →
    NumberTail FR (c :: s)
  | fracExp {c : Classes} {s : List Classes} : c = C_LOW_E ∨ c = C_E → NumberTail E1 s →
    NumberTail FR (c :: s)
  | sign {c : Classes} {s : List Classes} : c = C_PLUS ∨ c = C_MINUS → NumberTail E2 s →
    NumberTail E1 (c :: s)
  | unsigned {c : Classes} {s : List Classes} : IsDigit c → NumberTail E3 s → NumberTail E1 (c :: s)
  | signed {c : Classes} {s : List Classes} : IsDigit c → NumberTail E3 s → NumberTail E2 (c :: s)
  | exp : NumberTail E3 []
  | expDigit {c : Classes} {s : List Classes} : IsDigit c → NumberTail E3 s → NumberTail E3 (c :: s)

variable {s : List Classes}

theorem isDigits_cons {c : Classes} : IsDigits (c :: s) ↔ IsDigit c ∧ IsDigits s :=
  List.forall_mem_cons

theorem numberTail_E3 : NumberTail E3 s ↔ IsDigits s := by
  induction s with
  | nil => exact iff_of_true .exp nofun
  | cons c s ih =>
    rw [isDigits_cons, ← ih]
    constructor
    · intro h
      cases h with
      | expDigit hc hs => exact ⟨hc, hs⟩
    · exact fun h => .expDigit h.1 h.2

theorem numberTail_E2 : NumberTail E2 s ↔ IsDigits s ∧ s ≠ [] := by
  constructor
  · intro h
    cases h with
    | signed hc hs => exact ⟨isDigits_cons.mpr ⟨hc, numberTail_E3.mp hs⟩, nofun⟩
  · rintro ⟨hs, hne⟩
    cases s with
    | nil => exact absurd rfl hne
    | cons c s => exact .signed (isDigits_cons.mp hs).1 (numberTail_E3.mpr (isDigits_cons.mp hs).2)

theorem isExponent_iff :
    IsExponent s ↔ ∃ e s', (e = C_LOW_E ∨ e = C_E) ∧ NumberTail E1 s' ∧ s = e :: s' := by
  constructor
  · rintro ⟨e, sign, ds, he, hsign, hds, hne, rfl⟩
    refine ⟨e, sign ++ ds, he, ?_, rfl⟩
    have hsigned := numberTail_E2.mpr ⟨hds, hne⟩
    rcases hsign with rfl | rfl | rfl
    · cases hsigned with
      | signed hc hs => exact .unsigned hc hs
    · exact .sign (.inl rfl) hsigned
    · exact .sign (.inr rfl) hsigned
  · rintro ⟨e, s', he, htail, rfl⟩
    cases htail with
    | @sign c s hc hs =>
      obtain ⟨hds, hne⟩ := numberTail_E2.mp hs
      refine ⟨e, [c], s, he, ?_, hds, hne, rfl⟩
      rcases hc with rfl | rfl
      · exact .inr (.inl rfl)
      · exact .inr (.inr rfl)
    | @unsigned c s hc hs =>
      exact ⟨e, [], c :: s, he, .inl rfl, isDigits_cons.mpr ⟨hc, numberTail_E3.mp hs⟩, nofun, rfl⟩

def PointPart (s : List Classes) : Prop := ∃ ds, IsDigits ds ∧ s = C_POINT :: ds

theorem numberTail_FR :
    NumberTail FR s ↔ ∃ ds exp, IsDigits ds ∧ (exp = [] ∨ IsExponent exp) ∧ s = ds ++ exp := by
  constructor
  · intro h
    induction s with
    | nil => exact ⟨[], [], nofun, .inl rfl, rfl⟩
    | cons c s ih =>
      cases h with
      | fracDigit hc hs =>
        obtain ⟨ds, exp, hds, hexp, rfl⟩ := ih hs
        exact ⟨c :: ds, exp, isDigits_cons.mpr ⟨hc, hds⟩, hexp, rfl⟩
      | fracExp hc hs =>
        exact ⟨[], c :: s, nofun, .inr (isExponent_iff.mpr ⟨c, s, hc, hs, rfl⟩), rfl⟩
  · rintro ⟨ds, exp, hds, hexp, rfl⟩
    induction ds with
    | nil =>
      rcases hexp with rfl | hexp
      · exact .frac
      · obtain ⟨e, s, he, hs, rfl⟩ := isExponent_iff.mp hexp
        exact .fracExp he hs
    | cons c ds ih => exact .fracDigit (isDigits_cons.mp hds).1 (ih (isDigits_cons.mp hds).2)

theorem numberTail_point : (∃ f, NumberTail FR f ∧ s = C_POINT :: f) ↔
    ∃ frac exp, PointPart frac ∧ (exp = [] ∨ IsExponent exp) ∧ s = frac ++ exp := by
  constructor
  · rintro ⟨f, hf, rfl⟩
    obtain ⟨ds, exp, hds, hexp, rfl⟩ := numberTail_FR.mp hf
    exact ⟨C_POINT :: ds, exp, ⟨ds, hds, rfl⟩, hexp, rfl⟩
  · rintro ⟨frac, exp, ⟨ds, hds, rfl⟩, hexp, rfl⟩
    exact ⟨ds ++ exp, numberTail_FR.mpr ⟨ds, exp, hds, hexp, rfl⟩, rfl⟩

theorem numberTail_IN :
    NumberTail IN s ↔ ∃ ds frac exp, IsDigits ds ∧ (frac = [] ∨ PointPart frac) ∧
      (exp = [] ∨ IsExponent exp) ∧ s = ds ++ (frac ++ exp) := by
  constructor
  · intro h
    induction s with
    | nil => exact ⟨[], [], [], nofun, .inl rfl, .inl rfl, rfl⟩
    | cons c s ih =>
      cases h with
      | intDigit hc hs =>
        obtain ⟨ds, frac, exp, hds, hfrac, hexp, rfl⟩ := ih hs
        exact ⟨c :: ds, frac, exp, isDigits_cons.mpr ⟨hc, hds⟩, hfrac, hexp, rfl⟩
      | intPoint hs =>
        obtain ⟨frac, exp, hfrac, hexp, heq⟩ := numberTail_point.mp ⟨s, hs, rfl⟩
        exact ⟨[], frac, exp, nofun, .inr hfrac, hexp, heq⟩
      | intExp hc hs =>
        exact ⟨[], [], c :: s, nofun, .inl rfl, .inr (isExponent_iff.mpr ⟨c, s, hc, hs, rfl⟩), rfl⟩
  · rintro ⟨ds, frac, exp, hds, hfrac, hexp, rfl⟩
    induction ds with
    | nil =>
      rcases hfrac with rfl | hfrac
      · rcases hexp with rfl | hexp
        · exact .int
        · obtain ⟨e, s, he, hs, rfl⟩ := isExponent_iff.mp hexp
          exact .intExp he hs
      · obtain ⟨f, hf, heq⟩ := numberTail_point.mpr ⟨frac, exp, hfrac, hexp, rfl⟩
        rw [List.nil_append, heq]
        exact .intPoint hf
    | cons c ds ih => exact .intDigit (isDigits_cons.mp hds).1 (ih (isDigits_cons.mp hds).2)

theorem numberTail_ZE :
    NumberTail ZE s ↔ ∃ frac exp, (frac = [] ∨ PointPart frac) ∧ (exp = [] ∨ IsExponent exp) ∧
      (frac = [] → exp = []) ∧ s = frac ++ exp := by
  constructor
  · intro h
    cases h with
    | zero => exact ⟨[], [], .inl rfl, .inl rfl, fun _ => rfl, rfl⟩
    | zeroPoint hs =>
      obtain ⟨frac, exp, hfrac, hexp, heq⟩ := numberTail_point.mp ⟨_, hs, rfl⟩
      refine ⟨frac, exp, .inr hfrac, hexp, ?_, heq⟩
      rintro rfl
      obtain ⟨ds, -, hds⟩ := hfrac
      cases hds
  · rintro ⟨frac, exp, hfrac, hexp, hnone, rfl⟩
    rcases hfrac with rfl | hfrac
    · rw [hnone rfl]
      exact .zero
    · obtain ⟨f, hf, heq⟩ := numberTail_point.mpr ⟨frac, exp, hfrac, hexp, rfl⟩
      rw [heq]
      exact .zeroPoint hf

def NumberStart (s : List Classes) : Prop :=
  (∃ s', NumberTail ZE s' ∧ s = C_ZERO :: s') ∨ ∃ s', NumberTail IN s' ∧ s = C_DIGIT :: s'

theorem numberStart_iff :
    NumberStart s ↔ ∃ int frac exp, IsInteger int ∧ (frac = [] ∨ PointPart frac) ∧
      (exp = [] ∨ IsExponent exp) ∧ (int = [C_ZERO] → frac = [] → exp = []) ∧
      s = int ++ (frac ++ exp) := by
  constructor
  · rintro (⟨s', h, rfl⟩ | ⟨s', h, rfl⟩)
    · obtain ⟨frac, exp, hfrac, hexp, hnone, rfl⟩ := numberTail_ZE.mp h
      exact ⟨[C_ZERO], frac, exp, .inl rfl, hfrac, hexp, fun _ => hnone, rfl⟩
    · obtain ⟨ds, frac, exp, hds, hfrac, hexp, rfl⟩ := numberTail_IN.mp h
      exact ⟨C_DIGIT :: ds, frac, exp, .inr ⟨ds, hds, rfl⟩, hfrac, hexp, nofun, rfl⟩
  · rintro ⟨int, frac, exp, rfl | ⟨ds, hds, rfl⟩, hfrac, hexp, hnone, rfl⟩
    · exact .inl ⟨_, numberTail_ZE.mpr ⟨frac, exp, hfrac, hexp, hnone rfl, rfl⟩, rfl⟩
    · exact .inr ⟨_, numberTail_IN.mpr ⟨ds, frac, exp, hds, hfrac, hexp, rfl⟩, rfl⟩

theorem numberTail_MI : NumberTail MI s ↔ NumberStart s := by
  constructor
  · intro h
    cases h with
    | minusZero hs => exact .inl ⟨_, hs, rfl⟩
    | minusDigit hs => exact .inr ⟨_, hs, rfl⟩
  · rintro (⟨s', h, rfl⟩ | ⟨s', h, rfl⟩)
    · exact .minusZero h
    · exact .minusDigit h

theorem IsFraction.pointPart (h : IsFraction s) : PointPart s := by
  obtain ⟨ds, hds, -, rfl⟩ := h
  exact ⟨ds, hds, rfl⟩

theorem not_zeroExponent {sign int rest : List Classes} (hsign : sign = [] ∨ sign = [C_MINUS])
    (hint : IsInteger int) (hrest : int = [C_ZERO] → ∀ e ∈ rest.head?, e ≠ C_LOW_E ∧ e ≠ C_E) :
    ¬ZeroExponent (sign ++ (int ++ rest)) := by
  rintro ⟨sign', exp, hsign', ⟨e, esign, ds, he, -, -, -, rfl⟩, heq⟩
  obtain ⟨rfl, hparts⟩ : sign = sign' ∧ int ++ rest = C_ZERO :: (e :: (esign ++ ds)) := by
    -- neither part begins with a minus
    rcases hint with rfl | ⟨ds', -, rfl⟩ <;> rcases hsign with rfl | rfl <;>
      rcases hsign' with rfl | rfl <;> simp_all
  rcases hint with rfl | ⟨ds', -, rfl⟩
  · cases hparts
    have hne := hrest rfl e rfl
    exact he.elim hne.1 hne.2
  · cases hparts

theorem isNumber_iff_parts : IsNumber s ↔
    ∃ sign int frac exp, (sign = [] ∨ sign = [C_MINUS]) ∧ IsInteger int ∧
    (frac = [] ∨ PointPart frac) ∧
      (exp = [] ∨ IsExponent exp) ∧ (int = [C_ZERO] → frac = [] → exp = []) ∧
      s = sign ++ (int ++ (frac ++ exp)) := by
  constructor
  · rintro (⟨⟨sign, int, frac, exp, hsign, hint, hfrac, hexp, rfl⟩, hzero⟩ | ⟨sign, int, exp, hsign,
      hint, hexp, rfl⟩)
    · refine ⟨sign, int, frac, exp, hsign, hint, hfrac.imp_right IsFraction.pointPart,
        hexp, ?_, rfl⟩
      rintro rfl rfl
      exact hexp.resolve_right fun hexp => hzero ⟨sign, exp, hsign, hexp, rfl⟩
    · exact ⟨sign, int, [C_POINT], exp, hsign, hint, .inr ⟨[], nofun, rfl⟩, hexp, nofun, rfl⟩
  · rintro ⟨sign, int, frac, exp, hsign, hint, rfl | ⟨ds, hds, rfl⟩, hexp, hnone, rfl⟩
    · refine .inl ⟨⟨sign, int, [], exp, hsign, hint, .inl rfl, hexp, rfl⟩,
        not_zeroExponent hsign hint fun hz => ?_⟩
      rw [hnone hz rfl]
      nofun
    · by_cases hne : ds = []
      · subst hne
        exact .inr ⟨sign, int, exp, hsign, hint, hexp, rfl⟩
      · refine .inl ⟨⟨sign, int, _, exp, hsign, hint, .inr ⟨ds, hds, hne, rfl⟩, hexp, rfl⟩,
          not_zeroExponent hsign hint ?_⟩
        rintro - e ⟨⟩
        decide

theorem isNumber_iff : IsNumber s ↔ NumberStart s ∨ ∃ s', NumberTail MI s' ∧ s = C_MINUS :: s' := by
  rw [isNumber_iff_parts]
  constructor
  · rintro ⟨sign, int, frac, exp, rfl | rfl, hint, hfrac, hexp, hnone, rfl⟩
    · exact .inl (numberStart_iff.mpr ⟨int, frac, exp, hint, hfrac, hexp, hnone, rfl⟩)
    · exact .inr
        ⟨_, numberTail_MI.mpr (numberStart_iff.mpr ⟨int, frac, exp, hint, hfrac, hexp, hnone, rfl⟩),
          rfl⟩
  · rintro (h | ⟨s', h, rfl⟩)
    · obtain ⟨int, frac, exp, hint, hfrac, hexp, hnone, rfl⟩ := numberStart_iff.mp h
      exact ⟨[], int, frac, exp, .inl rfl, hint, hfrac, hexp, hnone, rfl⟩
    · obtain ⟨int, frac, exp, hint, hfrac, hexp, hnone, rfl⟩ :=
        numberStart_iff.mp (numberTail_MI.mp h)
      exact ⟨[C_MINUS], int, frac, exp, .inr rfl, hint, hfrac, hexp, hnone, rfl⟩

end AnalysisPrograms.JsonChecker
