import AnalysisPrograms.Kmp.Table

namespace AnalysisPrograms.Kmp

open Foundations Matching

def Occurs (text pattern : CString) (p : ℕ) : Prop := pattern.bytes <+: text.bytes.drop p

def FirstOccurrence (text pattern : CString) (rslt : ℤ) : Prop :=
  (∃ p : ℕ, rslt = p ∧ Occurs text pattern p ∧ ∀ q, q < p → ¬Occurs text pattern q) ∨
    (rslt = -1 ∧ ∀ q, ¬Occurs text pattern q)

variable {text pattern : CString} {next : List ℤ}

theorem occurs_iff {p : ℕ} :
    Occurs text pattern p ↔ MatchAt text.chars pattern.chars p pattern.bytes.length :=
      prefix_drop_iff

theorem Occurs.inside {p : ℕ} (h : Occurs text pattern p) (hp : pattern.bytes ≠ []) :
    p + pattern.bytes.length ≤ text.bytes.length := by
  have hle := h.length_le
  have hpos := List.length_pos_iff.mpr hp
  rw [List.length_drop] at hle
  omega

/-- The pattern lies at `a`, its first `k` characters are known to be there, and it is nowhere
before; or, with `j = -1`, the place `a - 1` has just been given up. -/
inductive SearchInv (text pattern : CString) : Cursor → Prop
  | aligned (a k : ℕ) : a + k ≤ text.bytes.length → k ≤ pattern.bytes.length →
      MatchAt text.chars pattern.chars a k →
      NoneBefore text.chars pattern.chars pattern.bytes.length a →
      SearchInv text pattern ⟨a + k, k⟩
  | skipped (a : ℕ) : a < text.bytes.length →
      NoneBefore text.chars pattern.chars pattern.bytes.length (a + 1) →
      SearchInv text pattern ⟨a, -1⟩

def searchMeasure (text : CString) (s : Cursor) : ℕ :=
  (2 * ((text.bytes.length : ℤ) - s.i) + s.j + 1).toNat

theorem kmpTurn_mismatch (hf : Filled pattern next (pattern.bytes.length - 1)) {a k : ℕ}
    (ha : a + k < text.bytes.length) (hk : k < pattern.bytes.length)
    (hm : MatchAt text.chars pattern.chars a k)
    (hnone : NoneBefore text.chars pattern.chars pattern.bytes.length a)
    (hne : text.chars (a + k) ≠ pattern.chars k) :
    ∃ j, readNext next k = .ok j ∧ SearchInv text pattern ⟨a + k, j⟩ ∧ -1 ≤ j ∧ j < k := by
  rcases Nat.eq_zero_or_pos k with rfl | hpos
  · refine ⟨-1, readNext_eq hf.first, ?_, by omega, by omega⟩
    exact SearchInv.skipped a ha (hnone.succ fun hocc => hne (hocc 0 hk))
  · obtain ⟨b, hb, hlong⟩ := hf.entries k hpos (by omega)
    have hbk := hlong.border.1
    obtain ⟨hmb, hnb⟩ := hnone.fallback hm hk hne hlong
    refine ⟨b, readNext_eq hb, ?_, by omega, by omega⟩
    have hinv := SearchInv.aligned (a + (k - b)) b (by omega) (by omega) hmb hnb
    rwa [show ((a + (k - b) : ℕ) : ℤ) + b = a + k by omega] at hinv

theorem kmpTurn_inside (hf : Filled pattern next (pattern.bytes.length - 1)) {a k : ℕ}
    (ha : a + k < text.bytes.length) (hk : k < pattern.bytes.length)
    (hm : MatchAt text.chars pattern.chars a k)
    (hnone : NoneBefore text.chars pattern.chars pattern.bytes.length a) :
    ∃ t, kmpTurn text (strlen text) pattern (strlen pattern) next ⟨a + k, k⟩ = .ok (.inl t) ∧
      SearchInv text pattern t ∧ searchMeasure text t < searchMeasure text ⟨a + k, k⟩ := by
  have hguard : (a + k : ℤ) < strlen text ∧ (k : ℤ) < strlen pattern := by
    simp only [strlen]
    omega
  have hj : ¬(-1 : ℤ) = k := by omega
  obtain ⟨c, hc, hcc⟩ := readChar_inside ha
  obtain ⟨d, hd, hdd⟩ := readChar_inside hk
  rw [Nat.cast_add] at hc
  by_cases hcd : c = d
  · refine ⟨⟨a + k + 1, k + 1⟩, ?_, ?_, ?_⟩
    · simp only [kmpTurn, hguard, and_self, ↓reduceIte, hj, hc, hd, hcd, bind, Except.bind, pure,
        Except.pure]
    · have heq : text.chars (a + k) = pattern.chars k := by rw [hcc, hdd, hcd]
      exact SearchInv.aligned a (k + 1) (by omega) (by omega) (matchAt_succ.mpr ⟨hm, heq⟩) hnone
    · simp only [searchMeasure]
      omega
  · have hne : text.chars (a + k) ≠ pattern.chars k := by
      rw [hcc, hdd]
      exact fun he => hcd (Option.some.inj he)
    obtain ⟨j, hr, hinv, hj₁, hjk⟩ := kmpTurn_mismatch hf ha hk hm hnone hne
    refine ⟨⟨a + k, j⟩, ?_, hinv, ?_⟩
    · simp only [kmpTurn, hguard, and_self, ↓reduceIte, hj, hc, hd, hcd, hr, bind, Except.bind,
        pure, Except.pure]
    · simp only [searchMeasure]
      omega

theorem kmpTurn_over {s : Cursor} (h : ¬(s.i < strlen text ∧ s.j < strlen pattern)) :
    kmpTurn text (strlen text) pattern (strlen pattern) next s =
      .ok (.inr (if s.j ≥ strlen pattern then s.i - strlen pattern else -1)) := by
  by_cases hj : s.j ≥ strlen pattern
  · simp only [kmpTurn, h, hj, ↓reduceIte, pure, Except.pure]
  · simp only [kmpTurn, h, hj, ↓reduceIte, pure, Except.pure]

theorem kmpTurn_step (hf : Filled pattern next (pattern.bytes.length - 1))
    (hp : pattern.bytes ≠ []) {s : Cursor} (h : SearchInv text pattern s) :
    (∃ t, kmpTurn text (strlen text) pattern (strlen pattern) next s = .ok (.inl t) ∧
      SearchInv text pattern t ∧ searchMeasure text t < searchMeasure text s) ∨
    ∃ r, kmpTurn text (strlen text) pattern (strlen pattern) next s = .ok (.inr r) ∧
      FirstOccurrence text pattern r := by
  cases h with
  | skipped a ha hnone =>
    left
    refine ⟨⟨a + 1, 0⟩, ?_, ?_, ?_⟩
    · have hguard : (a : ℤ) < strlen text ∧ (-1 : ℤ) < strlen pattern := by
        simp only [strlen]
        omega
      simp only [kmpTurn, hguard, and_self, ↓reduceIte, pure, Except.pure, Int.add_left_neg]
    · exact SearchInv.aligned (a + 1) 0 (by omega) (Nat.zero_le _) (matchAt_zero _ _ _) hnone
    · simp only [searchMeasure]
      omega
  | aligned a k ha hk hm hnone =>
    by_cases hin : a + k < text.bytes.length ∧ k < pattern.bytes.length
    · exact .inl (kmpTurn_inside hf hin.1 hin.2 hm hnone)
    · right
      refine ⟨_, kmpTurn_over (by simp only [strlen]; omega), ?_⟩
      by_cases hj : (k : ℤ) ≥ strlen pattern
      · rw [if_pos hj]
        simp only [strlen] at hj ⊢
        refine .inl ⟨a, by omega, occurs_iff.mpr (hm.mono (by omega)), ?_⟩
        exact fun q hq hocc => hnone q hq (occurs_iff.mp hocc)
      · -- the text is used up before the pattern: every place left is too near to its end
        rw [if_neg hj]
        simp only [strlen] at hj
        refine .inr ⟨rfl, ?_⟩
        intro q hq
        have hfits := hq.inside hp
        exact hnone q (by omega) (occurs_iff.mp hq)

theorem kmp_returns (text : CString) (h : 2 ≤ pattern.bytes.length) :
    ∃ fuel rslt, FirstOccurrence text pattern rslt ∧
      ∀ f, fuel ≤ f → kmp f text pattern = some (.ok rslt) := by
  have hp : pattern.bytes ≠ [] := List.ne_nil_of_length_pos (by omega)
  have hl : (List.replicate (strlen pattern).toNat (0 : ℤ)).length = pattern.bytes.length := by
    rw [List.length_replicate, strlen, Int.toNat_natCast]
  obtain ⟨n, next, hf, hgen⟩ := genNext_filled pattern h hl
  obtain ⟨rslt, ⟨m, hret⟩, hfirst⟩ := Iteration.returns_ok_of_measure (SearchInv text pattern)
    (FirstOccurrence text pattern) (searchMeasure text) (fun s hs => kmpTurn_step hf hp hs) ⟨0, 0⟩
    (.aligned 0 0 (Nat.zero_le _) (Nat.zero_le _) (matchAt_zero _ _ _) (noneBefore_zero _ _ _))
  refine ⟨max n m, rslt, hfirst, ?_⟩
  intro f hf
  simp only [kmp, hgen f (by omega)]
  exact Iteration.run_mono _ hret (by omega)

theorem genNext_mono {n m : ℕ} {str : CString} {len cells : ℤ} {r : Except Fault (List ℤ)}
    (h : genNext n str len next cells = some r) (hm : n ≤ m) :
    genNext m str len next cells = some r := by
  simp only [genNext] at h ⊢
  cases hs : seedNext len cells next with
  | error e =>
    rw [hs] at h
    exact h
  | ok s =>
    rw [hs] at h
    exact Iteration.run_mono _ h hm

theorem kmp_mono {n m : ℕ} {r : Except Fault ℤ} (h : kmp n text pattern = some r) (hm : n ≤ m) :
    kmp m text pattern = some r := by
  simp only [kmp] at h ⊢
  cases hg : genNext n pattern (strlen pattern) (List.replicate (strlen pattern).toNat 0)
      (strlen pattern) with
  | none =>
    rw [hg] at h
    cases h
  | some table =>
    rw [hg] at h
    rw [genNext_mono hg hm]
    cases table with
    | error e => exact h
    | ok next => exact Iteration.run_mono _ h hm

theorem kmp_first_occurrence (text pattern : CString) (h : 2 ≤ pattern.bytes.length) :
    ∃ fuel rslt, kmp fuel text pattern = some (.ok rslt) ∧ FirstOccurrence text pattern rslt := by
  obtain ⟨fuel, rslt, hfirst, hk⟩ := kmp_returns text h
  exact ⟨fuel, rslt, hk fuel le_rfl, hfirst⟩

def aab : CString := ⟨[97, 97, 98], by decide⟩

def ab : CString := ⟨[97, 98], by decide⟩

theorem kmp_first_occurrence_aab :
    ∃ fuel rslt, kmp fuel aab ab = some (.ok rslt) ∧ FirstOccurrence aab ab rslt :=
  kmp_first_occurrence aab ab (by decide)

theorem kmp_short (fuel : ℕ) (text : CString) (h : pattern.bytes.length < 2) :
    kmp fuel text pattern = some (.error (.table pattern.bytes.length)) := by
  have hcases : pattern.bytes.length = 0 ∨ pattern.bytes.length = 1 := by omega
  rcases hcases with hl | hl <;> simp only [kmp, genNext, strlen, hl] <;> rfl

theorem kmp_inside_table_iff (text pattern : CString) :
    (∀ fuel i, kmp fuel text pattern ≠ some (.error (.table i))) ↔ 2 ≤ pattern.bytes.length := by
  constructor
  · intro h
    by_contra hshort
    exact h 0 _ (kmp_short 0 text (by omega))
  · intro h fuel i hfault
    obtain ⟨n, rslt, -, hk⟩ := kmp_returns text h
    have hok := hk (max fuel n) (Nat.le_max_right fuel n)
    rw [kmp_mono hfault (Nat.le_max_left fuel n)] at hok
    cases hok

theorem kmp_one_char_writes_outside :
    kmp 0 aab ⟨[97], by decide⟩ = some (.error (.table 1)) := by
  decide

end AnalysisPrograms.Kmp
