import Mathlib.Data.Nat.Notation
import Mathlib.Data.List.Basic
import Mathlib.Tactic.Basic

namespace Foundations.Matching

variable {β : Type} {t p : ℕ → β}

def MatchAt (t p : ℕ → β) (i n : ℕ) : Prop := ∀ x, x < n → t (i + x) = p x

theorem matchAt_zero (t p : ℕ → β) (i : ℕ) : MatchAt t p i 0 :=
  fun x hx => absurd hx (Nat.not_lt_zero x)

theorem MatchAt.mono {i n m : ℕ} (h : MatchAt t p i n) (hm : m ≤ n) : MatchAt t p i m :=
  fun x hx => h x (by omega)

theorem matchAt_succ {i n : ℕ} : MatchAt t p i (n + 1) ↔ MatchAt t p i n ∧ t (i + n) = p n := by
  constructor
  · intro h
    exact ⟨h.mono (Nat.le_succ n), h n (Nat.lt_succ_self n)⟩
  · rintro ⟨h, hn⟩ x hx
    rcases Nat.lt_succ_iff_lt_or_eq.mp hx with hlt | rfl
    · exact h x hlt
    · exact hn

theorem MatchAt.shift {i j d n : ℕ} (h : MatchAt t p i j) (hd : d + n ≤ j) :
    MatchAt t p (i + d) n ↔ MatchAt p p d n := by
  have hself (x : ℕ) (hx : x < n) : t (i + d + x) = p (d + x) := by
    rw [Nat.add_assoc]
    exact h (d + x) (by omega)
  constructor
  · intro hm x hx
    rw [← hself x hx]
    exact hm x hx
  · intro hm x hx
    rw [hself x hx]
    exact hm x hx

theorem prefix_drop_iff {α : Type} {pat text : List α} {i : ℕ} :
    pat <+: text.drop i ↔ MatchAt (fun x => text[x]?) (fun x => pat[x]?) i pat.length := by
  rw [List.prefix_iff_getElem?]
  constructor
  · intro h x hx
    have hget := h x hx
    rw [List.getElem?_drop, ← List.getElem?_eq_getElem hx] at hget
    exact hget
  · intro h x hx
    rw [List.getElem?_drop, ← List.getElem?_eq_getElem hx]
    exact h x hx

def Border (p : ℕ → β) (q k : ℕ) : Prop := k < q ∧ MatchAt p p (q - k) k

theorem border_zero (p : ℕ → β) {q : ℕ} (hq : 0 < q) : Border p q 0 :=
  ⟨hq, matchAt_zero p p (q - 0)⟩

theorem border_succ {q k : ℕ} : Border p (q + 1) (k + 1) ↔ Border p q k ∧ p k = p q := by
  unfold Border
  rw [Nat.add_sub_add_right, matchAt_succ, Nat.add_lt_add_iff_right]
  constructor
  · rintro ⟨hlt, hm, hlast⟩
    rw [Nat.sub_add_cancel (Nat.le_of_lt hlt)] at hlast
    exact ⟨⟨hlt, hm⟩, hlast.symm⟩
  · rintro ⟨⟨hlt, hm⟩, hlast⟩
    refine ⟨hlt, hm, ?_⟩
    rw [Nat.sub_add_cancel (Nat.le_of_lt hlt)]
    exact hlast.symm

theorem Border.inner_iff {q k b : ℕ} (h : Border p q k) (hb : b < k) :
    Border p q b ↔ Border p k b := by
  unfold Border
  have hqb : q - b = (q - k) + (k - b) := by have := h.1; omega
  rw [hqb, h.2.shift (by omega)]
  constructor
  · rintro ⟨-, hm⟩
    exact ⟨hb, hm⟩
  · rintro ⟨-, hm⟩
    exact ⟨Nat.lt_trans hb h.1, hm⟩

structure LongestBorder (p : ℕ → β) (q k : ℕ) : Prop where
  border : Border p q k
  longest : ∀ b, Border p q b → b ≤ k

theorem longestBorder_one (p : ℕ → β) : LongestBorder p 1 0 where
  border := border_zero p Nat.one_pos
  longest _ hb := Nat.le_of_lt_succ hb.1

structure Candidate (p : ℕ → β) (q k : ℕ) : Prop where
  border : Border p q k
  longer : ∀ b, Border p q b → k < b → p b ≠ p q

theorem LongestBorder.candidate {q k : ℕ} (h : LongestBorder p q k) : Candidate p q k where
  border := h.border
  longer b hb hlt := absurd (h.longest b hb) (Nat.not_le.mpr hlt)

theorem Candidate.extend {q k : ℕ} (h : Candidate p q k) (heq : p k = p q) :
    LongestBorder p (q + 1) (k + 1) where
  border := border_succ.mpr ⟨h.border, heq⟩
  longest b hb := by
    cases b with
    | zero => exact Nat.zero_le _
    | succ b =>
      obtain ⟨hbq, hbeq⟩ := border_succ.mp hb
      by_contra hlt
      exact h.longer b hbq (by omega) hbeq

theorem Candidate.fallback {q k b : ℕ} (h : Candidate p q k) (hne : p k ≠ p q)
    (hb : LongestBorder p k b) : Candidate p q b where
  border := (h.border.inner_iff hb.border.1).mpr hb.border
  longer c hc hlt := by
    rcases Nat.lt_trichotomy c k with hck | rfl | hkc
    · exact absurd (hb.longest c ((h.border.inner_iff hck).mp hc)) (Nat.not_le.mpr hlt)
    · exact hne
    · exact h.longer c hc hkc

theorem Candidate.none {q : ℕ} (h : Candidate p q 0) (hne : p 0 ≠ p q) :
    LongestBorder p (q + 1) 0 where
  border := border_zero p (Nat.succ_pos q)
  longest b hb := by
    cases b with
    | zero => exact Nat.le_refl 0
    | succ b =>
      obtain ⟨hbq, hbeq⟩ := border_succ.mp hb
      rcases Nat.eq_zero_or_pos b with rfl | hpos
      · exact absurd hbeq hne
      · exact absurd hbeq (h.longer b hbq hpos)

def NoneBefore (t p : ℕ → β) (m a : ℕ) : Prop := ∀ i, i < a → ¬MatchAt t p i m

theorem noneBefore_zero (t p : ℕ → β) (m : ℕ) : NoneBefore t p m 0 :=
  fun i hi => absurd hi (Nat.not_lt_zero i)

theorem NoneBefore.succ {m a : ℕ} (h : NoneBefore t p m a) (ha : ¬MatchAt t p a m) :
    NoneBefore t p m (a + 1) := by
  intro i hi
  rcases Nat.lt_succ_iff_lt_or_eq.mp hi with hlt | rfl
  · exact h i hlt
  · exact ha

theorem MatchAt.overlap {i j x m : ℕ} (h : MatchAt t p i j) (hx : MatchAt t p x m) (hi : i < x)
    (hj : x ≤ i + j) (hm : i + j ≤ x + m) : Border p j (i + j - x) := by
  refine ⟨by omega, ?_⟩
  have hpart := hx.mono (show i + j - x ≤ m by omega)
  rw [show x = i + (x - i) by omega, h.shift (by omega)] at hpart
  rw [show j - (i + j - x) = x - i by omega]
  rwa [show i + j - (i + (x - i)) = i + j - x by omega] at hpart

theorem NoneBefore.fallback {m a j b : ℕ} (h : NoneBefore t p m a) (hm : MatchAt t p a j)
    (hj : j < m) (hne : t (a + j) ≠ p j) (hb : LongestBorder p j b) :
    MatchAt t p (a + (j - b)) b ∧ NoneBefore t p m (a + (j - b)) := by
  have hbj := hb.border.1
  refine ⟨(hm.shift (by omega)).mpr hb.border.2, ?_⟩
  intro i hi hocc
  rcases Nat.lt_trichotomy i a with hlt | rfl | hgt
  · exact h i hlt hocc
  · exact hne (hocc j hj)
  · -- an occurrence between the two alignments is a border of the matched part longer than `b`
    have hle := hb.longest _ (hm.overlap hocc hgt (by omega) (by omega))
    omega

theorem exists_mismatch (t p : ℕ → β) (i m : ℕ) :
    MatchAt t p i m ∨ ∃ k, k < m ∧ MatchAt t p i k ∧ t (i + k) ≠ p k := by
  induction m with
  | zero => exact .inl (matchAt_zero t p i)
  | succ m ih =>
    rcases ih with hm | ⟨k, hk, hmatch, hne⟩
    · by_cases hne : t (i + m) = p m
      · exact .inl (matchAt_succ.mpr ⟨hm, hne⟩)
      · exact .inr ⟨m, Nat.lt_succ_self m, hm, hne⟩
    · exact .inr ⟨k, Nat.lt_succ_of_lt hk, hmatch, hne⟩

end Foundations.Matching
