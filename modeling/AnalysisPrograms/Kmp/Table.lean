import AnalysisPrograms.Foundations.Matching
import AnalysisPrograms.Kmp.Search

namespace AnalysisPrograms.Kmp

open Foundations Matching

def CString.chars (s : CString) (x : ℕ) : Option UInt8 := s.bytes[x]?

theorem readChar_inside {s : CString} {x : ℕ} (h : x < s.bytes.length) :
    ∃ c, readChar s x = .ok c ∧ s.chars x = some c := by
  refine ⟨s.bytes[x], ?_, List.getElem?_eq_getElem h⟩
  have hx : x < s.memory.length := by
    rw [CString.memory, List.length_append]
    omega
  rw [readChar, if_pos ⟨Int.natCast_nonneg x, Int.ofNat_lt.mpr hx⟩, Int.toNat_natCast,
    List.getD_eq_getElem?_getD, CString.memory, List.getElem?_append_left h,
    List.getElem?_eq_getElem h, Option.getD_some]

theorem readNext_eq {next : List ℤ} {x : ℕ} {v : ℤ} (h : next[x]? = some v) :
    readNext next x = .ok v := by
  obtain ⟨hx, -⟩ := List.getElem?_eq_some_iff.mp h
  rw [readNext, if_pos ⟨Int.natCast_nonneg x, Int.ofNat_lt.mpr hx⟩, Int.toNat_natCast,
    List.getD_eq_getElem?_getD, h, Option.getD_some]

theorem writeNext_eq {next : List ℤ} {x : ℕ} (h : x < next.length) (v : ℤ) :
    writeNext next x v = .ok (next.set x v) := by
  rw [writeNext, if_pos ⟨Int.natCast_nonneg x, Int.ofNat_lt.mpr h⟩, Int.toNat_natCast]

structure Filled (str : CString) (next : List ℤ) (j : ℕ) : Prop where
  length : next.length = str.bytes.length
  first : next[0]? = some (-1)
  entries : ∀ k, 1 ≤ k → k ≤ j → ∃ b : ℕ, next[k]? = some (b : ℤ) ∧ LongestBorder str.chars k b

theorem Filled.write {str : CString} {next : List ℤ} {j b : ℕ} (h : Filled str next j)
    (hj : j + 1 < str.bytes.length) (hb : LongestBorder str.chars (j + 1) b) :
    writeNext next ((j : ℤ) + 1) b = .ok (next.set (j + 1) b) ∧
      Filled str (next.set (j + 1) b) (j + 1) := by
  have hl : j + 1 < next.length := by rw [h.length]; exact hj
  refine ⟨writeNext_eq hl b, by rw [List.length_set, h.length], ?_, ?_⟩
  · rw [List.getElem?_set_ne (Nat.succ_ne_zero j)]
    exact h.first
  · intro k hk hkj
    rcases Nat.le_succ_iff.mp hkj with hle | rfl
    · rw [List.getElem?_set_ne (by omega)]
      exact h.entries k hk hle
    · exact ⟨b, List.getElem?_set_self hl, hb⟩

structure GenInv (str : CString) (s : GenNext) (i j : ℕ) : Prop where
  i_eq : s.i = i
  j_eq : s.j = j
  inside : j < str.bytes.length
  filled : Filled str s.next j
  candidate : Candidate str.chars j i

def genMeasure (str : CString) (s : GenNext) : ℕ := (2 * ((str.bytes.length : ℤ) - s.j) + s.i).toNat

variable {str : CString} {s : GenNext} {i j : ℕ}

theorem GenInv.write (h : GenInv str s i j) (hj : j + 1 < str.bytes.length) {b : ℕ}
    (hb : LongestBorder str.chars (j + 1) b) (hbi : b ≤ i + 1) :
    ∃ next, writeNext s.next (s.j + 1) b = .ok next ∧ GenInv str ⟨next, b, s.j + 1⟩ b (j + 1) ∧
      genMeasure str ⟨next, b, s.j + 1⟩ < genMeasure str s := by
  obtain ⟨hw, hf⟩ := h.filled.write hj hb
  rw [← h.j_eq] at hw
  refine ⟨s.next.set (j + 1) b, hw, ⟨rfl, by rw [h.j_eq]; rfl, hj, hf, hb.candidate⟩, ?_⟩
  simp only [genMeasure, h.i_eq, h.j_eq]
  omega

theorem genNextTurn_step (h : GenInv str s i j) :
    (∃ t, genNextTurn str str.bytes.length s = .ok (.inl t) ∧ (∃ i' j', GenInv str t i' j') ∧
      genMeasure str t < genMeasure str s) ∨
    ∃ next, genNextTurn str str.bytes.length s = .ok (.inr next) ∧
      Filled str next (str.bytes.length - 1) := by
  have hij := h.candidate.border.1
  have hin := h.inside
  by_cases hj : j + 1 < str.bytes.length
  · left
    have hguard : s.j < (str.bytes.length : ℤ) - 1 := by rw [h.j_eq]; omega
    obtain ⟨a, ha, hca⟩ := readChar_inside (show i < str.bytes.length by omega)
    obtain ⟨b, hb, hcb⟩ := readChar_inside hin
    rw [← h.i_eq] at ha
    rw [← h.j_eq] at hb
    by_cases hab : a = b
    · have hext := h.candidate.extend (show str.chars i = str.chars j by rw [hca, hcb, hab])
      obtain ⟨next, hw, hinv, hlt⟩ := h.write hj hext (Nat.le_refl _)
      refine ⟨_, ?_, ⟨_, _, hinv⟩, hlt⟩
      rw [Nat.cast_succ, ← h.i_eq] at hw ⊢
      simp only [genNextTurn, hguard, ↓reduceIte, ha, hb, hab, hw, bind, Except.bind,
        pure, Except.pure]
    · have hne : str.chars i ≠ str.chars j := by
        rw [hca, hcb]
        exact fun hc => hab (Option.some.inj hc)
      rcases Nat.eq_zero_or_pos i with rfl | hpos
      · -- next[0] is -1: no border can be extended
        obtain ⟨next, hw, hinv, hlt⟩ := h.write hj (h.candidate.none hne) (Nat.zero_le _)
        have hr : readNext s.next s.i = .ok (-1) := by
          rw [h.i_eq]
          exact readNext_eq h.filled.first
        refine ⟨_, ?_, ⟨_, _, hinv⟩, hlt⟩
        rw [Nat.cast_zero] at hw ⊢
        simp only [genNextTurn, hguard, ↓reduceIte, ha, hb, hab, hr, hw, bind, Except.bind, pure,
          Except.pure]
      · obtain ⟨c, hc, hlong⟩ := h.filled.entries i hpos (Nat.le_of_lt hij)
        have hr : readNext s.next s.i = .ok (c : ℤ) := by
          rw [h.i_eq]
          exact readNext_eq hc
        have hci := hlong.border.1
        refine ⟨⟨s.next, c, s.j⟩, ?_, ⟨c, j, rfl, h.j_eq, hin, h.filled, ?_⟩, ?_⟩
        · simp only [genNextTurn, hguard, ↓reduceIte, ha, hb, hab, hr, bind, Except.bind, pure,
            Except.pure, show ¬(-1 : ℤ) = (c : ℤ) by omega]
        · exact h.candidate.fallback hne hlong
        · simp only [genMeasure, h.i_eq, h.j_eq]
          omega
  · right
    have hguard : ¬s.j < (str.bytes.length : ℤ) - 1 := by rw [h.j_eq]; omega
    refine ⟨s.next, ?_, ?_⟩
    · simp only [genNextTurn, hguard, ↓reduceIte, pure, Except.pure]
    · rw [show str.bytes.length - 1 = j by omega]
      exact h.filled

theorem seedNext_inv (str : CString) (h : 2 ≤ str.bytes.length) {next : List ℤ}
    (hl : next.length = str.bytes.length) :
    ∃ s, seedNext (strlen str) (strlen str) next = .ok s ∧ GenInv str s 0 1 := by
  have h₀ : writeNext next 0 (-1) = .ok (next.set 0 (-1)) :=
    writeNext_eq (show 0 < next.length by omega) (-1)
  have hl₀ : (next.set 0 (-1)).length = str.bytes.length := by rw [List.length_set, hl]
  have h₁ : writeNext (next.set 0 (-1)) 1 0 = .ok ((next.set 0 (-1)).set 1 0) :=
    writeNext_eq (show 1 < (next.set 0 (-1)).length by omega) 0
  refine ⟨⟨(next.set 0 (-1)).set 1 0, 0, 1⟩, ?_, rfl, rfl, by omega, ⟨?_, ?_, ?_⟩,
    (longestBorder_one str.chars).candidate⟩
  · simp only [seedNext, lt_irrefl, ↓reduceIte, h₀, h₁, bind, Except.bind, pure, Except.pure]
  · rw [List.length_set, hl₀]
  · rw [List.getElem?_set_ne Nat.one_ne_zero, List.getElem?_set_self (by omega)]
  · intro k hk hk'
    obtain rfl : k = 1 := by omega
    exact ⟨0, List.getElem?_set_self (by omega), longestBorder_one str.chars⟩

theorem genNext_filled (str : CString) (h : 2 ≤ str.bytes.length) {next : List ℤ}
    (hl : next.length = str.bytes.length) :
    ∃ fuel next', Filled str next' (str.bytes.length - 1) ∧
      ∀ f, fuel ≤ f → genNext f str (strlen str) next (strlen str) = some (.ok next') := by
  obtain ⟨s, hs, hinv⟩ := seedNext_inv str h hl
  obtain ⟨next', ⟨fuel, hret⟩, hfilled⟩ := Iteration.returns_ok_of_measure
    (fun s => ∃ i j, GenInv str s i j) (fun next => Filled str next (str.bytes.length - 1))
    (genMeasure str) (fun s ⟨i, j, hs⟩ => genNextTurn_step hs) s ⟨0, 1, hinv⟩
  refine ⟨fuel, next', hfilled, ?_⟩
  intro f hf
  simp only [genNext, hs]
  exact Iteration.run_mono _ hret hf

end AnalysisPrograms.Kmp
