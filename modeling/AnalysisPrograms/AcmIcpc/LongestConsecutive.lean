import Mathlib.Data.List.Dedup
import AnalysisPrograms.Foundations.Execution
import AnalysisPrograms.Foundations.FiniteMap
import AnalysisPrograms.Foundations.IntegerRuns

namespace AnalysisPrograms.LongestConsecutive

open Foundations.Execution Foundations.FiniteMap Foundations.IntegerRuns

abbrev Marks := Map ℤ ℕ

def isMarked (dc : Marks) (key : ℤ) : Bool := dc.lookup key == some 1

def consume (delta : ℤ) : ℕ → Marks → ℤ → ℕ → Option (Marks × ℕ)
  | 0, _, _, _ => none
  | fuel + 1, dc, key, tmpLength =>
    if isMarked dc key then consume delta fuel (dc.insert key 0) (key + delta) (tmpLength + 1)
    else some (dc, tmpLength)

def visit (fuel : ℕ) (s : Marks × ℕ) (key : ℤ) : Option (Marks × ℕ) :=
  (consume (-1) fuel (s.1.insert key 0) (key - 1) 1).bind fun down =>
    (consume 1 fuel down.1 (key + 1) down.2).bind fun up =>
      some (up.1, if up.2 > s.2 then up.2 else s.2)

def dictOf (num : List ℤ) : Marks := num.foldl (fun dc x => dc.insert x 1) ∅

/-- `order` is the order in which the dictionary is iterated. -/
def longestConsecutive (fuel : ℕ) (order num : List ℤ) : Option ℕ :=
  (exec (visit fuel) (dictOf num, 0) order).map Prod.snd

def marked (dc : Marks) : Finset ℤ := dc.keys.filter fun key => isMarked dc key

theorem isMarked_iff {dc : Marks} {key : ℤ} : isMarked dc key = true ↔ key ∈ marked dc := by
  rw [marked, Finset.mem_filter, Finmap.mem_keys, and_iff_right_of_imp]
  intro h
  exact Finmap.mem_iff.mpr ⟨1, beq_iff_eq.mp h⟩

theorem marked_insert (dc : Marks) (key : ℤ) :
    marked (dc.insert key 0) = (marked dc).erase key := by
  ext x
  rw [Finset.mem_erase, ← isMarked_iff, ← isMarked_iff, isMarked, isMarked]
  by_cases hx : x = key
  · subst hx
    rw [Finmap.lookup_insert]
    simp
  · rw [Finmap.lookup_insert_of_ne _ hx]
    exact (and_iff_right hx).symm

theorem marked_insert_one (dc : Marks) (key : ℤ) :
    marked (dc.insert key 1) = insert key (marked dc) := by
  ext x
  rw [Finset.mem_insert, ← isMarked_iff, ← isMarked_iff, isMarked, isMarked]
  by_cases hx : x = key
  · subst hx
    rw [Finmap.lookup_insert]
    exact iff_of_true rfl (.inl rfl)
  · rw [Finmap.lookup_insert_of_ne _ hx]
    exact (or_iff_right hx).symm

theorem marked_dictOf (num : List ℤ) : marked (dictOf num) = num.toFinset := by
  have hfold : ∀ dc : Marks, marked (num.foldl (fun dc x => dc.insert x 1) dc) = marked dc ∪
      num.toFinset := by
    induction num with
    | nil =>
      intro dc
      rw [List.toFinset_nil, Finset.union_empty]
      rfl
    | cons x num ih =>
      intro dc
      rw [List.foldl_cons, ih, marked_insert_one, List.toFinset_cons, Finset.insert_union,
        Finset.union_insert]
  rw [dictOf, hfold]
  rfl

theorem consume_spec {delta : ℤ} (hdelta : delta ≠ 0) {fuel : ℕ} {dc : Marks}
    (hfuel : (marked dc).card < fuel) (key : ℤ) (len : ℕ) :
    ∃ dc' m, consume delta fuel dc key len = some (dc', len + m) ∧
      Consumed (marked dc) key delta m (marked dc') := by
  induction fuel generalizing dc key len with
  | zero => omega
  | succ fuel ih =>
    by_cases hkey : isMarked dc key = true
    · have hmem := isMarked_iff.mp hkey
      have hcard : (marked (dc.insert key 0)).card < fuel := by
        rw [marked_insert]
        have hless := Finset.card_erase_lt_of_mem hmem
        omega
      obtain ⟨dc', m, hrun, hwalk⟩ := ih hcard (key + delta) (len + 1)
      rw [marked_insert] at hwalk
      refine ⟨dc', m + 1, ?_, hwalk.cons hdelta hmem⟩
      rw [consume, if_pos hkey, hrun, Nat.add_assoc, Nat.add_comm 1]
    · refine ⟨dc, 0, ?_, consumed_none (mt isMarked_iff.mpr hkey)⟩
      rw [consume, if_neg hkey, Nat.add_zero]

theorem visit_spec {fuel : ℕ} {dc : Marks} (hfuel : (marked dc).card < fuel) (best : ℕ) (key : ℤ) :
    ∃ dc' lo hi, visit fuel (dc, best) key = some (dc', max best (hi - lo + 1).toNat) ∧
      lo ≤ key ∧ key ≤ hi ∧
      (∀ x, lo ≤ x → x ≤ hi → x ≠ key → x ∈ marked dc) ∧ lo - 1 ∉ marked dc ∧ hi + 1 ∉ marked dc ∧
      ∀ x, x ∈ marked dc' ↔ x ∈ marked dc ∧ ¬(lo ≤ x ∧ x ≤ hi) := by
  have hcard : (marked (dc.insert key 0)).card < fuel := by
    rw [marked_insert]
    exact Nat.lt_of_le_of_lt (Finset.card_erase_le) hfuel
  obtain ⟨dc₁, m₁, hdown, hin₁, hout₁, hrest₁⟩ :=
    consume_spec (by omega : (-1 : ℤ) ≠ 0) hcard (key - 1) 1
  simp only [marked_insert, Finset.mem_erase] at hin₁ hout₁ hrest₁
  have hsub : marked dc₁ ⊆ marked dc := fun x hx => ((hrest₁ x).mp hx).1.2
  have hcard₁ : (marked dc₁).card < fuel := Nat.lt_of_le_of_lt (Finset.card_le_card hsub) hfuel
  obtain ⟨dc₂, m₂, hup, hin₂, hout₂, hrest₂⟩ :=
    consume_spec (by omega : (1 : ℤ) ≠ 0) hcard₁ (key + 1) (1 + m₁)
  refine ⟨dc₂, key - m₁, key + m₂, ?_, by omega, by omega, ?_, ?_, ?_, ?_⟩
  · have hlen : (key + m₂ - (key - m₁) + 1).toNat = 1 + m₁ + m₂ := by omega
    rw [visit, hdown, Option.bind_some, hup, Option.bind_some, hlen]
    congr 2
    split
    · omega
    · omega
  · intro x hlo hhi hx
    by_cases hless : x < key
    · have hmem := (hin₁ (key - 1 - x).toNat (by omega)).2
      rwa [show key - 1 + -1 * ((key - 1 - x).toNat : ℤ) = x by omega] at hmem
    · have hmem := hsub (hin₂ (x - key - 1).toNat (by omega))
      rwa [show key + 1 + 1 * ((x - key - 1).toNat : ℤ) = x by omega] at hmem
  · intro hmem
    apply hout₁
    rw [show key - 1 + -1 * (m₁ : ℤ) = key - m₁ - 1 by omega]
    exact ⟨by omega, hmem⟩
  · intro hmem
    apply hout₂
    rw [show key + 1 + 1 * (m₂ : ℤ) = key + m₂ + 1 by omega, hrest₁]
    exact ⟨⟨by omega, hmem⟩, fun i hi => by omega⟩
  · intro x
    rw [hrest₂, hrest₁]
    constructor
    · rintro ⟨⟨⟨hx, hmem⟩, hdown⟩, hup⟩
      refine ⟨hmem, ?_⟩
      rintro ⟨hlo, hhi⟩
      by_cases hless : x < key
      · exact hdown (key - 1 - x).toNat (by omega) (by omega)
      · exact hup (x - key - 1).toNat (by omega) (by omega)
    · rintro ⟨hmem, hnot⟩
      exact ⟨⟨⟨by omega, hmem⟩, fun i hi => by omega⟩, fun i hi => by omega⟩

theorem visit_swept {S : Finset ℤ} {fuel best : ℕ} {dc : Marks} {key : ℤ}
    (hfuel : (marked dc).card < fuel) (h : Swept S (marked dc) best) (hkey : key ∈ S) :
    ∃ dc' best', visit fuel (dc, best) key = some (dc', best') ∧ Swept S (marked dc') best' ∧
      marked dc' ⊆ (marked dc).erase key := by
  obtain ⟨dc', lo, hi, hrun, hlo, hhi, hin, hleft, hright, hmarks⟩ := visit_spec hfuel best key
  refine ⟨dc', _, hrun, ?_, ?_⟩
  · by_cases hmem : key ∈ marked dc
    · have hall : ∀ x, lo ≤ x → x ≤ hi → x ∈ marked dc := by
        intro x hl hh
        by_cases hx : x = key
        · rwa [hx]
        · exact hin x hl hh hx
      apply h.take (hlo.trans hhi) (fun x hl hh => h.sub (hall x hl hh)) _ _ hmarks
      · intro hS
        have hlink := h.linked (lo - 1) hS
        rw [Int.sub_add_cancel] at hlink
        have hlom := hall lo (Int.le_refl lo) (hlo.trans hhi)
        exact hleft ((hlink (h.sub hlom)).mpr hlom)
      · intro hS
        have hhim := hall hi (hlo.trans hhi) (Int.le_refl hi)
        exact hright ((h.linked hi (h.sub hhim) hS).mp hhim)
    · -- the run of the key is consumed: neither loop finds a mark
      have hlo' : lo = key := by
        by_contra hne
        have hprev := hin (key - 1) (by omega) (by omega) (by omega)
        have hlink := h.linked (key - 1) (h.sub hprev)
        rw [Int.sub_add_cancel] at hlink
        exact hmem ((hlink hkey).mp hprev)
      have hhi' : hi = key := by
        by_contra hne
        have hnext := hin (key + 1) (by omega) (by omega) (by omega)
        exact hmem ((h.linked key hkey (h.sub hnext)).mpr hnext)
      have hsame : marked dc' = marked dc := by
        ext x
        rw [hmarks, and_iff_left_iff_imp]
        rintro hx ⟨hl, hh⟩
        exact hmem (by rwa [show key = x by omega])
      rw [hsame, hlo', hhi', Int.sub_self]
      exact h.again hkey
  · intro x hx
    obtain ⟨hmem, hnot⟩ := (hmarks x).mp hx
    refine Finset.mem_erase_of_ne_of_mem ?_ hmem
    rintro rfl
    exact hnot ⟨hlo, hhi⟩

theorem exec_swept {S : Finset ℤ} {fuel best : ℕ} {dc : Marks} (hfuel : (marked dc).card < fuel)
    (h : Swept S (marked dc) best) {order : List ℤ} (horder : ∀ key ∈ order, key ∈ S) :
    ∃ dc' best', exec (visit fuel) (dc, best) order = some (dc', best') ∧
      Swept S (marked dc') best' ∧
      marked dc' ⊆ marked dc ∧ ∀ key ∈ order, key ∉ marked dc' := by
  induction order generalizing dc best with
  | nil =>
    exact ⟨dc, best, rfl, h, Finset.Subset.refl _, fun key hkey => absurd hkey List.not_mem_nil⟩
  | cons key order ih =>
    obtain ⟨dc₁, best₁, hrun₁, h₁, hsub₁⟩ := visit_swept hfuel h (horder key List.mem_cons_self)
    have hless := hsub₁.trans (Finset.erase_subset key _)
    obtain ⟨dc₂, best₂, hrun₂, h₂, hsub₂, hdone⟩ :=
      ih (Nat.lt_of_le_of_lt (Finset.card_le_card hless) hfuel) h₁ fun x hx =>
        horder x (List.mem_cons_of_mem key hx)
    refine ⟨dc₂, best₂, exec_cons_iff.mpr ⟨_, hrun₁, hrun₂⟩, h₂, hsub₂.trans hless, ?_⟩
    intro x hx
    rcases List.mem_cons.mp hx with rfl | hx
    · exact fun hmem => Finset.notMem_erase x _ (hsub₁ (hsub₂ hmem))
    · exact hdone x hx

theorem longest_consecutive_correct (num order : List ℤ) (horder : order.Perm num.dedup) (fuel : ℕ)
    (hfuel : num.length < fuel) :
    ∃ best, longestConsecutive fuel order num = some best ∧
      IsGreatest {n : ℕ | ∃ a : ℤ, ∀ k : ℕ, k < n → a + k ∈ num} best := by
  have hmem : ∀ key, key ∈ order ↔ key ∈ num.toFinset := by
    intro key
    rw [horder.mem_iff, List.mem_dedup, List.mem_toFinset]
  have hstart : Swept num.toFinset (marked (dictOf num)) 0 := by
    rw [marked_dictOf]
    exact swept_start _
  have hcard : (marked (dictOf num)).card < fuel := by
    rw [marked_dictOf]
    exact Nat.lt_of_le_of_lt (List.toFinset_card_le num) hfuel
  obtain ⟨dc, best, hrun, h, -, hdone⟩ := exec_swept hcard hstart fun key hkey => (hmem key).mp hkey
  refine ⟨best, by rw [longestConsecutive, hrun]; rfl, ?_⟩
  have hempty : marked dc = ∅ := by
    apply Finset.eq_empty_of_forall_notMem
    intro key hkey
    exact hdone key ((hmem key).mpr (h.sub hkey)) hkey
  have hgreatest := h.isGreatest hempty
  simpa only [Run, List.mem_toFinset] using hgreatest

theorem longest_consecutive_repeated :
    [4, 2, 9, 3].Perm ([2, 9, 4, 2, 3] : List ℤ).dedup ∧ ([2, 9, 4, 2, 3] : List ℤ).length < 6 ∧
      ∃ best, longestConsecutive 6 [4, 2, 9, 3] [2, 9, 4, 2, 3] = some best ∧
        IsGreatest {n : ℕ | ∃ a : ℤ, ∀ k : ℕ, k < n → a + k ∈ ([2, 9, 4, 2, 3] : List ℤ)} best := by
  have horder : [4, 2, 9, 3].Perm ([2, 9, 4, 2, 3] : List ℤ).dedup := by decide
  exact ⟨horder, by decide, longest_consecutive_correct [2, 9, 4, 2, 3] [4, 2, 9,
    3] horder 6 (by decide)⟩

end AnalysisPrograms.LongestConsecutive
