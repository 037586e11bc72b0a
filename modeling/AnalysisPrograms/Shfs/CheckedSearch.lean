import AnalysisPrograms.Foundations.Matching
import AnalysisPrograms.Shfs.Text

namespace AnalysisPrograms.Shfs

open Foundations Matching

def elementAt (bytes : List UInt8) (j : ℤ) : Option UInt8 := if 0 ≤ j then bytes[j.toNat]? else none

def compareIn (sub : ℤ → Option UInt8) : ℕ → ℤ → ℤ → Option Unit
  | 0, _, _ => none
  | turns + 1, left, right =>
    if right ≥ 0 then do
      let a ← sub left
      let b ← sub right
      if a ≠ b then some () else compareIn sub turns (left - 1) (right - 1)
    else some ()

def maxLenLoopIn (sub : ℤ → Option UInt8) (passLen : ℕ) : ℕ → Option ℤ
  | 0 => some 0
  | maxLen + 1 => do
    compareIn sub (passLen + 1) maxLen (passLen - 1)
    maxLenLoopIn sub passLen maxLen

def findMaxRepeatIn (sub : ℤ → Option UInt8) (passLen : ℕ) : Option ℤ := do
  guard (1 < passLen ∧ (List.range (passLen + 1)).all fun k => (sub k).any (· ≠ 0))
  maxLenLoopIn sub passLen (passLen - 1)

def kmpLoopIn (str : ℕ → Option UInt8) (strLen : ℕ) (sub : ℤ → Option UInt8) (subLen : ℕ) :
    ℕ → ℕ → ℤ → Option ℤ
  | 0, _, _ => none
  | turns + 1, i, j =>
    if (strLen : ℤ) - i > subLen - j then
      if (subLen : ℤ) = j then some (i - j)
      else do
        let a ← str i
        let b ← sub j
        if a = b then kmpLoopIn str strLen sub subLen turns (i + 1) (j + 1)
        else if j > 1 then do
          let j ← findMaxRepeatIn sub j.toNat
          kmpLoopIn str strLen sub subLen turns (i + 1) j
        else kmpLoopIn str strLen sub subLen turns (i + 1) (j - 1)
    else some (-1)

def findStringIn (str : ℕ → Option UInt8) (strLen : ℕ) (sub : ℤ → Option UInt8) (subLen : ℕ) :
    Option ℤ :=
  if subLen = 0 then some (-1) else kmpLoopIn str strLen sub subLen (strLen + 1) 0 0

section Unchecked

variable {str : ℕ → UInt8} {sub : ℤ → UInt8} {strIn : ℕ → Option UInt8} {subIn : ℤ → Option UInt8}
  {strLen subLen : ℕ}

theorem maxLenLoop_eq (sub : ℤ → UInt8) (passLen maxLen : ℕ) :
    maxLenLoop sub passLen maxLen = 0 := by
  induction maxLen with
  | zero => rfl
  | succ maxLen ih => exact ih

theorem maxLenLoopIn_result {passLen maxLen : ℕ} {r : ℤ}
    (h : maxLenLoopIn subIn passLen maxLen = some r) : r = 0 := by
  induction maxLen with
  | zero => exact (Option.some.inj h).symm
  | succ maxLen ih =>
    obtain ⟨-, -, hr⟩ := Option.bind_eq_some_iff.mp h
    exact ih hr

theorem findMaxRepeat_of_in (hsub : ∀ j b, subIn j = some b → sub j = b) {passLen : ℕ} {r : ℤ}
    (h : findMaxRepeatIn subIn passLen = some r) : findMaxRepeat sub passLen = some r := by
  obtain ⟨_, hguard, hloop⟩ := Option.bind_eq_some_iff.mp h
  obtain ⟨hlen, hall⟩ := (Option.guard_eq_some' _).mp hguard
  obtain rfl := maxLenLoopIn_result hloop
  have hall' : ((List.range (passLen + 1)).all fun k => sub k ≠ 0) = true := by
    rw [List.all_eq_true] at hall ⊢
    intro k hk
    obtain ⟨b, hb, hne⟩ := (Option.any_eq_true _ _).mp (hall k hk)
    rw [hsub k b hb]
    exact hne
  rw [findMaxRepeat, (Option.guard_eq_some' ()).mpr ⟨hlen, hall'⟩, maxLenLoop_eq]
  rfl

theorem kmpLoop_of_in (hstr : ∀ i a, strIn i = some a → str i = a)
    (hsub : ∀ j b, subIn j = some b → sub j = b) {turns i : ℕ} {j r : ℤ}
    (h : kmpLoopIn strIn strLen subIn subLen turns i j = some r) :
    kmpLoop str strLen sub subLen turns i j = some r := by
  induction turns generalizing i j with
  | zero => cases h
  | succ turns ih =>
    rw [kmpLoopIn] at h
    rw [kmpLoop]
    by_cases hguard : (strLen : ℤ) - i > subLen - j
    swap
    · rw [if_neg hguard] at h ⊢
      exact h
    rw [if_pos hguard] at h ⊢
    by_cases hend : (subLen : ℤ) = j
    · rw [if_pos hend] at h ⊢
      exact h
    rw [if_neg hend] at h ⊢
    obtain ⟨a, ha, h⟩ := Option.bind_eq_some_iff.mp h
    obtain ⟨b, hb, h⟩ := Option.bind_eq_some_iff.mp h
    rw [hstr i a ha, hsub j b hb]
    split_ifs at h ⊢ with hab hj
    · exact ih h
    · obtain ⟨j', hj', h⟩ := Option.bind_eq_some_iff.mp h
      rw [findMaxRepeat_of_in hsub hj']
      exact ih h
    · exact ih h

theorem findStringKmp_of_in (hstr : ∀ i a, strIn i = some a → str i = a)
    (hsub : ∀ j b, subIn j = some b → sub j = b) {r : ℤ}
    (h : findStringIn strIn strLen subIn subLen = some r) :
    findStringKmp str strLen sub subLen = some r := by
  unfold findStringIn at h
  unfold findStringKmp
  split_ifs at h ⊢ with hlen
  · exact h
  · exact kmpLoop_of_in hstr hsub h

end Unchecked

section Arrays

def byteAt (bytes : List UInt8) (k : ℕ) : Option UInt8 := bytes[k]?

variable {str sub : List UInt8}

theorem elementAt_natCast (bytes : List UInt8) (k : ℕ) : elementAt bytes k = byteAt bytes k := by
  rw [elementAt, if_pos (Int.natCast_nonneg k), Int.toNat_natCast, byteAt]

theorem compareIn_eq {l r turns : ℕ} (hlr : l < r) (hr : r ≤ sub.length) (hturns : l < turns) :
    compareIn (elementAt sub) turns ((l : ℤ) - 1) ((r : ℤ) - 1) = none ↔
      MatchAt (byteAt sub) (byteAt sub) (r - l) l := by
  induction l generalizing r turns with
  | zero =>
    obtain ⟨turns, rfl⟩ : ∃ k, turns = k + 1 := ⟨turns - 1, by omega⟩
    refine iff_of_true ?_ (matchAt_zero _ _ _)
    rw [compareIn, if_pos (by omega)]
    rfl
  | succ l ih =>
    obtain ⟨turns, rfl⟩ : ∃ k, turns = k + 1 := ⟨turns - 1, by omega⟩
    obtain ⟨r, rfl⟩ : ∃ k, r = k + 1 := ⟨r - 1, by omega⟩
    have hl : byteAt sub l = some sub[l] := List.getElem?_eq_getElem (by omega)
    have hr' : byteAt sub r = some sub[r] := List.getElem?_eq_getElem (by omega)
    rw [compareIn, if_pos (by omega), Nat.cast_succ, Nat.cast_succ, Int.add_sub_cancel,
      Int.add_sub_cancel, elementAt_natCast, elementAt_natCast, hl, hr', Nat.add_sub_add_right,
      matchAt_succ, Nat.sub_add_cancel (by omega), hl, hr', Option.some.injEq]
    simp only [Option.bind_eq_bind, Option.bind_some]
    by_cases hne : sub[l] = sub[r]
    · rw [if_neg (not_not.mpr hne), ih (by omega) (by omega) (by omega)]
      exact (and_iff_left hne.symm).symm
    · rw [if_pos hne]
      refine iff_of_false (Option.some_ne_none ()) ?_
      exact fun h => hne h.2.symm

def Unbordered (sub : List UInt8) (k : ℕ) : Prop := ∀ b, Border (byteAt sub) k b → b = 0

theorem maxLenLoopIn_eq {passLen maxLen : ℕ} (hlt : maxLen < passLen)
    (hpass : passLen ≤ sub.length) :
    maxLenLoopIn (elementAt sub) passLen maxLen = some 0 ↔
      ∀ b, Border (byteAt sub) passLen b → b ≤ maxLen → b = 0 := by
  induction maxLen with
  | zero => exact iff_of_true rfl fun b _ hb => Nat.le_zero.mp hb
  | succ maxLen ih =>
    have hcompare := compareIn_eq hlt hpass (show maxLen + 1 < passLen + 1 by omega)
    rw [Nat.cast_succ, Int.add_sub_cancel] at hcompare
    rw [maxLenLoopIn]
    cases hc : compareIn (elementAt sub) (passLen + 1) maxLen ((passLen : ℤ) - 1) with
    | none =>
      refine iff_of_false (by simp) ?_
      intro hall
      exact absurd (hall (maxLen + 1) ⟨hlt, hcompare.mp hc⟩ (Nat.le_refl _))
        (Nat.succ_ne_zero maxLen)
    | some u =>
      rw [Option.bind_eq_bind, Option.bind_some, ih (by omega)]
      have hno : ¬Border (byteAt sub) passLen (maxLen + 1) := by
        rintro ⟨-, hm⟩
        rw [hcompare.mpr hm] at hc
        cases hc
      constructor
      · intro hall b hb hle
        rcases Nat.le_succ_iff.mp hle with h | rfl
        · exact hall b hb h
        · exact absurd hb hno
      · intro hall b hb hle
        exact hall b hb (by omega)

def Passes (sub : List UInt8) (k : ℕ) : Prop := 2 ≤ k → Unbordered sub k ∧ 0 ∉ sub.take (k + 1)

theorem strlen_assertion {k : ℕ} (hk : k < sub.length) :
    ((List.range (k + 1)).all fun x => (elementAt sub x).any (· ≠ 0)) = true ↔
      0 ∉ sub.take (k + 1) := by
  rw [List.all_eq_true]
  constructor
  · intro h hmem
    obtain ⟨x, hx, hzero⟩ := List.mem_take_iff_getElem.mp hmem
    have hx' := h x (List.mem_range.mpr (by omega))
    rw [elementAt_natCast, byteAt, List.getElem?_eq_getElem (by omega), hzero] at hx'
    cases hx'
  · intro h x hx
    have hlt : x < k + 1 := List.mem_range.mp hx
    rw [elementAt_natCast, byteAt, List.getElem?_eq_getElem (by omega), Option.any_some]
    apply decide_eq_true
    intro hzero
    exact h (List.mem_take_iff_getElem.mpr ⟨x, by omega, hzero⟩)

theorem findMaxRepeatIn_cases {k : ℕ} (hk : 2 ≤ k) (hlt : k < sub.length) :
    (Passes sub k ∧ findMaxRepeatIn (elementAt sub) k = some 0) ∨
      (¬Passes sub k ∧ findMaxRepeatIn (elementAt sub) k = none) := by
  have hloop : maxLenLoopIn (elementAt sub) k (k - 1) = some 0 ↔ Unbordered sub k := by
    rw [maxLenLoopIn_eq (by omega) (by omega)]
    constructor
    · intro h b hb
      exact h b hb (Nat.le_sub_one_of_lt hb.1)
    · intro h b hb _
      exact h b hb
  have hresult {r : ℤ} (h : findMaxRepeatIn (elementAt sub) k = some r) : r = 0 ∧ Passes sub k := by
    obtain ⟨_, hguard, hr⟩ := Option.bind_eq_some_iff.mp h
    obtain ⟨-, hall⟩ := (Option.guard_eq_some' _).mp hguard
    obtain rfl := maxLenLoopIn_result hr
    exact ⟨rfl, fun _ => ⟨hloop.mp hr, (strlen_assertion hlt).mp hall⟩⟩
  cases h : findMaxRepeatIn (elementAt sub) k with
  | some r =>
    obtain ⟨rfl, hp⟩ := hresult h
    exact .inl ⟨hp, rfl⟩
  | none =>
    refine .inr ⟨?_, rfl⟩
    intro hp
    obtain ⟨hun, hnul⟩ := hp hk
    rw [findMaxRepeatIn,
      (Option.guard_eq_some' ()).mpr ⟨by omega, (strlen_assertion hlt).mpr hnul⟩] at h
    cases h.symm.trans (hloop.mpr hun)

end Arrays

end AnalysisPrograms.Shfs
