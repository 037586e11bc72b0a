import Mathlib.Algebra.Group.Int.Defs
import Mathlib.Algebra.Group.Nat.Defs
import Mathlib.Data.Int.Notation
import Mathlib.Data.List.Nodup
import AnalysisPrograms.Foundations.Execution
import AnalysisPrograms.Foundations.ExclusiveOr

namespace AnalysisPrograms.MissingNum

open Foundations.Execution Foundations.ExclusiveOr

def missingStep (nums : List (BitVec 32)) (rslt : BitVec 32) (i : ℕ) : Option (BitVec 32) :=
  nums[i]?.map fun value => rslt ^^^ (value ^^^ BitVec.ofNat 32 (i + 1))

def missingNumber (nums : List (BitVec 32)) (numsSize : ℕ) : Option (BitVec 32) :=
  exec (missingStep nums) 0 (List.range' 0 numsSize)

def upTo (n : ℕ) : List (BitVec 32) := (List.range n).map (BitVec.ofNat 32)

theorem upTo_succ (n : ℕ) : upTo (n + 1) = upTo n ++ [BitVec.ofNat 32 n] := by
  rw [upTo, List.range_succ, List.map_append]
  rfl

theorem toInt_ofNat_lt {k : ℕ} (hk : k < 2 ^ 31) : (BitVec.ofNat 32 k).toInt = k := by
  rw [BitVec.toInt_eq_toNat_of_lt (by rw [BitVec.toNat_ofNat]; omega), BitVec.toNat_ofNat]
  omega

theorem mem_upTo {n : ℕ} (hn : n ≤ 2 ^ 31) {x : BitVec 32} :
    x ∈ upTo n ↔ 0 ≤ x.toInt ∧ x.toInt < n := by
  rw [upTo, List.mem_map]
  constructor
  · rintro ⟨k, hk, rfl⟩
    rw [List.mem_range] at hk
    rw [toInt_ofNat_lt (by omega)]
    omega
  · rintro ⟨hpos, hlt⟩
    have hnat : (x.toNat : ℤ) = x.toInt := by
      rw [BitVec.toInt_eq_toNat_cond] at hpos ⊢
      split at hpos
      · rw [if_pos ‹_›]
      · omega
    exact ⟨x.toNat, List.mem_range.mpr (by omega), by rw [BitVec.ofNat_toNat, BitVec.setWidth_eq]⟩

theorem nodup_upTo {n : ℕ} (hn : n ≤ 2 ^ 31) : (upTo n).Nodup := by
  apply List.Nodup.map_on _ List.nodup_range
  intro a ha b hb heq
  rw [List.mem_range] at ha hb
  have hint := congrArg BitVec.toInt heq
  rw [toInt_ofNat_lt (by omega), toInt_ofNat_lt (by omega)] at hint
  omega

theorem missingNumber_eq (nums : List (BitVec 32)) :
    missingNumber nums nums.length = some (xorAll nums ^^^ xorAll (upTo (nums.length + 1))) := by
  have hstep : ∀ i rslt, 0 ≤ i → i < 0 + nums.length →
      rslt = xorAll (nums.take i) ^^^ xorAll (upTo (i + 1)) →
        ∃ rslt', missingStep nums rslt i = some rslt' ∧
          rslt' = xorAll (nums.take (i + 1)) ^^^ xorAll (upTo (i + 1 + 1)) := by
    rintro i rslt - hi rfl
    have hget : nums[i]? = some nums[i] := List.getElem?_eq_getElem (by omega)
    refine ⟨_, by rw [missingStep, hget, Option.map_some], ?_⟩
    rw [List.take_add_one, hget, Option.toList_some, xorAll_append, upTo_succ (i + 1),
      xorAll_append]
    simp only [xorAll, List.foldr_cons, List.foldr_nil]
    ac_rfl
  have hstart : (0 : BitVec 32) = xorAll (nums.take 0) ^^^ xorAll (upTo (0 + 1)) := by
    simp [xorAll, upTo]
  obtain ⟨rslt, hrun, rfl⟩ := exec_range _ hstep hstart
  rw [missingNumber, hrun, Nat.zero_add, List.take_length]

theorem missing_number_found (n : ℕ) (hn : n < 2 ^ 31) (nums : List (BitVec 32))
    (hlen : nums.length = n) (hdistinct : nums.Nodup)
    (hrange : ∀ x ∈ nums, 0 ≤ x.toInt ∧ x.toInt ≤ n) :
    ∃ missing, missingNumber nums n = some missing ∧
      0 ≤ missing.toInt ∧ missing.toInt ≤ n ∧ missing ∉ nums ∧
      ∀ x : BitVec 32, 0 ≤ x.toInt → x.toInt ≤ n → x ∉ nums → x = missing := by
  subst hlen
  have hmem : ∀ x : BitVec 32, x ∈ upTo (nums.length + 1) ↔
      0 ≤ x.toInt ∧ x.toInt ≤ nums.length := by
    intro x
    rw [mem_upTo (by omega)]
    omega
  have hall : (upTo (nums.length + 1)).length = nums.length + 1 := by
    rw [upTo, List.length_map, List.length_range]
  obtain ⟨missing, hperm⟩ := exists_left_out hdistinct (fun x hx => (hmem x).mpr (hrange x hx)) hall
  have hfound := (hmem missing).mp (hperm.mem_iff.mpr List.mem_cons_self)
  refine ⟨missing, ?_, hfound.1, hfound.2, ?_, ?_⟩
  · rw [missingNumber_eq, xorAll_left_out hperm]
  · exact (List.nodup_cons.mp (hperm.nodup_iff.mp (nodup_upTo (by omega)))).1
  · intro x hpos hle hx
    rcases List.mem_cons.mp (hperm.mem_iff.mp ((hmem x).mpr ⟨hpos, hle⟩)) with heq | hin
    · exact heq
    · exact absurd hin hx

theorem missing_of_four :
    ∃ missing, missingNumber [0, 4, 1, 3] 4 = some missing ∧ missing ∉ [0, 4, 1, 3] := by
  obtain ⟨missing, hrun, -, -, hnot, -⟩ :=
    missing_number_found 4 (by decide) [0, 4, 1, 3] rfl (by decide) (by simp)
  exact ⟨missing, hrun, hnot⟩

end AnalysisPrograms.MissingNum
