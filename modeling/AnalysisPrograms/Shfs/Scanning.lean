import AnalysisPrograms.Shfs.Request

namespace AnalysisPrograms.Shfs

open Foundations Bytes

variable {stop : UInt8 → Bool} {data : ℕ → UInt8} {bytes : List UInt8} {i : ℕ}

theorem scan_slice (stop : UInt8 → Bool) (h : slice data i bytes.length = bytes) :
    scan stop data bytes.length i =
      if bytes.any stop then some (i + (bytes.takeWhile fun b => !stop b).length) else none := by
  induction bytes generalizing i with
  | nil => rfl
  | cons b bytes ih =>
    rw [List.length_cons, slice_succ] at h
    obtain ⟨hb, htail⟩ := List.cons.inj h
    rw [List.length_cons, scan, hb, ih htail, List.any_cons, List.takeWhile_cons]
    cases hs : stop b with
    | true => rfl
    | false =>
      simp only [Bool.false_eq_true, ↓reduceIte, Bool.false_or, Bool.not_false, List.length_cons]
      congr 2
      omega

theorem scan_spec {stop : UInt8 → Bool} {data : ℕ → UInt8} {room i j : ℕ}
    (h : scan stop data room i = some j) :
    i ≤ j ∧ stop (data j) = true ∧ ∀ m, i ≤ m → m < j → stop (data m) = false := by
  induction room generalizing i with
  | zero => cases h
  | succ room ih =>
    by_cases hstop : stop (data i) = true
    · rw [scan, if_pos hstop] at h
      obtain rfl := Option.some.inj h
      exact ⟨le_rfl, hstop, fun m hm hlt => by omega⟩
    · rw [scan, if_neg hstop] at h
      obtain ⟨hle, hj, hbefore⟩ := ih h
      refine ⟨by omega, hj, fun m hm hlt => ?_⟩
      by_cases hmi : m = i
      · rw [hmi]
        exact Bool.eq_false_iff.mpr hstop
      · exact hbefore m (by omega) hlt

theorem scan_eq {stop : UInt8 → Bool} {data : ℕ → UInt8} {room i j j' : ℕ}
    (h : scan stop data room i = some j) (hi : i ≤ j') (hstop : stop (data j') = true)
    (hbefore : ∀ m, i ≤ m → m < j' → stop (data m) = false) : j = j' := by
  obtain ⟨hle, hj, hfirst⟩ := scan_spec h
  by_contra hne
  obtain hlt | hgt := Nat.lt_or_gt_of_ne hne
  · exact Bool.noConfusion ((hbefore j hle hlt).symm.trans hj)
  · exact Bool.noConfusion ((hfirst j' hi hgt).symm.trans hstop)

theorem scan_lt {room j : ℕ} (h : scan stop data room i = some j) : j < i + room := by
  induction room generalizing i with
  | zero => cases h
  | succ room ih =>
    rw [scan] at h
    split_ifs at h
    · obtain rfl := Option.some.inj h
      omega
    · have := ih h
      omega

theorem scan_reaches (stop : UInt8 → Bool) {room k : ℕ} (hi : i ≤ k) (hk : k < i + room)
    (hstop : stop (data k) = true) : ∃ j, scan stop data room i = some j ∧ j ≤ k := by
  induction room generalizing i with
  | zero => omega
  | succ room ih =>
    rw [scan]
    by_cases hs : stop (data i) = true
    · exact ⟨i, if_pos hs, hi⟩
    · rw [if_neg hs]
      have hne : i ≠ k := by
        rintro rfl
        exact hs hstop
      exact ih (by omega) (by omega)

theorem scan_room {room room' j : ℕ} (h : scan stop data room i = some j) (hle : room ≤ room') :
    scan stop data room' i = some j := by
  induction room generalizing i room' with
  | zero => cases h
  | succ room ih =>
    obtain ⟨room', rfl⟩ : ∃ k, room' = k + 1 := ⟨room' - 1, by omega⟩
    rw [scan] at h ⊢
    split_ifs at h ⊢ with hs
    · exact h
    · exact ih h (by omega)

structure Terminated (data : ℕ → UInt8) (bytes : List UInt8) : Prop where
  received : slice data 0 bytes.length = bytes
  nul : data bytes.length = 0

theorem Terminated.slice (h : Terminated data bytes) :
    Bytes.slice data 0 (bytes ++ [0]).length = bytes ++ [0] := by
  rw [List.length_append, slice_add, h.received, Nat.zero_add]
  congr 1
  rw [List.length_singleton, slice_succ, h.nul, slice_zero]

def memoryOf (bytes : List UInt8) (k : ℕ) : UInt8 := bytes.getD k 0

theorem terminated_memoryOf (bytes : List UInt8) : Terminated (memoryOf bytes) bytes where
  received := by
    apply List.ext_getElem
    · rw [length_slice]
    · intro k _ hk
      simp [Bytes.slice, memoryOf, hk]
  nul := by simp [memoryOf]

end AnalysisPrograms.Shfs
