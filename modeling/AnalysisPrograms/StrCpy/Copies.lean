import AnalysisPrograms.StrCpy.Sizes

namespace AnalysisPrograms.StrCpy

open Foundations.BlockMoves Foundations.Indices Foundations.MachineInt

variable {m : Memory} {d s : Address} {n overlap : ℤ} {len : ℕ}

theorem IsString.nul_iff {str : ℤ} (h : IsString m str len) {count : ℕ} (hcount : count ≤ len) :
    m (str + count) = 0 ↔ len = count := by
  constructor
  · intro hnul
    by_contra hne
    exact h.1 count (by omega) hnul
  · rintro rfl
    exact h.2

theorem strLenFrom_eq {str : ℤ} (h : IsString m str len) {left count : ℕ} (hcount : count ≤ len) :
    strLenFrom m str left count = if len ≤ count + left then some len else none := by
  induction left generalizing count with
  | zero =>
    rw [strLenFrom]
    by_cases hend : len = count
    · rw [if_pos ((h.nul_iff hcount).mpr hend), if_pos (by omega), hend]
    · rw [if_neg (mt (h.nul_iff hcount).mp hend), if_neg (by omega)]
  | succ left ih =>
    rw [strLenFrom]
    by_cases hend : len = count
    · rw [if_pos ((h.nul_iff hcount).mpr hend), if_pos (by omega), hend]
    · rw [if_neg (mt (h.nul_iff hcount).mp hend), ih (by omega), Nat.add_right_comm, Nat.add_assoc]

theorem strLen_eq (h : IsString m s.val len) :
    strLen m (some s) = if len < 2 ^ 31 then some (len : ℤ) else none := by
  rw [strLen, strLenFrom_eq h (Nat.zero_le len), Nat.zero_add, intMax]
  by_cases hlen : len < 2 ^ 31
  · rw [if_pos (by omega), if_pos hlen]
    rfl
  · rw [if_neg (by omega), if_neg hlen]
    rfl

theorem abs_distance (d s : Address) :
    (abs (BitVec.ofInt 64 (d.val - s.val))).toInt = distance d s := by
  have hd := d.pos
  have hd' := d.small
  have hs := s.pos
  have hs' := s.small
  exact abs_toInt (by omega) (by omega)

def Accepted (d s : Address) (n overlap : ℤ) : Prop := distance d s ≥ n ∨ overlap ≠ 0

theorem strCpyN_rejected (h : ¬Accepted d s n overlap) :
    strCpyN m (some d) (some s) n overlap = some (none, m) := by
  unfold Accepted at h
  simp only [strCpyN, abs_distance]
  exact if_pos ⟨decide_eq_true (by omega), by omega⟩

def copied (n : ℤ) (len : ℕ) : ℤ := min (n - 1) len

theorem strCpyN_accepted (h : Accepted d s n overlap) (hn : -2 ^ 31 < n) :
    strCpyN m (some d) (some s) n overlap =
      (strLen m (some s)).map fun srcLen =>
        (some d, Function.update
          (if distance d s < n ∧
            ¬d.val < s.val then copyDown m d.val s.val (sizes (min (n - 1) srcLen))
            else copyUp m d.val s.val (sizes (min (n - 1) srcLen)))
          (d.val + min (n - 1) srcLen) 0) := by
  have hdec : decrement n = some (n - 1) := if_neg (by omega)
  have hmin : ∀ srcLen, (if n - 1 < srcLen then n - 1 else srcLen) = min (n - 1) srcLen := by
    intro srcLen
    split
    · omega
    · omega
  have hreject : ¬(decide (distance d s < n) = true ∧ overlap = 0) := by
    rintro ⟨hclose, hoverlap⟩
    have hclose := of_decide_eq_true hclose
    rcases h with h | h
    · omega
    · exact h hoverlap
  simp only [strCpyN, abs_distance, if_neg hreject, hdec, Option.bind_eq_bind,
    Option.bind_some, hmin]
  cases strLen m (some s) with
  | none => rfl
  | some srcLen =>
    rw [Option.bind_some, Option.map_some]
    by_cases hclose : distance d s < n
    · by_cases hless : d.val < s.val
      · simp [hclose, hless]
      · simp [hclose, hless]
    · simp [hclose]

def terminated (m : Memory) (d s k : ℤ) : Memory := Function.update (moved m d s 0 k) (d + k) 0

theorem strCpyN_copies (h : Accepted d s n overlap) (hstr : IsString m s.val len)
    (hlen : len < 2 ^ 31) (hn : 1 ≤ n) (hn' : n < 2 ^ 31) :
    strCpyN m (some d) (some s) n overlap =
      some (some d, terminated m d.val s.val (copied n len)) := by
  have hk : 0 ≤ copied n len := by
    unfold copied
    omega
  have hk' : copied n len < n := by
    unfold copied
    omega
  rw [strCpyN_accepted h (by omega), strLen_eq hstr, if_pos hlen, Option.map_some,
    ← copied, terminated]
  -- the direction is chosen such that no byte is overwritten before it is read
  congr 3
  split
  · rename_i hdown
    exact copyDown_eq hk (by omega) (by omega)
  · rename_i hup
    apply copyUp_eq hk (by omega)
    unfold distance at hup
    omega

section Terminated

variable {d s k : ℤ}

theorem terminated_inside {a : ℤ} (ha : 0 ≤ a) (ha' : a < k) :
    terminated m d s k (d + a) = m (s + a) := by
  rw [terminated, Function.update_of_ne (by omega), moved_inside ha ha']

theorem terminated_nul : terminated m d s k (d + k) = 0 := Function.update_self _ _ _

theorem terminated_outside (hk : 0 ≤ k) {a : ℤ} (ha : a < d ∨ d + k < a) :
    terminated m d s k a = m a := by
  rw [terminated, Function.update_of_ne (by omega), moved_outside (by omega)]

end Terminated

/-- The result of `str_cpy_n` is that of `memmove` with a terminating NUL, or NULL where the copy is
refused. -/
def CopiesLikeMemmove (m : Memory) (d s : Address) (n overlap : ℤ) (len : ℕ) : Prop :=
  ∃ r m', strCpyN m (some d) (some s) n overlap = some (r, m') ∧
    (Accepted d s n overlap →
      (∀ k : ℤ, 0 ≤ k → k < copied n len → m' (d.val + k) = m (s.val + k)) ∧
      m' (d.val + copied n len) = 0 ∧
        ∀ a, a < d.val ∨ d.val + copied n len < a → m' a = m a) ∧
    (¬Accepted d s n overlap → r = none ∧ m' = m)

theorem str_cpy_n_iff (m : Memory) (d s : Address) (n overlap : ℤ) (len : ℕ)
    (hstr : IsString m s.val len) (hn : 1 ≤ n) (hn' : n < 2 ^ 31) :
    CopiesLikeMemmove m d s n overlap len ↔ (Accepted d s n overlap → len < 2 ^ 31) := by
  by_cases hacc : Accepted d s n overlap
  · by_cases hlen : len < 2 ^ 31
    · have hk : 0 ≤ copied n len := by
        unfold copied
        omega
      refine iff_of_true ⟨_, _, strCpyN_copies hacc hstr hlen hn hn', fun _ => ?_,
        fun hnot => absurd hacc hnot⟩
        fun _ => hlen
      exact ⟨fun k => terminated_inside, terminated_nul, fun a => terminated_outside hk⟩
    · refine iff_of_false ?_ fun hall => hlen (hall hacc)
      rintro ⟨r, m', hrun, -⟩
      rw [strCpyN_accepted hacc (by omega), strLen_eq hstr, if_neg hlen] at hrun
      cases hrun
  · refine iff_of_true ⟨none, m, strCpyN_rejected hacc, ?_, fun _ => ⟨rfl, rfl⟩⟩ ?_
    · exact fun h => absurd h hacc
    · exact fun h => absurd h hacc

def shortText : Memory :=
  fun a => if a = 16 then 97 else if a = 17 then 98 else if a = 18 then 99 else 0

theorem shortText_isString : IsString shortText 16 3 := by
  refine ⟨?_, rfl⟩
  intro k hk
  match k, hk with
  | 0, _ => decide
  | 1, _ => decide
  | 2, _ => decide

def at8 : Address := ⟨8, by omega, by omega⟩

def at16 : Address := ⟨16, by omega, by omega⟩

theorem str_cpy_n_short :
    IsString shortText at16.val 3 ∧ Accepted at8 at16 3 0 ∧
      CopiesLikeMemmove shortText at8 at16 3 0 3 := by
  have hiff := str_cpy_n_iff shortText at8 at16 3 0 3 shortText_isString (by omega) (by omega)
  exact ⟨shortText_isString, .inl (by decide), hiff.mpr fun _ => by omega⟩

def longText : Memory := fun a => if a = 16 + 2147483648 then 0 else 97

theorem longText_isString : IsString longText at16.val 2147483648 := by
  refine ⟨?_, if_pos rfl⟩
  intro k hk
  have hne : at16.val + (k : ℤ) ≠ 16 + 2147483648 := by
    change 16 + (k : ℤ) ≠ 16 + 2147483648
    omega
  rw [longText, if_neg hne]
  decide

theorem str_cpy_n_overflows :
    IsString longText at16.val 2147483648 ∧ Accepted at8 at16 2 0 ∧
      strCpyN longText (some at8) (some at16) 2 0 = none ∧
      ¬CopiesLikeMemmove longText at8 at16 2 0 2147483648 := by
  have hacc : Accepted at8 at16 2 0 := .inl (by decide)
  have hrun : strCpyN longText (some at8) (some at16) 2 0 = none := by
    rw [strCpyN_accepted hacc (by omega), strLen_eq longText_isString, if_neg (by omega)]
    rfl
  refine ⟨longText_isString, hacc, hrun, ?_⟩
  rintro ⟨r, m', hrun', -⟩
  rw [hrun] at hrun'
  cases hrun'

end AnalysisPrograms.StrCpy
