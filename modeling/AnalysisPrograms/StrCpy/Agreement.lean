import AnalysisPrograms.StrCpy.Copies

namespace AnalysisPrograms.StrCpy

open Foundations.BlockMoves Foundations.Indices Foundations.MachineInt

variable {m : Memory} {len : ℕ}

theorem update_moved {d s c : ℤ} (hc : 0 ≤ c) (h : d ≤ s ∨ s + c < d) :
    Function.update (moved m d s 0 c) (d + c) (moved m d s 0 c (s + c)) =
      moved m d s 0 (c + 1) := by
  rw [← moveAt_one, moveAt, Int.natCast_one, Int.one_mul]
  exact move_forward hc (by omega)

theorem cpyLoop_eq {d s : ℤ} (hstr : IsString m s len) (hdist : d ≤ s ∨ s + len < d) {n c : ℕ}
    (hc : c ≤ len) :
    (cpyLoop n (moved m d s 0 c) (d + c) (s + c)).1 = terminated m d s (min (c + n) len : ℕ) := by
  induction n generalizing c with
  | zero =>
    rw [cpyLoop, terminated, Nat.add_zero, Nat.min_eq_left hc]
  | succ n ih =>
    have hread : moved m d s 0 c (s + c) = m (s + c) := moved_outside (by omega)
    rw [cpyLoop, update_moved (by omega) (by omega), moved_inside (by omega) (by omega)]
    by_cases hend : len = c
    · rw [if_pos ((hstr.nul_iff hc).mpr hend), hend, Nat.min_eq_right (by omega)]
      change moved m d s 0 (c + 1) = terminated m d s c
      rw [terminated, ← update_moved (by omega) (by omega), hread, (hstr.nul_iff hc).mpr hend]
    · rw [if_neg (mt (hstr.nul_iff hc).mp hend)]
      have hnext := ih (c := c + 1) (by omega)
      rw [Int.natCast_succ, ← Int.add_assoc, ← Int.add_assoc, Nat.add_assoc,
        Nat.add_comm 1] at hnext
      exact hnext

theorem cpystrn_eq {d s : ℤ} (hstr : IsString m s len) (hdist : d ≤ s ∨ s + len < d) {n : ℕ}
    (hn : 1 ≤ n) : (cpystrn m d s n).1 = terminated m d s (copied n len) := by
  obtain ⟨n, rfl⟩ := Nat.exists_eq_add_one_of_ne_zero (by omega : n ≠ 0)
  have hloop := cpyLoop_eq (n := n) hstr hdist (Nat.zero_le len)
  rw [Int.natCast_zero, Int.add_zero, Int.add_zero, moved_empty (Int.le_refl 0),
    Nat.zero_add] at hloop
  rw [cpystrn, hloop]
  congr 1
  unfold copied
  omega

theorem strCpyN_zero {d s : Address} {overlap : ℤ} (hstr : IsString m s.val len)
    (hlen : len < 2 ^ 31) :
    strCpyN m (some d) (some s) 0 overlap =
      some (some d, Function.update ((upTo (-8) (-1)).foldl (moveAt 1 d.val s.val) m)
        (d.val + -1) 0) := by
  have hacc : Accepted d s 0 overlap := .inl (Int.natCast_nonneg _)
  have hmin : min (0 - 1 : ℤ) len = -1 := by omega
  have hup : ¬(distance d s < 0 ∧ ¬d.val < s.val) :=
    fun hdown => Int.not_lt.mpr (Int.natCast_nonneg _) hdown.1
  rw [strCpyN_accepted hacc (by omega), strLen_eq hstr, if_pos hlen, Option.map_some, hmin,
    sizes_neg_one, if_neg hup]
  rfl

theorem update_eq_iff {f m : Memory} {a : ℤ} (h : f a = m a) :
    Function.update f a 0 = m ↔ m a = 0 ∧ f = m := by
  constructor
  · intro heq
    have ha : m a = 0 := by rw [← heq, Function.update_self]
    refine ⟨ha, ?_⟩
    rw [← heq, eq_comm, Function.update_eq_self_iff, h, ha]
  · rintro ⟨ha, rfl⟩
    rw [← ha, Function.update_eq_self]

def SameMemory (m : Memory) (d s : Address) (n overlap : ℤ) : Prop :=
  ∃ r m', strCpyN m (some d) (some s) n overlap = some (r, m') ∧
    m' = (cpystrn m d.val s.val n.toNat).1

/-- What `str_cpy_n` writes in front of the destination when there is no room at all stands there
already. -/
def FrontUnchanged (m : Memory) (d s : Address) : Prop :=
  (∀ k : ℤ, -8 ≤ k → k < -1 → m (d.val + k) = m (s.val + k)) ∧ m (d.val - 1) = 0

theorem sameMemory_zero_iff {d s : Address} {overlap : ℤ} (hstr : IsString m s.val len)
    (hlen : len < 2 ^ 31) : SameMemory m d s 0 overlap ↔ FrontUnchanged m d s := by
  have hout : (upTo (-8) (-1)).foldl (moveAt 1 d.val s.val) m (d.val + -1) = m (d.val + -1) := by
    apply foldl_moveAt_one_outside
    intro i hi
    have hlt := (mem_upTo.mp hi).2
    omega
  have hiff :=
    (update_eq_iff hout).trans
      (and_congr_right fun _ => foldl_moveAt_one_eq_iff (nodup_upTo (-8) (-1)))
  simp only [mem_upTo, and_imp] at hiff
  rw [FrontUnchanged, Int.sub_eq_add_neg, and_comm, ← hiff, SameMemory, strCpyN_zero hstr hlen]
  constructor
  · rintro ⟨r, m', hrun, hsame⟩
    rw [(Prod.mk.inj (Option.some.inj hrun)).2, hsame]
    rfl
  · intro hsame
    exact ⟨_, _, rfl, hsame⟩

theorem sameMemory_of_room {d s : Address} {n overlap : ℤ} (hstr : IsString m s.val len)
    (hlen : len < 2 ^ 31) (hn : 1 ≤ n) (hn' : n < 2 ^ 31) (hroom : n ≤ distance d s)
    (hapart : len + 1 ≤ distance d s) : SameMemory m d s n overlap := by
  refine ⟨_, _, strCpyN_copies (.inl hroom) hstr hlen hn hn', ?_⟩
  unfold distance at hapart
  rw [cpystrn_eq hstr (by omega) (by omega), Int.toNat_of_nonneg (by omega)]

theorem string_copies_agree_iff (m : Memory) (d s : Address) (n overlap : ℤ) (len : ℕ)
    (hstr : IsString m s.val len) (hn : 0 ≤ n) (hn' : n < 2 ^ 31) (hroom : n ≤ distance d s)
    (hapart : len + 1 ≤ distance d s) :
    SameMemory m d s n overlap ↔ len < 2 ^ 31 ∧ (1 ≤ n ∨ FrontUnchanged m d s) := by
  by_cases hlen : len < 2 ^ 31
  · rw [and_iff_right hlen]
    by_cases hpos : 1 ≤ n
    · exact iff_of_true (sameMemory_of_room hstr hlen hpos hn' hroom hapart) (.inl hpos)
    · obtain rfl : n = 0 := by omega
      rw [sameMemory_zero_iff hstr hlen, or_iff_right hpos]
  · refine iff_of_false ?_ fun h => hlen h.1
    rintro ⟨r, m', hrun, -⟩
    rw [strCpyN_accepted (.inl hroom) (by omega), strLen_eq hstr, if_neg hlen] at hrun
    cases hrun

theorem string_copies_agree_short :
    IsString shortText at16.val 3 ∧ 3 ≤ distance at8 at16 ∧ SameMemory shortText at8 at16 3 0 := by
  have hiff := string_copies_agree_iff shortText at8 at16 3 0 3 shortText_isString (by omega)
    (by omega) (by decide)
    (by decide)
  exact ⟨shortText_isString, by decide, hiff.mpr ⟨by omega, .inl (by omega)⟩⟩

def at24 : Address := ⟨24, by omega, by omega⟩

theorem string_copies_differ :
    IsString shortText at16.val 3 ∧ ((3 : ℕ) : ℤ) + 1 ≤ distance at24 at16 ∧
      ¬SameMemory shortText at24 at16 0 0 := by
  refine ⟨shortText_isString, by decide, ?_⟩
  rw [sameMemory_zero_iff shortText_isString (by omega)]
  rintro ⟨hfront, -⟩
  have hfirst := hfront (-8) (by omega) (by omega)
  cases hfirst

end AnalysisPrograms.StrCpy
