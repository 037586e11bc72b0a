import Mathlib.Data.List.Perm.Subperm
import Mathlib.Tactic.Basic

namespace Foundations.ExclusiveOr

variable {α : Type} {w : ℕ} {xs ys : List (BitVec w)} {m : BitVec w}

def xorAll (xs : List (BitVec w)) : BitVec w := xs.foldr (· ^^^ ·) 0

theorem xorAll_cons (x : BitVec w) (xs : List (BitVec w)) :
    xorAll (x :: xs) = x ^^^ xorAll xs := rfl

theorem xorAll_append (xs ys : List (BitVec w)) : xorAll (xs ++ ys) = xorAll xs ^^^ xorAll ys := by
  induction xs with
  | nil => exact BitVec.zero_xor.symm
  | cons x xs ih => rw [List.cons_append, xorAll_cons, ih, xorAll_cons, BitVec.xor_assoc]

theorem xorAll_perm (h : xs.Perm ys) : xorAll xs = xorAll ys := by
  induction h with
  | nil => rfl
  | cons x _ ih => rw [xorAll_cons, xorAll_cons, ih]
  | swap x y zs =>
    rw [xorAll_cons, xorAll_cons, xorAll_cons, xorAll_cons, ← BitVec.xor_assoc, BitVec.xor_comm y x,
      BitVec.xor_assoc]
  | trans _ _ ih₁ ih₂ => exact ih₁.trans ih₂

theorem xorAll_left_out (h : xs.Perm (m :: ys)) : xorAll ys ^^^ xorAll xs = m := by
  rw [xorAll_perm h, xorAll_cons, BitVec.xor_comm, BitVec.xor_assoc, BitVec.xor_self,
    BitVec.xor_zero]

theorem exists_left_out {zs us : List α} (hnodup : us.Nodup) (hsub : us ⊆ zs)
    (hlen : zs.length = us.length + 1) : ∃ x, zs.Perm (x :: us) := by
  obtain ⟨vs, hvs, hsublist⟩ := List.subperm_of_subset hnodup hsub
  obtain ⟨rest, hrest⟩ := hsublist.exists_perm_append
  have hcount := hrest.length_eq
  rw [List.length_append, hvs.length_eq, hlen] at hcount
  obtain ⟨x, rfl⟩ := List.length_eq_one_iff.mp (Nat.add_left_cancel hcount).symm
  exact ⟨x, hrest.trans ((hvs.append_right [x]).trans List.perm_append_comm)⟩

end Foundations.ExclusiveOr
