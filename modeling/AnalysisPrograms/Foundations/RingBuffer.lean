import Mathlib.Data.Nat.Notation
import Mathlib.Logic.Function.Basic
import Mathlib.Tactic.Basic

namespace Foundations.RingBuffer

variable {α : Type}

def advance (n i : ℕ) : ℕ := if i + 1 = n then 0 else i + 1

def contents (slots : ℕ → α) (n first k : ℕ) : List α :=
  (List.range k).map fun i => slots ((first + i) % n)

theorem advance_lt {n i : ℕ} (hi : i < n) : advance n i < n := by
  unfold advance
  split <;> omega

theorem advance_eq_mod {n i : ℕ} (hi : i < n) : advance n i = (i + 1) % n := by
  unfold advance
  split
  · rename_i h
    rw [h, Nat.mod_self]
  · rw [Nat.mod_eq_of_lt (by omega)]

theorem advance_mod {n : ℕ} (hn : 0 < n) (i : ℕ) : advance n (i % n) = (i + 1) % n := by
  rw [advance_eq_mod (Nat.mod_lt i hn), Nat.mod_add_mod]

theorem mod_ne_of_lt {n first i j : ℕ} (hij : i < j) (hj : j - i < n) :
    (first + i) % n ≠ (first + j) % n := by
  intro h
  have hzero := Nat.sub_mod_eq_zero_of_mod_eq h.symm
  rw [Nat.mod_eq_of_lt (by omega)] at hzero
  omega

theorem contents_succ (slots : ℕ → α) {n first : ℕ} (hf : first < n) (k : ℕ) :
    contents slots n first (k + 1) = slots first :: contents slots n (advance n first) k := by
  unfold contents
  rw [List.range_succ_eq_map, List.map_cons, List.map_map, Nat.add_zero, Nat.mod_eq_of_lt hf]
  congr 1
  apply List.map_congr_left
  intro i _
  rw [Function.comp_apply, advance_eq_mod hf, Nat.mod_add_mod]
  congr 2
  omega

theorem contents_push (slots : ℕ → α) {n k : ℕ} (first : ℕ) (hk : k < n) (x : α) :
    contents (Function.update slots ((first + k) % n) x) n first (k + 1) =
      contents slots n first k ++ [x] := by
  unfold contents
  rw [List.range_succ, List.map_append, List.map_cons, List.map_nil, Function.update_self]
  congr 1
  apply List.map_congr_left
  intro i hi
  have hlt := List.mem_range.mp hi
  apply Function.update_of_ne
  exact mod_ne_of_lt hlt (by omega)

end Foundations.RingBuffer
