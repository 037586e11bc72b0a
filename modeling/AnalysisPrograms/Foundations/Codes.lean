import Mathlib.Algebra.Group.Nat.Defs
import Mathlib.Data.List.Basic

namespace Foundations.Codes

variable {α β : Type} {f : β → List α}

def SelfDelimiting (f : β → List α) : Prop := ∀ x y s t, f x ++ s = f y ++ t → x = y

theorem selfDelimiting_of_length {width : ℕ} (hlen : ∀ x, (f x).length = width)
    (hinj : Function.Injective f) : SelfDelimiting f := by
  intro x y s t h
  exact hinj (List.append_inj_left h (by rw [hlen, hlen]))

theorem append_stop_inj {stop : α} {xs ys s t : List α} (hx : stop ∉ xs) (hy : stop ∉ ys)
    (h : xs ++ stop :: s = ys ++ stop :: t) : xs = ys := by
  rcases List.append_eq_append_iff.mp h with ⟨as, rfl, has⟩ | ⟨as, rfl, has⟩
  · cases as with
    | nil => exact (List.append_nil xs).symm
    | cons a as =>
      obtain ⟨rfl, -⟩ := List.cons.inj has
      exact absurd (List.mem_append_right xs List.mem_cons_self) hy
  · cases as with
    | nil => exact List.append_nil ys
    | cons a as =>
      obtain ⟨rfl, -⟩ := List.cons.inj has
      exact absurd (List.mem_append_right ys List.mem_cons_self) hx

theorem selfDelimiting_of_stop {stop : α} (hstop : ∀ x, stop ∉ f x) (hinj : Function.Injective f) :
    SelfDelimiting fun x => f x ++ [stop] := by
  intro x y s t h
  rw [List.append_assoc, List.append_assoc] at h
  exact hinj (append_stop_inj (hstop x) (hstop y) h)

theorem SelfDelimiting.flatMap_injective (h : SelfDelimiting f) (hne : ∀ x, f x ≠ []) :
    Function.Injective fun xs : List β => xs.flatMap f := by
  intro xs
  induction xs with
  | nil =>
    intro ys heq
    cases ys with
    | nil => rfl
    | cons y ys =>
      have hnil : f y ++ ys.flatMap f = [] := heq.symm
      exact absurd (List.append_eq_nil_iff.mp hnil).1 (hne y)
  | cons x xs ih =>
    intro ys heq
    cases ys with
    | nil =>
      have hnil : f x ++ xs.flatMap f = [] := heq
      exact absurd (List.append_eq_nil_iff.mp hnil).1 (hne x)
    | cons y ys =>
      have hcons : f x ++ xs.flatMap f = f y ++ ys.flatMap f := heq
      obtain rfl := h x y _ _ hcons
      rw [ih (List.append_cancel_left hcons)]

section Digits

variable {digit : ℕ → α} {base : ℕ}

def digits (digit : ℕ → α) (base : ℕ) : ℕ → ℕ → List α
  | 0, _ => []
  | width + 1, n => digits digit base width (n / base) ++ [digit (n % base)]

theorem length_digits (digit : ℕ → α) (base width n : ℕ) :
    (digits digit base width n).length = width := by
  induction width generalizing n with
  | zero => rfl
  | succ width ih => rw [digits, List.length_append, ih, List.length_singleton]

theorem exists_of_mem_digits (hbase : 0 < base) {width n : ℕ} {c : α}
    (h : c ∈ digits digit base width n) : ∃ d, d < base ∧ c = digit d := by
  induction width generalizing n with
  | zero => cases h
  | succ width ih =>
    rcases List.mem_append.mp h with h | h
    · exact ih h
    · exact ⟨n % base, Nat.mod_lt n hbase, List.mem_singleton.mp h⟩

theorem digits_inj (hdigit : ∀ d e, d < base → e < base → digit d = digit e → d = e)
    (hbase : 0 < base) {width n k : ℕ} (hn : n < base ^ width) (hk : k < base ^ width)
    (h : digits digit base width n = digits digit base width k) : n = k := by
  induction width generalizing n k with
  | zero =>
    rw [Nat.pow_zero] at hn hk
    omega
  | succ width ih =>
    rw [Nat.pow_succ, Nat.mul_comm] at hn hk
    obtain ⟨hinit, hlast⟩ := List.append_inj' h rfl
    have hdiv := ih (Nat.div_lt_of_lt_mul hn) (Nat.div_lt_of_lt_mul hk) hinit
    have hmod := hdigit _ _ (Nat.mod_lt n hbase) (Nat.mod_lt k hbase) (List.cons.inj hlast).1
    rw [← Nat.div_add_mod n base, ← Nat.div_add_mod k base, hdiv, hmod]

end Digits

end Foundations.Codes
