import Mathlib.Algebra.BigOperators.Group.Finset.Basic
import Mathlib.Algebra.BigOperators.Group.Finset.Piecewise
import Mathlib.Data.Finmap

namespace Foundations.FiniteMap

abbrev Map (K V : Type) := Finmap fun _ : K => V

variable {K V : Type} [DecidableEq K]

theorem lookup_insert_cases {m : Map K V} {a k : K} {b v : V}
    (h : (m.insert a b).lookup k = some v) : k = a ∧ v = b ∨ k ≠ a ∧ m.lookup k = some v := by
  by_cases hk : k = a
  · subst hk
    rw [Finmap.lookup_insert] at h
    exact .inl ⟨rfl, (Option.some.inj h).symm⟩
  · rw [Finmap.lookup_insert_of_ne _ hk] at h
    exact .inr ⟨hk, h⟩

theorem lookup_erase_some {m : Map K V} {a k : K} {v : V} (h : (m.erase a).lookup k = some v) :
    k ≠ a ∧ m.lookup k = some v := by
  by_cases hk : k = a
  · subst hk
    simp at h
  · exact ⟨hk, Finmap.lookup_erase_ne hk ▸ h⟩

theorem insert_of_lookup {m : Map K V} {a : K} {b : V} (h : m.lookup a = some b) :
    m.insert a b = m := by
  apply Finmap.ext_lookup
  intro k
  by_cases hk : k = a
  · subst hk
    rw [Finmap.lookup_insert, h]
  · rw [Finmap.lookup_insert_of_ne _ hk]

theorem mem_insert_of_lookup {m : Map K V} {a : K} {b : V} (h : m.lookup a = some b) (c : V)
    (k : K) : k ∈ m.insert a c ↔ k ∈ m := by
  rw [Finmap.mem_insert, or_iff_right_of_imp]
  rintro rfl
  exact Finmap.mem_iff.mpr ⟨b, h⟩

theorem erase_insert (m : Map K V) (a : K) (b : V) : (m.insert a b).erase a = m.erase a := by
  apply Finmap.ext_lookup
  intro k
  by_cases hk : k = a
  · subst hk
    rw [Finmap.lookup_erase, Finmap.lookup_erase]
  · rw [Finmap.lookup_erase_ne hk, Finmap.lookup_insert_of_ne _ hk, Finmap.lookup_erase_ne hk]

theorem erase_insert_of_ne (m : Map K V) {a c : K} (b : V) (h : a ≠ c) :
    (m.insert a b).erase c = (m.erase c).insert a b := by
  apply Finmap.ext_lookup
  intro k
  by_cases hk : k = c
  · subst hk
    rw [Finmap.lookup_erase, Finmap.lookup_insert_of_ne _ h.symm, Finmap.lookup_erase]
  · rw [Finmap.lookup_erase_ne hk]
    by_cases ha : k = a
    · subst ha
      rw [Finmap.lookup_insert, Finmap.lookup_insert]
    · rw [Finmap.lookup_insert_of_ne _ ha, Finmap.lookup_insert_of_ne _ ha,
        Finmap.lookup_erase_ne hk]

theorem erase_of_notMem {m : Map K V} {a : K} (h : a ∉ m) : m.erase a = m := by
  apply Finmap.ext_lookup
  intro k
  by_cases hk : k = a
  · subst hk
    rw [Finmap.lookup_erase, Finmap.lookup_eq_none.mpr h]
  · rw [Finmap.lookup_erase_ne hk]

def valueAt (m : Map K V) (dflt : V) (k : K) : V := (m.lookup k).getD dflt

theorem valueAt_insert (m : Map K V) (dflt : V) (a : K) (b : V) (k : K) :
    valueAt (m.insert a b) dflt k = if k = a then b else valueAt m dflt k := by
  unfold valueAt
  by_cases hk : k = a
  · subst hk
    simp
  · simp [hk]

theorem valueAt_erase (m : Map K V) (dflt : V) (a k : K) :
    valueAt (m.erase a) dflt k = if k = a then dflt else valueAt m dflt k := by
  unfold valueAt
  by_cases hk : k = a
  · subst hk
    simp
  · simp [hk, Finmap.lookup_erase_ne]

theorem valueAt_of_notMem {m : Map K V} (dflt : V) {k : K} (h : k ∉ m) :
    valueAt m dflt k = dflt := by
  rw [valueAt, Finmap.lookup_eq_none.mpr h]
  rfl

theorem valueAt_of_lookup {m : Map K V} (dflt : V) {k : K} {v : V} (h : m.lookup k = some v) :
    valueAt m dflt k = v := by
  rw [valueAt, h]
  rfl

theorem keys_insert (m : Map K V) (a : K) (b : V) : (m.insert a b).keys = insert a m.keys := by
  ext k
  simp [Finmap.mem_keys]

def total (m : Map K V) (dflt : V) (f : V → ℕ) : ℕ := ∑ k ∈ m.keys, f (valueAt m dflt k)

theorem total_eq_erase (m : Map K V) (dflt : V) (f : V → ℕ) (hf : f dflt = 0) (k : K) :
    total m dflt f = f (valueAt m dflt k) + ∑ x ∈ m.keys.erase k, f (valueAt m dflt x) := by
  by_cases hk : k ∈ m
  · exact (Finset.add_sum_erase m.keys (fun x => f (valueAt m dflt x))
      (Finmap.mem_keys.mpr hk)).symm
  · rw [valueAt_of_notMem dflt hk, hf, Nat.zero_add,
      Finset.erase_eq_of_notMem (fun hc => hk (Finmap.mem_keys.mp hc)), total]

theorem total_insert (m : Map K V) (dflt : V) (f : V → ℕ) (hf : f dflt = 0) (k : K) (v : V) :
    total (m.insert k v) dflt f + f (valueAt m dflt k) = total m dflt f + f v := by
  have hrest : ∑ x ∈ (m.insert k v).keys.erase k, f (valueAt (m.insert k v) dflt x) =
      ∑ x ∈ m.keys.erase k, f (valueAt m dflt x) := by
    rw [keys_insert, Finset.erase_insert_eq_erase]
    apply Finset.sum_congr rfl
    intro x hx
    rw [valueAt_insert, if_neg (Finset.ne_of_mem_erase hx)]
  rw [total_eq_erase (m.insert k v) dflt f hf k, total_eq_erase m dflt f hf k, hrest,
    valueAt_insert, if_pos rfl]
  omega

theorem total_erase (m : Map K V) (dflt : V) (f : V → ℕ) (hf : f dflt = 0) (k : K) :
    total (m.erase k) dflt f + f (valueAt m dflt k) = total m dflt f := by
  rw [total_eq_erase m dflt f hf k, total, Finmap.keys_erase, Nat.add_comm]
  congr 1
  apply Finset.sum_congr rfl
  intro x hx
  rw [valueAt_erase, if_neg (Finset.ne_of_mem_erase hx)]

end Foundations.FiniteMap
