import Mathlib.Data.Fintype.Card
import Mathlib.Data.List.OfFn
import AnalysisPrograms.Foundations.CycleHop
import AnalysisPrograms.Foundations.Execution

namespace AnalysisPrograms.MissingNum

open Equiv Equiv.Perm Foundations.Execution Foundations.CycleHop

def store (nums : List ℕ) (i value : ℕ) : Option (List ℕ) :=
  if i < nums.length then some (nums.set i value) else none

def continuousSort1 (nums : List ℕ) (n : ℕ) : Option (List ℕ) :=
  exec (fun nums i => store nums i i) nums (List.range' 0 n)

def settle : ℕ → List ℕ → ℕ → Option (List ℕ)
  | 0, _, _ => none
  | fuel + 1, nums, j => do
    let value ← nums[j]?
    if value ≠ j then
      let tmp ← nums[value]?
      let nums ← store nums value value
      let nums ← store nums j tmp
      settle fuel nums tmp
    else return nums

def sortTurn (fuel : ℕ) (nums : List ℕ) (i : ℕ) : Option (List ℕ) := do
  let value ← nums[i]?
  if i = value then return nums
  else settle fuel nums i

def continuousSort2 (fuel : ℕ) (nums : List ℕ) (n : ℕ) : Option (List ℕ) :=
  exec (sortTurn fuel) nums (List.range' 0 n)

variable {n : ℕ} {σ : Perm (Fin n)}

def table (σ : Perm (Fin n)) : List ℕ := List.ofFn fun k => (σ k : ℕ)

theorem length_table (σ : Perm (Fin n)) : (table σ).length = n := List.length_ofFn

theorem table_get (σ : Perm (Fin n)) (k : Fin n) : (table σ)[(k : ℕ)]? = some (σ k : ℕ) := by
  rw [table, List.getElem?_ofFn, dif_pos k.isLt]

theorem table_eq_range (h : ∀ k, σ k = k) : table σ = List.range n := by
  apply List.ext_getElem
  · rw [length_table, List.length_range]
  · intro k hk _
    simp only [table, List.getElem_ofFn, List.getElem_range, h]

theorem store_eq {nums : List ℕ} {i : ℕ} (hi : i < nums.length) (value : ℕ) :
    store nums i value = some (nums.set i value) :=
  if_pos hi

theorem table_hop (σ : Perm (Fin n)) (j : Fin n) :
    ((table σ).set (σ j) (σ j)).set j (σ (σ j)) = table (hop σ j) := by
  apply List.ext_getElem?
  intro k
  by_cases hk : k < n
  · have hget := table_get (hop σ j) ⟨k, hk⟩
    rw [hget, List.getElem?_set, List.getElem?_set, List.length_set, length_table]
    by_cases hj : (j : ℕ) = k
    · rw [if_pos hj, if_pos j.isLt, show (⟨k, hk⟩ : Fin n) = j from Fin.ext hj.symm, hop_self]
    · rw [if_neg hj]
      by_cases himage : (σ j : ℕ) = k
      · rw [if_pos himage, if_pos (σ j).isLt, show (⟨k, hk⟩ : Fin n) = σ j from Fin.ext himage.symm,
          hop_image]
      · rw [if_neg himage, hop_of_ne (fun heq => hj (congrArg Fin.val heq).symm)
          fun heq => himage (congrArg Fin.val heq).symm]
        exact table_get σ ⟨k, hk⟩
  · rw [List.getElem?_eq_none (by rw [List.length_set, List.length_set, length_table]; omega),
      List.getElem?_eq_none (by rw [length_table]; omega)]

theorem settle_fixed {fuel : ℕ} {j : Fin n} (hj : σ j = j) :
    settle (fuel + 1) (table σ) j = some (table σ) := by
  rw [settle, table_get, hj]
  simp

theorem settle_hop {fuel : ℕ} {j : Fin n} (hj : σ j ≠ j) :
    settle (fuel + 1) (table σ) j = settle fuel (table (hop σ j)) (σ (σ j)) := by
  have hne : ((σ j : Fin n) : ℕ) ≠ j := fun heq => hj (Fin.ext heq)
  have hlen : ((σ j : Fin n) : ℕ) < (table σ).length := by
    rw [length_table]
    exact (σ j).isLt
  have hlen' : (j : ℕ) < ((table σ).set (σ j) (σ j)).length := by
    rw [List.length_set, length_table]
    exact j.isLt
  simp only [settle, table_get, Option.bind_eq_bind, Option.bind_some, if_pos hne, store_eq hlen,
    store_eq hlen', table_hop]

theorem settle_spec {fuel : ℕ} {i j : Fin n} (hfuel : σ.support.card < fuel)
    (hi : σ i = i ∨ SameCycle σ j i) :
    ∃ τ : Perm (Fin n), settle fuel (table σ) j = some (table τ) ∧ τ i = i ∧
      ∀ x, σ x = x → τ x = x := by
  induction fuel generalizing σ j with
  | zero => omega
  | succ fuel ih =>
    by_cases hj : σ j = j
    · refine ⟨σ, settle_fixed hj, ?_, fun x hx => hx⟩
      rcases hi with hi | hi
      · exact hi
      · rwa [← hi.eq_of_left hj]
    · have hcycle : hop σ j i = i ∨ SameCycle (hop σ j) (σ (σ j)) i := by
        rcases hi with hi | hi
        · exact .inl (hop_fixed hi)
        · rcases sameCycle_hop hi with rfl | hi
          · exact .inl (hop_image σ j)
          · rw [← hop_self]
            exact .inr (sameCycle_apply_left.mpr hi)
      have hless := card_support_hop_lt hj
      obtain ⟨τ, hτ, hτi, hkeep⟩ := ih (by omega) hcycle
      refine ⟨τ, ?_, hτi, fun x hx => hkeep x (hop_fixed hx)⟩
      rw [settle_hop hj, hτ]

theorem sortTurn_spec {fuel : ℕ} (hfuel : n < fuel) (i : Fin n) :
    ∃ τ : Perm (Fin n), sortTurn fuel (table σ) i = some (table τ) ∧ τ i = i ∧
      ∀ x, σ x = x → τ x = x := by
  have hcard : σ.support.card < fuel := by
    apply Nat.lt_of_le_of_lt (Finset.card_le_univ _)
    rwa [Fintype.card_fin]
  rw [sortTurn, table_get, Option.bind_eq_bind, Option.bind_some]
  by_cases hi : σ i = i
  · refine ⟨σ, ?_, hi, fun x hx => hx⟩
    rw [if_pos (congrArg Fin.val hi.symm)]
    rfl
  · obtain ⟨τ, hτ, hτi, hkeep⟩ := settle_spec hcard (.inr (SameCycle.refl σ i))
    refine ⟨τ, ?_, hτi, hkeep⟩
    rw [if_neg fun heq => hi (Fin.ext heq.symm), hτ]

theorem continuousSort2_table {fuel : ℕ} (hfuel : n < fuel) (σ : Perm (Fin n)) :
    continuousSort2 fuel (table σ) n = some (List.range n) := by
  have hstep : ∀ i nums, 0 ≤ i → i < 0 + n →
      (∃ τ : Perm (Fin n), nums = table τ ∧ ∀ x : Fin n, (x : ℕ) < i → τ x = x) →
        ∃ t, sortTurn fuel nums i = some t ∧
          ∃ τ : Perm (Fin n), t = table τ ∧ ∀ x : Fin n, (x : ℕ) < i + 1 → τ x = x := by
    rintro i nums - hi ⟨τ, rfl, hτ⟩
    rw [Nat.zero_add] at hi
    obtain ⟨ρ, hρ, hρi, hkeep⟩ := sortTurn_spec (σ := τ) hfuel ⟨i, hi⟩
    refine ⟨table ρ, hρ, ρ, rfl, ?_⟩
    intro x hx
    by_cases heq : (x : ℕ) = i
    · rw [show x = ⟨i, hi⟩ from Fin.ext heq, hρi]
    · exact hkeep x (hτ x (by omega))
  obtain ⟨t, ht, τ, rfl, hτ⟩ :=
    exec_range _ hstep ⟨σ, rfl, fun x hx => absurd hx (Nat.not_lt_zero _)⟩
  rw [continuousSort2, ht, table_eq_range fun x => hτ x (by omega)]

theorem continuousSort1_eq {nums : List ℕ} (hlen : nums.length = n) :
    continuousSort1 nums n = some (List.range n) := by
  have hstep : ∀ i nums, 0 ≤ i → i < 0 + n → (nums.length = n ∧ ∀ x < i, nums[x]? = some x) →
      ∃ t, store nums i i = some t ∧ t.length = n ∧ ∀ x < i + 1, t[x]? = some x := by
    rintro i nums - hi ⟨hlen, hdone⟩
    have hlt : i < nums.length := by omega
    refine ⟨_, store_eq hlt i, by rw [List.length_set, hlen], ?_⟩
    intro x hx
    rw [List.getElem?_set]
    split
    · rename_i heq
      rw [heq]
    · exact hdone x (by omega)
  obtain ⟨t, ht, hlen', hdone⟩ :=
    exec_range _ hstep ⟨hlen, fun x hx => absurd hx (Nat.not_lt_zero _)⟩
  rw [continuousSort1, ht]
  congr 1
  apply List.ext_getElem?
  intro k
  by_cases hk : k < n
  · rw [hdone k (by omega), List.getElem?_range hk]
  · rw [List.getElem?_eq_none (by omega), List.getElem?_eq_none (by rw [List.length_range]; omega)]

theorem exists_table {nums : List ℕ} (h : nums.Perm (List.range n)) :
    ∃ σ : Perm (Fin n), nums = table σ := by
  have hlen : nums.length = n := h.length_eq.trans List.length_range
  have hlt : ∀ k : Fin n, nums.get (k.cast hlen.symm) < n := by
    intro k
    exact List.mem_range.mp (h.mem_iff.mp (List.get_mem _ _))
  have hnodup : nums.Nodup := h.nodup_iff.mpr List.nodup_range
  have hinj : Function.Injective fun k : Fin n => (⟨_, hlt k⟩ : Fin n) := by
    intro j k heq
    have hcast := List.nodup_iff_injective_get.mp hnodup (congrArg Fin.val heq)
    exact Fin.cast_injective hlen.symm hcast
  refine ⟨Equiv.ofBijective _ (Finite.injective_iff_bijective.mp hinj), ?_⟩
  apply List.ext_getElem
  · exact hlen.trans (length_table _).symm
  · intro k hk hk'
    simp [table]

theorem continuous_sort2_sorts (n : ℕ) (nums : List ℕ) (h : nums.Perm (List.range n)) (fuel : ℕ)
    (hfuel : n < fuel) :
    continuousSort2 fuel nums n = some (List.range n) ∧
      continuousSort1 nums n = some (List.range n) := by
  obtain ⟨σ, rfl⟩ := exists_table h
  exact ⟨continuousSort2_table hfuel σ, continuousSort1_eq (length_table σ)⟩

theorem continuous_sort2_cycle :
    [3, 0, 1, 2].Perm (List.range 4) ∧ 4 < 5 ∧
      continuousSort2 5 [3, 0, 1, 2] 4 = some (List.range 4) ∧
      continuousSort1 [3, 0, 1, 2] 4 = some (List.range 4) := by
  have h : [3, 0, 1, 2].Perm (List.range 4) := by decide
  exact ⟨h, by decide, continuous_sort2_sorts 4 [3, 0, 1, 2] h 5 (by decide)⟩

end AnalysisPrograms.MissingNum
