import Mathlib.Data.List.Basic
import Mathlib.Order.Lattice

namespace Foundations.SortedRuns

variable {α β : Type} [LinearOrder β] {val : α → β} {xs done ys zs : List α} {c z : α}

def once (val : α → β) (xs : List α) (x : α) : Bool := (xs.map val).count (val x) == 1

structure Scan (val : α → β) (xs done : List α) (c : α) (ys zs : List α) : Prop where
  split : xs = done ++ c :: (ys ++ zs)
  sorted : (xs.map val).Pairwise (· ≤ ·)
  same : ∀ y ∈ ys, val y = val c
  before : ∀ d ∈ done, val d ≠ val c

theorem scan_start (hsorted : ((c :: zs).map val).Pairwise (· ≤ ·)) :
    Scan val (c :: zs) [] c [] zs :=
  ⟨rfl, hsorted, nofun, nofun⟩

theorem Scan.more (h : Scan val xs done c ys (z :: zs)) (hz : val z = val c) :
    Scan val xs done c (ys ++ [z]) zs := by
  refine ⟨?_, h.sorted, ?_, h.before⟩
  · rw [h.split, List.append_assoc]
    rfl
  · intro y hy
    rcases List.mem_append.mp hy with hy | hy
    · exact h.same y hy
    · rw [List.mem_singleton.mp hy, hz]

theorem Scan.le_behind (h : Scan val xs done c ys zs) :
    (∀ d ∈ done, val d ≤ val c) ∧ ∀ z ∈ zs, val c ≤ val z := by
  have hsorted := h.sorted
  rw [h.split, List.pairwise_map, List.pairwise_append] at hsorted
  obtain ⟨-, hrest, hdone⟩ := hsorted
  refine ⟨fun d hd => hdone d hd c List.mem_cons_self, ?_⟩
  intro z hz
  exact (List.pairwise_cons.mp hrest).1 z (List.mem_append_right _ hz)

theorem Scan.next (h : Scan val xs done c ys (z :: zs)) (hz : val z ≠ val c) :
    Scan val xs (done ++ c :: ys) z [] zs := by
  obtain ⟨hdone, hbehind⟩ := h.le_behind
  refine ⟨?_, h.sorted, nofun, ?_⟩
  · rw [h.split, List.append_assoc]
    rfl
  · intro d hd heq
    rcases List.mem_append.mp hd with hd | hd
    · -- the value of `c` lies between the two
      apply h.before d hd
      apply le_antisymm (hdone d hd)
      rw [heq]
      exact hbehind z List.mem_cons_self
    · rcases List.mem_cons.mp hd with rfl | hd
      · exact hz heq.symm
      · exact hz (heq.symm.trans (h.same d hd))

theorem count_eq_zero {b : β} {l : List α} (h : ∀ x ∈ l, val x ≠ b) : (l.map val).count b = 0 := by
  rw [List.count_eq_zero, List.mem_map]
  rintro ⟨x, hx, heq⟩
  exact h x hx heq

theorem Scan.filter_run (h : Scan val xs done c ys zs) (hz : ∀ z ∈ zs, val z ≠ val c) :
    (done ++ c :: ys).filter (once val xs) =
      done.filter (once val xs) ++ if ys = [] then [c] else [] := by
  have hys : ys.map val = List.replicate ys.length (val c) := by
    rw [List.eq_replicate_iff, List.length_map]
    refine ⟨rfl, ?_⟩
    intro b hb
    obtain ⟨y, hy, rfl⟩ := List.mem_map.mp hb
    exact h.same y hy
  have hcount : (xs.map val).count (val c) = ys.length + 1 := by
    rw [h.split, List.map_append, List.count_append, count_eq_zero h.before, List.map_cons,
      List.count_cons_self, List.map_append, List.count_append, count_eq_zero hz, hys,
      List.count_replicate_self, Nat.zero_add, Nat.add_zero]
  have honce : ∀ x, val x = val c → once val xs x = decide (ys = []) := by
    intro x hx
    rw [once, hx, hcount, Bool.eq_iff_iff, beq_iff_eq, decide_eq_true_iff,
      ← List.length_eq_zero_iff]
    omega
  rw [List.filter_append]
  congr 1
  split
  · rename_i hnil
    rw [hnil, List.filter_cons_of_pos, List.filter_nil]
    rw [honce c rfl]
    exact decide_eq_true hnil
  · rename_i hne
    apply List.filter_eq_nil_iff.mpr
    intro x hx
    have hval : val x = val c := by
      rcases List.mem_cons.mp hx with rfl | hx
      · rfl
      · exact h.same x hx
    rw [honce x hval, decide_eq_false hne]
    exact Bool.false_ne_true

theorem Scan.filter_next (h : Scan val xs done c ys (z :: zs)) (hz : val z ≠ val c) :
    (done ++ c :: ys).filter (once val xs) =
      done.filter (once val xs) ++ if ys = [] then [c] else [] := by
  apply h.filter_run
  intro x hx heq
  have hsorted := h.sorted
  rw [h.split, List.pairwise_map, ← List.cons_append, ← List.append_assoc,
    List.pairwise_append] at hsorted
  obtain ⟨-, hrest, -⟩ := hsorted
  apply hz
  apply le_antisymm _ (h.le_behind.2 z List.mem_cons_self)
  rw [← heq]
  rcases List.mem_cons.mp hx with rfl | hx
  · exact le_refl _
  · exact (List.pairwise_cons.mp hrest).1 x hx

theorem Scan.filter_end (h : Scan val xs done c ys []) :
    xs.filter (once val xs) = done.filter (once val xs) ++ if ys = [] then [c] else [] := by
  rw [← h.filter_run nofun, h.split, List.append_nil]

end Foundations.SortedRuns
