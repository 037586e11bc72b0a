import Mathlib.Data.Int.Notation
import Mathlib.Data.List.Basic
import Mathlib.Data.List.Perm.Basic
import Mathlib.Order.Defs.PartialOrder

namespace Foundations.Segments

variable {α : Type} {xs ys zs : List α} {lo hi mid a b k : ℕ} {x y p : α} {P : α → Prop}

def exchange (xs : List α) (a b : ℕ) : List α :=
  match xs[a]?, xs[b]? with
  | some x, some y => (xs.set a y).set b x
  | _, _ => xs

theorem exchange_eq (ha : xs[a]? = some x) (hb : xs[b]? = some y) :
    exchange xs a b = (xs.set a y).set b x := by
  rw [exchange, ha, hb]

theorem lt_of_get (h : xs[k]? = some x) : k < xs.length := (List.getElem?_eq_some_iff.mp h).1

theorem exists_get (h : k < xs.length) : ∃ x, xs[k]? = some x := ⟨xs[k], List.getElem?_eq_getElem h⟩

theorem get_exchange_left (ha : a < xs.length) (hb : b < xs.length) :
    (exchange xs a b)[a]? = xs[b]? := by
  obtain ⟨x, hx⟩ := exists_get ha
  obtain ⟨y, hy⟩ := exists_get hb
  rw [exchange_eq hx hy, List.getElem?_set]
  split
  · rename_i heq
    subst heq
    rw [List.length_set, if_pos ha, hx]
  · rw [List.getElem?_set_self ha, hy]

theorem get_exchange_right (ha : a < xs.length) (hb : b < xs.length) :
    (exchange xs a b)[b]? = xs[a]? := by
  obtain ⟨x, hx⟩ := exists_get ha
  obtain ⟨y, hy⟩ := exists_get hb
  rw [exchange_eq hx hy, List.getElem?_set_self (by rwa [List.length_set]), hx]

theorem get_exchange_of_ne (ha : k ≠ a) (hb : k ≠ b) : (exchange xs a b)[k]? = xs[k]? := by
  unfold exchange
  split
  · rw [List.getElem?_set_ne hb.symm, List.getElem?_set_ne ha.symm]
  · rfl

theorem exchange_self (ha : a < xs.length) : exchange xs a a = xs := by
  apply List.ext_getElem?
  intro k
  by_cases hk : k = a
  · rw [hk, get_exchange_left ha ha]
  · exact get_exchange_of_ne hk hk

theorem exchange_perm (ha : a < xs.length) (hb : b < xs.length) : (exchange xs a b).Perm xs := by
  rw [exchange_eq (List.getElem?_eq_getElem ha) (List.getElem?_eq_getElem hb)]
  exact List.set_set_perm ha hb

def readAt (xs : List α) (k : ℤ) : Option α := if 0 ≤ k then xs[k.toNat]? else none

theorem readAt_eq (h : xs[k]? = some x) : readAt xs k = some x := by
  rw [readAt, if_pos (Int.natCast_nonneg k), Int.toNat_natCast, h]

def storeAt (xs : List α) (k : ℤ) (x : α) : Option (List α) :=
  if 0 ≤ k ∧ k < xs.length then some (xs.set k.toNat x) else none

theorem storeAt_eq (h : k < xs.length) (x : α) : storeAt xs k x = some (xs.set k x) := by
  rw [storeAt, if_pos ⟨Int.natCast_nonneg k, Int.ofNat_lt.mpr h⟩, Int.toNat_natCast]

structure Rearranged (lo hi : ℕ) (xs ys : List α) : Prop where
  perm : ys.Perm xs
  outside : ∀ k, k < lo ∨ hi ≤ k → ys[k]? = xs[k]?

theorem Rearranged.refl (lo hi : ℕ) (xs : List α) : Rearranged lo hi xs xs :=
  ⟨List.Perm.refl xs, fun _ _ => rfl⟩

theorem Rearranged.trans (h : Rearranged lo hi xs ys) (h' : Rearranged lo hi ys zs) :
    Rearranged lo hi xs zs :=
  ⟨h'.perm.trans h.perm, fun k hk => (h'.outside k hk).trans (h.outside k hk)⟩

theorem Rearranged.symm (h : Rearranged lo hi xs ys) : Rearranged lo hi ys xs :=
  ⟨h.perm.symm, fun k hk => (h.outside k hk).symm⟩

theorem Rearranged.widen {lo' hi' : ℕ} (h : Rearranged lo hi xs ys) (hlo : lo' ≤ lo)
    (hhi : hi ≤ hi') : Rearranged lo' hi' xs ys :=
  ⟨h.perm, fun k hk => h.outside k (by omega)⟩

theorem Rearranged.length_eq (h : Rearranged lo hi xs ys) : ys.length = xs.length :=
  h.perm.length_eq

theorem rearranged_exchange (ha : lo ≤ a) (ha' : a < hi) (hb : lo ≤ b) (hb' : b < hi)
    (hlen : hi ≤ xs.length) : Rearranged lo hi xs (exchange xs a b) := by
  refine ⟨exchange_perm (by omega) (by omega), ?_⟩
  intro k hk
  exact get_exchange_of_ne (by omega) (by omega)

def seg (lo hi : ℕ) (xs : List α) : List α := (xs.drop lo).take (hi - lo)

theorem get_seg (hk : k < hi - lo) : (seg lo hi xs)[k]? = xs[lo + k]? := by
  rw [seg, List.getElem?_take_of_lt hk, List.getElem?_drop]

theorem mem_seg_iff : x ∈ seg lo hi xs ↔ ∃ k, lo ≤ k ∧ k < hi ∧ xs[k]? = some x := by
  rw [List.mem_iff_getElem?]
  constructor
  · rintro ⟨k, hk⟩
    have hlt : k < hi - lo := by
      have hlen := lt_of_get hk
      rw [seg, List.length_take] at hlen
      omega
    rw [get_seg hlt] at hk
    exact ⟨lo + k, by omega, by omega, hk⟩
  · rintro ⟨k, hlo, hhi, hk⟩
    refine ⟨k - lo, ?_⟩
    rw [get_seg (by omega), Nat.add_sub_cancel' hlo, hk]

theorem Rearranged.seg_perm (h : Rearranged lo hi xs ys) : (seg lo hi ys).Perm (seg lo hi xs) := by
  by_cases hle : lo ≤ hi
  · have hsplit : ∀ l : List α, l = l.take lo ++ (seg lo hi l ++ l.drop hi) := by
      intro l
      have hdrop : l.drop hi = (l.drop lo).drop (hi - lo) := by
        rw [List.drop_drop, Nat.add_sub_cancel' hle]
      rw [seg, hdrop, List.take_append_drop, List.take_append_drop]
    have htake : ys.take lo = xs.take lo := by
      apply List.ext_getElem?
      intro k
      rw [List.getElem?_take, List.getElem?_take]
      split
      · exact h.outside k (by omega)
      · rfl
    have hdrop : ys.drop hi = xs.drop hi := by
      apply List.ext_getElem?
      intro k
      rw [List.getElem?_drop, List.getElem?_drop]
      exact h.outside _ (by omega)
    have hperm := h.perm
    rw [hsplit xs, hsplit ys, htake, hdrop, List.perm_append_left_iff,
      List.perm_append_right_iff] at hperm
    exact hperm
  · rw [seg, seg, Nat.sub_eq_zero_of_le (by omega)]
    exact List.Perm.refl _

theorem Rearranged.exists_at (h : Rearranged lo hi xs ys) (hlo : lo ≤ k) (hhi : k < hi)
    (hk : ys[k]? = some x) : ∃ m, lo ≤ m ∧ m < hi ∧ xs[m]? = some x :=
  mem_seg_iff.mp (h.seg_perm.mem_iff.mp (mem_seg_iff.mpr ⟨k, hlo, hhi, hk⟩))

def AllIn (lo hi : ℕ) (P : α → Prop) (xs : List α) : Prop :=
  ∀ k x, lo ≤ k → k < hi → xs[k]? = some x → P x

theorem AllIn.rearranged (h : AllIn lo hi P xs) (hr : Rearranged lo hi xs ys) :
    AllIn lo hi P ys := by
  intro k x hlo hhi hk
  obtain ⟨m, hmlo, hmhi, hm⟩ := hr.exists_at hlo hhi hk
  exact h m x hmlo hmhi hm

theorem AllIn.beside {lo' hi' : ℕ} (h : AllIn lo hi P xs) (hr : Rearranged lo' hi' xs ys)
    (hd : hi ≤ lo' ∨ hi' ≤ lo) : AllIn lo hi P ys := by
  intro k x hlo hhi hk
  rw [hr.outside k (by omega)] at hk
  exact h k x hlo hhi hk

theorem allIn_empty (h : hi ≤ lo) (P : α → Prop) (xs : List α) : AllIn lo hi P xs :=
  fun _ _ hlo hhi => absurd hhi (by omega)

theorem AllIn.append (h : AllIn lo mid P xs) (h' : AllIn mid hi P xs) : AllIn lo hi P xs := by
  intro k x hlo hhi hk
  by_cases hmid : k < mid
  · exact h k x hlo hmid hk
  · exact h' k x (by omega) hhi hk

theorem allIn_single (hk : xs[k]? = some x) (hx : P x) : AllIn k (k + 1) P xs := by
  intro m y hlo hhi hm
  obtain rfl : m = k := by omega
  rw [hk] at hm
  exact Option.some.inj hm ▸ hx

theorem allIn_before (hk : 0 < k) (hx : xs[k - 1]? = some x) (hPx : P x) :
    AllIn (k - 1) k P xs := by
  have h : AllIn (k - 1) (k - 1 + 1) P xs := allIn_single hx hPx
  rwa [Nat.sub_add_cancel hk] at h

theorem split_iff : (∃ k, k ≤ hi ∧ AllIn 0 k P xs ∧ AllIn k hi (¬P ·) xs) ↔
    ∀ a b x y, a < b → b < hi → xs[a]? = some x → xs[b]? = some y → P x ∨ ¬P y := by
  constructor
  · rintro ⟨k, -, hfront, hback⟩ a b x y hab hb hx hy
    by_cases ha : a < k
    · exact .inl (hfront a x (Nat.zero_le a) ha hx)
    · exact .inr (hback b y (by omega) hb hy)
  · intro h
    induction hi with
    | zero =>
      exact ⟨0, Nat.le_refl 0, allIn_empty (Nat.le_refl 0) P xs, allIn_empty (Nat.le_refl 0) _ xs⟩
    | succ hi ih =>
      obtain ⟨k, hk, hfront, hback⟩ := ih fun a b x y hab hb => h a b x y hab (by omega)
      by_cases hlast : ∃ y, xs[hi]? = some y ∧ P y
      · -- nothing before the last position fails `P` then
        obtain ⟨y, hy, hPy⟩ := hlast
        refine ⟨hi + 1, Nat.le_refl _, AllIn.append ?_ (allIn_single hy hPy),
          allIn_empty (Nat.le_refl _) _ xs⟩
        intro a x _ ha hx
        exact (h a hi x y ha (Nat.lt_succ_self hi) hx hy).resolve_right (not_not_intro hPy)
      · refine ⟨k, by omega, hfront, hback.append ?_⟩
        intro b y hb hb' hy hPy
        obtain rfl : b = hi := by omega
        exact hlast ⟨y, hy, hPy⟩

section Order

variable [Preorder α]

def Leading (lo mid hi : ℕ) (xs : List α) : Prop :=
  ∀ k x, lo ≤ k → k < mid → xs[k]? = some x → AllIn (k + 1) hi (x ≤ ·) xs

theorem Leading.pairwise (h : Leading lo hi hi xs) : (seg lo hi xs).Pairwise (· ≤ ·) := by
  rw [List.pairwise_iff_getElem]
  intro i j hi' hj hij
  have hlt : j < hi - lo := by
    rw [seg, List.length_take] at hj
    omega
  have hx : (seg lo hi xs)[i]? = xs[lo + i]? := get_seg (by omega)
  have hy : (seg lo hi xs)[j]? = xs[lo + j]? := get_seg hlt
  rw [List.getElem?_eq_getElem hi'] at hx
  rw [List.getElem?_eq_getElem hj] at hy
  exact h (lo + i) _ (by omega) (by omega) hx.symm (lo + j) _ (by omega) (by omega) hy.symm

theorem leading_empty (h : mid ≤ lo) (hi : ℕ) (xs : List α) : Leading lo mid hi xs :=
  fun _ _ hlo hhi => absurd hhi (by omega)

theorem Leading.behind (h : Leading lo mid hi xs) (hr : Rearranged mid hi xs ys) :
    Leading lo mid hi ys := by
  intro k x hlo hhi hk m y hm hm' hy
  rw [hr.outside k (.inl hhi)] at hk
  by_cases hmid : m < mid
  · rw [hr.outside m (.inl hmid)] at hy
    exact h k x hlo hhi hk m y hm hm' hy
  · obtain ⟨n, hn, hn', hy'⟩ := hr.exists_at (Nat.le_of_not_lt hmid) hm' hy
    exact h k x hlo hhi hk n y (by omega) hn' hy'

theorem Leading.beside {lo' hi' : ℕ} (h : Leading lo mid hi xs) (hr : Rearranged lo' hi' xs ys)
    (hd : hi ≤ lo' ∨ hi' ≤ lo) (hmid : mid ≤ hi) : Leading lo mid hi ys := by
  intro k x hlo hhi hk
  rw [hr.outside k (by omega)] at hk
  exact (h k x hlo hhi hk).beside hr (by omega)

theorem Leading.extend (h : Leading lo mid hi xs)
    (hmid : ∀ x, xs[mid]? = some x → AllIn (mid + 1) hi (x ≤ ·) xs) :
    Leading lo (mid + 1) hi xs := by
  intro k x hlo hhi hk
  by_cases heq : k = mid
  · subst heq
    exact hmid x hk
  · exact h k x hlo (by omega) hk

theorem Leading.join (hl : Leading lo k k xs) (hk : xs[k]? = some p) (hle : AllIn lo k (· ≤ p) xs)
    (hge : AllIn (k + 1) hi (p ≤ ·) xs) (hr : Leading (k + 1) hi hi xs) : Leading lo hi hi xs := by
  intro i x hlo hhi hx
  rcases Nat.lt_trichotomy i k with hlt | rfl | hgt
  · have hxp := hle i x hlo hlt hx
    apply (hl i x hlo hlt hx).append
    intro m y hm hm' hy
    by_cases heq : m = k
    · subst heq
      rw [hk] at hy
      exact Option.some.inj hy ▸ hxp
    · exact le_trans hxp (hge m y (by omega) hm' hy)
  · rw [hk] at hx
    exact Option.some.inj hx ▸ hge
  · exact hr i x hgt hhi hx

end Order

end Foundations.Segments
