import Mathlib.Data.List.Nodup
import Mathlib.Data.Nat.Notation
import Mathlib.Logic.Function.Basic
import Mathlib.Tactic.Basic

namespace Foundations.Links

variable {α : Type} {next next' : α → α} {null a : α} {xs ys zs : List α}

def Walk (next : α → α) (null : α) : α → List α → Prop
  | a, [] => a = null
  | a, x :: xs => a = x ∧ x ≠ null ∧ Walk next null (next x) xs

theorem Walk.unique (h : Walk next null a xs) (h' : Walk next null a ys) : xs = ys := by
  induction xs generalizing a ys with
  | nil =>
    cases ys with
    | nil => rfl
    | cons y ys => exact absurd (h'.1.symm.trans h) h'.2.1
  | cons x xs ih =>
    obtain ⟨rfl, hx, hw⟩ := h
    cases ys with
    | nil => exact absurd h' hx
    | cons y ys =>
      obtain ⟨rfl, -, hw'⟩ := h'
      rw [ih hw hw']

theorem Walk.ne_null (h : Walk next null a xs) {x : α} (hx : x ∈ xs) : x ≠ null := by
  induction xs generalizing a with
  | nil => cases hx
  | cons y ys ih =>
    obtain ⟨-, hy, hw⟩ := h
    rcases List.mem_cons.mp hx with rfl | hx
    · exact hy
    · exact ih hw hx

theorem Walk.congr (h : Walk next null a xs) (hn : ∀ x ∈ xs, next' x = next x) :
    Walk next' null a xs := by
  induction xs generalizing a with
  | nil => exact h
  | cons x xs ih =>
    obtain ⟨rfl, hx, hw⟩ := h
    refine ⟨rfl, hx, ?_⟩
    rw [hn a List.mem_cons_self]
    exact ih hw fun y hy => hn y (List.mem_cons_of_mem a hy)

theorem Walk.suffix {y : α} (h : Walk next null a (xs ++ y :: ys)) :
    Walk next null y (y :: ys) := by
  induction xs generalizing a with
  | nil =>
    obtain ⟨rfl, hx, hw⟩ := h
    exact ⟨rfl, hx, hw⟩
  | cons x xs ih => exact ih h.2.2

theorem Walk.behind {y : α} (h : Walk next null a (xs ++ y :: ys)) :
    y ≠ null ∧ Walk next null (next y) ys := h.suffix.2

theorem Walk.nodup (h : Walk next null a xs) : xs.Nodup := by
  induction xs generalizing a with
  | nil => exact List.nodup_nil
  | cons x xs ih =>
    refine List.nodup_cons.mpr ⟨fun hmem => ?_, ih h.2.2⟩
    obtain ⟨before, after, rfl⟩ := List.append_of_mem hmem
    have hlong : Walk next null x (x :: (before ++ x :: after)) := ⟨rfl, h.2.1, h.2.2⟩
    have hshort : Walk next null x (x :: after) := Walk.suffix h.2.2
    have hlen := congrArg List.length (hlong.unique hshort)
    simp only [List.length_cons, List.length_append] at hlen
    omega

theorem Walk.after {x : α} (h : Walk next null a xs) (hx : x ∈ xs) :
    ∃ before after, xs = before ++ x :: after ∧ Walk next null (next x) after := by
  obtain ⟨before, after, rfl⟩ := List.append_of_mem hx
  exact ⟨before, after, rfl, h.suffix.2.2⟩

theorem Walk.eq_nil (h : Walk next null null xs) : xs = [] := h.unique rfl

theorem Walk.notMem_self (h : Walk next null (next a) xs) : a ∉ xs := by
  intro ha
  obtain ⟨before, after, rfl, hafter⟩ := h.after ha
  have hlen := congrArg List.length (h.unique hafter)
  simp only [List.length_append, List.length_cons] at hlen
  omega

theorem Walk.start_eq {b : α} (h : Walk next null a xs) (h' : Walk next null b ys)
    (hsame : ∀ x, x ∈ xs ↔ x ∈ ys) : a = b := by
  have hperm := (List.perm_ext_iff_of_nodup h.nodup h'.nodup).mpr hsame
  cases xs with
  | nil =>
    rw [List.nil_perm.mp hperm] at h'
    exact h.trans h'.symm
  | cons x xs =>
    cases ys with
    | nil => cases List.perm_nil.mp hperm
    | cons y ys =>
      rw [h.1, h'.1]
      by_contra hne
      have hmem : x ∈ ys := List.mem_of_ne_of_mem hne ((hsame x).mp List.mem_cons_self)
      obtain ⟨before, after, rfl, hafter⟩ := h'.2.2.after hmem
      have hlen := hperm.length_eq
      rw [h.2.2.unique hafter] at hlen
      simp only [List.length_cons, List.length_append] at hlen
      omega

theorem Walk.mem_or_mem {x y : α} (h : Walk next null a xs) (hx : x ∈ xs) (hy : y ∈ xs)
    (hne : x ≠ y) :
    (∃ zs, Walk next null (next x) zs ∧ y ∈ zs) ∨ ∃ zs, Walk next null (next y) zs ∧ x ∈ zs := by
  induction xs generalizing a with
  | nil => cases hx
  | cons z xs ih =>
    rcases List.mem_cons.mp hx with rfl | hxs
    · exact .inl ⟨xs, h.2.2, List.mem_of_ne_of_mem hne.symm hy⟩
    · rcases List.mem_cons.mp hy with rfl | hys
      · exact .inr ⟨xs, h.2.2, hxs⟩
      · exact ih h.2.2 hxs hys

theorem Walk.snoc {y z : α} (h : Walk next null a (xs ++ [y])) (hsame : ∀ x ∈ xs, next' x = next x)
    (hy : next' y = z) (hz : z ≠ null) (hend : next' z = null) :
    Walk next' null a (xs ++ [y, z]) := by
  induction xs generalizing a with
  | nil =>
    obtain ⟨rfl, ha, -⟩ := h
    exact ⟨rfl, ha, hy, hz, hend⟩
  | cons x xs ih =>
    obtain ⟨rfl, hx, hw⟩ := h
    refine ⟨rfl, hx, ?_⟩
    rw [hsame a List.mem_cons_self]
    exact ih hw fun v hv => hsame v (List.mem_cons_of_mem a hv)

theorem Walk.drop (h : Walk next null a (xs ++ ys)) : ∃ b, Walk next null b ys := by
  induction xs generalizing a with
  | nil => exact ⟨a, h⟩
  | cons x xs ih => exact ih h.2.2

theorem Walk.eq_of_same {b : α} (h : Walk next null a xs) (h' : Walk next null b xs) : a = b := by
  cases xs with
  | nil => exact h.trans h'.symm
  | cons x xs => exact h.1.trans h'.1.symm

variable {h n : α}

def Listed (next : α → α) (null h : α) (xs : List α) : Prop := Walk next null (next h) xs ∧ h ∉ xs

theorem Listed.congr (hl : Listed next null h xs) (hn : ∀ x ∈ h :: xs, next' x = next x) :
    Listed next' null h xs := by
  refine ⟨?_, hl.2⟩
  rw [hn h List.mem_cons_self]
  exact hl.1.congr fun x hx => hn x (List.mem_cons_of_mem h hx)

def pointerTo (h : α) (before : List α) : α := (h :: before).getLast (List.cons_ne_nil h before)

theorem pointerTo_mem (h : α) (before : List α) : pointerTo h before ∈ h :: before :=
  List.getLast_mem _

theorem pointerTo_nil (h : α) : pointerTo h [] = h := rfl

theorem pointerTo_cons (h x : α) (before : List α) :
    pointerTo h (x :: before) = pointerTo x before :=
  List.getLast_cons (List.cons_ne_nil x before)

theorem listed_cons_iff {x : α} :
    Listed next null h (x :: xs) ↔ next h = x ∧ x ≠ null ∧ h ∉ x :: xs ∧ Listed next null x xs := by
  constructor
  · rintro ⟨⟨hx, hnull, hw⟩, hh⟩
    have hwalk : Walk next null x (x :: xs) := ⟨rfl, hnull, hw⟩
    exact ⟨hx, hnull, hh, hw, (List.nodup_cons.mp hwalk.nodup).1⟩
  · rintro ⟨hx, hnull, hh, hl⟩
    exact ⟨⟨hx, hnull, hl.1⟩, hh⟩

theorem ne_pointerTo {x : α} {before after : List α} (hh : h ∉ x :: (before ++ after)) :
    h ≠ pointerTo x before := by
  intro heq
  apply hh
  rw [heq, ← List.cons_append]
  exact List.mem_append_left after (pointerTo_mem x before)

variable [DecidableEq α]

theorem Walk.splice {p b : α} (h : Walk next null a (xs ++ p :: (ys ++ zs)))
    (hb : Walk next null b zs) : Walk (Function.update next p b) null a (xs ++ p :: zs) := by
  induction xs generalizing a with
  | nil =>
    have hp : p ∉ zs := fun hmem => (List.nodup_cons.mp h.nodup).1 (List.mem_append_right ys hmem)
    refine ⟨h.1, h.2.1, ?_⟩
    rw [Function.update_self]
    apply hb.congr
    intro x hx
    have hne : x ≠ p := fun heq => hp (heq ▸ hx)
    exact Function.update_of_ne hne b next
  | cons x xs ih =>
    have hnodup := h.nodup
    obtain ⟨hx, hnull, hw⟩ := h
    have hne : x ≠ p := by
      rintro rfl
      exact (List.nodup_cons.mp hnodup).1 (List.mem_append_right xs List.mem_cons_self)
    refine ⟨hx, hnull, ?_⟩
    rw [Function.update_of_ne hne]
    exact ih hw

theorem Listed.insert {before after : List α} (hl : Listed next null h (before ++ after))
    (hnull : n ≠ null) (hh : n ≠ h) (hx : n ∉ before ++ after) :
    Listed (Function.update (Function.update next n (next (pointerTo h before)))
      (pointerTo h before) n) null h
      (before ++ n :: after) := by
  induction before generalizing h with
  | nil =>
    rw [pointerTo_nil]
    refine ⟨⟨?_, hnull, ?_⟩, ?_⟩
    · rw [Function.update_self]
    · rw [Function.update_of_ne hh, Function.update_self]
      apply hl.1.congr
      intro x hmem
      have hxh : x ≠ h := fun he => hl.2 (he ▸ hmem)
      have hxn : x ≠ n := fun he => hx (he ▸ hmem)
      rw [Function.update_of_ne hxh, Function.update_of_ne hxn]
    · intro hmem
      rcases List.mem_cons.mp hmem with he | hmem
      · exact hh he.symm
      · exact hl.2 hmem
  | cons x before ih =>
    rw [List.cons_append] at hl hx ⊢
    obtain ⟨hhx, hxnull, hmem, hrest⟩ := listed_cons_iff.mp hl
    have hnx : n ≠ x := fun he => hx (he ▸ List.mem_cons_self)
    have hh' : h ∉ x :: (before ++ n :: after) := by
      rw [List.mem_cons, List.mem_append] at hmem
      rw [List.mem_cons, List.mem_append, List.mem_cons]
      rintro (he | he | he | he)
      · exact hmem (.inl he)
      · exact hmem (.inr (.inl he))
      · exact hh he.symm
      · exact hmem (.inr (.inr he))
    rw [pointerTo_cons]
    refine listed_cons_iff.mpr
      ⟨?_, hxnull, hh', ih hrest hnx fun he => hx (List.mem_cons_of_mem x he)⟩
    rw [Function.update_of_ne (ne_pointerTo hmem), Function.update_of_ne hh.symm, hhx]

theorem Listed.push (hl : Listed next null h xs) (hnull : n ≠ null) (hh : n ≠ h) (hx : n ∉ xs) :
    Listed (Function.update (Function.update next n (next h)) h n) null h (n :: xs) := by
  have hinsert : Listed _ null h ([] ++ n :: xs) := Listed.insert hl hnull hh hx
  exact hinsert

theorem Listed.unlink {before after : List α} (hl : Listed next null h (before ++ n :: after)) :
    Listed (Function.update (Function.update next (pointerTo h before) (next n)) n null) null h
      (before ++ after) := by
  induction before generalizing h with
  | nil =>
    obtain ⟨hhn, hn, hh, hw, hnd⟩ := listed_cons_iff.mp hl
    have hne : h ≠ n := fun he => hh (he ▸ List.mem_cons_self)
    refine ⟨?_, fun hc => hh (List.mem_cons_of_mem n hc)⟩
    rw [pointerTo_nil, Function.update_of_ne hne, Function.update_self]
    apply hw.congr
    intro x hx
    have hxn : x ≠ n := fun he => hnd (he ▸ hx)
    have hxh : x ≠ h := fun he => hh (he ▸ List.mem_cons_of_mem n hx)
    rw [Function.update_of_ne hxn, Function.update_of_ne hxh]
  | cons x before ih =>
    rw [List.cons_append] at hl ⊢
    obtain ⟨hhx, hx, hmem, hrest⟩ := listed_cons_iff.mp hl
    have hhn : h ≠ n := by
      rintro rfl
      exact hmem (List.mem_cons_of_mem x (List.mem_append_right before List.mem_cons_self))
    have hh' : h ∉ x :: (before ++ after) := by
      intro hc
      apply hmem
      rw [List.mem_cons, List.mem_append] at hc ⊢
      exact hc.imp_right (Or.imp_right (List.mem_cons_of_mem n))
    rw [pointerTo_cons]
    refine listed_cons_iff.mpr ⟨?_, hx, hh', ih hrest⟩
    rw [Function.update_of_ne hhn, Function.update_of_ne (ne_pointerTo hmem), hhx]

def collect (next : α → α) (null : α) : ℕ → α → List α
  | 0, _ => []
  | limit + 1, a => if a = null then [] else a :: collect next null limit (next a)

theorem Walk.collect_eq (hw : Walk next null a xs) {limit : ℕ} (hl : xs.length ≤ limit) :
    collect next null limit a = xs := by
  induction xs generalizing a limit with
  | nil =>
    obtain rfl : a = null := hw
    cases limit with
    | zero => rfl
    | succ limit => simp [collect]
  | cons x xs ih =>
    obtain ⟨rfl, hx, hw⟩ := hw
    obtain ⟨limit, rfl⟩ : ∃ k, limit = k + 1 := ⟨limit - 1, by simp at hl; omega⟩
    rw [collect, if_neg hx, ih hw (by simpa using hl)]

end Foundations.Links
