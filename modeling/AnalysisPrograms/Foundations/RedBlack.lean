import Mathlib.Algebra.Group.Nat.Defs
import Mathlib.Data.List.Basic
import Mathlib.Data.Nat.Log

namespace Foundations.RedBlack

inductive Color
  | red
  | black
deriving DecidableEq

inductive ColorTree (α : Type)
  | nil
  | node (color : Color) (left : ColorTree α) (value : α) (right : ColorTree α)
deriving DecidableEq

namespace ColorTree

variable {α : Type}

def toList : ColorTree α → List α
  | nil => []
  | node _ l x r => l.toList ++ x :: r.toList

def height : ColorTree α → ℕ
  | nil => 0
  | node _ l _ r => max l.height r.height + 1

def isRed : ColorTree α → Bool
  | node .red _ _ _ => true
  | _ => false

def blacken : ColorTree α → ColorTree α
  | nil => nil
  | node _ l x r => node .black l x r

def join : Bool → Color → ColorTree α → α → ColorTree α → ColorTree α
  | false, c, t, x, s => node c t x s
  | true, c, t, x, s => node c s x t

def pick : Bool → ColorTree α → ColorTree α → ColorTree α
  | false, l, _ => l
  | true, _, r => r

theorem exists_of_isRed {t : ColorTree α} (h : t.isRed = true) : ∃ l x r, t = node .red l x r := by
  cases t with
  | nil => cases h
  | node c l x r =>
    cases c with
    | red => exact ⟨l, x, r, rfl⟩
    | black => cases h

theorem ne_nil_of_isRed {t : ColorTree α} (h : t.isRed = true) : t ≠ nil := by
  rintro rfl
  cases h

theorem node_ne_nil {c : Color} {l r : ColorTree α} {x : α} : node c l x r ≠ nil := by
  rintro ⟨⟩

theorem join_ne_nil {d : Bool} {c : Color} {t s : ColorTree α} {x : α} : join d c t x s ≠ nil := by
  cases d <;> exact node_ne_nil

theorem join_pick (d : Bool) (c : Color) (l r : ColorTree α) (x : α) :
    join d c (pick d l r) x (pick (!d) l r) = node c l x r := by
  cases d <;> rfl

theorem toList_join (d : Bool) (c : Color) (t s : ColorTree α) (x : α) :
    (join d c t x s).toList = if d then s.toList ++ x :: t.toList else t.toList ++ x ::
      s.toList := by
  cases d <;> rfl

theorem toList_join_perm (d : Bool) (c : Color) (t s : ColorTree α) (x : α) :
    (join d c t x s).toList.Perm (x :: (t.toList ++ s.toList)) := by
  cases d with
  | false => exact List.perm_middle
  | true => exact List.perm_middle.trans (List.perm_append_comm.cons x)

theorem join_not (d : Bool) (c : Color) (t s : ColorTree α) (x : α) :
    join (!d) c s x t = join d c t x s := by
  cases d <;> rfl

theorem toList_blacken (t : ColorTree α) : t.blacken.toList = t.toList := by
  cases t <;> rfl

end ColorTree

open ColorTree

variable {α : Type}

/-- A step on the way from a subtree to the root: the subtree is on the side `dir` of the value. -/
structure Frame (α : Type) where
  dir : Bool
  color : Color
  value : α
  sibling : ColorTree α
deriving DecidableEq

def fill : ColorTree α → List (Frame α) → ColorTree α
  | t, [] => t
  | t, f :: fs => fill (join f.dir f.color t f.value f.sibling) fs

theorem fill_append (t : ColorTree α) (fs gs : List (Frame α)) :
    fill t (fs ++ gs) = fill (fill t fs) gs := by
  induction fs generalizing t with
  | nil => rfl
  | cons f fs ih => exact ih _

theorem exists_fill_of_mem {t : ColorTree α} {x : α} (hx : x ∈ t.toList) :
    ∃ c l r fs, t = fill (.node c l x r) fs := by
  induction t with
  | nil => cases hx
  | node c l y r ihl ihr =>
    rw [toList, List.mem_append, List.mem_cons] at hx
    rcases hx with hx | rfl | hx
    · obtain ⟨c', a, b, fs, rfl⟩ := ihl hx
      refine ⟨c', a, b, fs ++ [⟨false, c, y, r⟩], ?_⟩
      rw [fill_append]
      rfl
    · exact ⟨c, l, r, [], rfl⟩
    · obtain ⟨c', a, b, fs, rfl⟩ := ihr hx
      refine ⟨c', a, b, fs ++ [⟨true, c, y, l⟩], ?_⟩
      rw [fill_append]
      rfl

theorem exists_fill_leftmost {t : ColorTree α} (ht : t ≠ .nil) :
    ∃ c x r fs, t = fill (.node c .nil x r) fs ∧ ∀ f ∈ fs, f.dir = false := by
  induction t with
  | nil => exact absurd rfl ht
  | node c l y r ihl _ =>
    cases l with
    | nil => exact ⟨c, y, r, [], rfl, fun f hf => absurd hf List.not_mem_nil⟩
    | node c' a z b =>
      obtain ⟨c', x, b', fs, hl, hdir⟩ := ihl node_ne_nil
      refine ⟨c', x, b', fs ++ [⟨false, c, y, r⟩], ?_, ?_⟩
      · rw [fill_append, ← hl]
        rfl
      · intro f hf
        rcases List.mem_append.mp hf with hf | hf
        · exact hdir f hf
        · rw [List.mem_singleton.mp hf]

def before : List (Frame α) → List α
  | [] => []
  | f :: fs => before fs ++ if f.dir then f.sibling.toList ++ [f.value] else []

def after : List (Frame α) → List α
  | [] => []
  | f :: fs => (if f.dir then [] else f.value :: f.sibling.toList) ++ after fs

theorem toList_fill (t : ColorTree α) (fs : List (Frame α)) :
    (fill t fs).toList = before fs ++ t.toList ++ after fs := by
  induction fs generalizing t with
  | nil => simp [fill, before, after]
  | cons f fs ih =>
    rw [fill, ih, before, after]
    cases f.dir <;> simp [join, toList]

theorem before_left {fs : List (Frame α)} (h : ∀ f ∈ fs, f.dir = false) : before fs = [] := by
  induction fs with
  | nil => rfl
  | cons f fs ih =>
    rw [before, ih fun g hg => h g (List.mem_cons_of_mem _ hg), h f List.mem_cons_self]
    rfl

theorem ColorTree.height_le_length (t : ColorTree α) : t.height ≤ t.toList.length := by
  induction t with
  | nil => exact Nat.le_refl 0
  | node c l x r ihl ihr =>
    rw [height, toList, List.length_append, List.length_cons]
    omega

theorem toList_fill_congr {t t' : ColorTree α} (h : t.toList = t'.toList) (fs : List (Frame α)) :
    (fill t fs).toList = (fill t' fs).toList := by
  rw [toList_fill, toList_fill, h]

inductive Balanced : ColorTree α → Color → ℕ → Prop
  | nil : Balanced .nil .black 0
  | red {l r : ColorTree α} {x : α} {k : ℕ} : Balanced l .black k → Balanced r .black k →
    Balanced (.node .red l x r) .red k
  | black {l r : ColorTree α} {x : α} {c c' : Color} {k : ℕ} : Balanced l c k → Balanced r c' k →
      Balanced (.node .black l x r) .black (k + 1)

def IsRedBlack (t : ColorTree α) : Prop := ∃ k, Balanced t .black k

/-- A red-black tree of which a subtree with `k` black nodes on every way down is missing, below a
node of this color. -/
inductive Hole : List (Frame α) → Color → ℕ → Prop
  | root {k : ℕ} : Hole [] .black k
  | red {d : Bool} {x : α} {s : ColorTree α} {f : Frame α} {fs : List (Frame α)} {k : ℕ} :
    Balanced s .black k →
      Hole (f :: fs) .black k → Hole (⟨d, .red, x, s⟩ :: f :: fs) .red k
  | black {d : Bool} {x : α} {s : ColorTree α} {fs : List (Frame α)} {c c' : Color} {k : ℕ} :
    Balanced s c k →
      Hole fs c' (k + 1) → Hole (⟨d, .black, x, s⟩ :: fs) .black k

section Balance

variable {t l r s : ColorTree α} {x : α} {c c' : Color} {d : Bool} {k : ℕ} {fs : List (Frame α)}

theorem Balanced.join_red (ht : Balanced t .black k) (hs : Balanced s .black k) :
    Balanced (join d .red t x s) .red k := by
  cases d with
  | false => exact .red ht hs
  | true => exact .red hs ht

theorem Balanced.join_black (ht : Balanced t c k) (hs : Balanced s c' k) :
    Balanced (join d .black t x s) .black (k + 1) := by
  cases d with
  | false => exact .black ht hs
  | true => exact .black hs ht

theorem Balanced.blacken_red (h : Balanced t .red k) : Balanced t.blacken .black (k + 1) := by
  cases h with
  | red hl hr => exact .black hl hr

theorem Balanced.blacken_black (h : Balanced t .black k) : t.blacken = t := by
  cases h with
  | nil => rfl
  | black hl hr => rfl

theorem Balanced.isRedBlack_blacken (h : Balanced t c k) : IsRedBlack t.blacken := by
  cases c with
  | red => exact ⟨_, h.blacken_red⟩
  | black =>
    rw [h.blacken_black]
    exact ⟨k, h⟩

theorem Balanced.isRed_eq (h : Balanced t c k) : t.isRed = decide (c = .red) := by
  cases h <;> rfl

theorem Balanced.pick_red (h : Balanced (.node .red l x r) .red k) (d : Bool) :
    Balanced (pick d l r) .black k := by
  cases h with
  | red hl hr => cases d <;> assumption

theorem Balanced.pick_black (h : Balanced (.node .black l x r) .black (k + 1)) (d : Bool) :
    ∃ c, Balanced (pick d l r) c k := by
  cases h with
  | black hl hr =>
    cases d with
    | false => exact ⟨_, hl⟩
    | true => exact ⟨_, hr⟩

theorem Hole.fill (hole : Hole fs c k) (ht : Balanced t c' k) (hfit : c = .red → c' = .black)
    (hroot : fs = [] → c' = .black) : IsRedBlack (fill t fs) := by
  induction hole generalizing t c' with
  | root =>
    obtain rfl := hroot rfl
    exact ⟨_, ht⟩
  | red hs _ ih =>
    obtain rfl := hfit rfl
    exact ih (ht.join_red hs) (fun h => absurd h (by decide)) fun h =>
      absurd h (List.cons_ne_nil _ _)
  | black hs _ ih => exact ih (ht.join_black hs) (fun _ => rfl) fun _ => rfl

theorem Hole.blacken_fill (hole : Hole fs c k) (ht : Balanced t c' k)
    (hfit : c = .red → c' = .black) : IsRedBlack (RedBlack.fill t fs).blacken := by
  cases fs with
  | nil => exact ht.isRedBlack_blacken
  | cons f fs =>
    obtain ⟨m, hm⟩ := hole.fill ht hfit fun h => absurd h (List.cons_ne_nil f fs)
    exact hm.isRedBlack_blacken

theorem IsRedBlack.split (h : IsRedBlack (RedBlack.fill t fs)) :
    ∃ c c' k, Balanced t c' k ∧ Hole fs c k ∧ (c = .red → c' = .black) ∧
      (fs = [] → c' = .black) := by
  induction fs generalizing t with
  | nil =>
    obtain ⟨k, hk⟩ := h
    exact ⟨.black, .black, k, hk, .root, fun _ => rfl, fun _ => rfl⟩
  | cons f fs ih =>
    obtain ⟨d, fc, y, s⟩ := f
    obtain ⟨c, c', k, ht, hole, hfit, hroot⟩ := ih h
    have hparts : fc = c' ∧ ∃ b b' m, Balanced t b m ∧ Balanced s b' m ∧
        (fc = .red → b = .black ∧ b' = .black ∧ m = k) ∧ (fc = .black → k = m + 1) := by
      cases d with
      | false =>
        cases ht with
        | red hl hr =>
          exact ⟨rfl, _, _, _, hl, hr, fun _ => ⟨rfl, rfl, rfl⟩, fun h => absurd h (by decide)⟩
        | black hl hr => exact ⟨rfl, _, _, _, hl, hr, fun h => absurd h (by decide), fun _ => rfl⟩
      | true =>
        cases ht with
        | red hl hr =>
          exact ⟨rfl, _, _, _, hr, hl, fun _ => ⟨rfl, rfl, rfl⟩, fun h => absurd h (by decide)⟩
        | black hl hr => exact ⟨rfl, _, _, _, hr, hl, fun h => absurd h (by decide), fun _ => rfl⟩
    obtain ⟨rfl, b, b', m, hb, hb', hred, hblack⟩ := hparts
    cases fc with
    | red =>
      obtain ⟨rfl, rfl, rfl⟩ := hred rfl
      obtain rfl : c = .black := by
        cases c with
        | red => cases hfit rfl
        | black => rfl
      cases fs with
      | nil => cases hroot rfl
      | cons g gs =>
        exact ⟨.red, .black, m, hb, .red hb' hole, fun _ => rfl,
          fun h => absurd h (List.cons_ne_nil _ _)⟩
    | black =>
      obtain rfl := hblack rfl
      exact ⟨.black, b, m, hb, .black hb' hole, fun h => absurd h (by decide),
        fun h => absurd h (List.cons_ne_nil _ _)⟩

theorem Balanced.pow_le (h : Balanced t c k) : 2 ^ k ≤ t.toList.length + 1 := by
  induction h with
  | nil => exact Nat.le_refl 1
  | red _ _ ihl ihr =>
    rw [toList, List.length_append, List.length_cons]
    omega
  | black _ _ ihl ihr =>
    rw [toList, List.length_append, List.length_cons, Nat.pow_succ]
    omega

theorem Balanced.height_le (h : Balanced t c k) : t.height ≤ 2 * k + if c = .red then 1 else 0 := by
  induction h with
  | nil => exact Nat.le_refl 0
  | red _ _ ihl ihr =>
    rw [if_neg (by decide)] at ihl ihr
    rw [height, if_pos rfl]
    omega
  | @black _ _ _ c c' _ _ _ ihl ihr =>
    rw [height, if_neg (by decide)]
    split at ihl <;> split at ihr <;> omega

theorem IsRedBlack.height_le (h : IsRedBlack t) :
    t.height ≤ 2 * Nat.log 2 (t.toList.length + 1) := by
  obtain ⟨k, hk⟩ := h
  have hheight := hk.height_le
  rw [if_neg (by decide), Nat.add_zero] at hheight
  have hlog : k ≤ Nat.log 2 (t.toList.length + 1) := Nat.le_log_of_pow_le (by decide) hk.pow_le
  omega

end Balance

section Insertion

def rotateUp (t : ColorTree α) (f g : Frame α) : ColorTree α :=
  if f.dir = g.dir then join g.dir .black t f.value (join g.dir .red f.sibling g.value g.sibling)
  else
    match t with
    | .nil => fill .nil [f, g]
    | .node _ l x r =>
      join g.dir .black (join g.dir .red f.sibling f.value (pick g.dir l r)) x
        (join g.dir .red (pick f.dir l r) g.value g.sibling)

def insertRepair : ColorTree α → List (Frame α) → Option (ColorTree α)
  | t, [] => some t.blacken
  | t, [f] => if f.color = .red then none else some (fill t [f]).blacken
  | t, f :: g :: fs =>
    if f.color = .red then
      if g.sibling.isRed then
        insertRepair
          (join g.dir .red (join f.dir .black t f.value f.sibling) g.value g.sibling.blacken) fs
      else some (fill (rotateUp t f g) fs).blacken
    else some (fill t (f :: g :: fs)).blacken

theorem toList_rotateUp (t : ColorTree α) (f g : Frame α) :
    (rotateUp t f g).toList = (fill t [f, g]).toList := by
  obtain ⟨d, c, y, s⟩ := f
  obtain ⟨d', c', z, u⟩ := g
  cases t with
  | nil => cases d <;> cases d' <;> simp [rotateUp, fill, join, toList]
  | node c'' l x r => cases d <;> cases d' <;> simp [rotateUp, fill, join, pick, toList]

theorem balanced_rotateUp {t s u : ColorTree α} {d d' : Bool} {c' : Color} {y z : α} {k : ℕ}
    (ht : Balanced t .red k) (hs : Balanced s .black k) (hu : Balanced u .black k) :
    Balanced (rotateUp t ⟨d, .red, y, s⟩ ⟨d', c', z, u⟩) .black (k + 1) := by
  unfold rotateUp
  dsimp only
  split
  · exact ht.join_black (hs.join_red hu)
  · cases t with
    | nil => cases ht
    | node c'' l x r =>
      cases ht with
      | red hl hr =>
        have hpick : ∀ e, Balanced (pick e l r) .black k := by
          intro e
          cases e <;> assumption
        exact (hs.join_red (hpick d')).join_black ((hpick d).join_red hu)

theorem insertRepair_spec {t : ColorTree α} {fs : List (Frame α)} {c : Color} {k : ℕ}
    (ht : Balanced t .red k) (hole : Hole fs c k) :
    ∃ t', insertRepair t fs = some t' ∧ IsRedBlack t' ∧ t'.toList = (fill t fs).toList := by
  induction t, fs using insertRepair.induct generalizing c k with
  | case1 t => exact ⟨_, rfl, ht.isRedBlack_blacken, toList_blacken t⟩
  | case2 t f hred =>
    cases hole with
    | black _ _ => cases hred
  | case3 t f hred =>
    cases hole with
    | black hs hole =>
      exact ⟨_, rfl, (Hole.black hs hole).blacken_fill ht fun h => absurd h (by decide),
        toList_blacken _⟩
  | case4 t f g fs hred hsib ih =>
    cases hole with
    | black _ _ => cases hred
    | red hs hole =>
      cases hole with
      | @black _ _ u _ b _ _ hu hole =>
        obtain rfl : b = .red := of_decide_eq_true (hu.isRed_eq.symm.trans hsib)
        obtain ⟨t', hrun, hrb, hlist⟩ := ih ((ht.join_black hs).join_red hu.blacken_red) hole
        refine ⟨t', ?_, hrb, hlist.trans (toList_fill_congr ?_ fs)⟩
        · rw [insertRepair, if_pos rfl, if_pos hsib, hrun]
        · simp only [toList_join, toList_blacken]
  | case5 t f g fs hred hsib =>
    cases hole with
    | black _ _ => cases hred
    | @red d y s _ _ _ hs hole =>
      cases hole with
      | @black e z u _ b _ _ hu hole =>
        obtain rfl : b = .black := by
          rw [hu.isRed_eq] at hsib
          cases b with
          | red => exact absurd rfl hsib
          | black => rfl
        have hrun : insertRepair t (⟨d, .red, y, s⟩ :: ⟨e, .black, z, u⟩ :: fs) =
            some (fill (rotateUp t ⟨d, .red, y, s⟩ ⟨e, .black, z, u⟩) fs).blacken := by
          rw [insertRepair, if_pos rfl, if_neg hsib]
        refine ⟨_, hrun, hole.blacken_fill (balanced_rotateUp ht hs hu) fun _ => rfl, ?_⟩
        rw [toList_blacken]
        exact toList_fill_congr (toList_rotateUp _ _ _) fs
  | case6 t f g fs hred =>
    cases hole with
    | red _ _ => exact absurd rfl hred
    | black hs hole =>
      refine ⟨_, ?_, (Hole.black hs hole).blacken_fill ht fun h => absurd h (by decide),
        toList_blacken _⟩
      rw [insertRepair, if_neg hred]

end Insertion

section Erasure

/-- The repair at a node with the subtree `t`, which lacks a black node, and a sibling; `true` if
the result still lacks one. -/
def balanceAt (d : Bool) (c : Color) (t : ColorTree α) (x : α) :
    ColorTree α → Option (ColorTree α × Bool)
  | .nil => none
  | .node _ l o r =>
    if !(pick d l r).isRed && !(pick (!d) l r).isRed then
      some (join d c t x (.node .red l o r), true)
    else if (pick (!d) l r).isRed then
      some (join d c (join d .black t x (pick d l r)) o (pick (!d) l r).blacken, false)
    else
      match pick d l r with
      | .nil => none
      | .node _ a y b =>
        some (join d c (join d .black t x (pick d a b)) y
          (join d .black (pick (!d) a b) o (pick (!d) l r)), false)

def exposeBlack (f : Frame α) : Frame α × List (Frame α) :=
  match f.sibling with
  | .node .red l o r =>
    (⟨f.dir, .red, f.value, pick f.dir l r⟩, [⟨f.dir, .black, o, pick (!f.dir) l r⟩])
  | _ => (f, [])

def eraseRepair : ColorTree α → List (Frame α) → Option (ColorTree α)
  | t, [] => some t.blacken
  | t, f :: fs =>
    if t.isRed then some (fill t.blacken (f :: fs))
    else
      (balanceAt (exposeBlack f).1.dir (exposeBlack f).1.color t (exposeBlack f).1.value
        (exposeBlack f).1.sibling).bind fun (t', lacks) =>
          if lacks then
            if t'.isRed then some (fill t'.blacken ((exposeBlack f).2 ++ fs)) else eraseRepair t' fs
          else some (fill t' ((exposeBlack f).2 ++ fs)).blacken

variable {t s l r : ColorTree α} {x o : α} {c b b' : Color} {d : Bool} {k : ℕ} {f : Frame α}
  {fs : List (Frame α)}

theorem eraseRepair_red (h : t.isRed = true) (fs : List (Frame α)) :
    eraseRepair t fs = some (fill t.blacken fs) := by
  cases fs with
  | nil => rfl
  | cons f fs => rw [eraseRepair, if_pos h]

theorem Balanced.join_color (ht : Balanced t .black k) (hs : Balanced s .black k) :
    Balanced (join d c t x s) c (if c = .black then k + 1 else k) := by
  cases c with
  | red => exact ht.join_red hs
  | black => exact ht.join_black hs

theorem isRed_join : (join d c t x s).isRed = decide (c = .red) := by
  cases d <;> cases c <;> rfl

theorem toList_exposeBlack (t : ColorTree α) (f : Frame α) :
    (fill t ((exposeBlack f).1 :: (exposeBlack f).2)).toList = (fill t [f]).toList := by
  obtain ⟨d, c, y, s⟩ := f
  match s with
  | .nil => rfl
  | .node .black l o r => rfl
  | .node .red l o r => cases d <;> simp [exposeBlack, fill, join, pick, toList]

theorem balanceAt_spec (ht : Balanced t .black k)
    (hs : Balanced (.node .black l o r) .black (k + 1)) :
    ∃ t' lacks, balanceAt d c t x (.node .black l o r) = some (t', lacks) ∧
      t'.toList = (join d c t x (.node .black l o r)).toList ∧
      if lacks then Balanced t'.blacken .black (k + 1) ∧ t'.isRed = decide (c = .red)
      else Balanced t' c (if c = .black then k + 2 else k + 1) := by
  obtain ⟨ci, hi⟩ := hs.pick_black d
  obtain ⟨cu, hu⟩ := hs.pick_black (!d)
  rw [balanceAt, ← join_pick d .red l r o, ← join_pick d .black l r o]
  clear hs
  generalize pick d l r = i at hi ⊢
  generalize pick (!d) l r = u at hu ⊢
  rw [hi.isRed_eq, hu.isRed_eq]
  cases cu with
  | red =>
    refine ⟨join d c (join d .black t x i) o u.blacken, false, ?_, ?_,
      (ht.join_black hi).join_color hu.blacken_red⟩
    · rw [if_neg (by simp), if_pos (decide_eq_true rfl)]
    · cases d <;> simp [toList_join, toList_blacken]
  | black =>
    cases ci with
    | black =>
      refine ⟨_, true, rfl, ?_, ?_, isRed_join⟩
      · simp only [toList_join]
      · have hblack : (join d c t x (join d .red i o u)).blacken = join d .black t x
            (join d .red i o u) := by
          cases d <;> rfl
        rw [hblack]
        exact ht.join_black (hi.join_red hu)
    | red =>
      cases i with
      | nil => cases hi
      | node ci' a y b =>
        have hpick : ∀ e, Balanced (pick e a b) .black k := by
          intro e
          cases hi with
          | red ha hb => cases e <;> assumption
        refine ⟨join d c (join d .black t x (pick d a b)) y (join d .black (pick (!d) a b) o u),
          false, rfl, ?_, (ht.join_black (hpick d)).join_color ((hpick (!d)).join_black hu)⟩
        cases d <;> simp [toList_join, toList, pick]

theorem Balanced.exists_node (h : Balanced t .black (k + 1)) : ∃ l o r, t = .node .black l o r := by
  cases h with
  | black hl hr => exact ⟨_, _, _, rfl⟩

theorem blacken_of_not_red (h : t.isRed = false) : t.blacken = t := by
  match t with
  | .nil => rfl
  | .node .black l x r => rfl
  | .node .red l x r => cases h

theorem Hole.exposeBlack (hole : Hole (f :: fs) c (k + 1)) :
    ∃ l o r c', (exposeBlack f).1.sibling = .node .black l o r ∧
      Balanced (.node .black l o r) .black (k + 1) ∧
      Hole ((RedBlack.exposeBlack f).2 ++ fs) c'
      (if (RedBlack.exposeBlack f).1.color = .black then k + 2 else k + 1) ∧
      ((RedBlack.exposeBlack f).1.color = .black → (RedBlack.exposeBlack f).2 = []) ∧
      ((RedBlack.exposeBlack f).1.color = .red →
        c' = .black ∧ (RedBlack.exposeBlack f).2 ++ fs ≠ []) := by
  cases hole with
  | red hs hole =>
    obtain ⟨l, o, r, rfl⟩ := hs.exists_node
    exact ⟨l, o, r, _, rfl, hs, hole, fun _ => rfl, fun _ => ⟨rfl, List.cons_ne_nil _ _⟩⟩
  | @black d x s _ cs _ _ hs hole =>
    cases cs with
    | black =>
      obtain ⟨l, o, r, rfl⟩ := hs.exists_node
      exact ⟨l, o, r, _, rfl, hs, hole, fun _ => rfl, fun h => Color.noConfusion h⟩
    | red =>
      cases s with
      | nil => cases hs
      | node cs l o r =>
        obtain rfl : cs = .red := by
          cases hs
          rfl
        obtain ⟨l', o', r', hinner⟩ := (hs.pick_red d).exists_node
        have hinner' := hs.pick_red d
        rw [hinner] at hinner'
        exact ⟨l', o', r', _, hinner, hinner', .black (hs.pick_red (!d)) hole,
          fun h => Color.noConfusion h, fun _ => ⟨rfl, List.cons_ne_nil _ _⟩⟩

theorem eraseRepair_spec (ht : Balanced t b k) (hole : Hole fs c (k + 1)) :
    ∃ t', eraseRepair t fs = some t' ∧ IsRedBlack t' ∧ t'.toList = (fill t fs).toList := by
  induction fs generalizing t b c k with
  | nil => exact ⟨_, rfl, ht.isRedBlack_blacken, toList_blacken t⟩
  | cons f fs ih =>
    cases b with
    | red =>
      refine ⟨_, eraseRepair_red ht.isRed_eq _, ?_, toList_fill_congr (toList_blacken t) _⟩
      exact hole.fill ht.blacken_red (fun _ => rfl) fun _ => rfl
    | black =>
      obtain ⟨l, o, r, c', hsib, hs, hole', hsame, habove⟩ := hole.exposeBlack
      obtain ⟨t', lacks, hrun, hlist, hres⟩ :=
        balanceAt_spec (d := (exposeBlack f).1.dir) (c := (exposeBlack f).1.color)
          (x := (exposeBlack f).1.value) ht hs
      have hlist' : ∀ u : ColorTree α, u.toList = t'.toList →
          (fill u ((exposeBlack f).2 ++ fs)).toList = (fill t (f :: fs)).toList := by
        intro u hu
        have hexpose := toList_fill_congr (toList_exposeBlack t f) fs
        rw [← fill_append, ← fill_append, List.cons_append, List.singleton_append, fill,
          hsib] at hexpose
        exact (toList_fill_congr (hu.trans hlist) _).trans hexpose
      have hnot : ¬t.isRed = true := by
        rw [ht.isRed_eq]
        decide
      have hstep : eraseRepair t (f :: fs) =
          if lacks then if t'.isRed then some (fill t'.blacken ((exposeBlack f).2 ++ fs))
          else eraseRepair t' fs
          else some (fill t' ((exposeBlack f).2 ++ fs)).blacken := by
        rw [eraseRepair, if_neg hnot, hsib, hrun]
        rfl
      rw [hstep]
      generalize (exposeBlack f).1.color = fc at hole' hsame habove hres
      cases lacks with
      | false =>
        refine ⟨_, rfl, hole'.blacken_fill hres ?_, ?_⟩
        · rintro rfl
          cases fc with
          | red => exact absurd (habove rfl).1 (by decide)
          | black => rfl
        · rw [toList_blacken]
          exact hlist' t' rfl
      | true =>
        obtain ⟨hblack, hisRed⟩ := hres
        rw [if_pos rfl, hisRed]
        cases fc with
        | red =>
          obtain ⟨rfl, hne⟩ := habove rfl
          refine ⟨_, rfl, hole'.fill hblack (fun _ => rfl) (fun _ => rfl),
            hlist' _ (toList_blacken t')⟩
        | black =>
          have hkeep := blacken_of_not_red hisRed
          have happend := hlist' t' rfl
          rw [hkeep] at hblack
          rw [hsame rfl] at hole' happend
          obtain ⟨t'', hrun', hrb, hlist''⟩ := ih hblack hole'
          exact ⟨t'', hrun', hrb, hlist''.trans happend⟩

theorem IsRedBlack.splice (h : IsRedBlack (fill (join d c .nil x s) fs)) :
    ∃ t', (if c = .black then eraseRepair s fs else some (fill s fs)) = some t' ∧ IsRedBlack t' ∧
      t'.toList = (fill s fs).toList := by
  obtain ⟨cp, c', k, ht, hole, hfit, hroot⟩ := h.split
  have hs : c' = c ∧ ∃ b, Balanced s b 0 ∧ (c = .red → b = .black ∧ k = 0) ∧
      (c = .black → k = 1) := by
    cases d with
    | false =>
      cases ht with
      | red hl hr =>
        cases hl
        exact ⟨rfl, _, hr, fun _ => ⟨rfl, rfl⟩, fun h => Color.noConfusion h⟩
      | black hl hr =>
        cases hl
        exact ⟨rfl, _, hr, fun h => Color.noConfusion h, fun _ => rfl⟩
    | true =>
      cases ht with
      | red hl hr =>
        cases hr
        exact ⟨rfl, _, hl, fun _ => ⟨rfl, rfl⟩, fun h => Color.noConfusion h⟩
      | black hl hr =>
        cases hr
        exact ⟨rfl, _, hl, fun h => Color.noConfusion h, fun _ => rfl⟩
  obtain ⟨rfl, b, hs, hred, hblack⟩ := hs
  cases c' with
  | black =>
    obtain rfl := hblack rfl
    exact eraseRepair_spec hs hole
  | red =>
    obtain ⟨rfl, rfl⟩ := hred rfl
    exact ⟨_, rfl, hole.fill hs (fun _ => rfl) fun _ => rfl, rfl⟩

theorem Balanced.join_value (y : α) (h : Balanced (join d c t x s) b k) :
    Balanced (join d c t y s) b k := by
  cases d with
  | false =>
    cases h with
    | red hl hr => exact .red hl hr
    | black hl hr => exact .black hl hr
  | true =>
    cases h with
    | red hl hr => exact .red hl hr
    | black hl hr => exact .black hl hr

theorem IsRedBlack.fill_value (y : α) (h : IsRedBlack (fill (join d c t x s) fs)) :
    IsRedBlack (fill (join d c t y s) fs) := by
  obtain ⟨cp, c', k, ht, hole, hfit, hroot⟩ := h.split
  exact hole.fill (ht.join_value y) hfit hroot

end Erasure

end Foundations.RedBlack
