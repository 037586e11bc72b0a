import Mathlib.Data.List.Basic
import Mathlib.Data.Nat.Notation
import Mathlib.Tactic.Basic

namespace Foundations.Paths

variable {α : Type} [DecidableEq α] (sep dot : α)

def components (path : List α) : List (List α) := (path.splitOn sep).filter (· ≠ [])

structure IsName (name : List α) : Prop where
  ne_nil : name ≠ []
  sep_notMem : sep ∉ name
  ne_dot : name ≠ [dot]
  ne_dots : name ≠ [dot, dot]

def absolute (names : List (List α)) : List α :=
  if names = [] then [sep] else names.flatMap (sep :: ·)

def enter (stack : List (List α)) (name : List α) : List (List α) :=
  if name = [dot] then stack else if name = [dot, dot] then stack.dropLast else stack ++ [name]

/-- The lexical meaning of an absolute path: no symbolic links, and every directory on the way
exists. -/
def resolve (path : List α) : List α := absolute sep ((components sep path).foldl (enter dot) [])

/-- A relative path as so many steps up, and the names to go down from there. -/
def climb : ℕ × List (List α) → List α → ℕ × List (List α)
  | (ups, names), name =>
    if name = [dot] then (ups, names)
    else if name = [dot, dot] then if names = [] then (ups + 1, []) else (ups, names.dropLast)
    else (ups, names ++ [name])

def relative (path : List α) : ℕ × List (List α) := (components sep path).foldl (climb dot) (0, [])

theorem components_append_sep (xs ys : List α) :
    components sep (xs ++ sep :: ys) = components sep xs ++ components sep ys := by
  unfold components
  rw [List.splitOn_append_cons_self, List.filter_append]

@[simp] theorem components_nil : components sep ([] : List α) = [] := by
  simp [components]

theorem components_sep_cons (xs : List α) : components sep (sep :: xs) = components sep xs := by
  have h := components_append_sep sep [] xs
  rwa [components_nil, List.nil_append, List.nil_append] at h

theorem components_name {name : List α} (hne : name ≠ []) (hsep : sep ∉ name) :
    components sep name = [name] := by
  unfold components
  rw [List.splitOn_eq_singleton hsep]
  simp [hne]

theorem components_sub {path name : List α} (h : name ∈ components sep path) :
    name ≠ [] ∧ sep ∉ name := by
  obtain ⟨hmem, hne⟩ := List.mem_filter.mp h
  refine ⟨of_decide_eq_true hne, ?_⟩
  clear hne h
  induction path generalizing name with
  | nil =>
    rw [List.splitOn_nil, List.mem_singleton] at hmem
    rw [hmem]
    exact List.not_mem_nil
  | cons x xs ih =>
    rw [List.splitOn_cons_eq_if_modifyHead] at hmem
    by_cases hx : x = sep
    · rw [if_pos (beq_iff_eq.mpr hx)] at hmem
      rcases List.mem_cons.mp hmem with rfl | hmem
      · exact List.not_mem_nil
      · exact ih hmem
    · rw [if_neg (mt beq_iff_eq.mp hx)] at hmem
      obtain ⟨first, rest, hsplit⟩ := List.exists_cons_of_ne_nil (List.splitOn_ne_nil sep xs)
      rw [hsplit, List.modifyHead_cons] at hmem
      rcases List.mem_cons.mp hmem with rfl | hmem
      · have hfirst : sep ∉ first := ih (by rw [hsplit]; exact List.mem_cons_self)
        intro hc
        rcases List.mem_cons.mp hc with rfl | hc
        · exact hx rfl
        · exact hfirst hc
      · exact ih (by rw [hsplit]; exact List.mem_cons_of_mem first hmem)

theorem components_flatMap {names : List (List α)} (h : ∀ name ∈ names, name ≠ [] ∧ sep ∉ name) :
    components sep (names.flatMap (sep :: ·)) = names := by
  induction names with
  | nil => exact components_nil sep
  | cons name names ih =>
    obtain ⟨hne, hsep⟩ := h name List.mem_cons_self
    have hrest := ih fun n hn => h n (List.mem_cons_of_mem name hn)
    rw [List.flatMap_cons, List.cons_append, components_sep_cons]
    cases names with
    | nil => simp [components_name sep hne hsep]
    | cons next names =>
      rw [List.flatMap_cons, List.cons_append] at hrest ⊢
      rw [components_sep_cons] at hrest
      rw [components_append_sep, components_name sep hne hsep, hrest]
      rfl

theorem components_absolute {names : List (List α)} (h : ∀ name ∈ names, name ≠ [] ∧ sep ∉ name) :
    components sep (absolute sep names) = names := by
  unfold absolute
  split
  · rename_i hnil
    rw [hnil, components_sep_cons, components_nil]
  · exact components_flatMap sep h

theorem absolute_inj {names names' : List (List α)} (h : ∀ name ∈ names, name ≠ [] ∧ sep ∉ name)
    (h' : ∀ name ∈ names', name ≠ [] ∧ sep ∉ name)
    (heq : absolute sep names = absolute sep names') : names = names' := by
  rw [← components_absolute sep h, heq, components_absolute sep h']

theorem foldl_enter_names {names : List (List α)} (h : ∀ name ∈ names, IsName sep dot name)
    (stack : List (List α)) : names.foldl (enter dot) stack = stack ++ names := by
  induction names generalizing stack with
  | nil => simp
  | cons name names ih =>
    obtain ⟨-, -, hdot, hdots⟩ := h name List.mem_cons_self
    rw [List.foldl_cons, enter, if_neg hdot, if_neg hdots,
      ih fun n hn => h n (List.mem_cons_of_mem name hn)]
    simp

theorem enter_climb (stack : List (List α)) (start : ℕ × List (List α)) (name : List α) :
    enter dot (stack.take (stack.length - start.1) ++ start.2) name =
      stack.take (stack.length - (climb dot start name).1) ++ (climb dot start name).2 := by
  obtain ⟨ups, below⟩ := start
  simp only [enter, climb]
  by_cases hdot : name = [dot]
  · rw [if_pos hdot, if_pos hdot]
  · rw [if_neg hdot, if_neg hdot]
    by_cases hdots : name = [dot, dot]
    · rw [if_pos hdots, if_pos hdots]
      by_cases hbelow : below = []
      · -- above the root there is only the root
        have hlen : (stack.take (stack.length - ups)).length - 1 = stack.length - (ups + 1) := by
          rw [List.length_take]
          omega
        rw [if_pos hbelow, hbelow, List.append_nil, List.append_nil, List.dropLast_eq_take, hlen,
          List.take_take, Nat.min_eq_left (by omega)]
      · rw [if_neg hbelow]
        exact List.dropLast_append_of_ne_nil hbelow
    · rw [if_neg hdots, if_neg hdots, List.append_assoc]

theorem foldl_enter_climb (stack names : List (List α)) (start : ℕ × List (List α)) :
    names.foldl (enter dot) (stack.take (stack.length - start.1) ++ start.2) =
      stack.take (stack.length - (names.foldl (climb dot) start).1) ++
      (names.foldl (climb dot) start).2 := by
  induction names generalizing start with
  | nil => rfl
  | cons name names ih => rw [List.foldl_cons, List.foldl_cons, enter_climb, ih]

theorem resolve_append {root : List (List α)} (hroot : ∀ name ∈ root, IsName sep dot name)
    (path : List α) :
    resolve sep dot (absolute sep root ++ sep :: path) =
      absolute sep
      (root.take (root.length - (relative sep dot path).1) ++ (relative sep dot path).2) := by
  have hplain : ∀ name ∈ root, name ≠ [] ∧ sep ∉ name :=
    fun name hn => ⟨(hroot name hn).ne_nil, (hroot name hn).sep_notMem⟩
  have hclimb := foldl_enter_climb dot root (components sep path) (0, [])
  rw [Nat.sub_zero, List.take_length, List.append_nil] at hclimb
  rw [resolve, components_append_sep, components_absolute sep hplain, List.foldl_append,
    foldl_enter_names sep dot hroot, List.nil_append, hclimb]
  rfl

theorem foldl_climb_fst {names : List (List α)} (h : [dot, dot] ∉ names)
    (start : ℕ × List (List α)) : (names.foldl (climb dot) start).1 = start.1 := by
  induction names generalizing start with
  | nil => rfl
  | cons name names ih =>
    have hname : [dot, dot] ≠ name := List.ne_of_not_mem_cons h
    have hnames := List.not_mem_of_not_mem_cons h
    rw [List.foldl_cons, ih hnames, climb, if_neg (c := name = [dot, dot]) hname.symm]
    split_ifs
    · rfl
    · rfl

theorem relative_fst {path : List α} (h : [dot, dot] ∉ components sep path) :
    (relative sep dot path).1 = 0 :=
  foldl_climb_fst dot h (0, [])

theorem isName_of_foldl_enter {names stack : List (List α)}
    (hnames : ∀ name ∈ names, name ≠ [] ∧ sep ∉ name)
    (hstack : ∀ name ∈ stack, IsName sep dot name) :
    ∀ name ∈ names.foldl (enter dot) stack, IsName sep dot name := by
  induction names generalizing stack with
  | nil => exact hstack
  | cons name names ih =>
    apply ih fun n hn => hnames n (List.mem_cons_of_mem name hn)
    intro n hn
    unfold enter at hn
    split_ifs at hn with hdot hdots
    · exact hstack n hn
    · exact hstack n (List.dropLast_subset stack hn)
    · rcases List.mem_append.mp hn with hn | hn
      · exact hstack n hn
      · obtain rfl := List.mem_singleton.mp hn
        obtain ⟨hne, hsep⟩ := hnames n List.mem_cons_self
        exact ⟨hne, hsep, hdot, hdots⟩

end Foundations.Paths
