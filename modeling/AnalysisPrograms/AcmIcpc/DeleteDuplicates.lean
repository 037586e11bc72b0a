import Mathlib.Order.Lattice.Nat
import AnalysisPrograms.Foundations.Links
import AnalysisPrograms.Foundations.SortedRuns

namespace AnalysisPrograms.DeleteDuplicates

open Foundations.Links Foundations.SortedRuns

structure ListNode where
  val : ℤ
  next : ℕ

/-- The nodes by their addresses; the address 0 is the null pointer. -/
abbrev Heap := ℕ → ListNode

def deref (h : Heap) (p : ℕ) : Option ListNode := if p = 0 then none else some (h p)

def setNext (h : Heap) (p next : ℕ) : Heap := Function.update h p { h p with next := next }

inductive Found
  | result (node : ℕ)
  | stick (stick p n : ℕ)

/-- The first loop, with a bound on its turns. `p` stands for the pointer to the `next` field of the
node `p`. -/
def findStick (h : Heap) : ℕ → ℕ → ℕ → Option Found
  | 0, _, _ => none
  | fuel + 1, stick, p => do
    let target := (← deref h p).next
    let stickNode ← deref h stick
    if target = 0 then
      if target = stickNode.next then return .result stick else return .result 0
    else
      let node ← deref h target
      if node.val ≠ stickNode.val then
        if target ≠ stickNode.next then findStick h fuel target target
        else return .stick stick p node.next
      else findStick h fuel stick target

def prune : ℕ → Heap → ℕ → ℕ → Option Heap
  | 0, _, _, _ => none
  | fuel + 1, h, p, n => do
    let target := (← deref h p).next
    let targetNode ← deref h target
    if n = 0 then
      if targetNode.next ≠ n then return setNext h p 0 else return h
    else
      let node ← deref h n
      let (h, p) :=
        if node.val ≠ targetNode.val then
          if n ≠ targetNode.next then (setNext h p n, p) else (h, target)
        else (h, p)
      prune fuel h p (← deref h n).next

def deleteDuplicates (fuel : ℕ) (h : Heap) (head : ℕ) : Option (Heap × ℕ) :=
  if head = 0 then some (h, 0)
  else do
    match ← findStick h fuel head head with
    | .result node => return (h, node)
    | .stick stick p n =>
      let h ← prune fuel h p n
      return (h, stick)

def nextOf (h : Heap) (p : ℕ) : ℕ := (h p).next

def valOf (h : Heap) (p : ℕ) : ℤ := (h p).val

theorem deref_eq {p : ℕ} (h : Heap) (hp : p ≠ 0) : deref h p = some (h p) := if_neg hp

theorem nextOf_setNext (h : Heap) (p next : ℕ) :
    nextOf (setNext h p next) = Function.update (nextOf h) p next := by
  funext x
  by_cases hx : x = p
  · subst hx
    simp [nextOf, setNext]
  · simp [nextOf, setNext, Function.update_of_ne hx]

theorem valOf_setNext (h : Heap) (p next : ℕ) : valOf (setNext h p next) = valOf h := by
  funext x
  by_cases hx : x = p
  · subst hx
    simp [valOf, setNext]
  · simp [valOf, setNext, Function.update_of_ne hx]

theorem start_eq_iff {next : ℕ → ℕ} {a b : ℕ} {ys zs : List ℕ} (h : Walk next 0 a (ys ++ zs))
    (h' : Walk next 0 b zs) : a = b ↔ ys = [] := by
  constructor
  · rintro rfl
    have hlen := congrArg List.length (h.unique h')
    rw [List.length_append] at hlen
    exact List.length_eq_zero_iff.mp (by omega)
  · rintro rfl
    exact h.eq_of_same h'

structure Pruning (h : Heap) (xs : List ℕ) (stick : ℕ) (kept : List ℕ) (p c : ℕ)
    (done ys zs : List ℕ) (n : ℕ) : Prop where
  scan : Scan (valOf h) xs done c ys zs
  walk : Walk (nextOf h) 0 stick (kept ++ p :: c :: (ys ++ zs))
  rest : Walk (nextOf h) 0 n zs
  survivors : done.filter (once (valOf h) xs) = kept ++ [p]

section Prune

variable {h : Heap} {xs done kept ys zs : List ℕ} {stick c p n z : ℕ}

theorem Pruning.more (hp : Pruning h xs stick kept p c done ys (z :: zs) z)
    (hz : valOf h z = valOf h c) :
    Pruning h xs stick kept p c done (ys ++ [z]) zs (nextOf h z) := by
  refine ⟨hp.scan.more hz, ?_, hp.rest.2.2, hp.survivors⟩
  rw [List.append_assoc]
  exact hp.walk

theorem Pruning.keep (hp : Pruning h xs stick kept p c done [] (z :: zs) z)
    (hz : valOf h z ≠ valOf h c) :
    Pruning h xs stick (kept ++ [p]) c z (done ++ [c]) [] zs (nextOf h z) := by
  refine ⟨hp.scan.next hz, ?_, hp.rest.2.2, ?_⟩
  · rw [List.append_assoc]
    exact hp.walk
  · rw [hp.scan.filter_next hz, if_pos rfl, hp.survivors]

theorem Pruning.cut (hp : Pruning h xs stick kept p c done ys (z :: zs) z)
    (hz : valOf h z ≠ valOf h c) (hys : ys ≠ []) :
    Pruning (setNext h p z) xs stick kept p z (done ++ c :: ys) [] zs
      (nextOf (setNext h p z) z) := by
  have hwalk : Walk (nextOf (setNext h p z)) 0 stick (kept ++ p :: (z :: zs)) := by
    have hskip : Walk (nextOf h) 0 stick (kept ++ p :: ((c :: ys) ++ z :: zs)) := hp.walk
    rw [nextOf_setNext]
    exact hskip.splice hp.rest
  refine ⟨?_, hwalk, ?_, ?_⟩
  · rw [valOf_setNext]
    exact hp.scan.next hz
  · rw [List.append_cons] at hwalk
    exact hwalk.behind.2
  · rw [valOf_setNext, hp.scan.filter_next hz, if_neg hys, List.append_nil, hp.survivors]

theorem prune_end (fuel : ℕ) (hp : p ≠ 0) (hc : nextOf h p ≠ 0) :
    prune (fuel + 1) h p 0 = some (if nextOf h (nextOf h p) ≠ 0 then setNext h p 0 else h) := by
  rw [prune, deref_eq h hp]
  change (deref h (nextOf h p)).bind _ = _
  rw [deref_eq h hc, Option.bind_some, if_pos rfl]
  change (if nextOf h (nextOf h p) ≠ 0 then some (setNext h p 0) else some h) = _
  split
  · rfl
  · rfl

theorem prune_turn (fuel : ℕ) (hp : p ≠ 0) (hc : nextOf h p ≠ 0) (hn : n ≠ 0) :
    prune (fuel + 1) h p n =
      if valOf h n ≠ valOf h (nextOf h p) then
        if n ≠ nextOf h (nextOf h p) then prune fuel (setNext h p n) p (nextOf (setNext h p n) n)
        else prune fuel h (nextOf h p) (nextOf h n)
      else prune fuel h p (nextOf h n) := by
  rw [prune, deref_eq h hp]
  change (deref h (nextOf h p)).bind _ = _
  rw [deref_eq h hc, Option.bind_some, if_neg hn, deref_eq h hn, Option.bind_eq_bind,
    Option.bind_some]
  simp only [deref, if_neg hn, valOf, nextOf, Option.bind_some]
  by_cases hval : (h n).val = (h (h p).next).val
  · simp [hval]
  · by_cases hnext : n = (h (h p).next).next
    · simp [hval, ← hnext]
    · simp [hval, hnext]

theorem prune_spec {fuel : ℕ} (hfuel : zs.length < fuel)
    (hp : Pruning h xs stick kept p c done ys zs n) :
    ∃ h', prune fuel h p n = some h' ∧ valOf h' = valOf h ∧
      Walk (nextOf h') 0 stick (xs.filter (once (valOf h) xs)) := by
  induction zs generalizing fuel h kept p c done ys n with
  | nil =>
    obtain ⟨fuel, rfl⟩ := Nat.exists_eq_add_one_of_ne_zero (Nat.ne_zero_of_lt hfuel)
    obtain ⟨hp0, hpc, hc0, hyz⟩ := hp.walk.behind
    obtain rfl : n = 0 := hp.rest
    have hempty : nextOf h c = 0 ↔ ys = [] := start_eq_iff hyz rfl
    rw [prune_end fuel hp0 (hpc ▸ hc0), hpc, hp.scan.filter_end, hp.survivors]
    by_cases hys : ys = []
    · rw [if_neg (not_not_intro (hempty.mpr hys)), if_pos hys]
      refine ⟨h, rfl, rfl, ?_⟩
      have hwalk := hp.walk
      rw [hys, List.append_cons] at hwalk
      exact hwalk
    · rw [if_pos (mt hempty.mp hys), if_neg hys, List.append_nil]
      refine ⟨_, rfl, valOf_setNext h p 0, ?_⟩
      have hskip : Walk (nextOf h) 0 stick (kept ++ p :: ((c :: ys) ++ [])) := hp.walk
      rw [nextOf_setNext]
      exact hskip.splice rfl
  | cons z zs ih =>
    obtain ⟨fuel, rfl⟩ := Nat.exists_eq_add_one_of_ne_zero (Nat.ne_zero_of_lt hfuel)
    obtain ⟨hp0, hpc, hc0, hyz⟩ := hp.walk.behind
    obtain ⟨rfl, hn0, -⟩ := hp.rest
    have hlen : zs.length < fuel := Nat.lt_of_succ_lt_succ hfuel
    have hempty : nextOf h c = n ↔ ys = [] := start_eq_iff hyz hp.rest
    rw [prune_turn fuel hp0 (hpc ▸ hc0) hn0, hpc]
    by_cases hval : valOf h n = valOf h c
    · rw [if_neg (not_not_intro hval)]
      exact ih hlen (hp.more hval)
    · rw [if_pos hval]
      by_cases hys : ys = []
      · subst hys
        rw [if_neg (not_not_intro (hempty.mpr rfl).symm)]
        exact ih hlen (hp.keep hval)
      · rw [if_pos fun heq => hys (hempty.mp heq.symm)]
        obtain ⟨h', hrun, hvals, hwalk⟩ := ih hlen (hp.cut hval hys)
        rw [valOf_setNext] at hvals hwalk
        exact ⟨h', hrun, hvals, hwalk⟩

end Prune

section FindStick

variable {h : Heap} {xs done ys zs : List ℕ} {stick p z : ℕ}

structure Finding (h : Heap) (xs : List ℕ) (stick p : ℕ) (done ys zs : List ℕ) : Prop where
  scan : Scan (valOf h) xs done stick ys zs
  walk : Walk (nextOf h) 0 stick (stick :: (ys ++ zs))
  pointer : p ≠ 0
  rest : Walk (nextOf h) 0 (nextOf h p) zs
  first : ys = [] → p = stick
  survivors : done.filter (once (valOf h) xs) = []

theorem Finding.more (hf : Finding h xs stick p done ys (z :: zs))
    (hz : valOf h z = valOf h stick) : Finding h xs stick z done (ys ++ [z]) zs := by
  refine ⟨hf.scan.more hz, ?_, hf.rest.2.1, hf.rest.2.2, ?_, hf.survivors⟩
  · rw [List.append_assoc]
    exact hf.walk
  · intro hnil
    cases (List.append_eq_nil_iff.mp hnil).2

theorem Finding.next (hf : Finding h xs stick p done ys (z :: zs))
    (hz : valOf h z ≠ valOf h stick) (hys : ys ≠ []) :
    Finding h xs z z (done ++ stick :: ys) [] zs := by
  refine ⟨hf.scan.next hz, ⟨rfl, hf.rest.2⟩, hf.rest.2.1, hf.rest.2.2, fun _ => rfl, ?_⟩
  rw [hf.scan.filter_next hz, if_neg hys, List.append_nil, hf.survivors]

theorem Finding.found (hf : Finding h xs stick p done [] (z :: zs))
    (hz : valOf h z ≠ valOf h stick) :
    Pruning h xs stick [] p z (done ++ [stick]) [] zs (nextOf h z) := by
  obtain rfl := hf.first rfl
  refine ⟨hf.scan.next hz, hf.walk, hf.rest.2.2, ?_⟩
  rw [hf.scan.filter_next hz, if_pos rfl, hf.survivors]

def FoundFor (h : Heap) (xs : List ℕ) : Found → Prop
  | .result node => Walk (nextOf h) 0 node (xs.filter (once (valOf h) xs))
  | .stick stick p n => ∃ c done zs, Pruning h xs stick [] p c done [] zs n ∧ zs.length ≤ xs.length

theorem findStick_end (fuel : ℕ) (hp : p ≠ 0) (hs : stick ≠ 0) (hend : nextOf h p = 0) :
    findStick h (fuel + 1) stick p = some (.result (if nextOf h stick = 0 then stick else 0)) := by
  rw [findStick, deref_eq h hp, deref_eq h hs]
  change (if nextOf h p = 0 then if nextOf h p = nextOf h stick then some (Found.result stick)
    else some (.result 0)
    else _) = _
  rw [if_pos hend, hend]
  split_ifs with heq heq' heq'
  · rfl
  · exact absurd heq.symm heq'
  · exact absurd heq'.symm heq
  · rfl

theorem findStick_turn (fuel : ℕ) (hp : p ≠ 0) (hs : stick ≠ 0) (hz : nextOf h p ≠ 0) :
    findStick h (fuel + 1) stick p =
      if valOf h (nextOf h p) ≠ valOf h stick then
        if nextOf h p ≠ nextOf h stick then findStick h fuel (nextOf h p) (nextOf h p)
        else some (.stick stick p (nextOf h (nextOf h p)))
      else findStick h fuel stick (nextOf h p) := by
  rw [findStick, deref_eq h hp, deref_eq h hs]
  change (if nextOf h p = 0 then _ else (deref h (nextOf h p)).bind _) = _
  rw [if_neg hz, deref_eq h hz]
  rfl

theorem findStick_spec {fuel : ℕ} (hfuel : zs.length < fuel)
    (hf : Finding h xs stick p done ys zs) :
    ∃ r, findStick h fuel stick p = some r ∧ FoundFor h xs r := by
  induction zs generalizing fuel stick p done ys with
  | nil =>
    obtain ⟨fuel, rfl⟩ := Nat.exists_eq_add_one_of_ne_zero (Nat.ne_zero_of_lt hfuel)
    obtain ⟨-, hs0, hyz⟩ := hf.walk
    have hempty : nextOf h stick = 0 ↔ ys = [] := start_eq_iff hyz rfl
    refine ⟨_, findStick_end fuel hf.pointer hs0 hf.rest, ?_⟩
    rw [FoundFor, hf.scan.filter_end, hf.survivors, List.nil_append]
    by_cases hys : ys = []
    · rw [if_pos (hempty.mpr hys), if_pos hys]
      exact ⟨rfl, hs0, hempty.mpr hys⟩
    · rw [if_neg (mt hempty.mp hys), if_neg hys]
      rfl
  | cons z zs ih =>
    obtain ⟨fuel, rfl⟩ := Nat.exists_eq_add_one_of_ne_zero (Nat.ne_zero_of_lt hfuel)
    obtain ⟨-, hs0, hyz⟩ := hf.walk
    obtain ⟨hpz, hz0, -⟩ := hf.rest
    have hlen : zs.length < fuel := Nat.lt_of_succ_lt_succ hfuel
    have hempty : nextOf h stick = z ↔ ys = [] := start_eq_iff hyz (hpz ▸ hf.rest)
    rw [findStick_turn fuel hf.pointer hs0 (hpz ▸ hz0), hpz]
    by_cases hval : valOf h z = valOf h stick
    · rw [if_neg (not_not_intro hval)]
      exact ih hlen (hf.more hval)
    · rw [if_pos hval]
      by_cases hys : ys = []
      · subst hys
        rw [if_neg (not_not_intro (hempty.mpr rfl).symm)]
        refine ⟨_, rfl, z, done ++ [stick], zs, hf.found hval, ?_⟩
        rw [hf.scan.split]
        simp only [List.length_append, List.length_cons]
        omega
      · rw [if_pos fun heq => hys (hempty.mp heq.symm)]
        exact ih hlen (hf.next hval hys)

end FindStick

theorem delete_duplicates_correct (h : Heap) (head : ℕ) (xs : List ℕ)
    (hlist : Walk (nextOf h) 0 head xs) (hsorted : (xs.map (valOf h)).Pairwise (· ≤ ·)) (fuel : ℕ)
    (hfuel : xs.length < fuel) :
    ∃ h' node, deleteDuplicates fuel h head = some (h', node) ∧ valOf h' = valOf h ∧
      Walk (nextOf h') 0 node (xs.filter (once (valOf h) xs)) := by
  cases xs with
  | nil =>
    obtain rfl : head = 0 := hlist
    exact ⟨h, 0, rfl, rfl, rfl⟩
  | cons x zs =>
    obtain ⟨rfl, hhead, hrest⟩ := hlist
    have hf : Finding h (head :: zs) head head [] [] zs :=
      ⟨scan_start hsorted, ⟨rfl, hhead, hrest⟩, hhead, hrest, fun _ => rfl, rfl⟩
    have hlen : zs.length < fuel := Nat.lt_of_succ_lt hfuel
    obtain ⟨r, hr, hfound⟩ := findStick_spec hlen hf
    rw [deleteDuplicates, if_neg hhead, hr, Option.bind_eq_bind, Option.bind_some]
    cases r with
    | result node => exact ⟨h, node, rfl, rfl, hfound⟩
    | stick stick p n =>
      obtain ⟨c, done, zs', hp, hle⟩ := hfound
      obtain ⟨h', hrun, hvals, hwalk⟩ := prune_spec (Nat.lt_of_le_of_lt hle hfuel) hp
      refine ⟨h', stick, ?_, hvals, hwalk⟩
      change (prune fuel h p n).bind _ = _
      rw [hrun]
      rfl

def shortList : Heap := fun p => if p = 1 then ⟨1, 2⟩ else if p = 2 then ⟨1, 3⟩ else ⟨2, 0⟩

theorem delete_duplicates_short :
    Walk (nextOf shortList) 0 1 [1, 2, 3] ∧
      (([1, 2, 3] : List ℕ).map (valOf shortList)).Pairwise (· ≤ ·) ∧
      [1, 2, 3].length < 4 ∧
      ∃ h' node, deleteDuplicates 4 shortList 1 = some (h', node) ∧ valOf h' = valOf shortList ∧
        Walk (nextOf h') 0 node ([1, 2, 3].filter (once (valOf shortList) [1, 2, 3])) := by
  have hlist : Walk (nextOf shortList) 0 1 [1, 2, 3] := by
    refine ⟨rfl, by decide, rfl, by decide, rfl, by decide, rfl⟩
  have hsorted : (([1, 2, 3] : List ℕ).map (valOf shortList)).Pairwise (· ≤ ·) := by decide
  exact ⟨hlist,
    hsorted, by decide, delete_duplicates_correct shortList 1 [1, 2, 3] hlist hsorted 4 (by decide)⟩

end AnalysisPrograms.DeleteDuplicates
