import AnalysisPrograms.Foundations.Execution
import AnalysisPrograms.Foundations.Links
import AnalysisPrograms.ListC.Slots

namespace AnalysisPrograms.ListC

open Foundations ByteHeap Links Execution

inductive Link
  | prev
  | next
deriving DecidableEq

def Link.offset : Link → ℕ
  | .prev => 0
  | .next => 8

def entry (base : Ptr) (i : ℤ) : Ptr := base.add (16 * i)

inductive Edit
  | add (prev next node : ℕ)
  | del (prev next node : ℕ)

def Edit.run (base : Ptr) (h : Heap) : Edit → Option Heap
  | .add prev next node =>
    arraydlistAdd h (entry base prev) (entry base next) (entry base node) node
  | .del prev next node => arraydlistDel h (entry base prev) (entry base next) (entry base node)

def follow (h : Heap) (base : Ptr) (link : Link) : ℕ → ℤ → Option (List ℤ)
  | 0, _ => none
  | fuel + 1, index =>
    if index = 0 then some []
    else do
      let w ← h.load ((entry base index).add link.offset)
      let rest ← follow h base link fuel w.toInt
      some (index :: rest)

def Circle (h : Heap) (base : Ptr) (link : Link) (xs : List ℕ) : Prop :=
  ∃ first fuel, h.load ((entry base 0).add link.offset) = some first ∧
    follow h base link fuel first.toInt = some (xs.map fun i : ℕ => (i : ℤ))

inductive Edited (n : ℕ) : List Edit → List ℕ → Prop
  | start : Edited n [] []
  | add {edits : List Edit} {before after : List ℕ} {i : ℕ} : Edited n edits (before ++ after) →
      0 < i → i < n → i ∉ before ++ after →
      Edited n (edits ++ [.add (before.getLastD 0) (after.headD 0) i]) (before ++ i :: after)
  | del {edits : List Edit} {before after : List ℕ} {i : ℕ} : Edited n edits
    (before ++ i :: after) →
      Edited n (edits ++ [.del (before.getLastD 0) (after.headD 0) i]) (before ++ after)

def isListed (edits : List Edit) (i : ℕ) : Bool :=
  edits.foldl (fun listed edit =>
    match edit with
    | .add _ _ node => node == i || listed
    | .del _ _ node => node != i && listed) false

section Words

variable (m : ℕ → UInt8)

def links (link : Link) (i : ℕ) : ℕ := (wordAt m (16 * i + link.offset)).toNat

theorem links_putWord (link link' : Link) (i : ℕ) (w : BitVec 64) :
    links (putWord m (16 * i + link.offset) w) link' =
      if link = link' then Function.update (links m link') i w.toNat else links m link' := by
  have hlink : link.offset = 0 ∨ link.offset = 8 := by cases link <;> simp [Link.offset]
  have hlink' : link'.offset = 0 ∨ link'.offset = 8 := by cases link' <;> simp [Link.offset]
  funext j
  by_cases heq : link = link'
  · subst heq
    rw [if_pos rfl]
    by_cases hj : j = i
    · subst hj
      rw [links, wordAt_putWord, Function.update_self]
    · rw [links, wordAt_putWord_disjoint m w (by omega), Function.update_of_ne hj, links]
  · have hne : link.offset ≠ link'.offset := by
      intro hsame
      cases link <;> cases link' <;> first | exact heq rfl | cases hsame
    rw [if_neg heq, links, wordAt_putWord_disjoint m w (by omega), links]

theorem links_prev_putWord (i : ℕ) (w : BitVec 64) :
    links (putWord m (16 * i) w) .prev = Function.update (links m .prev) i w.toNat :=
  links_putWord m .prev .prev i w

theorem links_next_putWord (i : ℕ) (w : BitVec 64) :
    links (putWord m (16 * i) w) .next = links m .next :=
  links_putWord m .prev .next i w

theorem links_prev_putWord_next (i : ℕ) (w : BitVec 64) :
    links (putWord m (16 * i + 8) w) .prev = links m .prev :=
  links_putWord m .next .prev i w

theorem links_next_putWord_next (i : ℕ) (w : BitVec 64) :
    links (putWord m (16 * i + 8) w) .next = Function.update (links m .next) i w.toNat :=
  links_putWord m .next .next i w

def unlinked (prev next node : ℕ) : ℕ → UInt8 :=
  let m₁ := putWord m (prev + 8) (wordAt m (node + 8))
  let m₂ := putWord m₁ next (wordAt m₁ node)
  putWord (putWord m₂ (node + 8) 0) node 0

variable (p q i : ℕ)

theorem links_next_linked (w : BitVec 64) : links (linked m (16 * p) (16 * q) (16 * i) w) .next =
    Function.update (Function.update (links m .next) i (links m .next p)) p w.toNat := by
  rw [linked, links_next_putWord, links_next_putWord_next, links_next_putWord,
    links_next_putWord_next]
  rfl

theorem links_prev_linked (w : BitVec 64) : links (linked m (16 * p) (16 * q) (16 * i) w) .prev =
    Function.update (Function.update (links m .prev) i (links m .prev q)) q w.toNat := by
  have hread := congrFun (links_prev_putWord_next m i (wordAt m (16 * p + 8))) q
  rw [linked, links_prev_putWord, links_prev_putWord_next, links_prev_putWord,
    links_prev_putWord_next, ← hread]
  rfl

theorem links_next_unlinked : links (unlinked m (16 * p) (16 * q) (16 * i)) .next =
    Function.update (Function.update (links m .next) p (links m .next i)) i 0 := by
  rw [unlinked, links_next_putWord, links_next_putWord_next, links_next_putWord,
    links_next_putWord_next]
  rfl

theorem links_prev_unlinked : links (unlinked m (16 * p) (16 * q) (16 * i)) .prev =
    Function.update (Function.update (links m .prev) q (links m .prev i)) i 0 := by
  have hread := congrFun (links_prev_putWord_next m p (wordAt m (16 * i + 8))) i
  rw [unlinked, links_prev_putWord, links_prev_putWord_next, links_prev_putWord,
    links_prev_putWord_next, ← hread]
  rfl

variable {m p q i} {j : ℕ} (hp : j ≠ p) (hq : j ≠ q) (hi : j ≠ i) (link : Link)
include hp hq hi

theorem links_linked_of_ne (w : BitVec 64) :
    links (linked m (16 * p) (16 * q) (16 * i) w) link j = links m link j := by
  cases link with
  | prev => rw [links_prev_linked, Function.update_of_ne hq, Function.update_of_ne hi]
  | next => rw [links_next_linked, Function.update_of_ne hp, Function.update_of_ne hi]

theorem links_unlinked_of_ne :
    links (unlinked m (16 * p) (16 * q) (16 * i)) link j = links m link j := by
  cases link with
  | prev => rw [links_prev_unlinked, Function.update_of_ne hi, Function.update_of_ne hq]
  | next => rw [links_next_unlinked, Function.update_of_ne hi, Function.update_of_ne hp]

end Words

theorem arraydlistDel_holding {h : Heap} {b size : ℕ} (hb : b < h.length) (m : ℕ → UInt8)
    {prev next node : ℕ} (hprev : prev + 16 ≤ size) (hnext : next + 8 ≤ size)
    (hnode : node + 16 ≤ size) :
    arraydlistDel (h.holding b size m) ⟨b, prev⟩ ⟨b, next⟩ ⟨b, node⟩ =
      some (h.holding b size (unlinked m prev next node)) := by
  have hadd : ∀ a : ℕ, (⟨b, a⟩ : Ptr).add 8 = ⟨b, (a + 8 : ℕ)⟩ := fun a => by simp [Ptr.add]
  unfold arraydlistDel
  rw [hadd, hadd, load_holding hb m (by omega) (by omega)]
  simp only [Option.bind_eq_bind, Option.bind_some]
  rw [store_holding hb m _ (by omega) (by omega), Option.bind_some,
    load_holding hb _ (by omega) (by omega), Option.bind_some, store_holding hb _ _ (by omega)
    (by omega), Option.bind_some, store_holding hb _ _ (by omega) (by omega), Option.bind_some,
      store_holding hb _ _ (by omega) (by omega)]
  rfl

structure Ring (n : ℕ) (m : ℕ → UInt8) (xs : List ℕ) : Prop where
  forward : Listed (links m .next) 0 0 xs
  backward : Listed (links m .prev) 0 0 xs.reverse
  bound : ∀ i ∈ xs, i < n
  free : ∀ link i, 0 < i → i < n → i ∉ xs → links m link i = 0

variable {n : ℕ} {m : ℕ → UInt8} {before after : List ℕ} {i : ℕ}

theorem pointerTo_eq_getLastD (h : ℕ) (before : List ℕ) :
    pointerTo h before = before.getLastD h := by
  induction before generalizing h with
  | nil => rfl
  | cons x before ih => rw [pointerTo_cons, ih, List.getLastD_cons]

theorem pointerTo_reverse_eq_headD (after : List ℕ) :
    pointerTo 0 after.reverse = after.headD 0 := by
  cases after with
  | nil => rfl
  | cons x after => simp [pointerTo]

theorem ne_pointerTo_of_notMem {xs : List ℕ} {j : ℕ} (hpos : 0 < j) (hout : j ∉ xs) :
    j ≠ pointerTo 0 xs := by
  rintro rfl
  rcases List.mem_cons.mp (pointerTo_mem 0 xs) with heq | hmem
  · omega
  · exact hout hmem

theorem Ring.add (h : Ring n m (before ++ after)) (hpos : 0 < i) (hi : i < n)
    (hnew : i ∉ before ++ after) {w : BitVec 64} (hw : w.toNat = i) :
    Ring n (linked m (16 * pointerTo 0 before) (16 * pointerTo 0 after.reverse) (16 * i) w)
      (before ++ i :: after) := by
  have hnew' : i ∉ after.reverse ++ before.reverse := by
    rwa [← List.reverse_append, List.mem_reverse]
  have hback := h.backward
  rw [List.reverse_append] at hback
  refine ⟨?_, ?_, ?_, ?_⟩
  · rw [links_next_linked, hw]
    exact h.forward.insert (by omega) (by omega) hnew
  · rw [links_prev_linked, hw, List.reverse_append, List.reverse_cons, List.append_assoc,
      List.singleton_append]
    exact hback.insert (by omega) (by omega) hnew'
  · intro j hj
    rw [List.mem_append, List.mem_cons] at hj
    rcases hj with hj | rfl | hj
    · exact h.bound j (List.mem_append_left after hj)
    · exact hi
    · exact h.bound j (List.mem_append_right before hj)
  · intro link j hjpos hj hout
    rw [List.mem_append, List.mem_cons, not_or, not_or] at hout
    have hold : j ∉ before ++ after := by
      rw [List.mem_append, not_or]
      exact ⟨hout.1, hout.2.2⟩
    have hp : j ≠ pointerTo 0 before := ne_pointerTo_of_notMem hjpos hout.1
    have hq : j ≠ pointerTo 0 after.reverse :=
      ne_pointerTo_of_notMem hjpos (mt List.mem_reverse.mp hout.2.2)
    rw [links_linked_of_ne hp hq hout.2.1]
    exact h.free link j hjpos hj hold

theorem Ring.del (h : Ring n m (before ++ i :: after)) :
    Ring n (unlinked m (16 * pointerTo 0 before) (16 * pointerTo 0 after.reverse) (16 * i))
      (before ++ after) := by
  have hback := h.backward
  rw [List.reverse_append, List.reverse_cons, List.append_assoc, List.singleton_append] at hback
  refine ⟨?_, ?_, ?_, ?_⟩
  · rw [links_next_unlinked]
    exact h.forward.unlink
  · rw [links_prev_unlinked, List.reverse_append]
    exact hback.unlink
  · intro j hj
    apply h.bound j
    rw [List.mem_append] at hj ⊢
    exact hj.imp_right (List.mem_cons_of_mem i)
  · intro link j hjpos hj hout
    rw [List.mem_append, not_or] at hout
    by_cases hji : j = i
    · subst hji
      cases link with
      | prev => rw [links_prev_unlinked, Function.update_self]
      | next => rw [links_next_unlinked, Function.update_self]
    · have hold : j ∉ before ++ i :: after := by
        rw [List.mem_append, List.mem_cons, not_or, not_or]
        exact ⟨hout.1, hji, hout.2⟩
      have hp : j ≠ pointerTo 0 before := ne_pointerTo_of_notMem hjpos hout.1
      have hq : j ≠ pointerTo 0 after.reverse :=
        ne_pointerTo_of_notMem hjpos (mt List.mem_reverse.mp hout.2)
      rw [links_unlinked_of_ne hp hq hji]
      exact h.free link j hjpos hj hold

theorem ring_zero (n : ℕ) (hzero : ∀ k < 16 * n, m k = 0) (hn : 0 < n) : Ring n m [] := by
  have hlinks : ∀ link i, i < n → links m link i = 0 := by
    intro link i hi
    have hlink : link.offset = 0 ∨ link.offset = 8 := by cases link <;> simp [Link.offset]
    rw [links, wordAt_eq_zero fun k hk => hzero k (by omega)]
    rfl
  refine ⟨⟨hlinks .next 0 hn, List.not_mem_nil⟩, ⟨hlinks .prev 0 hn, List.not_mem_nil⟩, ?_, ?_⟩
  · intro i hi
    cases hi
  · intro link i _ hi _
    exact hlinks link i hi

theorem walk_start_lt {next : ℕ → ℕ} {a : ℕ} {xs : List ℕ} (hn : 0 < n) (hw : Walk next 0 a xs)
    (hbound : ∀ i ∈ xs, i < n) : a < n := by
  cases xs with
  | nil =>
    obtain rfl : a = 0 := hw
    exact hn
  | cons x xs =>
    rw [hw.1]
    exact hbound x List.mem_cons_self

section Memory

variable {h : Heap} {b : ℕ} (hb : b < h.length)

theorem entry_eq (b i : ℕ) : entry ⟨b, 0⟩ i = ⟨b, (16 * i : ℕ)⟩ := by simp [entry, Ptr.add]

theorem pointerTo_lt {xs : List ℕ} (hn : 0 < n) (hbound : ∀ i ∈ xs, i < n) :
    pointerTo 0 xs < n := by
  rcases List.mem_cons.mp (pointerTo_mem 0 xs) with heq | hmem
  · rwa [heq]
  · exact hbound _ hmem

include hb

theorem run_add (hring : Ring n m (before ++ after)) (hpos : 0 < i) (hi : i < n)
    (hnew : i ∉ before ++ after) (hn : n ≤ 2 ^ 63) :
    ∃ m', Edit.run ⟨b, 0⟩ (h.holding b (16 * n) m) (.add (before.getLastD 0) (after.headD 0) i) =
      some (h.holding b (16 * n) m') ∧ Ring n m' (before ++ i :: after) := by
  have hw : (BitVec.ofInt 64 i).toNat = i := by
    rw [BitVec.ofInt_natCast, BitVec.toNat_ofNat]
    omega
  have hp : pointerTo 0 before < n :=
    pointerTo_lt (by omega) fun j hj => hring.bound j (List.mem_append_left after hj)
  have hq : pointerTo 0 after.reverse < n :=
    pointerTo_lt (by omega) fun j hj =>
      hring.bound j (List.mem_append_right before (List.mem_reverse.mp hj))
  refine ⟨_, ?_, hring.add hpos hi hnew hw⟩
  rw [Edit.run, ← pointerTo_eq_getLastD, ← pointerTo_reverse_eq_headD, entry_eq, entry_eq, entry_eq]
  exact arraydlistAdd_holding hb m i (by omega) (by omega) (by omega)

theorem run_del (hring : Ring n m (before ++ i :: after)) :
    ∃ m', Edit.run ⟨b, 0⟩ (h.holding b (16 * n) m) (.del (before.getLastD 0) (after.headD 0) i) =
      some (h.holding b (16 * n) m') ∧ Ring n m' (before ++ after) := by
  have hi : i < n := hring.bound i (List.mem_append_right before List.mem_cons_self)
  have hp : pointerTo 0 before < n :=
    pointerTo_lt (by omega) fun j hj => hring.bound j (List.mem_append_left _ hj)
  have hq : pointerTo 0 after.reverse < n := by
    apply pointerTo_lt (by omega)
    intro j hj
    exact hring.bound j
      (List.mem_append_right before (List.mem_cons_of_mem i (List.mem_reverse.mp hj)))
  refine ⟨_, ?_, hring.del⟩
  rw [Edit.run, ← pointerTo_eq_getLastD, ← pointerTo_reverse_eq_headD, entry_eq, entry_eq, entry_eq]
  exact arraydlistDel_holding hb m (by omega) (by omega) (by omega)

theorem load_link (link : Link) (hi : i < n) :
    (h.holding b (16 * n) m).load ((entry ⟨b, 0⟩ i).add link.offset) =
      some (wordAt m (16 * i + link.offset)) := by
  have hlink : link.offset = 0 ∨ link.offset = 8 := by cases link <;> simp [Link.offset]
  have haddr : (entry ⟨b, 0⟩ i).add link.offset = ⟨b, (16 * i + link.offset : ℕ)⟩ := by
    simp [entry_eq, Ptr.add]
  rw [haddr, load_holding hb m (by omega) (by omega), Int.toNat_natCast]

theorem follow_walk (link : Link) (hn : n ≤ 2 ^ 63) {a fuel : ℕ} {xs : List ℕ}
    (hw : Walk (links m link) 0 a xs) (hbound : ∀ i ∈ xs, i < n) (hfuel : xs.length < fuel) :
    follow (h.holding b (16 * n) m) ⟨b, 0⟩ link fuel a = some (xs.map fun i : ℕ => (i : ℤ)) := by
  induction xs generalizing a fuel with
  | nil =>
    obtain ⟨fuel, rfl⟩ := Nat.exists_eq_add_one_of_ne_zero (Nat.ne_of_gt hfuel)
    obtain rfl : a = 0 := hw
    rfl
  | cons x xs ih =>
    obtain ⟨fuel, rfl⟩ :=
      Nat.exists_eq_add_one_of_ne_zero (Nat.ne_of_gt (Nat.lt_of_le_of_lt (Nat.zero_le _) hfuel))
    obtain ⟨rfl, ha, hw⟩ := hw
    have hrest : ∀ i ∈ xs, i < n := fun i hi => hbound i (List.mem_cons_of_mem a hi)
    have han : a < n := hbound a List.mem_cons_self
    have hlt : links m link a < n := walk_start_lt (by omega) hw hrest
    have hindex : (wordAt m (16 * a + link.offset)).toInt = (links m link a : ℤ) :=
      BitVec.toInt_eq_toNat_of_lt (show 2 * links m link a < 2 ^ 64 by omega)
    rw [follow, if_neg (by omega), load_link hb link han]
    simp only [Option.bind_eq_bind, Option.bind_some]
    rw [hindex, ih hw hrest (Nat.lt_of_succ_lt_succ hfuel), Option.bind_some, List.map_cons]

theorem circle_of_listed (link : Link) (hpos : 0 < n) (hn : n ≤ 2 ^ 63) {xs : List ℕ}
    (hl : Listed (links m link) 0 0 xs) (hbound : ∀ i ∈ xs, i < n) :
    Circle (h.holding b (16 * n) m) ⟨b, 0⟩ link xs := by
  have hlt : links m link 0 < n := walk_start_lt hpos hl.1 hbound
  have hindex : (wordAt m (16 * 0 + link.offset)).toInt = (links m link 0 : ℤ) :=
    BitVec.toInt_eq_toNat_of_lt (show 2 * links m link 0 < 2 ^ 64 by omega)
  refine ⟨_, xs.length + 1, load_link hb link hpos, ?_⟩
  rw [hindex]
  exact follow_walk hb link hn hl.1 hbound (Nat.lt_succ_self _)

theorem edited_ring (hpos : 0 < n) (hn : n ≤ 2 ^ 63) (hzero : ∀ k < 16 * n, m k = 0)
    {edits : List Edit} {xs : List ℕ} (hrun : Edited n edits xs) :
    ∃ m', exec (Edit.run ⟨b, 0⟩) (h.holding b (16 * n) m) edits = some (h.holding b (16 * n) m') ∧
      Ring n m' xs := by
  induction hrun with
  | start => exact ⟨m, rfl, ring_zero n hzero hpos⟩
  | add _ hi hin hnew ih =>
    obtain ⟨m₁, hexec, hring⟩ := ih
    obtain ⟨m₂, hrun, hring'⟩ := run_add hb hring hi hin hnew hn
    exact ⟨m₂, exec_append hexec (exec_cons_iff.mpr ⟨_, hrun, rfl⟩), hring'⟩
  | del _ ih =>
    obtain ⟨m₁, hexec, hring⟩ := ih
    obtain ⟨m₂, hrun, hring'⟩ := run_del hb hring
    exact ⟨m₂, exec_append hexec (exec_cons_iff.mpr ⟨_, hrun, rfl⟩), hring'⟩

end Memory

theorem Edited.nodup {edits : List Edit} {xs : List ℕ} (h : Edited n edits xs) : xs.Nodup := by
  induction h with
  | start => exact List.nodup_nil
  | add _ _ _ hnew ih => exact List.nodup_middle.mpr (List.nodup_cons.mpr ⟨hnew, ih⟩)
  | del _ ih => exact (List.nodup_cons.mp (List.nodup_middle.mp ih)).2

theorem Edited.mem_iff {edits : List Edit} {xs : List ℕ} (h : Edited n edits xs) (j : ℕ) :
    j ∈ xs ↔ isListed edits j = true := by
  induction h with
  | start => simp [isListed]
  | @add edits before after i _ _ _ _ ih =>
    rw [isListed, List.foldl_append]
    change _ ↔ (i == j || isListed edits j) = true
    rw [Bool.or_eq_true, beq_iff_eq, ← ih, List.perm_middle.mem_iff, List.mem_cons, eq_comm]
  | @del edits before after i hprev ih =>
    have hout := (List.nodup_cons.mp (List.nodup_middle.mp hprev.nodup)).1
    rw [isListed, List.foldl_append]
    change _ ↔ (i != j && isListed edits j) = true
    rw [Bool.and_eq_true, bne_iff_ne, ← ih, List.perm_middle.mem_iff, List.mem_cons]
    constructor
    · intro hj
      exact ⟨fun heq => hout (heq ▸ hj), .inr hj⟩
    · rintro ⟨hne, heq | hj⟩
      · exact absurd heq.symm hne
      · exact hj

theorem arraydlist_consistent (h : Heap) (b n : ℕ) (hb : b < h.length) (hpos : 0 < n)
    (hn : n ≤ 2 ^ 63) (m : ℕ → UInt8) (hzero : ∀ k < 16 * n, m k = 0) (edits : List Edit)
    (xs : List ℕ) (hrun : Edited n edits xs) :
    ∃ h', exec (Edit.run ⟨b, 0⟩) (h.holding b (16 * n) m) edits = some h' ∧
      xs.Nodup ∧ (∀ i, i ∈ xs ↔ isListed edits i = true) ∧
      Circle h' ⟨b, 0⟩ .next xs ∧ Circle h' ⟨b, 0⟩ .prev xs.reverse ∧
      ∀ i : ℕ, 0 < i → i < n → i ∉ xs → ∀ link : Link,
      h'.load ((entry ⟨b, 0⟩ i).add link.offset) = some 0 := by
  obtain ⟨m', hexec, hring⟩ := edited_ring hb hpos hn hzero hrun
  refine ⟨_, hexec, hrun.nodup, hrun.mem_iff, ?_, ?_, ?_⟩
  · exact circle_of_listed hb .next hpos hn hring.forward hring.bound
  · exact circle_of_listed hb .prev hpos hn hring.backward fun i hi =>
      hring.bound i (List.mem_reverse.mp hi)
  · intro i hi hin hout link
    rw [load_link hb link hin]
    exact congrArg some (BitVec.eq_of_toNat_eq (hring.free link i hi hin hout))

theorem main_edits_consistent :
    ∃ h', exec (Edit.run ⟨0, 0⟩) (Heap.holding [none] 0 (16 * 8) fun _ => 0)
        [.add 0 0 2, .add 0 2 3, .add 3 2 7, .del 3 2 7] = some h' ∧
      Circle h' ⟨0, 0⟩ .next [3, 2] ∧ Circle h' ⟨0, 0⟩ .prev [2, 3] := by
  have h₀ : Edited 8 [] ([] ++ []) := .start
  have h₁ : Edited 8 [.add 0 0 2] ([] ++ 2 :: []) := .add h₀ (by decide) (by decide) (by decide)
  have h₂ : Edited 8 [.add 0 0 2, .add 0 2 3] ([] ++ 3 :: [2]) :=
    .add h₁ (by decide) (by decide) (by decide)
  have hsplit : Edited 8 [.add 0 0 2, .add 0 2 3] ([3] ++ [2]) := h₂
  have h₃ : Edited 8 [.add 0 0 2, .add 0 2 3, .add 3 2 7] ([3] ++ 7 :: [2]) :=
    .add hsplit (by decide) (by decide) (by decide)
  have h₄ : Edited 8 [.add 0 0 2, .add 0 2 3, .add 3 2 7, .del 3 2 7] ([3] ++ [2]) := .del h₃
  obtain ⟨h', hexec, -, -, hnext, hprev, -⟩ :=
    arraydlist_consistent [none] 0 8 (by decide) (by decide) (by decide)
      (fun _ => 0) (fun _ _ => rfl) _ _ h₄
  exact ⟨h', hexec, hnext, hprev⟩

end AnalysisPrograms.ListC
