import AnalysisPrograms.Foundations.Execution
import AnalysisPrograms.Trie.Described

namespace AnalysisPrograms.Trie

open Foundations LabelledTree

variable {nodes nodes' : List Node} {head n : ℕ} {count : List UInt8 → ℕ} {ends : List UInt8 → Prop}
  {v : List UInt8} {c : UInt8} {l : Fin 26}

theorem concat_not_below (v : List UInt8) (c : UInt8) : ¬v ++ [c] <+: v := by
  intro hp
  have hle := hp.length_le
  rw [List.length_append, List.length_singleton] at hle
  omega

theorem passed_concat (v w : List UInt8) (c : UInt8) :
    ((if w <+: v then 1 else 0) + if w = v ++ [c] then 1 else 0) =
      if w <+: v ++ [c] then 1 else 0 := by
  by_cases hw : w = v ++ [c]
  · subst hw
    rw [if_neg (concat_not_below v c), if_pos rfl, if_pos (List.prefix_refl _)]
  · have hiff : w <+: v ++ [c] ↔ w <+: v := List.prefix_concat_iff.trans (or_iff_right hw)
    simp only [hw, hiff, ↓reduceIte, Nat.add_zero]

theorem Describes.visit
    (h : Describes nodes head (fun w => count w + if w <+: v then 1 else 0) ends)
    (hv : follow (childOf nodes) head v = some n) (hc : Lower c) (hshort : v.length + 1 < 2 ^ 32)
    (hmax : ∀ w, count w + 1 < 2 ^ 31) :
    ∃ nodes' m, Trie.visit nodes n c = some (nodes', m) ∧
      follow (childOf nodes') head (v ++ [c]) = some m ∧
      Describes nodes' head (fun w => count w + if w <+: v ++ [c] then 1 else 0) ends := by
  obtain ⟨l, hl⟩ := slot_lower hc
  obtain ⟨nodes₁, node, m, hadd, hn, hm, hat, h₁⟩ := h.addChild hv hl hshort
  have hroom : count (v ++ [c]) + (if v ++ [c] <+: v then 1 else 0) + 1 < 2 ^ 31 := by
    rw [if_neg (concat_not_below v c)]
    exact hmax _
  obtain ⟨nodes₂, hup, hchildren, h₂⟩ := h₁.countUp hat hroom
  refine ⟨nodes₂, m, ?_, by rw [hchildren]; exact hat, ?_⟩
  · simp only [Trie.visit, hl, hadd, hn, hm, hup, Option.bind_eq_bind, Option.bind_some,
      Option.pure_def]
  · simp only [Nat.add_assoc, passed_concat] at h₂
    exact h₂

theorem getElem?_split {word rest : List UInt8} (h : word = v ++ c :: rest) :
    word[v.length]? = some c ∧ v.length < word.length := by
  refine ⟨?_, ?_⟩
  · rw [h, List.getElem?_append_right (Nat.le_refl _), Nat.sub_self]
    rfl
  · rw [h, List.length_append, List.length_cons]
    omega

theorem insertLoop_spec {word rest : List UInt8} (hword : word = v ++ rest)
    (hlen : word.length < 2 ^ 32) (hrest : ∀ c ∈ rest, Lower c) (hmax : ∀ w, count w + 1 < 2 ^ 31)
    (h : Describes nodes head (fun w => count w + if w <+: v then 1 else 0) ends)
    (hv : follow (childOf nodes) head v = some n) {turns : ℕ} (hturns : rest.length < turns) :
    ∃ nodes', insertLoop word turns nodes n v.length = some nodes' ∧
      Describes nodes' head (fun w => count w + if w <+: word then 1 else 0)
        (fun w => w = word ∨ ends w) := by
  -- the part `v` of the word has been passed and `rest` is to come
  induction rest generalizing v nodes n turns with
  | nil =>
    rw [List.append_nil] at hword
    obtain ⟨turns, rfl⟩ : ∃ k, turns = k + 1 := ⟨turns - 1, by simp at hturns; omega⟩
    obtain ⟨node, hn, hmark⟩ := h.mark hv
    rw [← hword] at hmark
    refine ⟨_, ?_, hmark⟩
    rw [insertLoop, if_neg (by rw [hword]; exact Nat.lt_irrefl _), hn]
    rfl
  | cons c rest ih =>
    obtain ⟨turns, rfl⟩ : ∃ k, turns = k + 1 := ⟨turns - 1, by simp at hturns; omega⟩
    obtain ⟨hget, hl⟩ := getElem?_split hword
    obtain ⟨nodes₁, m, hvisit, hm, h₁⟩ := h.visit hv (hrest c List.mem_cons_self) (by omega) hmax
    obtain ⟨nodes', hloop, hdone⟩ := ih (hword.trans (List.append_cons v c rest))
      (fun d hd => hrest d (List.mem_cons_of_mem c hd)) h₁ hm (by simpa using hturns)
    refine ⟨nodes', ?_, hdone⟩
    rw [List.length_append, List.length_singleton] at hloop
    rw [insertLoop, if_pos hl, hget, Nat.mod_eq_of_lt (by omega)]
    simp only [Option.bind_eq_bind, Option.bind_some, hvisit, hloop]

theorem insert_spec {t : State} (h : Describes t.nodes t.head count ends) {word : List UInt8}
    (hword : ∀ c ∈ word, Lower c) (hlen : word.length < 2 ^ 32) (hmax : ∀ w, count w + 1 < 2 ^ 31) :
    ∃ t', insert t word = some t' ∧
      Describes t'.nodes t'.head (fun w => count w + if w <+: word then 1 else 0)
        (fun w => w = word ∨ ends w) := by
  obtain ⟨nodes₁, hup, hchildren, h₁⟩ := h.countUp (follow_nil _ t.head) (hmax [])
  simp only [← List.prefix_nil] at h₁
  obtain ⟨nodes', hloop, hdone⟩ := insertLoop_spec (List.nil_append word).symm hlen hword hmax h₁
    (follow_nil _ t.head) (Nat.lt_succ_self word.length)
  refine ⟨{ t with nodes := nodes' }, ?_, hdone⟩
  rw [List.length_nil] at hloop
  simp only [insert, hup, hloop, Option.bind_eq_bind, Option.bind_some, Option.pure_def]

theorem lookupLoop_spec {ρ : Type} {missing : ρ} {found : Node → ρ} {word rest : List UInt8}
    (Good : ρ → Prop) (hmissing : count word = 0 → ¬ends word → Good missing)
    (hfound : ∀ node : Node, node.prefixCount = count word → (node.isEnd = true ↔ ends word) →
      Good (found node))
    (hword : word = v ++ rest) (hrest : ∀ c ∈ rest, Lower c)
    (h : Describes nodes head count ends) (hv : follow (childOf nodes) head v = some n) {turns : ℕ}
    (hturns : rest.length < turns) :
    ∃ r, lookupLoop nodes missing found word turns n v.length = some r ∧ Good r := by
  induction rest generalizing v n turns with
  | nil =>
    rw [List.append_nil] at hword
    obtain ⟨turns, rfl⟩ : ∃ k, turns = k + 1 := ⟨turns - 1, by simp at hturns; omega⟩
    obtain ⟨node, hn, hcount, hends⟩ := h.node v n hv
    rw [← hword] at hcount hends
    refine ⟨found node, ?_, hfound node hcount hends⟩
    rw [lookupLoop, if_neg (by rw [hword]; exact Nat.lt_irrefl _)]
    simp only [hn, Option.bind_eq_bind, Option.bind_some, Option.pure_def]
  | cons c rest ih =>
    obtain ⟨turns, rfl⟩ : ∃ k, turns = k + 1 := ⟨turns - 1, by simp at hturns; omega⟩
    obtain ⟨hget, hl⟩ := getElem?_split hword
    obtain ⟨l, hslot⟩ := slot_lower (hrest c List.mem_cons_self)
    obtain ⟨node, hn, -⟩ := h.node v n hv
    rw [lookupLoop, if_pos hl, hget]
    simp only [Option.bind_eq_bind, Option.bind_some, hslot, hn]
    cases hm : node.child l with
    | none =>
      have hnone : follow (childOf nodes) head word = none := by
        rw [hword, follow_append, hv, Option.bind_some, follow, childOf_eq hslot hn, hm,
          Option.bind_none]
      obtain ⟨hzero, hno⟩ := h.absent word hnone
      exact ⟨missing, rfl, hmissing hzero hno⟩
    | some m =>
      have hat : follow (childOf nodes) head (v ++ [c]) = some m := by
        rw [follow_concat, hv, Option.bind_some, childOf_eq hslot hn, hm]
      -- the index wraps only beyond the end of the longest path
      have hshort := h.short _ _ hat
      have hrec := ih (hword.trans (List.append_cons v c rest))
        (fun d hd => hrest d (List.mem_cons_of_mem c hd)) hat (by simpa using hturns)
      rw [List.length_append, List.length_singleton] at hshort hrec
      rw [Nat.mod_eq_of_lt hshort]
      exact hrec

variable {t : State} {word : List UInt8}

theorem search_spec (h : Describes t.nodes t.head count ends) (hword : ∀ c ∈ word, Lower c) :
    ∃ b, search t word = some b ∧ (b = true ↔ ends word) :=
  lookupLoop_spec (fun b => b = true ↔ ends word) (fun _ hno => iff_of_false Bool.false_ne_true hno)
    (fun _ _ hends => hends) (List.nil_append word).symm hword h (follow_nil _ t.head)
    (Nat.lt_succ_self word.length)

theorem wordsWithPrefix_spec (h : Describes t.nodes t.head count ends)
    (hword : ∀ c ∈ word, Lower c) : ∃ k, wordsWithPrefix t word = some k ∧ k = count word :=
  lookupLoop_spec (fun k : ℤ => k = count word) (fun hzero _ => by rw [hzero]; rfl)
    (fun _ hcount _ => hcount) (List.nil_append word).symm hword h (follow_nil _ t.head)
    (Nat.lt_succ_self word.length)

theorem describes_init (heap : List Node) :
    Describes (init heap).nodes (init heap).head (fun _ => 0) (fun _ => False) := by
  have hnew : (init heap).nodes[(init heap).head]? = some newNode := List.getElem?_concat_length
  have hleaf (c : UInt8) : childOf (init heap).nodes (init heap).head c = none := by
    cases hl : slot (letter c) with
    | none => simp only [childOf, hl, Option.bind_eq_bind, Option.bind_none]
    | some l => rw [childOf_eq hl hnew, newNode]
  have honly : ∀ w n, follow (childOf (init heap).nodes) (init heap).head w = some n →
      w = [] ∧ n = (init heap).head := by
    intro w n hw
    cases w with
    | nil => exact ⟨rfl, (Option.some.inj hw).symm⟩
    | cons c w =>
      rw [follow, hleaf, Option.bind_none] at hw
      cases hw
  refine ⟨?_, ?_, ?_, ?_⟩
  · intro v w n hv hw
    rw [(honly v n hv).1, (honly w n hw).1]
  · intro w n hw
    obtain ⟨-, rfl⟩ := honly w n hw
    exact ⟨newNode, hnew, rfl, iff_of_false Bool.false_ne_true id⟩
  · intro w _
    exact ⟨rfl, id⟩
  · intro w n hw
    rw [(honly w n hw).1]
    exact Nat.two_pow_pos 32

def Stores (t : State) (words : List (List UInt8)) : Prop :=
  Describes t.nodes t.head (fun w => words.countP fun u => decide (w <+: u)) fun w => w ∈ words

theorem Stores.insert {words : List (List UInt8)} (h : Stores t words) (hword : ∀ c ∈ word, Lower c)
    (hlen : word.length < 2 ^ 32) (hmax : words.length + 1 < 2 ^ 31) :
    ∃ t', Trie.insert t word = some t' ∧ Stores t' (word :: words) := by
  have hroom (w : List UInt8) : words.countP (fun u => decide (w <+: u)) + 1 < 2 ^ 31 := by
    have hle := List.countP_le_length (p := fun u => decide (w <+: u)) (l := words)
    omega
  obtain ⟨t', hins, hd⟩ := insert_spec h hword hlen hroom
  refine ⟨t', hins, ?_⟩
  simp only [Stores, List.countP_cons, decide_eq_true_eq, List.mem_cons]
  exact hd

theorem exec_insert {done : List (List UInt8)} (h : Stores t done) (words : List (List UInt8))
    (hwords : ∀ u ∈ words, (∀ c ∈ u, Lower c) ∧ u.length < 2 ^ 32)
    (hmax : done.length + words.length < 2 ^ 31) :
    ∃ t', Execution.exec insert t words = some t' ∧ Stores t' (words.reverse ++ done) := by
  induction words generalizing t done with
  | nil => exact ⟨t, rfl, h⟩
  | cons u words ih =>
    rw [List.length_cons] at hmax
    obtain ⟨hlow, hlen⟩ := hwords u List.mem_cons_self
    obtain ⟨t₁, hins, h₁⟩ := h.insert hlow hlen (by omega)
    obtain ⟨t', hexec, h'⟩ := ih h₁ (fun x hx => hwords x (List.mem_cons_of_mem u hx))
      (by rw [List.length_cons]; omega)
    refine ⟨t', Execution.exec_cons_iff.mpr ⟨t₁, hins, hexec⟩, ?_⟩
    rw [List.reverse_cons, List.append_assoc]
    exact h'

structure Word where
  bytes : List UInt8
  lower : ∀ c ∈ bytes, Lower c

theorem trie_counts_words (heap : List Node) (words : List Word) (hcount : words.length < 2 ^ 31)
    (hindex : ∀ u ∈ words, u.bytes.length < 2 ^ 32) :
    ∃ t, Execution.exec insert (init heap) (words.map Word.bytes) = some t ∧
      ∀ w : Word,
        (∃ b, search t w.bytes = some b ∧ (b = true ↔ w.bytes ∈ words.map Word.bytes)) ∧
        wordsWithPrefix t w.bytes =
        some (words.countP fun u => decide (w.bytes <+: u.bytes) : ℕ) := by
  have hwords : ∀ u ∈ words.map Word.bytes, (∀ c ∈ u, Lower c) ∧ u.length < 2 ^ 32 := by
    intro u hu
    obtain ⟨x, hx, rfl⟩ := List.mem_map.mp hu
    exact ⟨x.lower, hindex x hx⟩
  have hempty : Stores (init heap) [] := by
    simp only [Stores, List.countP_nil, List.not_mem_nil]
    exact describes_init heap
  obtain ⟨t, hexec, ht⟩ := exec_insert hempty (words.map Word.bytes) hwords
    (by rw [List.length_nil, List.length_map]; omega)
  refine ⟨t, hexec, ?_⟩
  intro w
  obtain ⟨b, hb, hbw⟩ := search_spec ht w.lower
  obtain ⟨k, hk, rfl⟩ := wordsWithPrefix_spec ht w.lower
  rw [List.append_nil] at hbw hk
  rw [List.mem_reverse] at hbw
  rw [List.countP_reverse, List.countP_map] at hk
  exact ⟨⟨b, hb, hbw⟩, hk⟩

theorem lower_of_all {u : List UInt8} (h : u.all (fun c => decide (Lower c)) = true) :
    ∀ c ∈ u, Lower c := by
  intro c hc
  exact of_decide_eq_true (List.all_eq_true.mp h c hc)

def mainWords : List Word :=
  [⟨[97, 98, 99], lower_of_all rfl⟩, ⟨[97, 98, 100], lower_of_all rfl⟩,
    ⟨[97, 98, 101], lower_of_all rfl⟩]

theorem trie_counts_words_main :
    ∃ t, Execution.exec insert (init []) (mainWords.map Word.bytes) = some t ∧
      wordsWithPrefix t [97, 98] = some 3 := by
  obtain ⟨t, ht, hall⟩ := trie_counts_words [] mainWords (by decide) (by decide)
  exact ⟨t, ht, (hall ⟨[97, 98], lower_of_all rfl⟩).2⟩

end AnalysisPrograms.Trie
