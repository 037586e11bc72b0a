import Mathlib.Data.List.Induction
import Mathlib.Order.Nat
import AnalysisPrograms.Foundations.Execution
import AnalysisPrograms.ListC.Bitmap

namespace AnalysisPrograms.ListC

open Foundations ByteHeap Execution

def setAt (bm : Bitmap) (s : Heap × List ℤ) (call : ℤ × ℤ) : Option (Heap × List ℤ) := do
  let (rslt, h) ← bitmapSet s.1 bm call.1 call.2
  some (h, s.2 ++ [rslt])

def Within (len : ℕ) (pos : ℤ) : Prop := 0 ≤ pos ∧ pos < 8 * len

instance decidableWithin (len : ℕ) (pos : ℤ) : Decidable (Within len pos) :=
  inferInstanceAs (Decidable (_ ∧ _))

theorem Within.exists_nat {len : ℕ} {pos : ℤ} (h : Within len pos) :
    ∃ e : ℕ, pos = e ∧ e < 8 * len := by
  obtain ⟨hlo, hhi⟩ := h
  exact ⟨pos.toNat, by omega, by omega⟩

def lastValue (calls : List (ℤ × ℤ)) (pos : ℤ) : Option ℤ :=
  calls.foldl (fun last call => if call.1 = pos then some call.2 else last) none

def Member (len : ℕ) (calls : List (ℤ × ℤ)) (pos : ℤ) : Prop :=
  Within len pos ∧ ∃ v, v ≠ 0 ∧ lastValue calls pos = some v

def IsFirst (len : ℕ) (p : ℤ → Prop) (r : ℤ) : Prop :=
  Within len r ∧ p r ∧ (∀ q, Within len q → p q → r ≤ q) ∨ r = -1 ∧ ∀ q, Within len q → ¬p q

/-- After these calls the bitmap is the set of positions whose last value is not zero. -/
def SetOfPositions (h : Heap) (matrix : Ptr) (len : ℕ) (calls : List (ℤ × ℤ)) : Prop :=
  ∃ h' rslts, exec (setAt ⟨matrix, len⟩) (h, []) calls = some (h', rslts) ∧
    rslts = calls.map (fun call => if Within len call.1 then 0 else -1) ∧
    (∀ pos, ∃ r, bitmapIsSet h' ⟨matrix, len⟩ pos = some r ∧ (r ≠ 0 ↔ Member len calls pos)) ∧
    (∃ r, bitmapSearchFirst h' ⟨matrix, len⟩ false = some r ∧
      IsFirst len (fun pos => ¬Member len calls pos) r) ∧
    ∃ r, bitmapSearchFirst h' ⟨matrix, len⟩ true = some r ∧ IsFirst len (Member len calls) r

section Bits

theorem firstBit_eq {set : Bool} {w : BitVec 64} {room j k : ℕ} (hjk : j ≤ k) (hk : k < j + room)
    (hbit : w.getLsbD k = set) (hbefore : ∀ i, j ≤ i → i < k → ¬w.getLsbD i = set) :
    firstBit set w room j = some k := by
  induction room generalizing j with
  | zero => omega
  | succ room ih =>
    by_cases heq : j = k
    · subst heq
      rw [firstBit, if_pos hbit]
    · rw [firstBit, if_neg (hbefore j (Nat.le_refl j) (by omega))]
      exact ih (by omega) (by omega) fun i hi => hbefore i (by omega)

theorem and_bit_ne_zero_iff (w : BitVec 64) {j : ℕ} (hj : j < 64) :
    w &&& (1 : BitVec 64) <<< j ≠ 0 ↔ w.getLsbD j = true := by
  have hbit : (BitVec.twoPow 64 j).getLsbD j = true := by simp [hj]
  have hmask : w &&& (1 : BitVec 64) <<< j = if w.getLsbD j = true then BitVec.twoPow 64 j
      else 0#64 :=
    BitVec.and_twoPow w j
  rw [hmask]
  by_cases hw : w.getLsbD j = true
  · rw [if_pos hw]
    refine iff_of_true ?_ hw
    intro hzero
    simp [hzero] at hbit
  · rw [if_neg hw]
    exact iff_of_false (fun hne => hne rfl) hw

theorem getLsbD_or_bit (w : BitVec 64) (v : ℤ) {j : ℕ} (hj : j < 64) (k : ℕ) :
    (w ||| (if v ≠ 0 then (1 : BitVec 64) else 0) <<< j).getLsbD k = true ↔
      w.getLsbD k = true ∨ v ≠ 0 ∧ j = k := by
  rw [BitVec.getLsbD_or, Bool.or_eq_true]
  apply or_congr_right
  by_cases hv : v ≠ 0
  · have hbit : ((1 : BitVec 64) <<< j).getLsbD k = (decide (j < 64) && decide (j = k)) :=
      BitVec.getLsbD_twoPow j k
    rw [if_pos hv, hbit]
    simp [hj, hv]
  · rw [if_neg hv]
    simp [hv]

end Bits

def Marks (len : ℕ) (m : ℕ → UInt8) (A : ℕ → Prop) : Prop :=
  ∀ i, i < len → ∀ j, (wordAt m (8 * i)).getLsbD j = true ↔ j < 8 ∧ A (8 * i + j)

variable {len size : ℕ} {m : ℕ → UInt8} {A : ℕ → Prop}

theorem Marks.congr {B : ℕ → Prop} (h : Marks len m A) (hAB : ∀ e, A e ↔ B e) : Marks len m B := by
  intro i hi j
  rw [h i hi j, hAB]

theorem Marks.put (h : Marks len m A) (v : ℤ) (e : ℕ) :
    Marks len
      (putWord m (8 * (e / 8))
        (wordAt m (8 * (e / 8)) ||| (if v ≠ 0 then (1 : BitVec 64) else 0) <<< (e % 8)))
      (fun q => A q ∨ v ≠ 0 ∧ q = e) := by
  intro i hi j
  by_cases hword : i = e / 8
  · rw [hword, wordAt_putWord, getLsbD_or_bit _ v (by omega), h (e / 8) (by omega), and_or_left]
    apply or_congr_right
    constructor
    · rintro ⟨hv, hj⟩
      exact ⟨by omega, hv, by omega⟩
    · rintro ⟨hj, hv, heq⟩
      exact ⟨hv, by omega⟩
  · rw [wordAt_putWord_disjoint m _ (by omega), h i hi, and_or_left]
    constructor
    · exact .inl
    · rintro (hold | ⟨hj, -, heq⟩)
      · exact hold
      · omega

theorem Marks.word_eq_zero_iff (h : Marks len m A) {i : ℕ} (hi : i < len) :
    wordAt m (8 * i) = 0 ↔ ∀ j, j < 8 → ¬A (8 * i + j) := by
  constructor
  · intro hzero j hj hA
    have hbit := (h i hi j).mpr ⟨hj, hA⟩
    rw [hzero] at hbit
    cases hbit.symm.trans BitVec.getLsbD_zero
  · intro hnone
    apply BitVec.eq_of_getLsbD_eq
    intro j _
    rw [Bool.eq_iff_iff, h i hi j]
    refine iff_of_false ?_ ?_
    · rintro ⟨hj, hA⟩
      exact hnone j hj hA
    · simp

theorem exists_least {p : ℕ → Prop} {n : ℕ} (h : p n) : ∃ k, k ≤ n ∧ p k ∧ ∀ i, i < k → ¬p i := by
  classical
  exact ⟨Nat.find ⟨n, h⟩, Nat.find_min' ⟨n, h⟩ h, Nat.find_spec ⟨n, h⟩,
    fun i hi => Nat.find_min ⟨n, h⟩ hi⟩

theorem Marks.first_of_word (h : Marks len m A) {i : ℕ} (hi : i < len)
    (hne : wordAt m (8 * i) ≠ 0) :
    ∃ e, e < 8 ∧ firstBit true (wordAt m (8 * i)) 31 0 = some e ∧ A (8 * i + e) ∧
      ∀ k, 8 * i ≤ k → k < 8 * i + e → ¬A k := by
  obtain ⟨j, hj, hA⟩ : ∃ j, j < 8 ∧ A (8 * i + j) := by
    by_contra hnone
    exact hne ((h.word_eq_zero_iff hi).mpr fun j hj hA => hnone ⟨j, hj, hA⟩)
  obtain ⟨e, hle, hset, hbefore⟩ := exists_least (p := fun j => (wordAt m (8 * i)).getLsbD j = true)
    ((h i hi j).mpr ⟨hj, hA⟩)
  refine ⟨e, by omega, firstBit_eq (Nat.zero_le e) (by
    omega) hset fun k _ hk => hbefore k hk, ((h i hi e).mp hset).2, ?_⟩
  intro k hk hlt hAk
  apply hbefore (k - 8 * i) (by omega)
  rw [h i hi, Nat.add_sub_cancel' hk]
  exact ⟨by omega, hAk⟩

section Memory

variable {h : Heap} {b : ℕ} (hb : b < h.length)
include hb

theorem bitmapIsSet_word {e : ℕ} (he : e < 8 * len) (hfit : 8 * (e / 8) + 8 ≤ size) :
    bitmapIsSet (h.holding b size m) ⟨⟨b, 0⟩, len⟩ e =
      some (if (wordAt m (8 * (e / 8))).getLsbD (e % 8) = true then 1 else 0) := by
  rw [bitmapIsSet_inside _ b he, load_holding hb m (by omega) (by omega), Int.toNat_natCast]
  simp only [Option.map_some, and_bit_ne_zero_iff _ (show e % 8 < 64 by omega)]

theorem Marks.isSet (hm : Marks len m A) (hfit : 8 * len ≤ size) (pos : ℤ) :
    ∃ r, bitmapIsSet (h.holding b size m) ⟨⟨b, 0⟩, len⟩ pos = some r ∧
      (r ≠ 0 ↔ Within len pos ∧ A pos.toNat) := by
  by_cases hin : Within len pos
  · obtain ⟨e, rfl, he⟩ := hin.exists_nat
    refine ⟨_, bitmapIsSet_word hb he (by omega), ?_⟩
    rw [ite_ne_right_iff, hm (e / 8) (by omega), Nat.div_add_mod, Int.toNat_natCast]
    constructor
    · rintro ⟨⟨-, hA⟩, -⟩
      exact ⟨hin, hA⟩
    · rintro ⟨-, hA⟩
      exact ⟨⟨Nat.mod_lt e (by omega), hA⟩, by decide⟩
  · refine ⟨0, ?_, ?_⟩
    · unfold bitmapIsSet
      by_cases hneg : pos < 0
      · rw [if_pos hneg]
      · rw [if_neg hneg, if_neg fun hlt => hin ⟨by omega, hlt⟩]
    · exact iff_of_false (fun hne => hne rfl) fun hboth => hin hboth.1

theorem Marks.search_unset (hm : Marks len m A) (hfit : 8 * len ≤ size) (hlen : 0 < len) :
    ∃ e, (e = 8 ∨ e < 8 ∧ ¬A e) ∧ (∀ i, i < e → A i) ∧
      bitmapSearchFirst (h.holding b size m) ⟨⟨b, 0⟩, len⟩ false =
      some (if e < 8 * len then (e : ℤ) else -1) := by
  have hbit := hm 0 hlen
  rw [Nat.mul_zero] at hbit
  obtain ⟨e, hle, hclear, hbefore⟩ :=
    exists_least (p := fun j => ¬(wordAt m 0).getLsbD j = true) (n := 8)
      fun hset => absurd ((hbit 8).mp hset).1 (by omega)
  have hfirst : firstBit false (wordAt m 0) 31 0 = some e := by
    apply firstBit_eq (Nat.zero_le e) (by omega)
    · exact Bool.not_eq_true _ ▸ hclear
    · intro i _ hi hfalse
      exact hbefore i hi (by rw [hfalse]; exact Bool.false_ne_true)
  have hones : wordAt m 0 ≠ -1 := by
    intro hall
    have hhigh := mt (hbit 8).mp fun hlow => absurd hlow.1 (by omega)
    rw [hall] at hhigh
    exact hhigh (by decide)
  refine ⟨e, ?_, ?_, ?_⟩
  · by_cases heq : e = 8
    · exact .inl heq
    · refine .inr ⟨by omega, fun hA => hclear ?_⟩
      rw [hbit, Nat.zero_add]
      exact ⟨by omega, hA⟩
  · intro i hi
    have hset := (hbit i).mp (not_not.mp (hbefore i hi))
    rw [Nat.zero_add] at hset
    exact hset.2
  · rw [bitmapSearchFirst]
    dsimp only
    rw [Int.toNat_natCast, searchFrom_first hb m hlen (by omega) hones hfirst]
    simp only [Option.bind_eq_bind, Option.bind_some]
    by_cases hlt : e < 8 * len
    · rw [if_pos hlt, if_neg (by omega)]
    · rw [if_neg hlt, if_pos (by omega)]

theorem Marks.searchFrom_set (hm : Marks len m A) (hfit : 8 * len ≤ size) {index room : ℕ}
    (hroom : index + room = len) :
    (∃ e, e < 8 * len ∧ A e ∧ (∀ i, 8 * index ≤ i → i < e → ¬A i) ∧
      searchFrom (h.holding b size m) ⟨⟨b, 0⟩, len⟩ true room index = some (e : ℤ)) ∨
    (∀ i, 8 * index ≤ i → i < 8 * len → ¬A i) ∧
      searchFrom (h.holding b size m) ⟨⟨b, 0⟩, len⟩ true room index = some (len : ℤ) := by
  induction room generalizing index with
  | zero =>
    obtain rfl : index = len := hroom
    refine .inr ⟨?_, rfl⟩
    intro i hi hi'
    omega
  | succ room ih =>
    rw [searchFrom, word_holding, load_holding hb m (by omega) (by omega), Int.toNat_natCast]
    simp only [Option.bind_eq_bind, Option.bind_some, ↓reduceIte]
    by_cases hzero : wordAt m (8 * index) = 0
    · have hgroup : ∀ i, 8 * index ≤ i → i < 8 * (index + 1) → ¬A i := by
        intro i hi hi'
        have hnot := (hm.word_eq_zero_iff (by omega)).mp hzero (i - 8 * index) (by omega)
        rwa [Nat.add_sub_cancel' hi] at hnot
      have hpass : ∀ i, (8 * (index + 1) ≤ i → ¬A i) → 8 * index ≤ i → ¬A i := by
        intro i hlater hi
        by_cases hin : i < 8 * (index + 1)
        · exact hgroup i hi hin
        · exact hlater (by omega)
      rw [if_pos hzero]
      rcases ih (show index + 1 + room = len by omega)
        with ⟨e, he, hA, hbefore, hrun⟩ | ⟨hnone, hrun⟩
      · exact .inl ⟨e, he, hA, fun i hi hlt => hpass i (fun hi' => hbefore i hi' hlt) hi, hrun⟩
      · exact .inr ⟨fun i hi hlt => hpass i (fun hi' => hnone i hi' hlt) hi, hrun⟩
    · obtain ⟨e, he, hfirst, hA, hbefore⟩ := hm.first_of_word (by omega) hzero
      rw [if_neg hzero, hfirst, Option.bind_some]
      refine .inl ⟨8 * index + e, by omega, hA, hbefore, ?_⟩
      congr 1
      omega

theorem Marks.search_set (hm : Marks len m A) (hfit : 8 * len ≤ size) (hlen : 0 < len) :
    (∃ e, e < 8 * len ∧ A e ∧ (∀ i, i < e → ¬A i) ∧
      bitmapSearchFirst (h.holding b size m) ⟨⟨b, 0⟩, len⟩ true = some (e : ℤ)) ∨
    (∀ i, i < 8 * len → ¬A i) ∧
    bitmapSearchFirst (h.holding b size m) ⟨⟨b, 0⟩, len⟩ true = some (len : ℤ) := by
  have hresult : ∀ e : ℕ, e < 8 * len →
      searchFrom (h.holding b size m) ⟨⟨b, 0⟩, len⟩ true len (0 : ℕ) = some (e : ℤ) →
        bitmapSearchFirst (h.holding b size m) ⟨⟨b, 0⟩, len⟩ true = some (e : ℤ) := by
    intro e he hrun
    rw [Int.natCast_zero] at hrun
    rw [bitmapSearchFirst]
    dsimp only
    rw [Int.toNat_natCast, hrun]
    simp only [Option.bind_eq_bind, Option.bind_some]
    rw [if_neg (by omega)]
  rcases hm.searchFrom_set hb hfit (Nat.zero_add len)
    with ⟨e, he, hA, hbefore, hrun⟩ | ⟨hnone, hrun⟩
  · exact .inl ⟨e, he, hA, fun i hi => hbefore i (Nat.zero_le i) hi, hresult e he hrun⟩
  · exact .inr ⟨fun i hi => hnone i (Nat.zero_le i) hi, hresult len (by omega) hrun⟩

end Memory

example :
    bitmapSearchFirst (Heap.holding [none] 0 8 fun _ => 0) ⟨⟨0, 0⟩, 1⟩ true = some 1 := by decide

def Touched (calls : List (ℤ × ℤ)) (e : ℕ) : Prop := ∃ v, v ≠ 0 ∧ ((e : ℤ), v) ∈ calls

theorem touched_append (calls : List (ℤ × ℤ)) (pos v : ℤ) (e : ℕ) :
    Touched (calls ++ [(pos, v)]) e ↔ Touched calls e ∨ v ≠ 0 ∧ (e : ℤ) = pos := by
  constructor
  · rintro ⟨u, hu, hmem⟩
    rcases List.mem_append.mp hmem with hmem | hmem
    · exact .inl ⟨u, hu, hmem⟩
    · obtain ⟨heq, rfl⟩ := Prod.mk.inj (List.mem_singleton.mp hmem)
      exact .inr ⟨hu, heq⟩
  · rintro (⟨u, hu, hmem⟩ | ⟨hv, heq⟩)
    · exact ⟨u, hu, List.mem_append_left _ hmem⟩
    · exact ⟨v, hv, List.mem_append_right calls (List.mem_singleton.mpr (by rw [heq]))⟩

theorem mem_of_lastValue {calls : List (ℤ × ℤ)} {pos v : ℤ} (h : lastValue calls pos = some v) :
    (pos, v) ∈ calls := by
  induction calls using List.reverseRecOn with
  | nil => cases h
  | append_singleton calls call ih =>
    rw [lastValue, List.foldl_append, List.foldl_cons, List.foldl_nil] at h
    by_cases heq : call.1 = pos
    · rw [if_pos heq] at h
      apply List.mem_append_right calls
      rw [← heq, ← Option.some.inj h]
      exact List.mem_singleton_self call
    · rw [if_neg heq] at h
      exact List.mem_append_left _ (ih h)

theorem Member.touched {calls : List (ℤ × ℤ)} {pos : ℤ} (h : Member len calls pos) :
    Touched calls pos.toNat := by
  obtain ⟨hin, v, hv, hlast⟩ := h
  refine ⟨v, hv, ?_⟩
  rw [Int.toNat_of_nonneg hin.1]
  exact mem_of_lastValue hlast

theorem bitmapSet_outside (h : Heap) (matrix : Ptr) {pos : ℤ} (v : ℤ) (hout : ¬Within len pos) :
    bitmapSet h ⟨matrix, len⟩ pos v = some (-1, h) := by
  unfold bitmapSet
  by_cases hneg : pos < 0
  · rw [if_pos hneg]
  · rw [if_neg hneg, if_neg fun hlt => hout ⟨by omega, hlt⟩]

section Runs

variable {h : Heap} {b : ℕ} (hb : b < h.length)
include hb

theorem bitmapSet_step (hm : Marks len m A) (hfit : 8 * len ≤ size) (pos v : ℤ) :
    ∃ m', bitmapSet (h.holding b size m) ⟨⟨b, 0⟩, len⟩ pos v =
      some (if Within len pos then 0 else -1, h.holding b size m') ∧
        Marks len m' (fun e => A e ∨ v ≠ 0 ∧ (e : ℤ) = pos) := by
  by_cases hin : Within len pos
  · obtain ⟨e, rfl, he⟩ := hin.exists_nat
    refine ⟨_, ?_, (hm.put v e).congr fun q => by rw [Int.ofNat_inj]⟩
    rw [if_pos hin, bitmapSet_word hb m v he (by omega)]
  · refine ⟨m, ?_, ?_⟩
    · rw [if_neg hin, bitmapSet_outside _ _ v hin]
    · intro i hi j
      rw [hm i hi j]
      constructor
      · rintro ⟨hj, hA⟩
        exact ⟨hj, .inl hA⟩
      · rintro ⟨hj, hA | ⟨-, heq⟩⟩
        · exact ⟨hj, hA⟩
        · exact absurd ⟨by omega, by omega⟩ hin

theorem run_marks (hzero : ∀ k < size, m k = 0) (hfit : 8 * len ≤ size) (calls : List (ℤ × ℤ)) :
    ∃ m', exec (setAt ⟨⟨b, 0⟩, len⟩) (h.holding b size m, []) calls =
      some (h.holding b size m', calls.map fun call => if Within len call.1 then 0 else -1) ∧
        Marks len m' (Touched calls) := by
  induction calls using List.reverseRecOn with
  | nil =>
    refine ⟨m, rfl, ?_⟩
    intro i hi j
    rw [wordAt_eq_zero fun k hk => hzero k (by omega)]
    refine iff_of_false (by simp) ?_
    rintro ⟨-, v, -, hmem⟩
    cases hmem
  | append_singleton calls call ih =>
    obtain ⟨m₁, hexec, hm₁⟩ := ih
    obtain ⟨m₂, hset, hm₂⟩ := bitmapSet_step hb hm₁ hfit call.1 call.2
    refine ⟨m₂, exec_append hexec (exec_cons_iff.mpr ⟨_, ?_, rfl⟩),
      hm₂.congr fun e => (touched_append _ _ _ e).symm⟩
    rw [setAt, hset, List.map_append]
    rfl

theorem bitmapSet_keeps {pos v r : ℤ} {h' : Heap}
    (hset : bitmapSet (h.holding b size m) ⟨⟨b, 0⟩, len⟩ pos v = some (r, h')) :
    ∃ m', h' = h.holding b size m' := by
  by_cases hin : Within len pos
  · obtain ⟨e, rfl, he⟩ := hin.exists_nat
    by_cases hfit : 8 * (e / 8) + 8 ≤ size
    · rw [bitmapSet_word hb m v he hfit] at hset
      exact ⟨_, (congrArg Prod.snd (Option.some.inj hset)).symm⟩
    · rw [bitmapSet_inside _ b v he, load_holding_none hb m (by omega)] at hset
      cases hset
  · rw [bitmapSet_outside _ _ v hin] at hset
    exact ⟨m, (congrArg Prod.snd (Option.some.inj hset)).symm⟩

theorem run_keeps {calls : List (ℤ × ℤ)} {h' : Heap} {rslts : List ℤ}
    (hexec : exec (setAt ⟨⟨b, 0⟩, len⟩) (h.holding b size m, []) calls = some (h', rslts)) :
    ∃ m', h' = h.holding b size m' := by
  apply inv_exec (fun s => ∃ m', s.1 = h.holding b size m') (fun _ _ => True) _ ⟨m, rfl⟩
    (along_of_forall (fun _ _ => trivial) _) hexec
  rintro ⟨_, rs⟩ call t ⟨m', rfl⟩ - ht
  obtain ⟨⟨r, h''⟩, hset, hres⟩ := Option.bind_eq_some_iff.mp ht
  obtain rfl := Option.some.inj hres
  exact bitmapSet_keeps hb hset

theorem fits_of_isSet (hlen : 0 < len) {r : ℤ}
    (hr : bitmapIsSet (h.holding b size m) ⟨⟨b, 0⟩, len⟩ (8 * len - 1 : ℕ) = some r) :
    8 * len ≤ size := by
  by_contra hsmall
  rw [bitmapIsSet_inside _ b (by omega), load_holding_none hb m (by omega)] at hr
  cases hr

end Runs

/-- There is a word for every eight positions, no position is set and then cleared, some position is
set, and of the first nine not all are. -/
def Regular (len size : ℕ) (calls : List (ℤ × ℤ)) : Prop :=
  len = 0 ∨ 8 * len ≤ size ∧ (∀ e : ℕ, e < 8 * len → Touched calls e → Member len calls e) ∧
    (∃ pos, Member len calls pos) ∧ ∃ e : ℕ, e ≤ 8 ∧ ¬Member len calls e

section Iff

variable {calls : List (ℤ × ℤ)}

theorem isFirst_unset (hall : ∀ e : ℕ, e < 8 * len → Touched calls e → Member len calls e)
    (hsome : ∃ e : ℕ, e ≤ 8 ∧ ¬Member len calls e) {e : ℕ} (he : e = 8 ∨ e < 8 ∧ ¬Touched calls e)
    (hbefore : ∀ i, i < e → Touched calls i) :
    IsFirst len (fun pos => ¬Member len calls pos) (if e < 8 * len then (e : ℤ) else -1) := by
  have hleast : ∀ q, Within len q → ¬Member len calls q → (e : ℤ) ≤ q := by
    intro q hq hnot
    obtain ⟨k, rfl, hk⟩ := hq.exists_nat
    by_contra hlt
    exact hnot (hall k hk (hbefore k (by omega)))
  by_cases hin : e < 8 * len
  · rw [if_pos hin]
    refine .inl ⟨⟨by omega, by omega⟩, ?_, hleast⟩
    intro hmem
    rcases he with rfl | ⟨-, hnot⟩
    · obtain ⟨k, hk, hout⟩ := hsome
      by_cases heq : k = 8
      · rw [heq] at hout
        exact hout hmem
      · exact hout (hall k (by omega) (hbefore k (by omega)))
    · exact hnot hmem.touched
  · rw [if_neg hin]
    refine .inr ⟨rfl, fun q hq hnot => ?_⟩
    have hle := hleast q hq hnot
    have hlt := hq.2
    omega

theorem isFirst_set (hall : ∀ e : ℕ, e < 8 * len → Touched calls e → Member len calls e) {e : ℕ}
    (he : e < 8 * len) (hset : Touched calls e) (hbefore : ∀ i, i < e → ¬Touched calls i) :
    IsFirst len (Member len calls) e := by
  refine .inl ⟨⟨by omega, by omega⟩, hall e he hset, ?_⟩
  intro q hq hmem
  obtain ⟨k, rfl, hk⟩ := hq.exists_nat
  by_contra hlt
  exact hbefore k (by omega) hmem.touched

theorem not_member_zero (pos : ℤ) : ¬Member 0 calls pos := by
  rintro ⟨⟨hlo, hhi⟩, -⟩
  omega

variable {h : Heap} {b : ℕ} (hb : b < h.length)
include hb

theorem setOfPositions_of_regular (hzero : ∀ k < size, m k = 0) (hreg : Regular len size calls) :
    SetOfPositions (h.holding b size m) ⟨b, 0⟩ len calls := by
  rcases hreg with rfl | ⟨hfit, hall, ⟨pos, hpos⟩, hsome⟩
  · have hfit : 8 * 0 ≤ size := Nat.zero_le size
    obtain ⟨m', hexec, hm⟩ := run_marks hb hzero hfit calls
    refine ⟨_, _, hexec, rfl, ?_, ⟨-1, rfl, ?_⟩, ⟨-1, rfl, ?_⟩⟩
    · intro pos
      obtain ⟨r, hr, hiff⟩ := hm.isSet hb hfit pos
      refine ⟨r, hr, hiff.trans (iff_of_false ?_ (not_member_zero pos))⟩
      rintro ⟨⟨hlo, hhi⟩, -⟩
      omega
    · refine .inr ⟨rfl, ?_⟩
      rintro q ⟨hlo, hhi⟩
      omega
    · exact .inr ⟨rfl, fun q _ => not_member_zero q⟩
  · obtain ⟨k, -, hk⟩ := hpos.1.exists_nat
    obtain ⟨m', hexec, hm⟩ := run_marks hb hzero hfit calls
    refine ⟨_, _, hexec, rfl, ?_, ?_, ?_⟩
    · intro pos
      obtain ⟨r, hr, hiff⟩ := hm.isSet hb hfit pos
      refine ⟨r, hr, hiff.trans ⟨?_, fun hmem => ⟨hmem.1, hmem.touched⟩⟩⟩
      rintro ⟨hin, htouched⟩
      obtain ⟨e, rfl, he⟩ := hin.exists_nat
      exact hall e he htouched
    · obtain ⟨e, he, hbefore, hrun⟩ := hm.search_unset hb hfit (by omega)
      exact ⟨_, hrun, isFirst_unset hall hsome he hbefore⟩
    · rcases hm.search_set hb hfit (by omega) with ⟨e, he, hset, hbefore, hrun⟩ | ⟨hnone, -⟩
      · exact ⟨_, hrun, isFirst_set hall he hset hbefore⟩
      · obtain ⟨e, rfl, he⟩ := hpos.1.exists_nat
        exact absurd hpos.touched (hnone e he)

theorem regular_of_setOfPositions (hzero : ∀ k < size, m k = 0)
    (hset : SetOfPositions (h.holding b size m) ⟨b, 0⟩ len calls) : Regular len size calls := by
  by_cases hlen : len = 0
  · exact .inl hlen
  obtain ⟨h', rslts, hexec, -, hisSet, ⟨r₀, hr₀, hfirst₀⟩, ⟨r₁, hr₁, hfirst₁⟩⟩ := hset
  have hfit : 8 * len ≤ size := by
    obtain ⟨m', rfl⟩ := run_keeps hb hexec
    obtain ⟨r, hr, -⟩ := hisSet (8 * len - 1 : ℕ)
    exact fits_of_isSet hb (by omega) hr
  obtain ⟨m', hexec', hm⟩ := run_marks hb hzero hfit calls
  obtain ⟨rfl, -⟩ := Prod.mk.inj (Option.some.inj (hexec'.symm.trans hexec))
  have hall : ∀ e : ℕ, e < 8 * len → Touched calls e → Member len calls e := by
    intro e he htouched
    obtain ⟨r, hr, hiff⟩ := hisSet e
    obtain ⟨r', hr', hiff'⟩ := hm.isSet hb hfit e
    obtain rfl := Option.some.inj (hr.symm.trans hr')
    exact hiff.mp (hiff'.mpr ⟨⟨by omega, by omega⟩, htouched⟩)
  refine .inr ⟨hfit, hall, ?_, ?_⟩
  · rcases hm.search_set hb hfit (by omega) with ⟨e, he, htouched, -⟩ | ⟨hnone, hrun⟩
    · exact ⟨e, hall e he htouched⟩
    · -- the search has run to the length, which is no result for a bitmap without a set position
      obtain rfl := Option.some.inj (hr₁.symm.trans hrun)
      rcases hfirst₁ with ⟨-, hmem, -⟩ | ⟨hminus, -⟩
      · exact ⟨_, hmem⟩
      · omega
  · obtain ⟨e, he, hbefore, hrun⟩ := hm.search_unset hb hfit (by omega)
    obtain rfl := Option.some.inj (hr₀.symm.trans hrun)
    rcases he with rfl | ⟨hlt, hnot⟩
    · by_cases hin : 8 < 8 * len
      · rw [if_pos hin] at hfirst₀
        rcases hfirst₀ with ⟨-, hout, -⟩ | ⟨hminus, -⟩
        · exact ⟨8, Nat.le_refl 8, hout⟩
        · omega
      · refine ⟨8, Nat.le_refl 8, ?_⟩
        rintro ⟨⟨-, hhi⟩, -⟩
        omega
    · exact ⟨e, by omega, fun hmem => hnot hmem.touched⟩

end Iff

theorem bitmap_is_set_of_positions_iff (h : Heap) (b size : ℕ) (hb : b < h.length) (m : ℕ → UInt8)
    (hzero : ∀ k < size, m k = 0) (len : ℕ) (calls : List (ℤ × ℤ)) :
    SetOfPositions (h.holding b size m) ⟨b, 0⟩ len calls ↔ Regular len size calls :=
  ⟨regular_of_setOfPositions hb hzero, setOfPositions_of_regular hb hzero⟩

theorem three_positions_set :
    SetOfPositions (Heap.holding [none] 0 16 fun _ => 0) ⟨0, 0⟩ 2 [(3, 1), (9, 5), (16, 1)] := by
  refine (bitmap_is_set_of_positions_iff [none] 0 16 (by decide) (fun _ => 0) (fun _ _ => rfl)
    2 _).mpr (.inr ⟨?_, ?_, ?_, ?_⟩)
  · decide
  · rintro e he ⟨v, hv, hmem⟩
    simp only [List.mem_cons, Prod.mk.injEq, List.not_mem_nil, or_false] at hmem
    rcases hmem with ⟨heq, -⟩ | ⟨heq, -⟩ | ⟨heq, -⟩
    · rw [heq]
      exact ⟨by decide, 1, by decide, by decide⟩
    · rw [heq]
      exact ⟨by decide, 5, by decide, by decide⟩
    · omega
  · exact ⟨3, by decide, 1, by decide, by decide⟩
  · refine ⟨0, by decide, ?_⟩
    rintro ⟨-, v, -, hlast⟩
    cases hlast

theorem full_group_found :
    ¬SetOfPositions (Heap.holding [none] 0 16 fun _ => 0) ⟨0, 0⟩ 2
        ((List.range 9).map fun e : ℕ => ((e : ℤ), 1)) ∧
      (exec (setAt ⟨⟨0, 0⟩, 2⟩) (Heap.holding [none] 0 16 fun _ => 0, [])
        ((List.range 9).map fun e : ℕ => ((e : ℤ), 1))).map
        (fun s => (bitmapSearchFirst s.1 ⟨⟨0, 0⟩, 2⟩ false, bitmapIsSet s.1 ⟨⟨0, 0⟩, 2⟩ 8)) =
        some (some 8, some 1) := by
  have hlast : ∀ e : ℕ, e < 9 →
    lastValue ((List.range 9).map fun e : ℕ => ((e : ℤ), 1)) e = some 1 := by decide
  refine ⟨fun hset => ?_, by decide⟩
  obtain hlen | ⟨-, -, -, e, he, hnot⟩ :=
    regular_of_setOfPositions (by decide) (fun _ _ => rfl) hset
  · cases hlen
  · exact hnot ⟨⟨by omega, by omega⟩, 1, by decide, hlast e (by omega)⟩

end AnalysisPrograms.ListC
