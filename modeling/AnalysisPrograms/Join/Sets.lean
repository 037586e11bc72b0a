import Mathlib.Data.List.Count
import Mathlib.Logic.Function.Iterate
import AnalysisPrograms.Join.Files

namespace AnalysisPrograms.Join

open Foundations Decimal

def Bitmap.bit (bm : Bitmap) (x : ℕ) : Bool := (bm.data (x / 8)).getLsbD (x % 8)

def Opt.act : Opt → Bool → Bool
  | .BITMAP_SET, _ => true
  | .BITMAP_CLR, _ => false
  | .BITMAP_REVERSE, b => !b

theorem Opt.getLsbD_store (opt : Opt) (a : BitVec 8) {j k : ℕ} (hj : j < 8) :
    (opt.store a k).getLsbD j = if k = j then opt.act (a.getLsbD j) else a.getLsbD j := by
  by_cases hk : k = j
  · cases opt with
    | BITMAP_SET => simp [store, act, hk, hj]
    | BITMAP_CLR => simp [store, act, hk, hj]
    | BITMAP_REVERSE => simp [store, act, reverseBit, hk, hj]
  · cases opt with
    | BITMAP_SET => simp [store, hk]
    | BITMAP_CLR => simp [store, hk, hj, Ne.symm hk]
    | BITMAP_REVERSE => simp [store, reverseBit, hk]

def counted (ns : List ℕ) : List ℕ := ns.filter (· ≤ MAX_ELEMENT)

section Elements

variable (opt : Opt) (line n : ℕ) {r : Run}

theorem handleElement_bits (hsize : r.bm.size = MIN_BITMAP_SIZE) :
    ∃ r', handleElement opt line n r = some r' ∧ r'.bm.size = MIN_BITMAP_SIZE ∧
      ∀ x, r'.bm.bit x = opt.act^[(counted [n]).count x] (r.bm.bit x) := by
  unfold handleElement
  by_cases hgreat : n > MAX_ELEMENT
  · have hnone : counted [n] = [] := List.filter_cons_of_neg (by simp; omega)
    rw [if_pos hgreat, hnone]
    exact ⟨_, rfl, hsize, fun x => rfl⟩
  · have hone : counted [n] = [n] := List.filter_cons_of_pos (by simp; omega)
    have hfit : n / 8 < r.bm.size := by
      rw [hsize, MIN_BITMAP_SIZE]
      rw [MAX_ELEMENT] at hgreat
      omega
    rw [if_neg hgreat, if_pos hfit, hone]
    refine ⟨_, rfl, hsize, ?_⟩
    intro x
    dsimp only [Bitmap.bit]
    by_cases hbyte : x / 8 = n / 8
    · rw [hbyte, Function.update_self, opt.getLsbD_store _ (Nat.mod_lt x (by omega))]
      by_cases hbit : n % 8 = x % 8
      · have hx : x = n := by omega
        rw [if_pos hbit, hx, List.count_singleton_self]
        rfl
      · have hx : n ≠ x := fun heq => hbit (heq ▸ rfl)
        rw [if_neg hbit, List.count_eq_zero.mpr (by simpa using hx.symm)]
        rfl
    · have hx : n ≠ x := fun heq => hbyte (heq ▸ rfl)
      rw [Function.update_of_ne hbyte, List.count_eq_zero.mpr (by simpa using hx.symm)]
      rfl

theorem handleElements_bits (ns : List ℕ) (hsize : r.bm.size = MIN_BITMAP_SIZE) :
    ∃ r', handleElements opt line ns r = some r' ∧ r'.bm.size = MIN_BITMAP_SIZE ∧
      ∀ x, r'.bm.bit x = opt.act^[(counted ns).count x] (r.bm.bit x) := by
  induction ns generalizing line r with
  | nil => exact ⟨r, rfl, hsize, fun x => rfl⟩
  | cons n ns ih =>
    obtain ⟨r₁, hrun₁, hsize₁, hbits₁⟩ := handleElement_bits opt ((line + 1) % 2 ^ 32) n hsize
    obtain ⟨r₂, hrun₂, hsize₂, hbits₂⟩ := ih ((line + 1) % 2 ^ 32) hsize₁
    refine ⟨r₂, ?_, hsize₂, ?_⟩
    · rw [handleElements, hrun₁]
      exact hrun₂
    · intro x
      have hsplit : counted (n :: ns) = counted [n] ++ counted ns := List.filter_append [n] ns
      rw [hbits₂, hbits₁, hsplit, List.count_append, Nat.add_comm, Function.iterate_add_apply]

end Elements

structure Job where
  filename : List UInt8
  opt : Opt
  file : NumberFile (2 ^ 31 - 1)

def bitAfter : List Job → ℕ → Bool → Bool
  | [], _, b => b
  | job :: jobs, x, b => bitAfter jobs x (job.opt.act^[(counted job.file.handled).count x] b)

theorem handleBitmap_bits {fs : FileSystem} {job : Job}
    (hjob : fs job.filename = some job.file.text) {r : Run} (hsize : r.bm.size = MIN_BITMAP_SIZE) :
    ∃ r', handleBitmap fs job.filename job.opt r = some (0, r') ∧ r'.bm.size = MIN_BITMAP_SIZE ∧
      ∀ x, r'.bm.bit x = job.opt.act^[(counted job.file.handled).count x] (r.bm.bit x) := by
  obtain ⟨r', hrun, hsize', hbits⟩ := handleElements_bits job.opt 0 job.file.handled hsize
  refine ⟨r', ?_, hsize', hbits⟩
  simp only [handleBitmap, hsize, hjob, guard, Nat.le_refl, ↓reduceIte, Option.pure_def,
    Option.bind_eq_bind, Option.bind_some]
  rw [readLoop_text job.file (by omega), hrun]
  rfl

theorem handleBitmaps_bits {fs : FileSystem} {jobs : List Job}
    (hjobs : ∀ job ∈ jobs, fs job.filename = some job.file.text) {r : Run}
    (hsize : r.bm.size = MIN_BITMAP_SIZE) :
    ∃ r', handleBitmaps fs (jobs.map fun job => (job.filename, job.opt)) r = some (true, r') ∧
      r'.bm.size = MIN_BITMAP_SIZE ∧ ∀ x, r'.bm.bit x = bitAfter jobs x (r.bm.bit x) := by
  induction jobs generalizing r with
  | nil => exact ⟨r, rfl, hsize, fun x => rfl⟩
  | cons job jobs ih =>
    obtain ⟨r₁, hrun₁, hsize₁, hbits₁⟩ := handleBitmap_bits (hjobs job List.mem_cons_self) hsize
    obtain ⟨r₂, hrun₂, hsize₂, hbits₂⟩ :=
      ih (fun j hj => hjobs j (List.mem_cons_of_mem job hj)) hsize₁
    refine ⟨r₂, ?_, hsize₂, ?_⟩
    · rw [List.map_cons, handleBitmaps, hrun₁]
      exact hrun₂
    · intro x
      rw [hbits₂, hbits₁, bitAfter]

section Dump

theorem foldlM_filter {α : Type} (p : α → Bool) (ok : α → Prop) [DecidablePred ok] (g : α → ℕ)
    {xs : List α} (hok : ∀ x ∈ xs, ok x) (out : List ℕ) :
    xs.foldlM (fun out x => if p x then if ok x then some (out ++ [g x]) else none else some out)
      out = some (out ++ (xs.filter p).map g) := by
  induction xs generalizing out with
  | nil => simp
  | cons x xs ih =>
    have hrest := ih fun y hy => hok y (List.mem_cons_of_mem x hy)
    rw [List.foldlM_cons]
    by_cases hp : p x = true
    · rw [if_pos hp, if_pos (hok x List.mem_cons_self), Option.bind_eq_bind,
        Option.bind_some, hrest, List.filter_cons_of_pos hp]
      simp
    · rw [if_neg hp, Option.bind_eq_bind, Option.bind_some, hrest, List.filter_cons_of_neg hp]

theorem dumpByte_eq (bm : Bitmap) (out : List ℕ) {i : ℕ} (hi : i < 2 ^ 28) :
    dumpByte bm.data out i = some (out ++ ((List.range 8).map (8 * i + ·)).filter bm.bit) := by
  have hok : ∀ j ∈ List.range 8, i * 8 + j < 2 ^ 31 := by
    intro j hj
    have hlt := List.mem_range.mp hj
    omega
  have hbit : (List.range 8).filter (fun j => (bm.data i).getLsbD j) = (List.range 8).filter
      (bm.bit ∘ (8 * i + ·)) := by
    apply List.filter_congr
    intro j hj
    have hlt := List.mem_range.mp hj
    rw [Function.comp_apply, Bitmap.bit,
      show (8 * i + j) / 8 = i by omega, show (8 * i + j) % 8 = j by omega]
  unfold dumpByte
  rw [foldlM_filter (fun j => (bm.data i).getLsbD j) (fun j => i * 8 + j < 2 ^ 31) _ hok,
    List.filter_map, hbit, Nat.mul_comm i 8]

theorem dumpRows_eq (bm : Bitmap) {n : ℕ} (hn : n ≤ 2 ^ 28) :
    (List.range n).foldlM (dumpByte bm.data) [] = some ((List.range (8 * n)).filter bm.bit) := by
  induction n with
  | zero => rfl
  | succ n ih =>
    rw [List.range_succ, List.foldlM_append, ih (by omega), Option.bind_eq_bind,
      Option.bind_some, Nat.mul_succ, List.range_add, List.filter_append,
      ← dumpByte_eq bm _ (by omega)]
    simp

end Dump

structure Prints (out : List ℕ) (wanted : ℕ → Prop) : Prop where
  ascending : out.Pairwise (· < ·)
  exact : ∀ x, x ∈ out ↔ wanted x

theorem Prints.congr {out : List ℕ} {wanted wanted' : ℕ → Prop} (h : Prints out wanted)
    (hsame : ∀ x, wanted x ↔ wanted' x) : Prints out wanted' :=
  ⟨h.ascending, fun x => (h.exact x).trans (hsame x)⟩

theorem prints_filter (n : ℕ) (p : ℕ → Bool) :
    Prints ((List.range n).filter p) fun x => x < n ∧ p x = true := by
  refine ⟨List.pairwise_lt_range.filter p, fun x => ?_⟩
  rw [List.mem_filter, List.mem_range]

theorem join_eq {fs : FileSystem} {jobs : List Job}
    (hjobs : ∀ job ∈ jobs, fs job.filename = some job.file.text) :
    ∃ result, join fs (jobs.map fun job => (job.filename, job.opt)) = some result ∧
      Prints result.stdout fun x => x < 8 * MIN_BITMAP_SIZE ∧ bitAfter jobs x false = true := by
  obtain ⟨r, hrun, hsize, hbits⟩ :=
    handleBitmaps_bits (r := ⟨⟨fun _ => 0, MIN_BITMAP_SIZE⟩, []⟩) hjobs rfl
  have hdump : dumpBm r.bm = some ((List.range (8 * MIN_BITMAP_SIZE)).filter r.bm.bit) := by
    rw [dumpBm, hsize]
    exact dumpRows_eq r.bm (by rw [MIN_BITMAP_SIZE]; omega)
  have hprints := prints_filter (8 * MIN_BITMAP_SIZE) r.bm.bit
  generalize (List.range (8 * MIN_BITMAP_SIZE)).filter r.bm.bit = out at hdump hprints
  refine ⟨⟨EXIT_SUCCESS, out, r.stderr⟩, ?_, hprints.congr fun x => ?_⟩
  · rw [join, hrun]
    simp only [Option.bind_eq_bind, Option.bind_some, ↓reduceIte, hdump]
  · have hclear : (⟨fun _ => 0, MIN_BITMAP_SIZE⟩ : Bitmap).bit x = false := BitVec.getLsbD_zero
    rw [hbits, hclear]

end AnalysisPrograms.Join
