import AnalysisPrograms.Foundations.Interleaving
import AnalysisPrograms.Foundations.Refinement
import AnalysisPrograms.ShmQueue.Queue

namespace AnalysisPrograms.ShmQueue

open Foundations RingBuffer Refinement Interleaving

variable {st : Type}

structure Num where
  val : ℕ
  pos : 1 ≤ val
  fits : val < 2 ^ 31

def fifo (N : Num) (queue : List st) : Call st → List st × Answer st
  | .get pSt =>
    match queue with
    | [] => ([], .get false pSt)
    | x :: rest => (rest, .get true x)
  | .put pSt => if queue.length = N.val then (queue, .put false) else (queue ++ [pSt], .put true)
  | .clearup => ([], .clearup)
  | .getSize => (queue, .getSize queue.length)
  | .isFull => (queue, .isFull (queue.length = N.val))

structure Stores (N : Num) (seg : Segment st) (queue : List st) : Prop where
  room : seg.room = N.val
  max : seg.head.maxPoolSize = N.val
  first : seg.head.exFirst < N.val
  size : seg.head.actPoolSize = queue.length
  le : queue.length ≤ N.val
  last : seg.head.exLast = (seg.head.exFirst + queue.length) % N.val
  objs : contents seg.objs N.val seg.head.exFirst queue.length = queue

variable {N : Num} {seg : Segment st} {queue : List st} {q : ShmObjQueue} {x pSt : st}

theorem Stores.last_lt (h : Stores N seg queue) : seg.head.exLast < N.val := by
  rw [h.last]
  exact Nat.mod_lt _ N.pos

theorem increment_eq {i : ℕ} (hi : i < N.val) : increment i = i + 1 := by
  have hfits := N.fits
  unfold increment
  rw [Nat.mod_eq_of_lt (by omega)]

theorem decrement_succ {i : ℕ} (hi : i < N.val) : decrement (i + 1) = i := by
  have hfits := N.fits
  unfold decrement
  omega

theorem advance_first_eq_last (h : Stores N seg (x :: queue)) :
    advance N.val seg.head.exFirst = seg.head.exLast ↔ queue.length = 0 := by
  have hle : queue.length + 1 ≤ N.val := h.le
  rw [advance_eq_mod h.first, h.last, List.length_cons]
  constructor
  · intro heq
    by_contra hne
    refine mod_ne_of_lt ?_ ?_ heq
    · omega
    · omega
  · intro hzero
    rw [hzero]

def popHead (N : Num) (h : ShmHead) (left : ℕ) : ShmHead :=
  { h with actPoolSize := left, exFirst := advance N.val h.exFirst }

theorem getBody_nil (h : Stores N seg []) (q : ShmObjQueue) (pSt : st) :
    getBody q seg pSt = some (q, seg, false, pSt) := by
  have hsize : seg.head.actPoolSize = 0 := h.size
  unfold getBody
  rw [if_neg (Nat.not_lt_zero _), if_pos hsize]

theorem getBody_cons (h : Stores N seg (x :: queue)) (hend : q.shmEnd = N.val) (pSt : st) :
    getBody (derivePointers q seg) seg pSt =
      some ({ derivePointers q seg with first := advance N.val seg.head.exFirst },
        { seg with head := popHead N seg.head queue.length }, true, x) := by
  have hle : queue.length + 1 ≤ N.val := h.le
  have hsize : seg.head.actPoolSize = queue.length + 1 := h.size
  have hfirst : seg.objs seg.head.exFirst = x := by
    have hobjs := h.objs
    rw [List.length_cons, contents_succ _ h.first] at hobjs
    exact (List.cons.inj hobjs).1
  have hroom : seg.head.exFirst < seg.room := h.room ▸ h.first
  have hmeet := advance_first_eq_last h
  unfold getBody
  rw [if_neg (Nat.not_lt_zero _), if_neg (by omega)]
  simp only [Segment.load, Segment.withHead, derivePointers, hroom, if_true, Option.bind_eq_bind,
    Option.bind_some, hfirst, hsize, increment_eq h.first,
    decrement_succ (Nat.lt_of_succ_le hle), hend]
  unfold advance at hmeet
  unfold popHead advance
  by_cases hwrap : seg.head.exFirst + 1 = N.val
  · simp only [hwrap, if_true] at hmeet ⊢
    by_cases hone : queue.length = 0
    · simp only [hmeet.mpr hone, if_true, hone]
    · simp only [mt hmeet.mp hone, if_false]
  · simp only [hwrap, if_false] at hmeet ⊢
    by_cases hone : queue.length = 0
    · simp only [hmeet.mpr hone, if_true, hone]
    · simp only [mt hmeet.mp hone, if_false]

theorem Stores.pop (h : Stores N seg (x :: queue)) :
    Stores N { seg with head := popHead N seg.head queue.length } queue := by
  have hle : queue.length + 1 ≤ N.val := h.le
  have hobjs := h.objs
  rw [List.length_cons, contents_succ _ h.first] at hobjs
  refine ⟨h.room, h.max, advance_lt h.first, rfl, Nat.le_of_succ_le hle, ?_,
    (List.cons.inj hobjs).2⟩
  change seg.head.exLast = (advance N.val seg.head.exFirst + queue.length) % N.val
  rw [h.last, advance_eq_mod h.first, Nat.mod_add_mod, List.length_cons]
  congr 1
  omega

def pushed (N : Num) (seg : Segment st) (x : st) : Segment st :=
  { seg with
    head := { seg.head with
      actPoolSize := seg.head.actPoolSize + 1
      exLast := advance N.val seg.head.exLast }
    objs := Function.update seg.objs seg.head.exLast x }

theorem putBody_full (h : Stores N seg queue) (hfull : queue.length = N.val) (q : ShmObjQueue)
    (pSt : st) : putBody q seg pSt = some (q, seg, false) := by
  have heq : seg.head.actPoolSize = seg.head.maxPoolSize := by rw [h.size, h.max, hfull]
  unfold putBody
  rw [if_neg (by omega), if_pos heq]

theorem putBody_push (h : Stores N seg queue) (hfull : queue.length ≠ N.val)
    (hend : q.shmEnd = N.val) (pSt : st) :
    putBody (derivePointers q seg) seg pSt =
      some ({ derivePointers q seg with last := advance N.val seg.head.exLast },
        pushed N seg pSt, true) := by
  have hlt : queue.length < N.val := Nat.lt_of_le_of_ne h.le hfull
  have hroom : seg.head.exLast < seg.room := h.room ▸ h.last_lt
  have hmax := h.max
  have hsize := h.size
  unfold putBody
  rw [if_neg (by omega), if_neg (by omega)]
  simp only [Segment.store, Segment.withHead, derivePointers, hroom, if_true, Option.bind_eq_bind,
    Option.bind_some, increment_eq h.last_lt, hend]
  unfold pushed advance
  by_cases hwrap : seg.head.exLast + 1 = N.val
  · simp only [hwrap, if_true, hsize, increment_eq hlt]
  · simp only [hwrap, if_false, hsize, increment_eq hlt]

theorem Stores.push (h : Stores N seg queue) (hfull : queue.length ≠ N.val) (x : st) :
    Stores N (pushed N seg x) (queue ++ [x]) := by
  have hlt : queue.length < N.val := Nat.lt_of_le_of_ne h.le hfull
  have hlen : (queue ++ [x]).length = queue.length + 1 := by simp
  refine ⟨h.room, h.max, h.first, ?_, ?_, ?_, ?_⟩
  · change seg.head.actPoolSize + 1 = _
    rw [h.size, hlen]
  · rw [hlen]
    exact hlt
  · change advance N.val seg.head.exLast = (seg.head.exFirst + _) % _
    rw [h.last, advance_mod N.pos, hlen]
    rfl
  · change contents (Function.update seg.objs seg.head.exLast x) N.val seg.head.exFirst _ = _
    rw [hlen, h.last, contents_push _ _ hlt, h.objs]

theorem Stores.clear (h : Stores N seg queue) (q : ShmObjQueue) :
    Stores N (clearupBody q seg).2 [] :=
  ⟨h.room, h.max, N.pos, rfl, Nat.zero_le _, (Nat.zero_mod _).symm, rfl⟩

theorem getSizeBody_eq (h : Stores N seg queue) : getSizeBody seg = queue.length := by
  have hle := h.le
  have hfits := N.fits
  unfold getSizeBody toInt
  rw [h.size, if_pos (by omega)]

theorem isFullBody_eq (h : Stores N seg queue) :
    isFullBody seg = decide (queue.length = N.val) := by
  unfold isFullBody
  rw [h.size, h.max]

theorem call_simulates (h : Stores N seg queue) (hend : q.shmEnd = N.val) (c : Call st) :
    ∃ q' seg', call q seg c = some (q', seg', (fifo N queue c).2) ∧ q'.shmEnd = N.val ∧
      Stores N seg' (fifo N queue c).1 := by
  cases c with
  | get pSt =>
    cases queue with
    | nil =>
      refine ⟨derivePointers q seg, seg, ?_, hend, h⟩
      simp only [call, getBody_nil h, fifo, Option.bind_eq_bind, Option.bind_some]
    | cons x rest =>
      refine ⟨{ derivePointers q seg with first := advance N.val seg.head.exFirst }, _,
        ?_, hend, h.pop⟩
      simp only [call, getBody_cons h hend, fifo, Option.bind_eq_bind, Option.bind_some]
  | put pSt =>
    by_cases hfull : queue.length = N.val
    · refine ⟨derivePointers q seg, seg, ?_, hend, ?_⟩
      · simp only [call, putBody_full h hfull, fifo, hfull, if_true, Option.bind_eq_bind,
          Option.bind_some]
      · simpa only [fifo, hfull, if_true] using h
    · refine ⟨{ derivePointers q seg with last := advance N.val seg.head.exLast },
        pushed N seg pSt, ?_, hend, ?_⟩
      · simp only [call, putBody_push h hfull hend, fifo, hfull, if_false, Option.bind_eq_bind,
          Option.bind_some]
      · simpa only [fifo, hfull, if_false] using h.push hfull pSt
  | clearup => exact ⟨_, _, rfl, hend, h.clear (derivePointers q seg)⟩
  | getSize =>
    refine ⟨derivePointers q seg, seg, ?_, hend, h⟩
    simp only [call, getSizeBody_eq h, fifo]
  | isFull =>
    refine ⟨derivePointers q seg, seg, ?_, hend, h⟩
    simp only [call, isFullBody_eq h, fifo]

section Processes

variable {P : Type} [DecidableEq P]

abbrev Processes (P st : Type) := Global P ShmObjQueue (Segment st)

def processCall (s : Processes P st) (a : P × Call st) : Option (Processes P st × Answer st) := do
  let (q, seg, answer) ← call (s.locals a.1) s.shared a.2
  some (⟨Function.update s.locals a.1 q, seg⟩, answer)

/-- Processes attached with `num` objects to a segment whose header is as `shmcreate` writes it.
What the slots and the pointers of the processes hold does not matter. -/
def attached (N : Num) (objs : ℕ → st) (first last : P → ℕ) : Processes P st :=
  ⟨fun p => ⟨N.val, first p, last p⟩, ⟨⟨N.val, 0, 0, 0⟩, objs, N.val⟩⟩

def Represents (N : Num) (s : Processes P st) (queue : List st) : Prop :=
  (∀ p, (s.locals p).shmEnd = N.val) ∧ Stores N s.shared queue

omit [DecidableEq P] in
theorem represents_attached (N : Num) (objs : ℕ → st) (first last : P → ℕ) :
    Represents N (attached N objs first last) [] :=
  ⟨fun _ => rfl, rfl, rfl, N.pos, rfl, Nat.zero_le _, (Nat.zero_mod _).symm, rfl⟩

theorem processCall_simulates (N : Num) :
    Simulates (Represents N) (processCall : Processes P st → P × Call st → _) fun queue a =>
      fifo N queue a.2 := by
  rintro s queue ⟨p, c⟩ ⟨hends, hstores⟩
  obtain ⟨q', seg', hcall, hend, hstores'⟩ := call_simulates hstores (hends p) c
  refine ⟨⟨Function.update s.locals p q', seg'⟩, ?_, ?_, hstores'⟩
  · simp only [processCall, hcall, Option.bind_eq_bind, Option.bind_some]
  · apply (Function.forall_update_iff s.locals fun _ q => q.shmEnd = N.val).mpr
    exact ⟨hend, fun r _ => hends r⟩

theorem shmobjqueue_refines_fifo (N : Num) (objs : ℕ → st) (first last : P → ℕ)
    (calls : List (P × Call st)) :
    ∃ s, answers processCall (attached N objs first last) calls =
        some (s, (specAnswers (fun queue a => fifo N queue a.2) [] calls).2) ∧
      s.shared.head.exFirst < N.val ∧ s.shared.head.exLast < N.val ∧
      s.shared.head.actPoolSize ≤ N.val ∧
      (s.shared.head.exFirst + s.shared.head.actPoolSize) % N.val = s.shared.head.exLast := by
  obtain ⟨s, hanswers, -, hstores⟩ :=
    (processCall_simulates N).answers_eq (represents_attached N objs first last) calls
  refine ⟨s, hanswers, hstores.first, hstores.last_lt, ?_, ?_⟩
  · rw [hstores.size]
    exact hstores.le
  · rw [hstores.size, hstores.last]

end Processes

end AnalysisPrograms.ShmQueue
