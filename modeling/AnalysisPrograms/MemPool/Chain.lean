import AnalysisPrograms.Foundations.Links
import AnalysisPrograms.MemPool.Pool

namespace AnalysisPrograms.MemPool

open Foundations FiniteMap Links

structure HeaderOk (size : ℤ) (a : ℤ) (b : NgxPool) : Prop where
  maxSize : b.maxSize = size - sizeofNgxPool
  last_ge : a + sizeofNgxPool ≤ b.dataLast
  last_le : b.dataLast ≤ b.dataEnd
  dataEnd : b.dataEnd = a + size

structure PoolInv (mem : Memory) (pool : ℤ) (size : ℤ) (xs : List ℤ) : Prop where
  size_ge : MIN_POOL_SIZE ≤ size
  walk : Walk mem.next NULL pool xs
  pool_mem : pool ∈ xs
  positive : ∀ a ∈ xs, 0 < a
  keys : ∀ a, a ∈ mem.blocks ↔ a ∈ xs
  header : ∀ a b, mem.blocks.lookup a = some b → HeaderOk size a b
  live : ∀ a, mem.live.lookup a = if a ∈ xs then some size else none
  apart : ∀ a ∈ xs, ∀ b ∈ xs, a ≠ b → a + size ≤ b ∨ b + size ≤ a
  current : ∀ b, mem.blocks.lookup pool = some b → ∃ c ∈ xs, b.current = some c
  mallocs : mem.mallocs = xs
  frees : mem.frees = []

theorem next_of_lookup {mem : Memory} {p : ℤ} {b : NgxPool} (h : mem.blocks.lookup p = some b) :
    mem.next p = b.dataNext := by
  simp only [Memory.next, h]

theorem lookup_write (mem : Memory) (p a : ℤ) (b : NgxPool) :
    (mem.write p b).blocks.lookup a = if a = p then some b else mem.blocks.lookup a := by
  by_cases h : a = p
  · subst h
    simp [Memory.write]
  · simp [Memory.write, h]

theorem next_write (mem : Memory) (p a : ℤ) (b : NgxPool) :
    (mem.write p b).next a = if a = p then b.dataNext else mem.next a := by
  unfold Memory.next
  rw [lookup_write]
  by_cases h : a = p
  · simp only [h, ↓reduceIte]
  · simp only [h, ↓reduceIte]

theorem mem_write (mem : Memory) (p a : ℤ) (b : NgxPool) :
    a ∈ (mem.write p b).blocks ↔ a = p ∨ a ∈ mem.blocks := Finmap.mem_insert

namespace PoolInv

variable {mem : Memory} {pool : ℤ} {size : ℤ} {xs : List ℤ}

theorem lookup (h : PoolInv mem pool size xs) {a : ℤ} (ha : a ∈ xs) :
    ∃ b, mem.blocks.lookup a = some b ∧ HeaderOk size a b := by
  obtain ⟨b, hb⟩ := Finmap.mem_iff.mp ((h.keys a).mpr ha)
  exact ⟨b, hb, h.header a b hb⟩

theorem walkLimit (h : PoolInv mem pool size xs) : mem.walkLimit = xs.length + 1 := by
  have hk : mem.blocks.keys = xs.toFinset := by
    ext a
    rw [Finmap.mem_keys, List.mem_toFinset, h.keys]
  rw [Memory.walkLimit, hk, List.toFinset_card_of_nodup h.walk.nodup]

theorem walk_from (h : PoolInv mem pool size xs) {c : ℤ} (hc : c ∈ xs) :
    ∃ before after, xs = before ++ c :: after ∧ Walk mem.next NULL c (c :: after) := by
  obtain ⟨before, after, rfl⟩ := List.append_of_mem hc
  exact ⟨before, after, rfl, h.walk.suffix⟩

theorem walk_last (h : PoolInv mem pool size xs) {c : ℤ} (hc : c ∈ xs) :
    ∃ front ys z, xs = front ++ (ys ++ [z]) ∧ Walk mem.next NULL c (ys ++ [z]) := by
  obtain ⟨front, after, hxs, hw⟩ := h.walk_from hc
  have hlast := (List.dropLast_append_getLast (List.cons_ne_nil c after)).symm
  rw [hlast] at hxs hw
  exact ⟨front, _, _, hxs, hw⟩

theorem rewrite {mem' : Memory} (h : PoolInv mem pool size xs)
    (hlive : mem'.live = mem.live) (hmallocs : mem'.mallocs = mem.mallocs)
    (hfrees : mem'.frees = mem.frees) (hkeys : ∀ a, a ∈ mem'.blocks ↔ a ∈ mem.blocks)
    (hhdr : ∀ a b b', mem.blocks.lookup a = some b → mem'.blocks.lookup a = some b' →
      b'.dataNext = b.dataNext ∧ HeaderOk size a b')
    (hcur : ∀ b, mem'.blocks.lookup pool = some b → ∃ c ∈ xs, b.current = some c) :
    PoolInv mem' pool size xs where
  size_ge := h.size_ge
  walk := by
    apply h.walk.congr
    intro a ha
    obtain ⟨b, hb, -⟩ := h.lookup ha
    obtain ⟨b', hb'⟩ := Finmap.mem_iff.mp ((hkeys a).mpr ((h.keys a).mpr ha))
    rw [next_of_lookup hb, next_of_lookup hb']
    exact (hhdr a b b' hb hb').1
  pool_mem := h.pool_mem
  positive := h.positive
  keys a := (hkeys a).trans (h.keys a)
  header a b' hb' := by
    obtain ⟨b, hb⟩ := Finmap.mem_iff.mp ((hkeys a).mp (Finmap.mem_iff.mpr ⟨b', hb'⟩))
    exact (hhdr a b b' hb hb').2
  live a := by rw [hlive, h.live]
  apart := h.apart
  current := hcur
  mallocs := hmallocs.trans h.mallocs
  frees := hfrees.trans h.frees

end PoolInv

def hasRoom (mem : Memory) (size : ℤ) (a : ℤ) : Prop :=
  ∃ b, mem.blocks.lookup a = some b ∧ b.dataEnd - b.dataLast ≥ size

theorem findBlock_spec {mem : Memory} {size : ℤ} {p : ℤ} {xs : List ℤ} {limit : ℕ}
    (hw : Walk mem.next NULL p xs) (hin : ∀ x ∈ xs, x ∈ mem.blocks) (hl : xs.length < limit) :
    (∃ x ∈ xs, hasRoom mem size x ∧ findBlock mem size limit p = some x) ∨
      (∀ x ∈ xs, ¬hasRoom mem size x) ∧ findBlock mem size limit p = some NULL := by
  induction xs generalizing p limit with
  | nil =>
    obtain ⟨limit, rfl⟩ : ∃ k, limit = k + 1 := ⟨limit - 1, by omega⟩
    obtain rfl : p = NULL := hw
    exact .inr ⟨by simp, by simp [findBlock]⟩
  | cons x xs ih =>
    obtain ⟨limit, rfl⟩ : ∃ k, limit = k + 1 := ⟨limit - 1, by omega⟩
    obtain ⟨rfl, hne, hw⟩ := hw
    obtain ⟨b, hb⟩ := Finmap.mem_iff.mp (hin p List.mem_cons_self)
    by_cases hroom : b.dataEnd - b.dataLast ≥ size
    · refine .inl ⟨p, List.mem_cons_self, ⟨b, hb, hroom⟩, ?_⟩
      simp [findBlock, hne.symm, hb, hroom]
    · have hno : ¬hasRoom mem size p := by
        rintro ⟨b', hb', hr⟩
        obtain rfl := Option.some.inj (hb.symm.trans hb')
        exact hroom hr
      have hstep : findBlock mem size (limit + 1) p = findBlock mem size limit b.dataNext := by
        simp [findBlock, hne.symm, hb, hroom]
      rw [next_of_lookup hb] at hw
      rw [hstep]
      rcases ih hw (fun y hy => hin y (List.mem_cons_of_mem p hy)) (by simpa using hl) with
        ⟨y, hy, hr, hf⟩ | ⟨hnone, hf⟩
      · exact .inl ⟨y, List.mem_cons_of_mem p hy, hr, hf⟩
      · refine .inr ⟨?_, hf⟩
        intro y hy
        rcases List.mem_cons.mp hy with rfl | hy
        · exact hno
        · exact hnone y hy

def passed (b : NgxPool) : NgxPool :=
  { b with
    current := if b.dataFailed > 4 then some b.dataNext else b.current
    dataFailed := b.dataFailed + 1 }

theorem updateCurrent_spec (newPool : ℤ) {mem : Memory} {iter z : ℤ} {ys : List ℤ} {limit : ℕ}
    (hw : Walk mem.next NULL iter (ys ++ [z])) (hin : ∀ x ∈ ys ++ [z], x ∈ mem.blocks)
    (hl : ys.length < limit) :
    ∃ blocks, updateCurrent newPool limit mem iter = some (z, { mem with blocks := blocks }) ∧
      ∀ a, blocks.lookup a = (mem.blocks.lookup a).map (if a ∈ ys then passed else id) := by
  induction ys generalizing mem iter limit with
  | nil =>
    obtain ⟨limit, rfl⟩ : ∃ k, limit = k + 1 := ⟨limit - 1, by omega⟩
    obtain ⟨rfl, -, hend⟩ := hw
    obtain ⟨b, hb⟩ := Finmap.mem_iff.mp (hin iter (by simp))
    rw [next_of_lookup hb] at hend
    refine ⟨mem.blocks, ?_, by simp⟩
    simp [updateCurrent, hb, show NULL = b.dataNext from hend.symm]
  | cons y ys ih =>
    obtain ⟨limit, rfl⟩ : ∃ k, limit = k + 1 := ⟨limit - 1, by omega⟩
    have hnd := hw.nodup
    obtain ⟨rfl, hne, hw⟩ := hw
    obtain ⟨b, hb⟩ := Finmap.mem_iff.mp (hin iter (by simp))
    rw [next_of_lookup hb] at hw
    have hnext : ¬NULL = b.dataNext := by
      intro hc
      rw [← hc] at hw
      cases ys with
      | nil => exact hw.2.1 hw.1.symm
      | cons v vs => exact hw.2.1 hw.1.symm
    have hstep : updateCurrent newPool (limit + 1) mem iter =
        updateCurrent newPool limit (mem.write iter (passed b)) b.dataNext := by
      simp [updateCurrent, hb, hnext, passed]
    have hsame : ∀ x, (mem.write iter (passed b)).next x = mem.next x := by
      intro x
      rw [next_write]
      split_ifs with hx
      · rw [hx, next_of_lookup hb]
        rfl
      · rfl
    obtain ⟨blocks, hrun, hlook⟩ := ih (hw.congr fun x _ => hsame x)
      (fun x hx => (mem_write _ _ _ _).mpr (.inr (hin x (List.mem_cons_of_mem iter hx))))
      (by simpa using hl)
    refine ⟨blocks, hstep.trans hrun, ?_⟩
    intro a
    rw [hlook a, lookup_write]
    by_cases ha : a = iter
    · subst ha
      have hay : a ∉ ys := fun hc => (List.nodup_cons.mp hnd).1 (List.mem_append_left [z] hc)
      simp [hay, hb]
    · simp [ha]

end AnalysisPrograms.MemPool
