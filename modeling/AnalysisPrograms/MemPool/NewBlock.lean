import AnalysisPrograms.MemPool.Regions

namespace AnalysisPrograms.MemPool

open Foundations FiniteMap Links

variable {os : Malloc} {mem : Memory} {pool : ℤ} {size s : ℤ} {xs : List ℤ}

def newBlock (size s p : ℤ) : NgxPool :=
  { maxSize := size - sizeofNgxPool
    dataLast := p + sizeofNgxPool + s
    dataEnd := p + size
    dataNext := NULL
    dataFailed := 0
    current := none }

theorem PoolInv.fresh (h : PoolInv mem pool size xs) {p : ℤ}
    (hp : os.answer mem.calls mem.live size = some p) :
    0 < p ∧ ∀ a ∈ xs, p + size ≤ a ∨ a + size ≤ p := by
  obtain ⟨hpos, hdisj⟩ := os.fresh _ _ _ _ hp
  refine ⟨hpos, fun a ha => hdisj a size ?_⟩
  rw [h.live, if_pos ha]

theorem PoolInv.fresh_notMem (h : PoolInv mem pool size xs) {p : ℤ}
    (hp : os.answer mem.calls mem.live size = some p) : p ∉ xs := by
  intro hc
  have hs := h.size_ge
  simp only [MIN_POOL_SIZE] at hs
  rcases (h.fresh hp).2 p hc with hd | hd
  · omega
  · omega

theorem ngxPallocBlock_none (h : PoolInv mem pool size xs)
    (hp : os.answer mem.calls mem.live size = none) :
    ngxPallocBlock os mem pool s = some (NULL, { mem with calls := mem.calls + 1 }) := by
  obtain ⟨head, hhead, ok⟩ := h.lookup h.pool_mem
  have hsize : head.dataEnd - pool = size := by
    have := ok.dataEnd
    omega
  simp [ngxPallocBlock, hhead, hsize, Memory.malloc, hp]

theorem ngxPallocBlock_some (h : PoolInv mem pool size xs) {p c : ℤ} {head : NgxPool}
    (hp : os.answer mem.calls mem.live size = some p) (hhead : mem.blocks.lookup pool = some head)
    (hcur : head.current = some c) (hc : c ∈ xs) :
    ∃ front ys z blocks, xs = front ++ ys ++ [z] ∧ Walk mem.next NULL c (ys ++ [z]) ∧
      ngxPallocBlock os mem pool s = some (p + sizeofNgxPool, { mem with
        live := mem.live.insert p size
        blocks := blocks
        calls := mem.calls + 1
        mallocs := mem.mallocs ++ [p] }) ∧
      ∀ a, blocks.lookup a =
        if a = p then some (newBlock size s p)
        else if a = z then (mem.blocks.lookup z).map fun b => { b with dataNext := p }
        else (mem.blocks.lookup a).map (if a ∈ ys then passed else id) := by
  have ok := h.header pool head hhead
  have hsize : head.dataEnd - pool = size := by
    have := ok.dataEnd
    omega
  have hpx := h.fresh_notMem hp
  obtain ⟨front, ys, z, hxs, hw⟩ := h.walk_last hc
  have hin : ∀ x ∈ ys ++ [z], x ∈ xs := by
    intro x hx
    rw [hxs]
    exact List.mem_append_right front hx
  have hlen : ys.length < xs.length + 1 := by
    rw [hxs]
    simp only [List.length_append, List.length_cons, List.length_nil]
    omega
  obtain ⟨zb, hzb, -⟩ := h.lookup (hin z (by simp))
  have hzy : z ∉ ys := fun hz => (List.nodup_append.mp hw.nodup).2.2 z hz z (by simp) rfl
  have hzp : z ≠ p := fun he => hpx (he ▸ hin z (by simp))
  generalize hm : ({ mem with
    live := mem.live.insert p size
    calls := mem.calls + 1
    mallocs := mem.mallocs ++ [p] } : Memory) = m
  have hlimit : m.walkLimit = xs.length + 1 := by
    rw [← hm]
    exact h.walkLimit
  have hwalk : Walk (m.write p (newBlock size s p)).next NULL c (ys ++ [z]) := by
    apply hw.congr
    intro x hx
    have hxp : x ≠ p := fun he => hpx (he ▸ hin x hx)
    rw [next_write, if_neg hxp, ← hm]
    rfl
  obtain ⟨blocks, hrun, hlook⟩ := updateCurrent_spec p hwalk
    (fun x hx => (mem_write _ _ _ _).mpr (.inr (hm ▸ (h.keys x).mpr (hin x hx)))) (hlimit ▸ hlen)
  have hz : blocks.lookup z = some zb := by
    rw [hlook z, lookup_write, if_neg hzp, ← hm, hzb, if_neg hzy]
    rfl
  refine ⟨front, ys, z, blocks.insert z { zb with dataNext := p }, by simpa using hxs, hw, ?_, ?_⟩
  · have hnew : newBlock size s p = ⟨head.maxSize, p + sizeofNgxPool + s, p + size, NULL,
        0, none⟩ := by
      rw [ok.maxSize]
      rfl
    rw [hnew] at hrun
    subst hm
    simp only [ngxPallocBlock, hhead, hsize, Memory.malloc, hp, hcur, hrun, hz, Option.bind_eq_bind,
      Option.bind_some]
    rfl
  · intro a
    by_cases haz : a = z
    · subst haz
      simp [hzp, hzb]
    · rw [Finmap.lookup_insert_of_ne _ haz, hlook a, lookup_write]
      by_cases hap : a = p
      · subst hap
        have hay : a ∉ ys := fun hc => hpx (hin a (List.mem_append_left [z] hc))
        simp [hay]
      · simp [hap, haz, ← hm]

structure Appended (mem mem' : Memory) (size s p z : ℤ) : Prop where
  live : mem'.live = mem.live.insert p size
  mallocs : mem'.mallocs = mem.mallocs ++ [p]
  frees : mem'.frees = mem.frees
  keys : ∀ a, a ∈ mem'.blocks ↔ a = p ∨ a ∈ mem.blocks
  new : mem'.blocks.lookup p = some (newBlock size s p)
  old : ∀ a b, a ≠ p → mem.blocks.lookup a = some b → ∃ b', mem'.blocks.lookup a = some b' ∧
    b'.maxSize = b.maxSize ∧ b'.dataLast = b.dataLast ∧ b'.dataEnd = b.dataEnd ∧
    b'.dataNext = (if a = z then p else b.dataNext) ∧
    (b'.current = b.current ∨ a ≠ z ∧ b'.current = some b.dataNext)

theorem ngxPallocBlock_appended (h : PoolInv mem pool size xs) {p : ℤ}
    (hp : os.answer mem.calls mem.live size = some p) :
    ∃ front z mem', xs = front ++ [z] ∧
      ngxPallocBlock os mem pool s = some (p + sizeofNgxPool, mem') ∧
      Appended mem mem' size s p z := by
  obtain ⟨head, hhead, -⟩ := h.lookup h.pool_mem
  obtain ⟨c, hc, hcur⟩ := h.current head hhead
  obtain ⟨front, ys, z, blocks, hxs, -, hrun, hlook⟩ :=
    ngxPallocBlock_some (s := s) h hp hhead hcur hc
  refine ⟨front ++ ys, z, _, hxs, hrun, rfl, rfl, rfl, ?_, ?_, ?_⟩
  · intro a
    have hzx : z ∈ mem.blocks := (h.keys z).mpr (by simp [hxs])
    rw [← Finmap.lookup_isSome, ← Finmap.lookup_isSome, hlook a]
    by_cases hap : a = p
    · simp [hap]
    · by_cases haz : a = z
      · subst haz
        simp [hap]
      · simp [hap, haz]
  · rw [hlook p, if_pos rfl]
  · intro a b hap hb
    have hl := hlook a
    rw [if_neg hap] at hl
    by_cases haz : a = z
    · subst haz
      rw [if_pos rfl, hb] at hl
      exact ⟨_, hl, rfl, rfl, rfl, by rw [if_pos rfl], .inl rfl⟩
    · rw [if_neg haz, hb] at hl
      by_cases hay : a ∈ ys
      · rw [if_pos hay] at hl
        refine ⟨_, hl, rfl, rfl, rfl, by rw [if_neg haz]; rfl, ?_⟩
        by_cases hf : b.dataFailed > 4
        · exact .inr ⟨haz, by simp only [passed, hf, ↓reduceIte]⟩
        · exact .inl (by simp only [passed, hf, ↓reduceIte])
      · rw [if_neg hay] at hl
        exact ⟨b, hl, rfl, rfl, rfl, by rw [if_neg haz], .inl rfl⟩

namespace Appended

variable {mem' : Memory} {p z : ℤ} {front : List ℤ}

theorem next_old (ha : Appended mem mem' size s p z) {a : ℤ} (hap : a ≠ p) (hk : a ∈ mem.blocks) :
    mem'.next a = if a = z then p else mem.next a := by
  obtain ⟨b, hb⟩ := Finmap.mem_iff.mp hk
  obtain ⟨b', hb', -, -, -, hn, -⟩ := ha.old a b hap hb
  rw [next_of_lookup hb', hn, next_of_lookup hb]

theorem walk (ha : Appended mem mem' size s p z) (hpos : 0 < p) (hpk : p ∉ mem.blocks)
    (hw : Walk mem.next NULL pool (front ++ [z])) (hk : ∀ a ∈ front ++ [z], a ∈ mem.blocks) :
    Walk mem'.next NULL pool (front ++ [z, p]) := by
  have hne : ∀ a ∈ front ++ [z], a ≠ p := fun a hx he => hpk (he ▸ hk a hx)
  apply hw.snoc
  · intro x hx
    have hx' := List.mem_append_left [z] hx
    have hxz : x ≠ z := (List.nodup_append.mp hw.nodup).2.2 x hx z (by simp)
    rw [ha.next_old (hne x hx') (hk x hx'), if_neg hxz]
  · have hz : z ∈ front ++ [z] := by simp
    rw [ha.next_old (hne z hz) (hk z hz), if_pos rfl]
  · exact hpos.ne'
  · rw [next_of_lookup ha.new]
    rfl

theorem header (ha : Appended mem mem' size s p z) (hs : 0 ≤ s) (hsize : s ≤ size - sizeofNgxPool)
    (hok : ∀ a b, mem.blocks.lookup a = some b → HeaderOk size a b) (a : ℤ) (b' : NgxPool)
    (hb' : mem'.blocks.lookup a = some b') : HeaderOk size a b' := by
  by_cases hap : a = p
  · subst hap
    obtain rfl := Option.some.inj (ha.new.symm.trans hb')
    simp only [sizeofNgxPool] at hsize
    refine ⟨rfl, ?_, ?_, rfl⟩
    · change a + sizeofNgxPool ≤ a + sizeofNgxPool + s
      omega
    · change a + 48 + s ≤ a + size
      omega
  · rcases (ha.keys a).mp (Finmap.mem_iff.mpr ⟨b', hb'⟩) with rfl | hk
    · exact absurd rfl hap
    · obtain ⟨b, hb⟩ := Finmap.mem_iff.mp hk
      obtain ⟨d, hd, hm, hl, he, -, -⟩ := ha.old a b hap hb
      obtain rfl := Option.some.inj (hd.symm.trans hb')
      have ok := hok a b hb
      exact ⟨hm ▸ ok.maxSize, hl ▸ ok.last_ge, by rw [hl, he]; exact ok.last_le, he ▸ ok.dataEnd⟩

theorem current (ha : Appended mem mem' size s p z) (h : PoolInv mem pool size (front ++ [z]))
    (hpool : pool ≠ p) (b' : NgxPool) (hb' : mem'.blocks.lookup pool = some b') :
    ∃ c ∈ front ++ [z], b'.current = some c := by
  obtain ⟨b, hb, -⟩ := h.lookup h.pool_mem
  obtain ⟨d, hd, -, -, -, -, hcur⟩ := ha.old pool b hpool hb
  obtain rfl := Option.some.inj (hd.symm.trans hb')
  rcases hcur with hcur | ⟨hpz, hcur⟩
  · rw [hcur]
    exact h.current b hb
  · refine ⟨b.dataNext, ?_, hcur⟩
    have hw := h.walk
    rw [← next_of_lookup hb]
    cases front with
    | nil => exact absurd hw.1 hpz
    | cons x front =>
      obtain ⟨rfl, -, hw⟩ := hw
      apply List.mem_cons_of_mem
      cases front with
      | nil => exact hw.1 ▸ List.mem_cons_self
      | cons y front => exact hw.1 ▸ List.mem_cons_self

theorem inv (ha : Appended mem mem' size s p z) (h : PoolInv mem pool size (front ++ [z]))
    (hs : 0 ≤ s) (hsize : s ≤ size - sizeofNgxPool) (hpos : 0 < p) (hpx : p ∉ front ++ [z])
    (hapart : ∀ a ∈ front ++ [z], p + size ≤ a ∨ a + size ≤ p) :
    PoolInv mem' pool size (front ++ [z] ++ [p]) where
  size_ge := h.size_ge
  walk := by
    rw [List.append_assoc]
    exact ha.walk hpos (mt (h.keys p).mp hpx) h.walk fun a hx => (h.keys a).mpr hx
  pool_mem := List.mem_append_left [p] h.pool_mem
  positive a hx := by
    rcases List.mem_append.mp hx with hx | hx
    · exact h.positive a hx
    · rw [List.mem_singleton.mp hx]
      exact hpos
  keys a := by
    rw [ha.keys, h.keys]
    simp only [List.mem_append, List.mem_singleton]
    tauto
  header := ha.header hs hsize h.header
  live a := by
    rw [ha.live]
    by_cases hap : a = p
    · subst hap
      simp
    · rw [Finmap.lookup_insert_of_ne _ hap, h.live]
      simp [hap]
  apart a hx b hy hab := by
    rcases List.mem_append.mp hx with hx | hx <;> rcases List.mem_append.mp hy with hy | hy
    · exact h.apart a hx b hy hab
    · rw [List.mem_singleton.mp hy]
      exact (hapart a hx).symm
    · rw [List.mem_singleton.mp hx]
      exact hapart b hy
    · exact absurd ((List.mem_singleton.mp hx).trans (List.mem_singleton.mp hy).symm) hab
  current b' hb' := by
    obtain ⟨c, hc, he⟩ := ha.current h (fun he => hpx (he ▸ h.pool_mem)) b' hb'
    exact ⟨c, List.mem_append_left [p] hc, he⟩
  mallocs := by rw [ha.mallocs, h.mallocs]
  frees := ha.frees.trans h.frees

theorem granted (ha : Appended mem mem' size s p z) (hk : ∀ a ∈ xs, a ∈ mem.blocks) (hpx : p ∉ xs) :
    Granted mem mem' xs (xs ++ [p]) p ⟨p + sizeofNgxPool, s⟩ where
  sub a hx := by
    refine ⟨List.mem_append_left [p] hx, ?_⟩
    obtain ⟨b, hb⟩ := Finmap.mem_iff.mp (hk a hx)
    obtain ⟨b', hb', -, hl, -⟩ := ha.old a b (fun he => hpx (he ▸ hx)) hb
    rw [last_of_lookup hb, last_of_lookup hb', hl]
  block := by simp
  start_ge := le_refl _
  fits := by
    rw [last_of_lookup ha.new]
    exact le_refl _
  unused hx := absurd hx hpx

end Appended

end AnalysisPrograms.MemPool
