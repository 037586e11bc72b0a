import AnalysisPrograms.MemPool.Chain

namespace AnalysisPrograms.MemPool

open Foundations FiniteMap Links

structure Region where
  start : ℤ
  size : ℤ

def Region.Apart (r r' : Region) : Prop :=
  r.start + r.size ≤ r'.start ∨ r'.start + r'.size ≤ r.start

def Memory.last (mem : Memory) (a : ℤ) : ℤ := ((mem.blocks.lookup a).map NgxPool.dataLast).getD NULL

theorem last_of_lookup {mem : Memory} {a : ℤ} {b : NgxPool} (h : mem.blocks.lookup a = some b) :
    mem.last a = b.dataLast := by
  simp [Memory.last, h]

def Taken (mem : Memory) (xs : List ℤ) (r : Region) : Prop :=
  ∃ b ∈ xs, b + sizeofNgxPool ≤ r.start ∧ r.start + r.size ≤ mem.last b

structure Granted (mem mem' : Memory) (xs xs' : List ℤ) (b : ℤ) (r : Region) : Prop where
  sub : ∀ a ∈ xs, a ∈ xs' ∧ mem.last a ≤ mem'.last a
  block : b ∈ xs'
  start_ge : b + sizeofNgxPool ≤ r.start
  fits : r.start + r.size ≤ mem'.last b
  unused : b ∈ xs → r.start = mem.last b

theorem Granted.taken {mem mem' : Memory} {xs xs' : List ℤ} {b : ℤ} {r r' : Region}
    (h : Granted mem mem' xs xs' b r) (ht : Taken mem xs r') : Taken mem' xs' r' := by
  obtain ⟨a, ha, hs, he⟩ := ht
  obtain ⟨ha', hl⟩ := h.sub a ha
  exact ⟨a, ha', hs, he.trans hl⟩

theorem Granted.apart {mem mem' : Memory} {pool : ℤ} {size : ℤ} {xs xs' : List ℤ} {b : ℤ}
    {r r' : Region} (h : Granted mem mem' xs xs' b r) (hi : PoolInv mem' pool size xs')
    (ht : Taken mem xs r') : r.Apart r' := by
  obtain ⟨a, ha, hs, he⟩ := ht
  obtain ⟨ha', hl⟩ := h.sub a ha
  by_cases hab : a = b
  · subst hab
    right
    rw [h.unused ha]
    exact he
  · obtain ⟨ha₂, hla, oka⟩ := hi.lookup ha'
    obtain ⟨hb₂, hlb, okb⟩ := hi.lookup h.block
    have hea := oka.last_le
    have heb := okb.last_le
    rw [oka.dataEnd] at hea
    rw [okb.dataEnd] at heb
    have hfit := h.fits
    have hstart := h.start_ge
    rw [last_of_lookup hla] at hl
    rw [last_of_lookup hlb] at hfit
    simp only [sizeofNgxPool] at hs hstart
    rcases hi.apart a ha' b h.block hab with hap | hap
    · right
      omega
    · left
      omega

section Grant

variable {os : Malloc} {mem : Memory} {pool : ℤ} {size s : ℤ} {xs : List ℤ}

theorem PoolInv.bump (h : PoolInv mem pool size xs) {a : ℤ} {b : NgxPool}
    (hb : mem.blocks.lookup a = some b) (hs : 0 ≤ s) (hroom : b.dataEnd - b.dataLast ≥ s) :
    PoolInv (mem.write a { b with dataLast := b.dataLast + s }) pool size xs := by
  have ha : a ∈ mem.blocks := Finmap.mem_iff.mpr ⟨b, hb⟩
  have ok := h.header a b hb
  refine h.rewrite rfl rfl rfl ?_ ?_ ?_
  · intro c
    rw [mem_write]
    constructor
    · rintro (rfl | hc)
      · exact ha
      · exact hc
    · exact Or.inr
  · intro c d d' hd hd'
    rw [lookup_write] at hd'
    by_cases hc : c = a
    · subst hc
      rw [if_pos rfl] at hd'
      obtain rfl := Option.some.inj hd'
      obtain rfl := Option.some.inj (hb.symm.trans hd)
      refine ⟨rfl, ok.maxSize, ?_, ?_, ok.dataEnd⟩
      · have := ok.last_ge
        change c + sizeofNgxPool ≤ b.dataLast + s
        omega
      · change b.dataLast + s ≤ b.dataEnd
        omega
    · rw [if_neg hc] at hd'
      obtain rfl := Option.some.inj (hd.symm.trans hd')
      exact ⟨rfl, h.header c d hd⟩
  · intro d hd
    rw [lookup_write] at hd
    by_cases hp : pool = a
    · rw [if_pos hp] at hd
      obtain rfl := Option.some.inj hd
      exact h.current b (hp ▸ hb)
    · rw [if_neg hp] at hd
      exact h.current d hd

theorem granted_bump {a : ℤ} {b : NgxPool} (h : PoolInv mem pool size xs) (ha : a ∈ xs)
    (hb : mem.blocks.lookup a = some b) (hs : 0 ≤ s) :
    Granted mem (mem.write a { b with dataLast := b.dataLast + s }) xs xs a ⟨b.dataLast, s⟩ where
  sub c hc := by
    refine ⟨hc, ?_⟩
    unfold Memory.last
    rw [lookup_write]
    by_cases hca : c = a
    · subst hca
      simp [hb, hs]
    · simp [hca]
  block := ha
  start_ge := (h.header a b hb).last_ge
  fits := by
    rw [last_of_lookup (b := { b with dataLast := b.dataLast + s })
      (by rw [lookup_write, if_pos rfl])]
  unused _ := (last_of_lookup hb).symm

end Grant

end AnalysisPrograms.MemPool
