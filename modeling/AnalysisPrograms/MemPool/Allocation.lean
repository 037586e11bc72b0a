import AnalysisPrograms.MemPool.NewBlock

namespace AnalysisPrograms.MemPool

open Foundations FiniteMap Links

variable {os : Malloc} {mem : Memory} {pool : ℤ} {size s : ℤ} {xs : List ℤ}

def Refused (os : Malloc) (mem : Memory) (pool s : ℤ) : Prop :=
  ∃ head current searched, mem.blocks.lookup pool = some head ∧ head.current = some current ∧
    Walk mem.next NULL current searched ∧
    (head.maxSize < s ∨
      (∀ a ∈ searched, ∃ b, mem.blocks.lookup a = some b ∧ b.dataEnd - b.dataLast < s) ∧
        os.answer mem.calls mem.live (head.dataEnd - pool) = none)

theorem ngxCreatePool_inv {mem₀ : Memory} {n : ℤ}
    (h : ngxCreatePool os Memory.init n = (pool, mem₀)) (hp : pool ≠ NULL) :
    ∃ size, PoolInv mem₀ pool size [pool] := by
  unfold ngxCreatePool at h
  generalize hs : (if n < MIN_POOL_SIZE then MIN_POOL_SIZE else n) = size at h
  have hge : MIN_POOL_SIZE ≤ size := by
    rw [← hs]
    split_ifs with hc
    · exact le_refl _
    · exact not_lt.mp hc
  have hbig : ¬size < 2 * sizeofNgxPool := by
    simp only [MIN_POOL_SIZE, sizeofNgxPool] at hge ⊢
    omega
  cases ha : os.answer 0 ∅ size with
  | none =>
    simp only [hbig, ↓reduceIte, Memory.malloc, Memory.init, ha, Prod.mk.injEq] at h
    exact absurd h.1.symm hp
  | some p =>
    simp only [hbig, ↓reduceIte, Memory.malloc, Memory.init, ha, Prod.mk.injEq] at h
    obtain ⟨rfl, rfl⟩ := h
    have hpos := (os.fresh _ _ _ _ ha).1
    have hlook : ∀ a (b c : NgxPool), ((∅ : Map ℤ NgxPool).insert p b).lookup a = some c →
        a = p ∧ c = b := by
      intro a b c hl
      rcases lookup_insert_cases hl with hl | ⟨-, hl⟩
      · exact hl
      · simp at hl
    refine ⟨size, hge, ⟨rfl, hp, ?_⟩, by simp, by simpa using hpos, ?_, ?_, ?_, ?_, ?_, rfl, rfl⟩
    · rw [next_write, if_pos rfl]
      rfl
    · intro a
      rw [mem_write, List.mem_singleton]
      exact or_iff_left Finmap.notMem_empty
    · intro a b hb
      obtain ⟨rfl, rfl⟩ := hlook a _ b hb
      refine ⟨rfl, le_refl _, ?_, rfl⟩
      simp only [MIN_POOL_SIZE, sizeofNgxPool] at hge ⊢
      omega
    · intro a
      by_cases hap : a = p
      · subst hap
        simp [Memory.write]
      · simp [hap, Memory.write]
    · intro a hx b hy hab
      exact absurd ((List.mem_singleton.mp hx).trans (List.mem_singleton.mp hy).symm) hab
    · intro b hb
      obtain ⟨-, rfl⟩ := hlook p _ b hb
      exact ⟨p, by simp, rfl⟩

theorem ngxCreatePool_head {mem₀ : Memory} {n : ℤ} (h : ngxCreatePool os mem n = (pool, mem₀))
    (hp : pool ≠ NULL) :
    ∃ head, mem₀.blocks.lookup pool = some head ∧ head.dataFailed = 0 ∧
      head.current = some pool := by
  unfold ngxCreatePool at h
  generalize (if n < MIN_POOL_SIZE then MIN_POOL_SIZE else n) = size at h
  by_cases hsmall : size < 2 * sizeofNgxPool
  · rw [if_pos hsmall] at h
    exact absurd (Prod.mk.inj h).1.symm hp
  · rw [if_neg hsmall] at h
    cases ha : os.answer mem.calls mem.live size with
    | none =>
      simp only [Memory.malloc, ha] at h
      exact absurd (Prod.mk.inj h).1.symm hp
    | some p =>
      simp only [Memory.malloc, ha, Prod.mk.injEq] at h
      obtain ⟨rfl, rfl⟩ := h
      exact ⟨_, by rw [lookup_write, if_pos rfl], rfl, rfl⟩

theorem ngxPalloc_outcomes (os : Malloc) (s : ℤ) (h : PoolInv mem pool size xs) :
    ∃ head c after, mem.blocks.lookup pool = some head ∧ head.current = some c ∧ c ∈ xs ∧
      Walk mem.next NULL c (c :: after) ∧ (∀ a ∈ c :: after, a ∈ xs) ∧
      (head.maxSize < s ∧ ngxPalloc os mem pool s = some (NULL, mem) ∨
        ¬head.maxSize < s ∧
        (∃ a b, a ∈ c :: after ∧ mem.blocks.lookup a = some b ∧ b.dataEnd - b.dataLast ≥ s ∧
          ngxPalloc os mem pool s =
          some (b.dataLast, mem.write a { b with dataLast := b.dataLast + s })) ∨
        ¬head.maxSize < s ∧ (∀ a ∈ c :: after, ¬hasRoom mem s a) ∧
          ngxPalloc os mem pool s = ngxPallocBlock os mem pool s) := by
  obtain ⟨head, hhead, -⟩ := h.lookup h.pool_mem
  obtain ⟨c, hc, hcur⟩ := h.current head hhead
  obtain ⟨front, after, hxs, hw⟩ := h.walk_from hc
  have hsub : ∀ a ∈ c :: after, a ∈ xs := fun a ha => hxs ▸ List.mem_append_right front ha
  refine ⟨head, c, after, hhead, hcur, hc, hw, hsub, ?_⟩
  by_cases hmax : head.maxSize < s
  · exact .inl ⟨hmax, by simp [ngxPalloc, hhead, hmax]⟩
  have hlen : (c :: after).length < mem.walkLimit := by
    rw [h.walkLimit, hxs, List.length_append]
    omega
  rcases findBlock_spec hw (fun a ha => (h.keys a).mpr (hsub a ha)) hlen with
    ⟨a, ha, ⟨b, hb, hroom⟩, hf⟩ | ⟨hnone, hf⟩
  · have hne : ¬NULL = a := (hw.ne_null ha).symm
    exact .inr
      (.inl ⟨hmax, a, b, ha, hb, hroom, by simp [ngxPalloc, hhead, hmax, hcur, hf, hne, hb]⟩)
  · exact .inr (.inr ⟨hmax, hnone, by simp [ngxPalloc, hhead, hmax, hcur, hf]⟩)

theorem ngxPalloc_cases (os : Malloc) (h : PoolInv mem pool size xs) (hs : 0 ≤ s) :
    (Refused os mem pool s ∧
      ∃ calls, ngxPalloc os mem pool s = some (NULL, { mem with calls := calls })) ∨
      ¬Refused os mem pool s ∧ ∃ rslt mem' xs' b, ngxPalloc os mem pool s = some (rslt, mem') ∧
        PoolInv mem' pool size xs' ∧ Granted mem mem' xs xs' b ⟨rslt, s⟩ := by
  obtain ⟨head, c, after, hhead, hcur, hc, hw, hsub, houtcome⟩ := ngxPalloc_outcomes os s h
  have ok := h.header pool head hhead
  have hsize : head.dataEnd - pool = size := by
    have := ok.dataEnd
    omega
  have hrefused : Refused os mem pool s ↔ head.maxSize < s ∨
      (∀ a ∈ c :: after, ¬hasRoom mem s a) ∧ os.answer mem.calls mem.live size = none := by
    constructor
    · rintro ⟨head', c', searched, hh, hc', hw', hr⟩
      obtain rfl := Option.some.inj (hhead.symm.trans hh)
      obtain rfl := Option.some.inj (hcur.symm.trans hc')
      rw [hw'.unique hw, hsize] at hr
      refine hr.imp_right fun ⟨hall, hnone⟩ => ⟨?_, hnone⟩
      rintro a ha ⟨b, hb, hroom⟩
      obtain ⟨b', hb', hlt⟩ := hall a ha
      obtain rfl := Option.some.inj (hb.symm.trans hb')
      exact absurd hroom (not_le.mpr hlt)
    · intro hr
      refine ⟨head, c, c :: after, hhead, hcur, hw,
        hr.imp_right fun ⟨hall, hnone⟩ => ⟨?_, hsize ▸ hnone⟩⟩
      intro a ha
      obtain ⟨b, hb, -⟩ := h.lookup (hsub a ha)
      exact ⟨b, hb, not_le.mp fun hroom => hall a ha ⟨b, hb, hroom⟩⟩
  rw [hrefused]
  rcases houtcome with ⟨hmax, hrun⟩ | ⟨hmax, a, b, ha, hb, hroom, hrun⟩ | ⟨hmax, hnone, hrun⟩
  · exact .inl ⟨.inl hmax, mem.calls, hrun⟩
  · right
    refine ⟨?_, b.dataLast, _, xs, a, hrun, h.bump hb hs hroom, granted_bump h (hsub a ha) hb hs⟩
    rintro (hmax' | ⟨hall, -⟩)
    · exact hmax hmax'
    · exact hall a ha ⟨b, hb, hroom⟩
  · rw [hrun]
    cases hp : os.answer mem.calls mem.live size with
    | none => exact .inl ⟨.inr ⟨hnone, rfl⟩, mem.calls + 1, ngxPallocBlock_none h hp⟩
    | some p =>
      right
      refine ⟨by simp [hmax], ?_⟩
      have hfit : s ≤ size - sizeofNgxPool := ok.maxSize ▸ not_lt.mp hmax
      have hpx := h.fresh_notMem hp
      obtain ⟨front, z, mem', rfl, hrun', happ⟩ := ngxPallocBlock_appended (s := s) h hp
      exact ⟨_, mem', _, p, hrun', happ.inv h hs hfit (h.fresh hp).1 hpx (h.fresh hp).2,
        happ.granted (fun a ha => (h.keys a).mpr ha) hpx⟩

theorem destroyLoop_spec {p : ℤ} {limit : ℕ} (hw : Walk mem.next NULL p xs)
    (hk : ∀ a ∈ xs, a ∈ mem.blocks ∧ a ∈ mem.live) (hl : xs.length < limit) :
    ∃ mem', destroyLoop limit mem p = some mem' ∧ mem'.frees = mem.frees ++ xs ∧
      ∀ a, a ∈ mem'.live ↔ a ∈ mem.live ∧ a ∉ xs := by
  induction xs generalizing mem p limit with
  | nil =>
    obtain ⟨limit, rfl⟩ : ∃ k, limit = k + 1 := ⟨limit - 1, by omega⟩
    obtain rfl : p = NULL := hw
    exact ⟨mem, by simp [destroyLoop], by simp, by simp⟩
  | cons x xs ih =>
    obtain ⟨limit, rfl⟩ : ∃ k, limit = k + 1 := ⟨limit - 1, by omega⟩
    have hnd := hw.nodup
    obtain ⟨rfl, hne, hw⟩ := hw
    obtain ⟨hpb, hpl⟩ := hk p List.mem_cons_self
    obtain ⟨b, hb⟩ := Finmap.mem_iff.mp hpb
    have hxp : ∀ a ∈ xs, a ≠ p := fun a ha he => (List.nodup_cons.mp hnd).1 (he ▸ ha)
    generalize hm : ({ mem with
      live := mem.live.erase p
      blocks := mem.blocks.erase p
      frees := mem.frees ++ [p] } : Memory) = m
    have hw' : Walk m.next NULL b.dataNext xs := by
      rw [← next_of_lookup hb]
      apply hw.congr
      intro a ha
      simp only [Memory.next, ← hm, Finmap.lookup_erase_ne (hxp a ha)]
    obtain ⟨mem', hrun, hfrees, hlive⟩ := ih hw' (fun a ha => by
      have := hk a (List.mem_cons_of_mem p ha)
      simp only [← hm, Finmap.mem_erase]
      exact ⟨⟨hxp a ha, this.1⟩, hxp a ha, this.2⟩) (by simpa using hl)
    refine ⟨mem', ?_, ?_, ?_⟩
    · simp [destroyLoop, hne.symm, hb, Memory.free, hpl, hm, hrun]
    · rw [hfrees, ← hm]
      simp
    · intro a
      rw [hlive a, ← hm, Finmap.mem_erase, List.mem_cons]
      tauto

theorem ngxDestroyPool_spec (h : PoolInv mem pool size xs) :
    ∃ mem', ngxDestroyPool mem pool = some mem' ∧ mem'.frees = mem.mallocs ∧
      ∀ a, a ∉ mem'.live := by
  have hlive : ∀ a, a ∈ mem.live ↔ a ∈ xs := by
    intro a
    rw [← Finmap.lookup_isSome, h.live]
    by_cases ha : a ∈ xs
    · simp [ha]
    · simp [ha]
  have hlimit : xs.length < mem.walkLimit := by
    rw [h.walkLimit]
    omega
  obtain ⟨mem', hrun, hfrees, hl⟩ := destroyLoop_spec h.walk
    (fun a ha => ⟨(h.keys a).mpr ha, (hlive a).mpr ha⟩) hlimit
  refine ⟨mem', hrun, ?_, ?_⟩
  · rw [hfrees, h.frees, h.mallocs, List.nil_append]
  · intro a ha
    obtain ⟨hal, hax⟩ := (hl a).mp ha
    exact hax ((hlive a).mp hal)

def step (os : Malloc) (pool : ℤ) (st : Memory × List Region) (size : ℕ) :
    Option (Memory × List Region) := do
  let (rslt, mem) ← ngxPalloc os st.1 pool size
  some (mem, if rslt = NULL then st.2 else ⟨rslt, size⟩ :: st.2)

def RunInv (pool size : ℤ) (st : Memory × List Region) : Prop :=
  ∃ xs, PoolInv st.1 pool size xs ∧ ∀ r ∈ st.2, Taken st.1 xs r

theorem Granted.ne_null {mem' : Memory} {xs' : List ℤ} {b : ℤ} {r : Region}
    (h : Granted mem mem' xs xs' b r) (hi : PoolInv mem' pool size xs') : r.start ≠ NULL := by
  have hb := hi.positive b h.block
  have hr := h.start_ge
  simp only [sizeofNgxPool, NULL] at hr ⊢
  omega

theorem step_inv (os : Malloc) (st : Memory × List Region) (s : ℕ) (h : RunInv pool size st) :
    ∃ st', step os pool st s = some st' ∧ RunInv pool size st' := by
  obtain ⟨xs, hi, ht⟩ := h
  rcases ngxPalloc_cases os hi (Int.natCast_nonneg s) with
    ⟨-, calls, hrun⟩ | ⟨-, rslt, mem', xs', b, hrun, hi', hg⟩
  · refine ⟨({ st.1 with calls := calls }, st.2), by simp [step, hrun], xs, ?_, ht⟩
    exact hi.rewrite rfl rfl rfl (fun _ => Iff.rfl)
      (fun a b b' hb hb' => Option.some.inj (hb.symm.trans hb') ▸ ⟨rfl, hi.header a b hb⟩)
        hi.current
  · have hne := hg.ne_null hi'
    refine ⟨(mem', ⟨rslt, s⟩ :: st.2), by simp [step, hrun, hne], xs', hi', ?_⟩
    intro r hr
    rcases List.mem_cons.mp hr with rfl | hr
    · exact ⟨b, hg.block, hg.start_ge, hg.fits⟩
    · exact hg.taken (ht r hr)

theorem pool_regions_apart (os : Malloc) (n pool : ℤ) (mem₀ : Memory) (sizes : List ℕ)
    (hc : ngxCreatePool os Memory.init n = (pool, mem₀)) (hp : pool ≠ NULL) :
    ∃ mem regions, Execution.exec (step os pool) (mem₀, []) sizes = some (mem, regions) ∧
      (∀ s : ℕ, ∃ rslt mem', ngxPalloc os mem pool s = some (rslt, mem') ∧
        (rslt ≠ NULL → ∃ blocks b header, Walk mem'.next NULL pool blocks ∧ b ∈ blocks ∧
          mem'.blocks.lookup b = some header ∧
          b + sizeofNgxPool ≤ rslt ∧ rslt + s ≤ header.dataEnd ∧
          ∀ r ∈ regions, Region.Apart ⟨rslt, s⟩ r) ∧
        (rslt = NULL ↔ Refused os mem pool s) ∧
        (rslt = NULL → mem'.blocks = mem.blocks)) ∧
      ∃ mem', ngxDestroyPool mem pool = some mem' ∧ mem'.frees = mem.mallocs ∧
      mem'.frees.Nodup := by
  obtain ⟨size, h₀⟩ := ngxCreatePool_inv hc hp
  obtain ⟨⟨mem, regions⟩, hrun, xs, hi, ht⟩ := Execution.exec_total (RunInv pool size)
    (fun st s h => step_inv os st s h) (s := (mem₀, [])) ⟨[pool], h₀, by simp⟩ sizes
  refine ⟨mem, regions, hrun, ?_, ?_⟩
  · intro s
    rcases ngxPalloc_cases os hi (Int.natCast_nonneg s) with
      ⟨href, calls, hcall⟩ | ⟨href, rslt, mem', xs', b, hcall, hi', hg⟩
    · exact ⟨NULL, _, hcall, by simp, iff_of_true rfl href, fun _ => rfl⟩
    · have hne := hg.ne_null hi'
      refine ⟨rslt, mem', hcall, fun _ => ?_, iff_of_false hne href, fun hz => absurd hz hne⟩
      obtain ⟨header, hlook, ok⟩ := hi'.lookup hg.block
      have hfit := hg.fits
      rw [last_of_lookup hlook] at hfit
      exact ⟨xs', b, header, hi'.walk, hg.block, hlook, hg.start_ge, hfit.trans ok.last_le,
        fun r hr => hg.apart hi' (ht r hr)⟩
  · obtain ⟨mem', hrun', hfrees, -⟩ := ngxDestroyPool_spec hi
    refine ⟨mem', hrun', hfrees, ?_⟩
    rw [hfrees, hi.mallocs]
    exact hi.walk.nodup

def oneBlock : Malloc where
  answer _ live _ := if live.keys = ∅ then some 4096 else none
  fresh := by
    intro calls live n p h
    split_ifs at h with hk
    obtain rfl := Option.some.inj h
    refine ⟨by omega, ?_⟩
    intro q m hq
    have hmem : q ∈ live.keys := Finmap.mem_keys.mpr (Finmap.mem_iff.mpr ⟨m, hq⟩)
    rw [hk] at hmem
    simp at hmem

theorem oneBlock_regions_apart :
    ∃ mem₀, ngxCreatePool oneBlock Memory.init 64 = (4096, mem₀) ∧
      ∃ mem regions mem', Execution.exec (step oneBlock 4096) (mem₀, []) [40, 4096, 4000] =
      some (mem, regions) ∧
        ngxDestroyPool mem 4096 = some mem' ∧ mem'.frees = mem.mallocs := by
  refine ⟨_, rfl, ?_⟩
  obtain ⟨mem, regions, hrun, -, mem', hd, hf, -⟩ :=
    pool_regions_apart oneBlock 64 4096 _ [40, 4096, 4000] rfl (by decide)
  exact ⟨mem, regions, mem', hrun, hd, hf⟩

end AnalysisPrograms.MemPool
