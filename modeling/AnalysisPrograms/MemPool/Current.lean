import AnalysisPrograms.MemPool.Allocation

namespace AnalysisPrograms.MemPool

open Foundations FiniteMap Links Execution

def palloc (os : Malloc) (pool : ℤ) (mem : Memory) (size : ℕ) : Option Memory :=
  (ngxPalloc os mem pool size).map Prod.snd

/-- No block from the current one on, where a search goes, has failed more than five times. -/
def CurrentFresh (mem : Memory) (pool : ℤ) : Prop :=
  ∃ head current searched, mem.blocks.lookup pool = some head ∧ head.current = some current ∧
    Walk mem.next NULL current searched ∧ ∀ a ∈ searched, ∃ b, mem.blocks.lookup a = some b ∧
    b.dataFailed ≤ 5

def NeedsBlock (os : Malloc) (mem : Memory) (pool s : ℤ) : Prop :=
  ∃ head current searched, mem.blocks.lookup pool = some head ∧ head.current = some current ∧
    Walk mem.next NULL current searched ∧ ¬head.maxSize < s ∧ (∀ a ∈ searched, ¬hasRoom mem s a) ∧
    os.answer mem.calls mem.live (head.dataEnd - pool) ≠ none

/-- The place of the current block: with the eighth block it moves to the second one and stays
there. -/
def currentPlace (count : ℕ) : ℕ := if count ≤ 7 then 0 else 1

theorem currentPlace_cases (count : ℕ) :
    count ≤ 7 ∧ currentPlace count = 0 ∨ 7 < count ∧ currentPlace count = 1 := by
  unfold currentPlace
  split
  · omega
  · omega

structure Counters (mem : Memory) (pool : ℤ) (xs : List ℤ) : Prop where
  current : ∀ head, mem.blocks.lookup pool = some head → head.current = xs[currentPlace xs.length]?
  failed : ∀ i a b, xs[i]? = some a → mem.blocks.lookup a = some b → currentPlace xs.length ≤ i →
    b.dataFailed = (xs.length - 2 - i : ℕ)

variable {os : Malloc} {mem mem' : Memory} {pool : ℤ} {size s : ℤ} {xs : List ℤ}

theorem Counters.congr (h : Counters mem pool xs)
    (hsame : ∀ a b', mem'.blocks.lookup a = some b' → ∃ b, mem.blocks.lookup a = some b ∧
      b'.dataFailed = b.dataFailed ∧ b'.current = b.current) : Counters mem' pool xs where
  current head' hhead' := by
    obtain ⟨head, hhead, -, hcur⟩ := hsame pool head' hhead'
    rw [hcur]
    exact h.current head hhead
  failed i a b' ha hb' hi := by
    obtain ⟨b, hb, hfailed, -⟩ := hsame a b' hb'
    rw [hfailed]
    exact h.failed i a b ha hb hi

theorem Counters.searched (hi : PoolInv mem pool size xs) (h : Counters mem pool xs)
    {head : NgxPool} {c : ℤ} {ys : List ℤ} (hhead : mem.blocks.lookup pool = some head)
    (hcur : head.current = some c) (hw : Walk mem.next NULL c ys) :
    ys = xs.drop (currentPlace xs.length) := by
  have hc := h.current head hhead
  rw [hcur] at hc
  obtain ⟨hlt, hget⟩ := List.getElem?_eq_some_iff.mp hc.symm
  have hsplit := hi.walk
  rw [← List.take_append_drop (currentPlace xs.length) xs, List.drop_eq_getElem_cons hlt,
    hget] at hsplit
  rw [hw.unique hsplit.suffix, List.drop_eq_getElem_cons hlt, hget]

theorem currentFresh_iff (hi : PoolInv mem pool size xs) (h : Counters mem pool xs) :
    CurrentFresh mem pool ↔ xs.length ≤ 8 := by
  obtain ⟨head, hhead, -⟩ := hi.lookup hi.pool_mem
  obtain ⟨c, hc, hcur⟩ := hi.current head hhead
  have hplace := h.current head hhead
  rw [hcur] at hplace
  have hcases := currentPlace_cases xs.length
  constructor
  · rintro ⟨head', c', searched, hhead', hcur', hw, hall⟩
    obtain rfl := Option.some.inj (hhead.symm.trans hhead')
    obtain rfl := Option.some.inj (hcur.symm.trans hcur')
    obtain ⟨hlt, hget⟩ := List.getElem?_eq_some_iff.mp hplace.symm
    obtain ⟨b, hb, hle⟩ := hall c (by
      rw [h.searched hi hhead hcur hw, List.drop_eq_getElem_cons hlt, hget]
      exact List.mem_cons_self)
    have hfailed := h.failed _ c b hplace.symm hb (Nat.le_refl _)
    omega
  · intro hle
    obtain ⟨front, after, -, hw⟩ := hi.walk_from hc
    refine ⟨head, c, _, hhead, hcur, hw, ?_⟩
    rw [h.searched hi hhead hcur hw]
    intro a ha
    obtain ⟨k, hk⟩ := List.mem_iff_getElem?.mp ha
    rw [List.getElem?_drop] at hk
    obtain ⟨b, hb, -⟩ := hi.lookup (List.mem_of_getElem? hk)
    refine ⟨b, hb, ?_⟩
    rw [h.failed _ a b hk hb (Nat.le_add_right _ _)]
    omega

theorem get_middle_cases {front ys : List ℤ} {z a : ℤ} {i : ℕ}
    (hnodup : (front ++ (ys ++ [z])).Nodup) (ha : (front ++ (ys ++ [z]))[i]? = some a) :
    (a ∈ ys ↔ front.length ≤ i ∧ i < front.length + ys.length) ∧
      (a = z ↔ i = front.length + ys.length) := by
  have hindex : ∀ k, (front ++ (ys ++ [z]))[k]? = some a → k = i := by
    intro k hk
    exact (List.getElem?_inj (List.getElem?_eq_some_iff.mp hk).1 hnodup).mp (hk.trans ha.symm)
  have hlast : (front ++ (ys ++ [z]))[front.length + ys.length]? = some z := by
    rw [List.getElem?_append_right (by omega), List.getElem?_append_right (by omega)]
    simp
  constructor
  · constructor
    · intro hmem
      obtain ⟨k, hk⟩ := List.mem_iff_getElem?.mp hmem
      have hlt := (List.getElem?_eq_some_iff.mp hk).1
      have hi := hindex (front.length + k) (by
        rw [List.getElem?_append_right (by omega), List.getElem?_append_left (by omega),
          Nat.add_sub_cancel_left, hk])
      omega
    · rintro ⟨hlo, hhi⟩
      rw [List.getElem?_append_right hlo, List.getElem?_append_left (by omega)] at ha
      exact List.mem_of_getElem? ha
  · constructor
    · rintro rfl
      exact (hindex _ hlast).symm
    · rintro rfl
      exact Option.some.inj (ha.symm.trans hlast)

structure Extended (mem mem' : Memory) (xs : List ℤ) (p : ℤ) : Prop where
  new : ∀ b, mem'.blocks.lookup p = some b → b.dataFailed = 0
  old : ∀ i a b, xs[i]? = some a → mem.blocks.lookup a = some b →
    ∃ b', mem'.blocks.lookup a = some b' ∧
    b'.dataFailed = (if i + 1 = xs.length ∨ i < currentPlace xs.length then b.dataFailed
      else b.dataFailed + 1) ∧
    b'.current = if i + 1 = xs.length ∨ i < currentPlace xs.length then b.current
    else (passed b).current

theorem ngxPallocBlock_extended {p : ℤ} (hi : PoolInv mem pool size xs) (h : Counters mem pool xs)
    (hp : os.answer mem.calls mem.live size = some p) :
    ∃ mem', ngxPallocBlock os mem pool s = some (p + sizeofNgxPool, mem') ∧
      Extended mem mem' xs p := by
  obtain ⟨head, hhead, -⟩ := hi.lookup hi.pool_mem
  obtain ⟨c, hc, hcur⟩ := hi.current head hhead
  obtain ⟨front, ys, z, blocks, hxs, hw, hrun, hlook⟩ :=
    ngxPallocBlock_some (s := s) hi hp hhead hcur hc
  have hpx := hi.fresh_notMem hp
  have hsearched := h.searched hi hhead hcur hw
  rw [List.append_assoc] at hxs
  have hcount : front.length + ys.length + 1 = xs.length := by
    rw [hxs]
    simp only [List.length_append, List.length_singleton]
    omega
  have hfront : front.length = currentPlace xs.length := by
    have hlen := congrArg List.length hsearched
    rw [List.length_append, List.length_singleton, List.length_drop] at hlen
    omega
  refine ⟨_, hrun, ?_, ?_⟩
  · intro b hb
    rw [hlook p, if_pos rfl] at hb
    rw [← Option.some.inj hb]
    rfl
  · intro i a b ha hb
    have hlt := (List.getElem?_eq_some_iff.mp ha).1
    have hap : a ≠ p := fun heq => hpx (heq ▸ List.mem_of_getElem? ha)
    have hnodup := hi.walk.nodup
    rw [hxs] at ha hnodup
    obtain ⟨hmem, hlast⟩ := get_middle_cases hnodup ha
    rw [hlook a, if_neg hap]
    by_cases haz : a = z
    · have hend := hlast.mp haz
      subst haz
      rw [if_pos rfl, hb, if_pos (by omega), if_pos (by omega)]
      exact ⟨_, rfl, rfl, rfl⟩
    · have hend := mt hlast.mpr haz
      rw [if_neg haz, hb]
      by_cases hay : a ∈ ys
      · have hin := hmem.mp hay
        rw [if_pos hay, if_neg (by omega), if_neg (by omega)]
        exact ⟨_, rfl, rfl, rfl⟩
      · have hout := mt hmem.mpr hay
        rw [if_neg hay, if_pos (by omega), if_pos (by omega)]
        exact ⟨_, rfl, rfl, rfl⟩

theorem PoolInv.first (h : PoolInv mem pool size xs) : xs[0]? = some pool := by
  have hw := h.walk
  cases xs with
  | nil => exact absurd h.pool_mem List.not_mem_nil
  | cons x xs =>
    rw [hw.1]
    rfl

theorem PoolInv.second (h : PoolInv mem pool size xs) {head : NgxPool}
    (hhead : mem.blocks.lookup pool = some head) (hlen : 2 ≤ xs.length) :
    xs[1]? = some head.dataNext := by
  have hw := h.walk
  cases xs with
  | nil => exact absurd h.pool_mem List.not_mem_nil
  | cons x xs =>
    cases xs with
    | nil => simp at hlen
    | cons y ys =>
      obtain ⟨rfl, -, hw⟩ := hw
      rw [next_of_lookup hhead] at hw
      rw [hw.1]
      rfl

theorem Counters.extend_current {p : ℤ} (hi : PoolInv mem pool size xs) (h : Counters mem pool xs)
    (hext : Extended mem mem' xs p) (head' : NgxPool)
    (hhead' : mem'.blocks.lookup pool = some head') :
    head'.current = (xs ++ [p])[currentPlace (xs ++ [p]).length]? := by
  obtain ⟨head, hhead, -⟩ := hi.lookup hi.pool_mem
  have hfirst := hi.first
  have hpos := (List.getElem?_eq_some_iff.mp hfirst).1
  obtain ⟨b', hb', -, hcur'⟩ := hext.old 0 pool head hfirst hhead
  obtain rfl := Option.some.inj (hb'.symm.trans hhead')
  have hcur := h.current head hhead
  rw [hcur', List.length_append, List.length_singleton]
  by_cases hstay : xs.length ≤ 7
  · have hplace : currentPlace xs.length = 0 := if_pos hstay
    rw [hplace] at hcur ⊢
    by_cases hone : xs.length = 1
    · rw [if_pos (.inl hone.symm), hcur, hone, currentPlace, if_pos (by omega),
        List.getElem?_append_left hpos]
    · have hfailed := h.failed 0 pool head hfirst hhead (hplace ▸ Nat.le_refl 0)
      rw [if_neg (by omega)]
      unfold passed currentPlace
      by_cases hmove : xs.length = 7
      · rw [if_pos (by omega), if_neg (by omega), List.getElem?_append_left (by omega),
          hi.second hhead (by omega)]
      · rw [if_neg (by omega), if_pos (by omega), List.getElem?_append_left hpos, hcur]
  · have hplace : ∀ count, 7 < count → currentPlace count = 1 := fun count hlt => if_neg (by omega)
    rw [hplace _ (by omega)] at hcur
    rw [hplace _ (by omega), hplace _ (by omega), if_pos (.inr Nat.one_pos), hcur,
      List.getElem?_append_left (by omega)]

theorem Counters.extend {p : ℤ} (hi : PoolInv mem pool size xs) (h : Counters mem pool xs)
    (hext : Extended mem mem' xs p) : Counters mem' pool (xs ++ [p]) where
  current := h.extend_current hi hext
  failed i a b' ha hb' hplace := by
    rw [List.length_append, List.length_singleton] at hplace ⊢
    have hmono : currentPlace xs.length ≤ i := by
      have hcases := currentPlace_cases xs.length
      have hcases' := currentPlace_cases (xs.length + 1)
      omega
    by_cases hlt : i < xs.length
    · rw [List.getElem?_append_left hlt] at ha
      obtain ⟨b, hb, -⟩ := hi.lookup (List.mem_of_getElem? ha)
      obtain ⟨b'', hb'', hfailed, -⟩ := hext.old i a b ha hb
      obtain rfl := Option.some.inj (hb''.symm.trans hb')
      rw [hfailed, h.failed i a b ha hb hmono]
      split
      · omega
      · omega
    · rw [List.getElem?_append_right (by omega), List.getElem?_singleton] at ha
      split at ha
      · obtain rfl := Option.some.inj ha
        rw [hext.new b' hb']
        omega
      · cases ha

theorem needsBlock_iff (hi : PoolInv mem pool size xs) {head : NgxPool} {c : ℤ}
    {searched : List ℤ} (hhead : mem.blocks.lookup pool = some head)
    (hcur : head.current = some c) (hw : Walk mem.next NULL c searched) :
    NeedsBlock os mem pool s ↔ ¬head.maxSize < s ∧ (∀ a ∈ searched, ¬hasRoom mem s a) ∧
      os.answer mem.calls mem.live size ≠ none := by
  have hsize : head.dataEnd - pool = size := by
    have := (hi.header pool head hhead).dataEnd
    omega
  constructor
  · rintro ⟨head', c', searched', hhead', hcur', hw', hneeds⟩
    obtain rfl := Option.some.inj (hhead.symm.trans hhead')
    obtain rfl := Option.some.inj (hcur.symm.trans hcur')
    rwa [hw'.unique hw, hsize] at hneeds
  · intro hneeds
    rw [← hsize] at hneeds
    exact ⟨head, c, searched, hhead, hcur, hw, hneeds⟩

theorem Counters.bump (h : Counters mem pool xs) {a : ℤ} {b : NgxPool}
    (hb : mem.blocks.lookup a = some b) (last : ℤ) :
    Counters (mem.write a { b with dataLast := last }) pool xs := by
  apply h.congr
  intro x b' hb'
  rw [lookup_write] at hb'
  split at hb'
  · obtain rfl := Option.some.inj hb'
    rename_i heq
    exact ⟨b, heq ▸ hb, rfl, rfl⟩
  · exact ⟨b', hb', rfl, rfl⟩

theorem palloc_outcome (os : Malloc) (s : ℕ) (hi : PoolInv mem pool size xs)
    (h : Counters mem pool xs) :
    ∃ mem' xs', palloc os pool mem s = some mem' ∧ PoolInv mem' pool size xs' ∧
      Counters mem' pool xs' ∧
      (NeedsBlock os mem pool s → xs'.length = xs.length + 1) ∧
      (¬NeedsBlock os mem pool s → xs' = xs) := by
  have hs : (0 : ℤ) ≤ s := Int.natCast_nonneg s
  obtain ⟨head, c, after, hhead, hcur, -, hw, hsub, houtcome⟩ := ngxPalloc_outcomes os s hi
  rw [needsBlock_iff hi hhead hcur hw]
  rcases houtcome with ⟨hmax, hrun⟩ | ⟨hmax, a, b, ha, hb, hroom, hrun⟩ | ⟨hmax, hnone, hrun⟩
  · refine ⟨mem, xs, by rw [palloc, hrun]; rfl, hi, h, ?_, fun _ => rfl⟩
    exact fun hneeds => absurd hmax hneeds.1
  · refine ⟨_, xs, by rw [palloc, hrun]; rfl, hi.bump hb hs hroom, h.bump hb _, ?_, fun _ => rfl⟩
    exact fun hneeds => absurd ⟨b, hb, hroom⟩ (hneeds.2.1 a ha)
  · cases hp : os.answer mem.calls mem.live size with
    | none =>
      refine ⟨{ mem with calls := mem.calls + 1 }, xs, ?_, ?_, ?_, ?_, fun _ => rfl⟩
      · rw [palloc, hrun, ngxPallocBlock_none hi hp]
        rfl
      · exact hi.rewrite rfl rfl rfl (fun _ => Iff.rfl)
          (fun a b b' hb hb' => Option.some.inj (hb.symm.trans hb') ▸ ⟨rfl, hi.header a b hb⟩)
            hi.current
      · exact h.congr fun a b hb => ⟨b, hb, rfl, rfl⟩
      · exact fun hneeds => absurd rfl hneeds.2.2
    | some p =>
      have hfit : (s : ℤ) ≤ size - sizeofNgxPool :=
        (hi.header pool head hhead).maxSize ▸ not_lt.mp hmax
      have hpx := hi.fresh_notMem hp
      obtain ⟨mem', hblock, hext⟩ := ngxPallocBlock_extended (s := s) hi h hp
      obtain ⟨front, z, mem'', hxs, hblock', happ⟩ := ngxPallocBlock_appended (s := s) hi hp
      obtain rfl : mem'' = mem' := congrArg Prod.snd (Option.some.inj (hblock'.symm.trans hblock))
      refine ⟨mem'', xs ++ [p], by rw [palloc, hrun, hblock]; rfl, ?_, h.extend hi hext, ?_, ?_⟩
      · subst hxs
        exact happ.inv hi hs hfit (hi.fresh hp).1 hpx (hi.fresh hp).2
      · intro _
        rw [List.length_append, List.length_singleton]
      · exact fun hnot => absurd ⟨hmax, hnone, Option.some_ne_none p⟩ hnot

theorem counters_created {mem₀ : Memory} {n : ℤ}
    (hc : ngxCreatePool os Memory.init n = (pool, mem₀)) (hp : pool ≠ NULL) :
    Counters mem₀ pool [pool] := by
  obtain ⟨head, hhead, hfailed, hcur⟩ := ngxCreatePool_head hc hp
  constructor
  · intro head' hhead'
    obtain rfl := Option.some.inj (hhead.symm.trans hhead')
    rw [hcur]
    rfl
  · intro i a b ha hb _
    obtain ⟨rfl, rfl⟩ : i = 0 ∧ pool = a := by simpa [List.getElem?_singleton, eq_comm] using ha
    obtain rfl := Option.some.inj (hhead.symm.trans hb)
    exact hfailed

theorem run_counters {mem₀ : Memory} {n : ℤ} (hc : ngxCreatePool os Memory.init n = (pool, mem₀))
    (hp : pool ≠ NULL) (sizes : List ℕ) :
    ∃ mem, exec (palloc os pool) mem₀ sizes = some mem ∧ ∃ size xs, PoolInv mem pool size xs ∧
      Counters mem pool xs := by
  obtain ⟨size, hi₀⟩ := ngxCreatePool_inv hc hp
  apply exec_total (fun mem => ∃ size xs, PoolInv mem pool size xs ∧ Counters mem pool xs)
  · rintro mem s ⟨size, xs, hi, h⟩
    obtain ⟨mem', xs', hrun, hi', h', -⟩ := palloc_outcome os s hi h
    exact ⟨mem', hrun, size, xs', hi', h'⟩
  · exact ⟨size, [pool], hi₀, counters_created hc hp⟩

theorem current_block_fresh_iff (os : Malloc) (n pool : ℤ) (mem₀ : Memory) (sizes : List ℕ)
    (hc : ngxCreatePool os Memory.init n = (pool, mem₀)) (hp : pool ≠ NULL) :
    (∀ done rest mem, sizes = done ++ rest → exec (palloc os pool) mem₀ done = some mem →
      CurrentFresh mem pool) ↔
      Along (palloc os pool) (fun mem s => NeedsBlock os mem pool s → mem.mallocs.length ≤ 7)
      mem₀ sizes := by
  obtain ⟨size, hi₀⟩ := ngxCreatePool_inv hc hp
  apply good_iff_along (fun mem => ∃ xs, PoolInv mem pool size xs ∧ Counters mem pool xs ∧
    xs.length ≤ 8)
  · rintro mem ⟨xs, hi, h, hle⟩
    exact (currentFresh_iff hi h).mpr hle
  · rintro mem s mem' ⟨xs, hi, h, hle⟩ hok hrun
    obtain ⟨mem'', xs', hrun', hi', h', hneeds, hnot⟩ := palloc_outcome os s hi h
    obtain rfl := Option.some.inj (hrun'.symm.trans hrun)
    refine ⟨xs', hi', h', ?_⟩
    by_cases hn : NeedsBlock os mem pool s
    · have hcount := hok hn
      rw [hi.mallocs] at hcount
      rw [hneeds hn]
      omega
    · rw [hnot hn]
      exact hle
  · rintro mem s ⟨xs, hi, h, hle⟩ hbad
    rw [Classical.not_imp, hi.mallocs] at hbad
    obtain ⟨mem', xs', hrun, hi', h', hneeds, -⟩ := palloc_outcome os s hi h
    refine ⟨mem', hrun, ?_⟩
    rw [currentFresh_iff hi' h', hneeds hbad.1]
    omega
  · exact ⟨[pool], hi₀, counters_created hc hp, by simp⟩

def inOrder : Malloc where
  answer calls live _ :=
    if ∀ q ∈ live.keys, q + (live.lookup q).getD 0 ≤ 4096 * (calls + 1) then
      some (4096 * (calls + 1))
    else none
  fresh := by
    intro calls live n p h
    split_ifs at h with hall
    obtain rfl := Option.some.inj h
    refine ⟨by omega, ?_⟩
    intro q m hq
    right
    have hmem : q ∈ live.keys := Finmap.mem_keys.mpr (Finmap.mem_iff.mpr ⟨m, hq⟩)
    have hle := hall q hmem
    rwa [hq, Option.getD_some] at hle

theorem fresh_after_eight_requests : (ngxCreatePool inOrder Memory.init 4096).1 = 4096 ∧
    ∀ done rest mem, List.replicate 8 4048 = done ++ rest →
      exec (palloc inOrder 4096) (ngxCreatePool inOrder Memory.init 4096).2 done = some mem →
      CurrentFresh mem 4096 := by
  refine ⟨rfl,
    (current_block_fresh_iff inOrder 4096 4096 _ (List.replicate 8 4048) rfl (by decide)).mpr ?_⟩
  have hfew : Along (palloc inOrder 4096) (fun mem _ => mem.mallocs.length ≤ 7)
    (ngxCreatePool inOrder Memory.init 4096).2
      (List.replicate 8 4048) := by decide
  exact hfew.mono fun _ _ hle _ => hle

theorem ninth_block_searched : (ngxCreatePool inOrder Memory.init 4096).1 = 4096 ∧
    ∃ mem, exec (palloc inOrder 4096) (ngxCreatePool inOrder Memory.init 4096).2
    (List.replicate 9 4048) = some mem ∧
      ¬CurrentFresh mem 4096 := by
  have hcount :
    (exec (palloc inOrder 4096) (ngxCreatePool inOrder Memory.init 4096).2
      (List.replicate 9 4048)).map
      (fun mem => mem.mallocs.length) = some 9 := by decide
  have hc : ngxCreatePool inOrder Memory.init 4096 =
    (4096, (ngxCreatePool inOrder Memory.init 4096).2) := rfl
  obtain ⟨mem, hrun, size, xs, hi, h⟩ := run_counters hc (by decide) (List.replicate 9 4048)
  refine ⟨rfl, mem, hrun, ?_⟩
  rw [hrun, Option.map_some, Option.some.injEq, hi.mallocs] at hcount
  rw [currentFresh_iff hi h]
  omega

end AnalysisPrograms.MemPool
