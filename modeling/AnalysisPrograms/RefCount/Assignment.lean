import AnalysisPrograms.RefCount.MemberRuns

namespace AnalysisPrograms.RefCount

open Foundations FiniteMap Execution

variable {w u v : World} {s : State} {x y p o fuel : ℕ}

/-- After `x = y` both refer to what `y` referred to, and the object is there and counted once more
unless `x` referred to it before. -/
def Assigns (fuel : ℕ) (w : World) (x y : ℕ) : Prop :=
  ∃ v, w.assign fuel x y = some v ∧ v.target x = w.target y ∧ v.target y = w.target y ∧
    ∀ o, w.target y = some o → o ∈ v.objects ∧
      v.getRefCount o = (w.getRefCount o).map (· + if w.target x = some o then 0 else 1)

def State.holders (s : State) (o : ℕ) : Finset ℕ :=
  s.pointers.keys.filter fun p => s.target p = some o

theorem mem_holders : p ∈ s.holders o ↔ s.target p = some o := by
  rw [State.holders, Finset.mem_filter, Finmap.mem_keys, and_iff_right_iff_imp]
  intro htarget
  by_contra hp
  cases (target_of_notMem hp).symm.trans htarget

theorem references_eq_card (s : State) (o : ℕ) : references s.pointers o = (s.holders o).card := by
  rw [State.holders, Finset.card_filter]
  rfl

theorem Shrinks.holders_subset (h : Shrinks (· = x) w u) (o : ℕ) :
    u.holders o ⊆ (w.holders o).erase x := by
  intro p hp
  have htarget := mem_holders.mp hp
  refine Finset.mem_erase.mpr ⟨?_, mem_holders.mpr (h.target_eq htarget)⟩
  rintro rfl
  cases (h.emptied p rfl).symm.trans htarget

theorem Shrinks.holders_eq_iff (h : Shrinks (· = x) w u) (hu : Balanced u) (o : ℕ) :
    u.holders o = (w.holders o).erase x ↔ ∀ p, p ≠ x → w.Goes (· = x) p → w.target p ≠ some o := by
  constructor
  · intro heq p hne hgoes htarget
    have hmem : p ∈ u.holders o := by
      rw [heq]
      exact Finset.mem_erase.mpr ⟨hne, mem_holders.mpr htarget⟩
    cases (h.target_none hu hgoes).symm.trans (mem_holders.mp hmem)
  · intro hall
    apply (h.holders_subset o).antisymm
    intro p hp
    obtain ⟨hne, hmem⟩ := Finset.mem_erase.mp hp
    have htarget := mem_holders.mp hmem
    apply mem_holders.mpr
    rcases h.target_or htarget with hsame | hgoes
    · exact hsame
    · exact absurd htarget (hall p hne hgoes)

theorem Shrinks.references_eq_iff (h : Shrinks (· = x) w u) (hu : Balanced u) (o : ℕ) :
    references u.pointers o + (if w.target x = some o then 1 else 0) = references w.pointers o ↔
      ∀ p, p ≠ x → w.Goes (· = x) p → w.target p ≠ some o := by
  rw [references_eq_card, references_eq_card, ← h.holders_eq_iff hu o]
  have hsubset := h.holders_subset o
  have hcard : ((w.holders o).erase x).card + (if w.target x = some o then 1 else 0) =
      (w.holders o).card := by
    split
    · next htarget => exact Finset.card_erase_add_one (mem_holders.mpr htarget)
    · next htarget => rw [Finset.erase_eq_of_notMem (mt mem_holders.mp htarget), Nat.add_zero]
  constructor
  · intro heq
    apply Finset.eq_of_subset_of_card_le hsubset
    omega
  · intro heq
    rw [heq, hcard]

theorem Sound.getRefCount_eq (h : Sound s) (ho : o ∈ s.objects) :
    s.getRefCount o = some (references s.pointers o : ℤ) := by
  obtain ⟨object, hobject⟩ := Finmap.mem_iff.mp ho
  rw [State.getRefCount, hobject, Option.map_some, h.counts o object hobject]

section Outside

variable (h : Whole w) (hx : w.Outside x) (hfuel : w.objects.keys.card < fuel)
include h hx hfuel

theorem assigns_self_iff : Assigns fuel w x x ↔ w.target x = none := by
  obtain ⟨u, hu⟩ := h.release_returns hx hfuel
  obtain ⟨hwhole, -, hnull⟩ := h.release hu
  obtain ⟨v, hv, -, hpointers, -⟩ := Whole.assign hu hwhole hnull hnull
  have htarget : v.target x = none := target_emptied hpointers
  constructor
  · rintro ⟨v', hv', hsame, -⟩
    obtain rfl := Option.some.inj (hv.symm.trans hv')
    exact hsame.symm.trans htarget
  · intro hnone
    refine ⟨v, hv, htarget.trans hnone.symm, htarget.trans hnone.symm, ?_⟩
    intro o ho
    cases hnone.symm.trans ho

theorem assigns_iff_of_ne (hy : w.Outside y) (hne : x ≠ y) :
    Assigns fuel w x y ↔ ∀ o, w.target y = some o → ∀ p, p ≠ x → w.Goes (· = x) p →
      w.target p ≠ some o := by
  obtain ⟨u, hu⟩ := h.release_returns hx hfuel
  obtain ⟨hwhole, hshrinks, hnull⟩ := h.release hu
  have hstays : ¬w.Goes (· = x) y := by
    intro hgoes
    cases hgoes with
    | given heq => exact hne heq.symm
    | within hin => exact hy.2 (List.mem_map_of_mem hin)
  obtain ⟨sp, hsp⟩ := Finmap.mem_iff.mp hy.1
  have hsame := hshrinks.lookup_eq hstays
  obtain ⟨v, hv, hwhole', hpointers, -⟩ := Whole.assign hu hwhole hnull (hsame.trans hsp)
  have htarget := target_insert hpointers
  have hyt : w.target y = sp.obj := target_of_lookup hsp
  have hxv : v.target x = w.target y := by
    rw [htarget, if_pos rfl, hyt]
  have hyv : v.target y = w.target y := by
    rw [htarget, if_neg hne.symm, target_of_lookup (hsame.trans hsp), hyt]
  have hcount : ∀ o, w.target y = some o → o ∈ v.objects ∧
      (v.getRefCount o = (w.getRefCount o).map (· + if w.target x = some o then 0 else 1) ↔
        ∀ p, p ≠ x → w.Goes (· = x) p → w.target p ≠ some o) := by
    intro o ho
    have hlive : o ∈ v.objects := hwhole'.balanced.live (hxv.trans ho)
    refine ⟨hlive, ?_⟩
    -- both counts are numbers of smart pointers, and the assignment adds `x` to those that the
    -- release has left
    have hinsert := references_insert u.pointers x sp o
    rw [valueAt_of_lookup .null hnull, if_pos (hyt.symm.trans ho), ← hpointers] at hinsert
    rw [hwhole'.sound.getRefCount_eq hlive, h.sound.getRefCount_eq (h.balanced.live ho),
      Option.map_some, Option.some.injEq, ← hshrinks.references_eq_iff hwhole.balanced o]
    simp only [SmartPointer.null, reduceCtorEq, if_false, Nat.add_zero] at hinsert
    split
    · omega
    · omega
  constructor
  · rintro ⟨v', hv', -, -, hall⟩ o ho
    obtain rfl := Option.some.inj (hv.symm.trans hv')
    exact (hcount o ho).2.mp (hall o ho).2
  · intro hall
    refine ⟨v, hv, hxv, hyv, ?_⟩
    intro o ho
    exact ⟨(hcount o ho).1, (hcount o ho).2.mpr (hall o ho)⟩

end Outside

theorem assigns_iff (fuel : ℕ) (run : List Action) (w : World)
    (hw : exec (World.step fuel) World.start run = some w) (hfuel : w.objects.keys.card < fuel)
    (x y : ℕ) (hx : w.Outside x) (hy : w.Outside y) :
    Assigns fuel w x y ↔ (x ≠ y ∨ w.target x = none) ∧
      ∀ o, w.target y = some o → ∀ p, p ≠ x → w.Goes (· = x) p → w.target p ≠ some o := by
  have h := exec_whole hw
  by_cases hxy : x = y
  · subst hxy
    rw [assigns_self_iff h hx hfuel, or_iff_right (not_not_intro rfl), iff_self_and]
    intro hnone o ho
    cases hnone.symm.trans ho
  · rw [assigns_iff_of_ne h hx hfuel hy hxy]
    exact (and_iff_right (.inl hxy)).symm

def chained (last : ℕ) : List Action :=
  [.newObject true, .newObject true, .newObject true, .construct 0 (some 0) none,
    .construct 1 (some last) none, .construct 2 (some 1) (some 0)]

theorem assigns_chained :
    ∃ w, exec (World.step 4) World.start (chained 2) = some w ∧ w.objects.keys.card < 4 ∧
      w.Outside 0 ∧ w.Outside 1 ∧ Assigns 4 w 0 1 := by
  obtain ⟨w, hw, hcard, hx, hy, hstored, hmember, hlast⟩ : ∃ w,
      exec (World.step 4) World.start (chained 2) = some w ∧ w.objects.keys.card < 4 ∧
      w.Outside 0 ∧ w.Outside 1 ∧
        w.stored = [(0, 2)] ∧ w.target 2 = some 1 ∧ w.target 1 = some 2 :=
    ⟨_, rfl, by decide, by decide, by decide, rfl, rfl, rfl⟩
  refine ⟨w, hw, hcard, hx, hy, ?_⟩
  apply (assigns_iff 4 (chained 2) w hw hcard 0 1 hx hy).mpr
  refine ⟨.inl Nat.zero_ne_one, ?_⟩
  intro o ho p hne hgoes
  cases hgoes with
  | given heq => exact absurd heq hne
  | within hin =>
    rw [hstored, List.mem_singleton] at hin
    obtain ⟨-, rfl⟩ := Prod.mk.inj hin
    rw [← ho, hmember, hlast]
    decide

theorem self_assignment_forgets :
    ∃ w, exec (World.step 4) World.start (chained 2) = some w ∧ ¬Assigns 4 w 1 1 := by
  obtain ⟨w, hw, hcard, hy, hlast⟩ : ∃ w, exec (World.step 4) World.start (chained 2) = some w ∧
      w.objects.keys.card < 4 ∧ w.Outside 1 ∧ w.target 1 = some 2 :=
    ⟨_, rfl, by decide, by decide, rfl⟩
  refine ⟨w, hw, ?_⟩
  rw [assigns_self_iff (exec_whole hw) hy hcard, hlast]
  exact Option.some_ne_none 2

example : ∃ w v, exec (World.step 4) World.start (chained 1) = some w ∧ w.assign 4 0 1 = some v ∧
    w.getRefCount 1 = some 2 ∧ v.getRefCount 1 = some 2 :=
  ⟨_, _, rfl, rfl, rfl, rfl⟩

end AnalysisPrograms.RefCount
