import AnalysisPrograms.RefCount.Cascade

namespace AnalysisPrograms.RefCount

open Foundations FiniteMap Execution

variable {w u v : World} {gone : ℕ → Prop} {p q o fuel : ℕ} {object : Object}

def Guarded (w : World) : Prop :=
  ∀ p o, w.target p = some o → w.mutexes.lookup o = some true → ∀ o', (o', p) ∈ w.stored →
    w.mutexes.lookup o' = some true

structure Ready (w : World) (p : ℕ) : Prop where
  mem : p ∈ w.pointers
  free : ∀ o, w.target p = some o → w.mutexes.lookup o = some false
  outside : ∀ o, (o, p) ∈ w.stored → w.mutexes.lookup o = some true

def World.idle (w : World) : Finset ℕ :=
  w.objects.keys.filter fun o => w.mutexes.lookup o = some false

theorem mem_idle : o ∈ w.idle ↔ o ∈ w.objects ∧ w.mutexes.lookup o = some false := by
  rw [World.idle, Finset.mem_filter, Finmap.mem_keys]

theorem Shrinks.idle_subset (h : Shrinks gone w v) : v.idle ⊆ w.idle := by
  intro o ho
  obtain ⟨hin, hfree⟩ := mem_idle.mp ho
  obtain ⟨hold, hmutex⟩ := h.objects o hin
  exact mem_idle.mpr ⟨hold, hmutex.symm.trans hfree⟩

theorem Shrinks.guarded (h : Shrinks gone w v) (hv : Balanced v) (hw : Guarded w) : Guarded v := by
  intro p o hp hbusy o' hin
  have hmutex := (h.objects o (hv.live hp)).2
  have hhome := (h.objects o' (hv.inside o' p hin).1).2
  exact hhome.trans (hw p o (h.target_eq hp) (hmutex.symm.trans hbusy) o' (h.mem_stored.mp hin).1)

theorem Shrinks.ready (h : Shrinks gone w v) (hw : Balanced w) (hv : Balanced v) (hp : ¬gone p)
    (hready : Ready w p) : Ready v p := by
  refine ⟨?_, ?_, ?_⟩
  · rcases h.kept p hp with hsame | ⟨-, -, o, hin, hdead⟩
    · obtain ⟨sp, hsp⟩ := Finmap.mem_iff.mp hready.mem
      exact Finmap.mem_iff.mpr ⟨sp, hsame.trans hsp⟩
    · exact absurd (h.locked o (hw.inside o p hin).1 (hready.outside o hin)) hdead
  · intro o ho
    exact (h.objects o (hv.live ho)).2.trans (hready.free o (h.target_eq ho))
  · intro o hin
    exact (h.objects o (hv.inside o p hin).1).2.trans (hready.outside o (h.mem_stored.mp hin).1)

section LastHeld

variable (hguard : Guarded w) (hready : Ready w p)
  (hp : w.pointers.lookup p = some ⟨some o, some o⟩)
  (hone : references w.pointers o = 1)
include hguard hready hp hone

theorem guarded_lastHeld : Guarded (w.lastHeld o object) := by
  intro q o' hq hbusy o'' hin
  have hhome : w.mutexes.lookup o'' = some true := by
    by_cases heq : o' = o
    · subst heq
      obtain rfl : q = p := eq_of_references_one hone hq (target_of_lookup hp)
      exact hready.outside o'' hin
    · exact hguard q o' hq ((Finmap.lookup_insert_of_ne _ heq).symm.trans hbusy) o'' hin
  change (w.mutexes.insert o true).lookup o'' = some true
  by_cases heq : o'' = o
  · rw [heq, Finmap.lookup_insert]
  · rw [Finmap.lookup_insert_of_ne _ heq, hhome]

theorem ready_member (h : Balanced w) (hq : q ∈ w.members o) : Ready (w.lastHeld o object) q := by
  have hin := World.mem_members.mp hq
  have hfree : w.mutexes.lookup o = some false := hready.free o (target_of_lookup hp)
  refine ⟨(h.inside o q hin).2, ?_, ?_⟩
  · intro o' ho'
    -- the member is not the smart pointer that deletes its own object, nor one that deletes another
    have hne : o' ≠ o := by
      rintro rfl
      obtain rfl : q = p := eq_of_references_one hone ho' (target_of_lookup hp)
      cases hfree.symm.trans (hready.outside o' hin)
    refine (Finmap.lookup_insert_of_ne _ hne).trans ?_
    obtain ⟨object', hobject'⟩ := Finmap.mem_iff.mp (h.live ho')
    obtain ⟨locked, hlocked⟩ := Finmap.mem_iff.mp (h.mutexes o' object' hobject').2
    cases locked with
    | false => exact hlocked
    | true => cases hfree.symm.trans (hguard q o' ho' hlocked o hin)
  · intro o' hin'
    obtain rfl := h.home_eq hin hin'
    exact Finmap.lookup_insert _

end LastHeld

theorem idle_lastHeld (hobject : w.objects.lookup o = some object)
    (hfree : w.mutexes.lookup o = some false) : (w.lastHeld o object).idle.card < w.idle.card := by
  apply Finset.card_lt_card
  rw [Finset.ssubset_iff_of_subset]
  · refine ⟨o, mem_idle.mpr ⟨Finmap.mem_iff.mpr ⟨object, hobject⟩, hfree⟩, ?_⟩
    intro hmem
    cases (Finmap.lookup_insert _).symm.trans (mem_idle.mp hmem).2
  · intro o' ho'
    obtain ⟨hin, hfree'⟩ := mem_idle.mp ho'
    refine mem_idle.mpr ⟨(mem_insert_of_lookup hobject _ o').mp hin, ?_⟩
    rcases lookup_insert_cases hfree' with ⟨-, heq⟩ | ⟨-, hold⟩
    · cases heq
    · exact hold

def Returns (fuel : ℕ) : Prop :=
  ∀ w p, Balanced w → Guarded w → Ready w p → w.idle.card < fuel → ∃ v, w.release fuel p = some v

theorem Returns.exec_destruct (hret : Returns fuel) (h : Balanced w) (hguard : Guarded w)
    {ps : List ℕ} (hready : ∀ p ∈ ps, Ready w p) (hnodup : ps.Nodup) (hfuel : w.idle.card < fuel) :
    ∃ v, exec (fun w p => w.destruct fuel p) w ps = some v := by
  induction ps generalizing w with
  | nil => exact ⟨w, rfl⟩
  | cons p ps ih =>
    obtain ⟨hnot, hnodup⟩ := List.nodup_cons.mp hnodup
    obtain ⟨u, hu⟩ := hret w p h hguard (hready p List.mem_cons_self) hfuel
    have hdestruct : w.destruct fuel p = some (u.forget p) := by
      rw [World.destruct, hu, Option.map_some]
    obtain ⟨hbal, hshrinks, -⟩ := (releases fuel).destruct h hdestruct
    obtain ⟨v, hv⟩ := ih hbal (hshrinks.guarded hbal hguard)
      (fun q hq => hshrinks.ready h hbal (fun heq => hnot (heq ▸ hq))
        (hready q (List.mem_cons_of_mem p hq))) hnodup
      (Nat.lt_of_le_of_lt (Finset.card_le_card hshrinks.idle_subset) hfuel)
    exact ⟨v, exec_cons_iff.mpr ⟨_, hdestruct, hv⟩⟩

theorem returns (fuel : ℕ) : Returns fuel := by
  induction fuel with
  | zero =>
    intro w p _ _ _ hfuel
    exact absurd hfuel (Nat.not_lt_zero _)
  | succ fuel ih =>
    intro w p h hguard hready hfuel
    obtain ⟨sp, hsp⟩ := Finmap.mem_iff.mp hready.mem
    rcases h.pointers p sp hsp with rfl | ⟨o, rfl, ho⟩
    · exact ⟨w, World.release_null hsp rfl⟩
    · obtain ⟨object, hobject⟩ := Finmap.mem_iff.mp ho
      have hm := hready.free o (target_of_lookup hsp)
      have hold := h.counts o object hobject hm
      by_cases hcount : object.refCount = 1
      · have hone : references w.pointers o = 1 := by omega
        have hidle := idle_lastHeld hobject hm
        obtain ⟨u, hu⟩ :=
          ih.exec_destruct (h.lastHeld hobject hone) (guarded_lastHeld hguard hready hsp hone)
            (fun q hq => ready_member hguard hready hsp hone h hq) (h.nodup_members o) (by omega)
        obtain ⟨-, -, -, -, -, hletGo⟩ := (releases fuel).last h hsp hobject hone hu
        refine ⟨u.finish p o, ?_⟩
        rw [World.release_last hsp hm hobject hcount, hu, Option.bind_some, hletGo]
      · exact ⟨_, World.release_shared hsp hm hobject hcount⟩

end AnalysisPrograms.RefCount
