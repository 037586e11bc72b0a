import Mathlib.Data.List.Nodup
import AnalysisPrograms.RefCount.Counts
import AnalysisPrograms.RefCount.Members

namespace AnalysisPrograms.RefCount

open Foundations FiniteMap Execution

variable {w u v : World} {s : State} {gone gone' : ℕ → Prop} {p q o fuel : ℕ} {object : Object}
  {sp : SmartPointer}

theorem target_of_lookup (hp : s.pointers.lookup p = some sp) : s.target p = sp.obj := by
  rw [State.target, valueAt_of_lookup .null hp]

theorem target_of_notMem (hp : p ∉ s.pointers) : s.target p = none := by
  rw [State.target, valueAt_of_notMem .null hp]
  rfl

theorem exists_of_target (h : s.target p = some o) :
    ∃ sp, s.pointers.lookup p = some sp ∧ sp.obj = some o := by
  cases hp : s.pointers.lookup p with
  | none =>
    rw [target_of_notMem (Finmap.lookup_eq_none.mp hp)] at h
    cases h
  | some sp => exact ⟨sp, rfl, (target_of_lookup hp).symm.trans h⟩

theorem target_insert {t : State} (ht : t.pointers = s.pointers.insert p sp) (q : ℕ) :
    t.target q = if q = p then sp.obj else s.target q := by
  rw [State.target, ht, valueAt_insert]
  split
  · rfl
  · rfl

theorem target_emptied {t : State} (ht : t.pointers = s.pointers.insert p .null) :
    t.target p = none := by
  rw [target_insert ht, if_pos rfl]
  rfl

theorem references_pos_of_target (h : s.target p = some o) : 0 < references s.pointers o := by
  obtain ⟨sp, hp, hobj⟩ := exists_of_target h
  exact references_pos hp hobj

theorem exists_target_of_references (h : 0 < references s.pointers o) :
    ∃ p, s.target p = some o := by
  obtain ⟨p, sp, hp, hobj⟩ := exists_of_references h
  exact ⟨p, (target_of_lookup hp).trans hobj⟩

theorem eq_of_references_one (h : references s.pointers o = 1) (hp : s.target p = some o)
    (hq : s.target q = some o) : p = q := by
  by_contra hne
  have hrest := references_erase s.pointers p o
  have hobj : (valueAt s.pointers .null p).obj = some o := hp
  rw [if_pos hobj] at hrest
  have hpos : 0 < references (s.pointers.erase p) o := by
    obtain ⟨sp, hsp, hobj⟩ := exists_of_target hq
    exact references_pos ((Finmap.lookup_erase_ne (Ne.symm hne)).trans hsp) hobj
  omega

namespace World

theorem mem_members : p ∈ w.members o ↔ (o, p) ∈ w.stored := by
  unfold members
  rw [List.mem_map]
  constructor
  · rintro ⟨⟨o', p'⟩, ha, rfl⟩
    obtain ⟨hmem, ho⟩ := List.mem_filter.mp ha
    obtain rfl := of_decide_eq_true ho
    exact hmem
  · intro hmem
    exact ⟨(o, p), List.mem_filter.mpr ⟨hmem, decide_eq_true rfl⟩, rfl⟩

theorem Goes.within (hin : (o, p) ∈ w.stored) (href : w.target q = some o)
    (hall : ∀ q, w.target q = some o → w.Goes gone q) : w.Goes gone p := by
  unfold Goes
  exact .within hin href hall

def lastHeld (w : World) (o : ℕ) (object : Object) : World :=
  { w with
    objects := w.objects.insert o { object with refCount := 0 }
    mutexes := w.mutexes.insert o true }

def letGo (w : World) (p o : ℕ) : Option World := do
  let w ← w.lift fun s => s.delete o
  let w ← w.write p ⟨none, some o⟩
  let w ← w.lift fun s => s.unlock (some o)
  let w ← w.lift fun s => s.freeMutex (some o)
  w.write p .null

def finish (w : World) (p o : ℕ) : World :=
  { w with
    objects := w.objects.erase o
    mutexes := w.mutexes.erase o
    pointers := w.pointers.insert p .null
    deleted := w.deleted ++ [o]
    freed := w.freed ++ [o] }

theorem release_null (hp : w.pointers.lookup p = some sp) (hobj : sp.obj = none) :
    w.release (fuel + 1) p = some w := by
  unfold release
  simp only [hp, hobj, Option.bind_eq_bind, Option.bind_some]

theorem release_locked (hp : w.pointers.lookup p = some ⟨some o, some o⟩)
    (hm : w.mutexes.lookup o = some true) : w.release (fuel + 1) p = none := by
  unfold release
  simp only [hp, lift, State.lock, hm, Option.bind_eq_bind, Option.bind_some, if_true,
    Option.map_none, Option.bind_none]

theorem release_shared (hp : w.pointers.lookup p = some ⟨some o, some o⟩)
    (hm : w.mutexes.lookup o = some false) (ho : w.objects.lookup o = some object)
    (hcount : object.refCount ≠ 1) :
    w.release (fuel + 1) p =
      some { w with
        objects := w.objects.insert o { object with refCount := object.refCount - 1 }
        pointers := w.pointers.insert p .null } := by
  have hne : ¬object.refCount + -1 = 0 := by omega
  have hmem : p ∈ w.pointers := Finmap.mem_iff.mpr ⟨_, hp⟩
  unfold release
  simp only [hp, lift, write, lock_eq hm, State.refDecrease, State.addToCount, ho,
    State.getRefCount, State.unlock, Finmap.lookup_insert, Option.map_some, Option.bind_eq_bind,
    Option.bind_some, if_true, hne, if_false, hmem, Finmap.mem_insert, true_or,
    Finmap.insert_insert, insert_of_lookup hm]
  rfl

theorem release_last (hp : w.pointers.lookup p = some ⟨some o, some o⟩)
    (hm : w.mutexes.lookup o = some false) (ho : w.objects.lookup o = some object)
    (hcount : object.refCount = 1) :
    w.release (fuel + 1) p =
      (exec (fun w p => w.destruct fuel p) (w.lastHeld o object) (w.members o)).bind fun u =>
      u.letGo p o := by
  have hzero : object.refCount + -1 = 0 := by omega
  unfold release
  simp only [hp, lift, lock_eq hm, State.refDecrease, State.addToCount, ho, State.getRefCount,
    delete, destruct, Finmap.lookup_insert, Option.map_some, Option.bind_eq_bind, Option.bind_some,
    if_true, hzero, Option.bind_assoc]
  rfl

theorem letGo_eq (hp : u.pointers.lookup p = some sp) (hm : u.mutexes.lookup o = some true)
    (ho : o ∈ u.objects) : u.letGo p o = some (u.finish p o) := by
  have hmem : p ∈ u.pointers := Finmap.mem_iff.mpr ⟨_, hp⟩
  simp only [letGo, lift, write, State.delete, State.unlock, State.freeMutex, hm, ho, hmem,
    Option.map_some, Option.bind_eq_bind, Option.bind_some, if_true, Finmap.mem_insert, true_or,
    Finmap.insert_insert, erase_insert]
  rfl

end World

/-- The invariant inside an operation: the mutex of an object is locked while the last smart pointer
to it deletes it. -/
structure Balanced (w : World) : Prop where
  counts : ∀ o object, w.objects.lookup o = some object → w.mutexes.lookup o = some false →
    object.refCount = references w.pointers o
  busy : ∀ o ∈ w.objects, w.mutexes.lookup o = some true → references w.pointers o = 1
  mutexes : ∀ o object, w.objects.lookup o = some object → object.countMutex = o ∧ o ∈ w.mutexes
  pointers : ∀ p sp, w.pointers.lookup p = some sp →
    sp = .null ∨ ∃ o, sp = ⟨some o, some o⟩ ∧ o ∈ w.objects
  below : ∀ o ∈ w.objects, o < w.next
  gone : ∀ o ∈ w.deleted, o < w.next ∧ o ∉ w.objects
  once : w.deleted.Nodup
  freed : w.freed = w.deleted
  inside : ∀ o p, (o, p) ∈ w.stored → o ∈ w.objects ∧ p ∈ w.pointers
  single : (w.stored.map Prod.snd).Nodup

theorem Sound.balanced (h : Sound w.toState)
    (hinside : ∀ o p, (o, p) ∈ w.stored → o ∈ w.objects ∧ p ∈ w.pointers)
    (hsingle : (w.stored.map Prod.snd).Nodup) : Balanced w := by
  refine ⟨fun o object ho _ => h.counts o object ho, ?_, ?_, h.pointers, h.below, h.gone, h.once,
    h.freed, hinside, hsingle⟩
  · intro o ho hbusy
    obtain ⟨object, hobject⟩ := Finmap.mem_iff.mp ho
    cases (h.mutexes o object hobject).2.symm.trans hbusy
  · intro o object hobject
    obtain ⟨hmutex, hfree⟩ := h.mutexes o object hobject
    exact ⟨hmutex, Finmap.mem_iff.mpr ⟨false, hfree⟩⟩

theorem Balanced.sound (h : Balanced w) (hfree : ∀ o ∈ w.objects, w.mutexes.lookup o = some false) :
    Sound w.toState := by
  refine ⟨?_, h.pointers, ?_, h.below, h.gone, h.once, h.freed⟩
  · intro o object hobject
    exact h.counts o object hobject (hfree o (Finmap.mem_iff.mpr ⟨object, hobject⟩))
  · intro o object hobject
    exact ⟨(h.mutexes o object hobject).1, hfree o (Finmap.mem_iff.mpr ⟨object, hobject⟩)⟩

theorem Balanced.live (h : Balanced w) (ho : w.target p = some o) : o ∈ w.objects := by
  obtain ⟨sp, hp, hobj⟩ := exists_of_target ho
  rcases h.pointers p sp hp with rfl | ⟨o', rfl, hmem⟩
  · cases hobj
  · cases hobj
    exact hmem

theorem Balanced.home_eq (h : Balanced w) {o' : ℕ} (hp : (o, p) ∈ w.stored)
    (hp' : (o', p) ∈ w.stored) : o = o' :=
  congrArg Prod.fst (List.inj_on_of_nodup_map h.single hp hp' rfl)

theorem Balanced.nodup_members (h : Balanced w) (o : ℕ) : (w.members o).Nodup :=
  h.single.sublist (List.filter_sublist.map Prod.snd)

structure Shrinks (gone : ℕ → Prop) (w v : World) : Prop where
  objects : ∀ o ∈ v.objects, o ∈ w.objects ∧ v.mutexes.lookup o = w.mutexes.lookup o
  locked : ∀ o ∈ w.objects, w.mutexes.lookup o = some true → o ∈ v.objects
  kept : ∀ p, ¬gone p → v.pointers.lookup p = w.pointers.lookup p ∨
    p ∉ v.pointers ∧ w.Goes gone p ∧ ∃ o, (o, p) ∈ w.stored ∧ o ∉ v.objects
  emptied : ∀ p, gone p → v.target p = none
  older : ∀ p ∈ v.pointers, p ∈ w.pointers
  stored : v.stored = w.stored.filter fun a => a.2 ∈ v.pointers
  held : ∀ o ∈ v.objects, 0 < references w.pointers o → 0 < references v.pointers o

theorem Balanced.shrinks_self (h : Balanced w) (hgone : ∀ p, gone p → w.target p = none) :
    Shrinks gone w w := by
  refine ⟨fun o ho => ⟨ho, rfl⟩, fun o ho _ => ho, fun p _ => .inl rfl, hgone, fun p hp => hp, ?_,
    fun o _ hpos => hpos⟩
  apply Eq.symm
  apply List.filter_eq_self.mpr
  intro a ha
  exact decide_eq_true (h.inside a.1 a.2 ha).2

theorem Shrinks.mem_stored (h : Shrinks gone w v) :
    (o, p) ∈ v.stored ↔ (o, p) ∈ w.stored ∧ p ∈ v.pointers := by
  rw [h.stored, List.mem_filter, decide_eq_true_iff]

theorem Shrinks.target_eq (h : Shrinks gone w v) (hp : v.target p = some o) :
    w.target p = some o := by
  have hgone : ¬gone p := by
    intro hgone
    rw [h.emptied p hgone] at hp
    cases hp
  rcases h.kept p hgone with hsame | ⟨hnot, -⟩
  · rw [← hp, State.target, State.target, valueAt, valueAt, hsame]
  · rw [target_of_notMem hnot] at hp
    cases hp

theorem Shrinks.target_or (h : Shrinks gone w v) (hp : w.target p = some o) :
    v.target p = some o ∨ w.Goes gone p := by
  by_cases hgone : gone p
  · exact .inr (.given hgone)
  · rcases h.kept p hgone with hsame | ⟨-, hgoes, -⟩
    · rw [← hp, State.target, State.target, valueAt, valueAt, hsame]
      exact .inl rfl
    · exact .inr hgoes

theorem Shrinks.trans (h : Shrinks gone w u) (h' : Shrinks gone' u v) :
    Shrinks (fun p => gone p ∨ gone' p) w v := by
  have hgoes : ∀ p, w.Goes gone p → w.Goes (fun p => gone p ∨ gone' p) p :=
    fun p hp => hp.mono fun _ => .inl
  have hlater : ∀ p, u.Goes gone' p → w.Goes (fun p => gone p ∨ gone' p) p := by
    intro p hp
    apply Ownership.Goes.lift hp
    · intro q o hq
      exact (h.mem_stored.mp hq).1
    · intro q o hq
      exact h.target_eq hq
    · intro q o hq
      exact (h.target_or hq).imp_right (hgoes q)
    · intro q hq
      exact .given (.inr hq)
  refine ⟨?_, ?_, ?_, ?_, fun p hp => h.older p (h'.older p hp), ?_, ?_⟩
  · intro o ho
    obtain ⟨hu, hmutex'⟩ := h'.objects o ho
    obtain ⟨hw, hmutex⟩ := h.objects o hu
    exact ⟨hw, hmutex'.trans hmutex⟩
  · intro o ho hlocked
    have hu := h.locked o ho hlocked
    exact h'.locked o hu ((h.objects o hu).2.trans hlocked)
  · intro p hp
    obtain ⟨hp₁, hp₂⟩ := not_or.mp hp
    rcases h'.kept p hp₂ with hsame' | ⟨hnot, hgo, o, hin, hdead⟩
    · rcases h.kept p hp₁ with hsame | ⟨hnot, hgo, o, hin, hdead⟩
      · exact .inl (hsame'.trans hsame)
      · refine .inr ⟨?_, hgoes p hgo, o, hin, fun ho => hdead (h'.objects o ho).1⟩
        exact fun hmem => hnot (h'.older p hmem)
    · exact .inr ⟨hnot, hlater p hgo, o, (h.mem_stored.mp hin).1, hdead⟩
  · rintro p (hp | hp)
    · cases htarget : v.target p with
      | none => rfl
      | some o => exact (h'.target_eq htarget).symm.trans (h.emptied p hp)
    · exact h'.emptied p hp
  · rw [h'.stored, h.stored, List.filter_filter]
    apply List.filter_congr
    intro a _
    rw [Bool.and_eq_left_iff_imp]
    intro hmem
    exact decide_eq_true (h'.older a.2 (of_decide_eq_true hmem))
  · intro o ho hpos
    exact h'.held o ho (h.held o (h'.objects o ho).1 hpos)

theorem Shrinks.target_none (h : Shrinks gone w v) (hv : Balanced v) (hp : w.Goes gone p) :
    v.target p = none := by
  unfold World.Goes at hp
  induction hp with
  | given hp => exact h.emptied _ hp
  | @within p q o hin href _ ih =>
    have hdead : o ∉ v.objects := by
      intro ho
      obtain ⟨q', hq'⟩ := exists_target_of_references (h.held o ho (references_pos_of_target href))
      cases (ih q' (h.target_eq hq')).symm.trans hq'
    apply target_of_notMem
    intro hmem
    exact hdead (hv.inside o p (h.mem_stored.mpr ⟨hin, hmem⟩)).1

theorem Shrinks.lookup_eq (h : Shrinks gone w v) (hp : ¬w.Goes gone p) :
    v.pointers.lookup p = w.pointers.lookup p := by
  rcases h.kept p fun hgone => hp (.given hgone) with hsame | ⟨-, hgoes, -⟩
  · exact hsame
  · exact absurd hgoes hp

theorem Shrinks.lookup_busy (h : Shrinks gone w v) (hw : Balanced w) (hv : Balanced v)
    (ho : o ∈ w.objects) (hm : w.mutexes.lookup o = some true)
    (hp : w.pointers.lookup p = some ⟨some o, some o⟩) :
    v.pointers.lookup p = some ⟨some o, some o⟩ := by
  have hmem := h.locked o ho hm
  have hone := hv.busy o hmem ((h.objects o hmem).2.trans hm)
  obtain ⟨q, hq⟩ := exists_target_of_references (by omega : 0 < references v.pointers o)
  obtain rfl : p = q := eq_of_references_one (hw.busy o ho hm) (target_of_lookup hp)
    (h.target_eq hq)
  obtain ⟨sp, hsp, hobj⟩ := exists_of_target hq
  rcases hv.pointers p sp hsp with rfl | ⟨o', rfl, -⟩
  · cases hobj
  · cases hobj
    exact hsp

theorem Balanced.recount (h : Balanced w) {objects : Finmap fun _ : ℕ => Object}
    {mutexes : Finmap fun _ : ℕ => Bool} {pointers : Finmap fun _ : ℕ => SmartPointer}
    (hobjects : ∀ o, o ∈ objects ↔ o ∈ w.objects)
    (hpointers : ∀ q sp, pointers.lookup q = some sp → sp = .null ∨ w.pointers.lookup q = some sp)
    (hkept : ∀ q ∈ w.pointers, q ∈ pointers)
    (hcounts : ∀ o object, objects.lookup o = some object → mutexes.lookup o = some false →
      object.refCount = references pointers o)
    (hbusy : ∀ o ∈ objects, mutexes.lookup o = some true → references pointers o = 1)
    (hmutexes : ∀ o object, objects.lookup o = some object → object.countMutex = o ∧ o ∈ mutexes) :
    Balanced { w with objects := objects, mutexes := mutexes, pointers := pointers } := by
  refine ⟨hcounts, hbusy, hmutexes, ?_, ?_, ?_, h.once, h.freed, ?_, h.single⟩
  · intro q sp hq
    rcases hpointers q sp hq with hnull | hold
    · exact .inl hnull
    · rcases h.pointers q sp hold with hnull | ⟨o, hsp, hin⟩
      · exact .inl hnull
      · exact .inr ⟨o, hsp, (hobjects o).mpr hin⟩
  · intro o ho
    exact h.below o ((hobjects o).mp ho)
  · intro o ho
    obtain ⟨hlt, hdead⟩ := h.gone o ho
    exact ⟨hlt, mt (hobjects o).mp hdead⟩
  · intro o q hq
    obtain ⟨ho, hin⟩ := h.inside o q hq
    exact ⟨(hobjects o).mpr ho, hkept q hin⟩

theorem Balanced.lastHeld (h : Balanced w) (hobject : w.objects.lookup o = some object)
    (hone : references w.pointers o = 1) : Balanced (w.lastHeld o object) := by
  have hmem := mem_insert_of_lookup hobject { object with refCount := 0 }
  refine h.recount hmem (fun _ _ hq => .inr hq) (fun _ hq => hq) ?_ ?_ ?_
  · intro o' object' ho' hfree
    by_cases heq : o' = o
    · subst heq
      cases (Finmap.lookup_insert _).symm.trans hfree
    · exact h.counts o' object' ((Finmap.lookup_insert_of_ne _ heq).symm.trans ho')
        ((Finmap.lookup_insert_of_ne _ heq).symm.trans hfree)
  · intro o' ho' hbusy
    by_cases heq : o' = o
    · rwa [heq]
    · exact h.busy o' ((hmem o').mp ho') ((Finmap.lookup_insert_of_ne _ heq).symm.trans hbusy)
  · intro o' object' ho'
    rcases lookup_insert_cases ho' with ⟨rfl, rfl⟩ | ⟨-, ho'⟩
    · exact ⟨(h.mutexes o' object hobject).1, Finmap.mem_insert.mpr (.inl rfl)⟩
    · obtain ⟨hmutex, hin⟩ := h.mutexes o' object' ho'
      exact ⟨hmutex, Finmap.mem_insert.mpr (.inr hin)⟩

theorem references_insert_last (hp : s.pointers.lookup p = some ⟨some o, some o⟩) {o' : ℕ}
    (hne : o' ≠ o) : references (s.pointers.insert p .null) o' = references s.pointers o' := by
  have hsum := references_release hp o'
  rwa [if_neg hne, Nat.add_zero] at hsum

theorem Balanced.finish (h : Balanced w) (hp : w.pointers.lookup p = some ⟨some o, some o⟩)
    (hone : references w.pointers o = 1) (hempty : ∀ q, (o, q) ∉ w.stored) :
    Balanced (w.finish p o) := by
  have ho : o ∈ w.objects := h.live (target_of_lookup hp)
  have hnew : o ∉ w.deleted := fun hmem => (h.gone o hmem).2 ho
  refine ⟨?_, ?_, ?_, ?_, ?_, ?_, ?_, ?_, ?_, h.single⟩
  · intro o' object' ho' hfree
    obtain ⟨hne, ho'⟩ := lookup_erase_some ho'
    refine (h.counts o' object' ho' (lookup_erase_some hfree).2).trans ?_
    exact congrArg Nat.cast (references_insert_last hp hne).symm
  · intro o' ho' hbusy
    obtain ⟨hne, ho'⟩ := Finmap.mem_erase.mp ho'
    exact (references_insert_last hp hne).trans (h.busy o' ho' (lookup_erase_some hbusy).2)
  · intro o' object' ho'
    obtain ⟨hne, ho'⟩ := lookup_erase_some ho'
    obtain ⟨hmutex, hin⟩ := h.mutexes o' object' ho'
    exact ⟨hmutex, Finmap.mem_erase.mpr ⟨hne, hin⟩⟩
  · intro q sp hq
    rcases lookup_insert_cases hq with ⟨rfl, rfl⟩ | ⟨hqp, hold⟩
    · exact .inl rfl
    · rcases h.pointers q sp hold with hsp | ⟨o', rfl, hmem⟩
      · exact .inl hsp
      · refine .inr ⟨o', rfl, Finmap.mem_erase.mpr ⟨?_, hmem⟩⟩
        rintro rfl
        exact hqp (eq_of_references_one hone (target_of_lookup hold) (target_of_lookup hp))
  · intro o' ho'
    exact h.below o' (Finmap.mem_erase.mp ho').2
  · intro o' ho'
    rcases List.mem_append.mp ho' with ho' | ho'
    · obtain ⟨hlt, hdead⟩ := h.gone o' ho'
      exact ⟨hlt, fun hmem => hdead (Finmap.mem_erase.mp hmem).2⟩
    · obtain rfl := List.mem_singleton.mp ho'
      exact ⟨h.below o' ho, fun hmem => (Finmap.mem_erase.mp hmem).1 rfl⟩
  · have hconcat := h.once.concat hnew
    rwa [List.concat_eq_append] at hconcat
  · exact congrArg (· ++ [o]) h.freed
  · intro o' q hq
    obtain ⟨ho', hin⟩ := h.inside o' q hq
    refine ⟨Finmap.mem_erase.mpr ⟨?_, ho'⟩, Finmap.mem_insert.mpr (.inr hin)⟩
    rintro rfl
    exact hempty q hq

theorem Balanced.share (h : Balanced w) (hp : w.pointers.lookup p = some ⟨some o, some o⟩)
    (hobject : w.objects.lookup o = some object) (hfree : w.mutexes.lookup o = some false) :
    Balanced { w with
      objects := w.objects.insert o { object with refCount := object.refCount - 1 }
      pointers := w.pointers.insert p .null } := by
  have hcount := h.counts o object hobject hfree
  have hmem := mem_insert_of_lookup hobject { object with refCount := object.refCount - 1 }
  refine h.recount hmem ?_ (fun _ hq => Finmap.mem_insert.mpr (.inr hq)) ?_ ?_ ?_
  · intro q sp hq
    exact (lookup_insert_cases hq).imp And.right And.right
  · intro o' object' ho' hfree'
    rcases lookup_insert_cases ho' with ⟨rfl, rfl⟩ | ⟨hne, ho'⟩
    · have hsum := references_release hp o'
      rw [if_pos rfl] at hsum
      change object.refCount - 1 = (references (w.pointers.insert p .null) o' : ℤ)
      omega
    · exact (h.counts o' object' ho' hfree').trans
        (congrArg Nat.cast (references_insert_last hp hne).symm)
  · intro o' ho' hbusy
    have hne : o' ≠ o := by
      rintro rfl
      cases hfree.symm.trans hbusy
    exact (references_insert_last hp hne).trans (h.busy o' ((hmem o').mp ho') hbusy)
  · intro o' object' ho'
    rcases lookup_insert_cases ho' with ⟨rfl, rfl⟩ | ⟨-, ho'⟩
    · exact h.mutexes o' object hobject
    · exact h.mutexes o' object' ho'

theorem Balanced.forget (h : Balanced w) (hp : w.pointers.lookup p = some .null) :
    Balanced (w.forget p) := by
  have hrefs : ∀ o, references (w.pointers.erase p) o = references w.pointers o := by
    intro o
    have herase := references_erase w.pointers p o
    rw [valueAt_of_lookup .null hp] at herase
    exact herase
  refine ⟨?_, ?_, h.mutexes, ?_, h.below, h.gone, h.once, h.freed, ?_, ?_⟩
  · intro o object ho hfree
    exact (h.counts o object ho hfree).trans (congrArg Nat.cast (hrefs o).symm)
  · intro o ho hbusy
    exact (hrefs o).trans (h.busy o ho hbusy)
  · intro q sp hq
    exact h.pointers q sp (lookup_erase_some hq).2
  · intro o q hq
    obtain ⟨hin, hne⟩ := List.mem_filter.mp hq
    obtain ⟨ho, hmem⟩ := h.inside o q hin
    exact ⟨ho, Finmap.mem_erase.mpr ⟨of_decide_eq_true hne, hmem⟩⟩
  · exact h.single.sublist (List.filter_sublist.map Prod.snd)

theorem Balanced.shrinks_forget (h : Balanced w) (hp : w.pointers.lookup p = some .null) :
    Shrinks (· = p) w (w.forget p) := by
  refine ⟨fun o ho => ⟨ho, rfl⟩, fun o ho _ => ho, ?_, ?_, ?_, ?_, ?_⟩
  · intro q hq
    exact .inl (Finmap.lookup_erase_ne hq)
  · rintro q rfl
    exact target_of_notMem fun hmem => (Finmap.mem_erase.mp hmem).1 rfl
  · intro q hq
    exact (Finmap.mem_erase.mp hq).2
  · apply List.filter_congr
    intro a ha
    apply decide_eq_decide.mpr
    exact (Finmap.mem_erase.trans (and_iff_left (h.inside a.1 a.2 ha).2)).symm
  · intro o _ hpos
    have herase := references_erase w.pointers p o
    rw [valueAt_of_lookup .null hp] at herase
    change 0 < references (w.pointers.erase p) o
    rwa [show references (w.pointers.erase p) o = references w.pointers o from herase]

def Releases (release : World → ℕ → Option World) : Prop :=
  ∀ w p v, Balanced w → release w p = some v →
    Balanced v ∧ Shrinks (· = p) w v ∧ v.pointers.lookup p = some .null

theorem Releases.destruct (hspec : Releases (World.release fuel)) (h : Balanced w)
    (hrun : w.destruct fuel p = some v) : Balanced v ∧ Shrinks (· = p) w v ∧ p ∉ v.pointers := by
  obtain ⟨u, hu, rfl⟩ := Option.map_eq_some_iff.mp hrun
  obtain ⟨hbal, hshrinks, hnull⟩ := hspec w p u h hu
  refine ⟨hbal.forget hnull, ?_, fun hmem => (Finmap.mem_erase.mp hmem).1 rfl⟩
  have hboth := hshrinks.trans (hbal.shrinks_forget hnull)
  simp only [or_self] at hboth
  exact hboth

theorem Releases.exec_destruct (hspec : Releases (World.release fuel)) (h : Balanced w)
    {ps : List ℕ} (hrun : exec (fun w p => w.destruct fuel p) w ps = some v) :
    Balanced v ∧ Shrinks (· ∈ ps) w v ∧ ∀ p ∈ ps, p ∉ v.pointers := by
  induction ps generalizing w with
  | nil =>
    obtain rfl := Option.some.inj hrun
    exact ⟨h, h.shrinks_self fun p hp => absurd hp List.not_mem_nil,
      fun p hp => absurd hp List.not_mem_nil⟩
  | cons p ps ih =>
    obtain ⟨u, hu, hrest⟩ := exec_cons_iff.mp hrun
    obtain ⟨hbal, hshrinks, hgone⟩ := hspec.destruct h hu
    obtain ⟨hbal', hshrinks', hgone'⟩ := ih hbal hrest
    refine ⟨hbal', ?_, ?_⟩
    · have hboth := hshrinks.trans hshrinks'
      simp only [← List.mem_cons] at hboth
      exact hboth
    · intro q hq
      rcases List.mem_cons.mp hq with rfl | hq
      · exact fun hmem => hgone (hshrinks'.older q hmem)
      · exact hgone' q hq

theorem Balanced.shrinks_share (h : Balanced w) (hp : w.pointers.lookup p = some ⟨some o, some o⟩)
    (hobject : w.objects.lookup o = some object) (hfree : w.mutexes.lookup o = some false)
    (hcount : object.refCount ≠ 1) :
    Shrinks (· = p) w { w with
      objects := w.objects.insert o { object with refCount := object.refCount - 1 }
      pointers := w.pointers.insert p .null } := by
  have hmem := mem_insert_of_lookup hobject { object with refCount := object.refCount - 1 }
  refine ⟨?_, ?_, ?_, ?_, ?_, ?_, ?_⟩
  · intro o' ho'
    exact ⟨(hmem o').mp ho', rfl⟩
  · intro o' ho' _
    exact (hmem o').mpr ho'
  · intro q hq
    exact .inl (Finmap.lookup_insert_of_ne _ hq)
  · rintro q rfl
    exact target_emptied rfl
  · intro q hq
    exact (mem_insert_of_lookup hp .null q).mp hq
  · apply Eq.symm
    apply List.filter_eq_self.mpr
    intro a ha
    exact decide_eq_true (Finmap.mem_insert.mpr (.inr (h.inside a.1 a.2 ha).2))
  · intro o' _ hpos
    have hsum := references_release hp o'
    have hold := h.counts o object hobject hfree
    change 0 < references (w.pointers.insert p .null) o'
    by_cases heq : o' = o
    · subst heq
      rw [if_pos rfl] at hsum
      omega
    · rw [if_neg heq] at hsum
      omega

theorem Shrinks.finish (hp : w.pointers.lookup p = some ⟨some o, some o⟩)
    (hobject : w.objects.lookup o = some object) (hfree : w.mutexes.lookup o = some false)
    (hone : references w.pointers o = 1)
    (hshrinks : Shrinks (· ∈ w.members o) (w.lastHeld o object) u)
    (hgone : ∀ q ∈ w.members o, q ∉ u.pointers)
    (hpu : u.pointers.lookup p = some ⟨some o, some o⟩) : Shrinks (· = p) w (u.finish p o) := by
  have hmem := mem_insert_of_lookup hobject { object with refCount := 0 }
  have hmemp := mem_insert_of_lookup hpu .null
  have hmember : ∀ q, q ∈ w.members o → w.Goes (· = p) q := by
    intro q hq
    apply World.Goes.within (World.mem_members.mp hq) (target_of_lookup hp)
    intro q' hq'
    exact .given (eq_of_references_one hone hq' (target_of_lookup hp))
  have hgoes : ∀ q, (w.lastHeld o object).Goes (· ∈ w.members o) q → w.Goes (· = p) q := by
    intro q hq
    exact Ownership.Goes.lift hq (fun _ _ hin => hin) (fun _ _ href => href)
      (fun _ _ href => .inl href) hmember
  refine ⟨?_, ?_, ?_, ?_, ?_, ?_, ?_⟩
  · intro o' ho'
    obtain ⟨hne, ho'⟩ := Finmap.mem_erase.mp ho'
    obtain ⟨hin, hmutex⟩ := hshrinks.objects o' ho'
    refine ⟨(hmem o').mp hin, ?_⟩
    calc (u.mutexes.erase o).lookup o' = u.mutexes.lookup o' := Finmap.lookup_erase_ne hne
      _ = (w.mutexes.insert o true).lookup o' := hmutex
      _ = w.mutexes.lookup o' := Finmap.lookup_insert_of_ne _ hne
  · intro o' ho' hlocked
    have hne : o' ≠ o := by
      rintro rfl
      cases hfree.symm.trans hlocked
    apply Finmap.mem_erase.mpr ⟨hne, ?_⟩
    exact hshrinks.locked o' ((hmem o').mpr ho') ((Finmap.lookup_insert_of_ne _ hne).trans hlocked)
  · intro q hq
    have hsame : (u.pointers.insert p .null).lookup q = u.pointers.lookup q :=
      Finmap.lookup_insert_of_ne _ hq
    by_cases hin : q ∈ w.members o
    · refine .inr ⟨mt (hmemp q).mp (hgone q hin), hmember q hin, o, World.mem_members.mp hin, ?_⟩
      exact fun ho => (Finmap.mem_erase.mp ho).1 rfl
    · rcases hshrinks.kept q hin with hkept | ⟨hnot, hgo, o', hstored, hdead⟩
      · exact .inl (hsame.trans hkept)
      · exact .inr ⟨mt (hmemp q).mp hnot, hgoes q hgo, o', hstored,
          fun ho => hdead (Finmap.mem_erase.mp ho).2⟩
  · rintro q rfl
    exact target_emptied rfl
  · intro q hq
    exact hshrinks.older q ((hmemp q).mp hq)
  · refine hshrinks.stored.trans ?_
    apply List.filter_congr
    intro a _
    exact decide_eq_decide.mpr (hmemp a.2).symm
  · intro o' ho' hpos
    obtain ⟨hne, ho'⟩ := Finmap.mem_erase.mp ho'
    change 0 < references (u.pointers.insert p .null) o'
    rw [references_insert_last hpu hne]
    exact hshrinks.held o' ho' hpos

theorem Releases.last (hspec : Releases (World.release fuel)) (h : Balanced w)
    (hp : w.pointers.lookup p = some ⟨some o, some o⟩)
    (hobject : w.objects.lookup o = some object) (hone : references w.pointers o = 1)
    (hrun : exec (fun w p => w.destruct fuel p) (w.lastHeld o object) (w.members o) = some u) :
    Balanced u ∧ Shrinks (· ∈ w.members o) (w.lastHeld o object) u ∧
      (∀ q ∈ w.members o, q ∉ u.pointers) ∧
      u.pointers.lookup p = some ⟨some o, some o⟩ ∧ references u.pointers o = 1 ∧
      u.letGo p o = some (u.finish p o) := by
  have hlast := h.lastHeld hobject hone
  have hbusy : (w.lastHeld o object).mutexes.lookup o = some true := Finmap.lookup_insert _
  have hin : o ∈ (w.lastHeld o object).objects := Finmap.mem_insert.mpr (.inl rfl)
  obtain ⟨hbal, hshrinks, hgone⟩ := hspec.exec_destruct hlast hrun
  have hpu := hshrinks.lookup_busy hlast hbal hin hbusy hp
  have hou := hshrinks.locked o hin hbusy
  have hmu := (hshrinks.objects o hou).2.trans hbusy
  exact ⟨hbal, hshrinks, hgone, hpu, hbal.busy o hou hmu, World.letGo_eq hpu hmu hou⟩

theorem releases (fuel : ℕ) : Releases (World.release fuel) := by
  induction fuel with
  | zero =>
    intro w p v _ hrun
    cases hrun
  | succ fuel ih =>
    intro w p v h hrun
    obtain ⟨sp, hsp⟩ : ∃ sp, w.pointers.lookup p = some sp := by
      unfold World.release at hrun
      obtain ⟨sp, hsp, -⟩ := Option.bind_eq_some_iff.mp hrun
      exact ⟨sp, hsp⟩
    rcases h.pointers p sp hsp with rfl | ⟨o, rfl, ho⟩
    · rw [World.release_null hsp rfl] at hrun
      obtain rfl := Option.some.inj hrun
      refine ⟨h, h.shrinks_self ?_, hsp⟩
      rintro q rfl
      exact target_of_lookup hsp
    · obtain ⟨object, hobject⟩ := Finmap.mem_iff.mp ho
      obtain ⟨locked, hm⟩ := Finmap.mem_iff.mp (h.mutexes o object hobject).2
      cases locked with
      | true =>
        rw [World.release_locked hsp hm] at hrun
        cases hrun
      | false =>
        have hold := h.counts o object hobject hm
        by_cases hcount : object.refCount = 1
        · have hone : references w.pointers o = 1 := by omega
          rw [World.release_last hsp hm hobject hcount] at hrun
          obtain ⟨u, hu, hrest⟩ := Option.bind_eq_some_iff.mp hrun
          obtain ⟨hbal, hshrinks, hgone, hpu, honeu, hletGo⟩ := ih.last h hsp hobject hone hu
          rw [hletGo] at hrest
          obtain rfl := Option.some.inj hrest
          refine ⟨hbal.finish hpu honeu ?_, ?_, Finmap.lookup_insert _⟩
          · intro q hq
            obtain ⟨hstored, hmem⟩ := hshrinks.mem_stored.mp hq
            exact hgone q (World.mem_members.mpr hstored) hmem
          · exact Shrinks.finish hsp hobject hm hone hshrinks hgone hpu
        · rw [World.release_shared hsp hm hobject hcount] at hrun
          obtain rfl := Option.some.inj hrun
          exact ⟨h.share hsp hobject hm, h.shrinks_share hsp hobject hm hcount,
            Finmap.lookup_insert _⟩

end AnalysisPrograms.RefCount
