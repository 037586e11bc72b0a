import AnalysisPrograms.RefCount.Cascade

namespace AnalysisPrograms.RefCount

open Foundations FiniteMap Execution

variable {s t u : State} {p other tmp o : ℕ} {object : Object} {sp : SmartPointer}

theorem Sound.alone (h : Sound s) : Balanced ⟨s, []⟩ :=
  h.balanced (fun _ _ hin => absurd hin List.not_mem_nil) List.nodup_nil

theorem Sound.unlocked (h : Sound s) (ho : o ∈ s.objects) : s.mutexes.lookup o = some false := by
  obtain ⟨object, hobject⟩ := Finmap.mem_iff.mp ho
  exact (h.mutexes o object hobject).2

theorem sound_release_last (h : Sound s) (hp : s.pointers.lookup p = some ⟨some o, some o⟩)
    (hlast : references s.pointers o = 1) :
    Sound { s with
      objects := s.objects.erase o
      mutexes := s.mutexes.erase o
      pointers := s.pointers.insert p .null
      deleted := s.deleted ++ [o]
      freed := s.freed ++ [o] } := by
  obtain ⟨object, hobject⟩ := Finmap.mem_iff.mp (h.live hp rfl)
  have hfinish := (h.alone.lastHeld hobject hlast).finish hp hlast fun q hq =>
    absurd hq List.not_mem_nil
  simp only [World.finish, World.lastHeld, erase_insert] at hfinish
  apply hfinish.sound
  intro o' ho'
  obtain ⟨hne, ho'⟩ := Finmap.mem_erase.mp ho'
  exact (Finmap.lookup_erase_ne hne).trans (h.unlocked ho')

theorem sound_release_shared (h : Sound s) (hp : s.pointers.lookup p = some ⟨some o, some o⟩)
    (hobject : s.objects.lookup o = some object) :
    Sound { s with
      objects := s.objects.insert o { object with refCount := object.refCount - 1 }
      pointers := s.pointers.insert p .null } := by
  apply (h.alone.share hp hobject (h.unlocked (h.live hp rfl))).sound
  intro o' ho'
  exact h.unlocked ((mem_insert_of_lookup hobject _ o').mp ho')

theorem sound_release (h : Sound s) (hp : p ∈ s.pointers) :
    ∃ t, s.release p = some t ∧ Sound t ∧ LetsGo s t ∧ t.pointers = s.pointers.insert p .null ∧
      t.next = s.next := by
  obtain ⟨sp, hsp⟩ := Finmap.mem_iff.mp hp
  rcases h.pointers p sp hsp with rfl | ⟨o, rfl, ho⟩
  · exact ⟨s, release_null hsp rfl, h, letsGo_refl s, (insert_of_lookup hsp).symm, rfl⟩
  · obtain ⟨object, hobject⟩ := Finmap.mem_iff.mp ho
    obtain ⟨-, hfree⟩ := h.mutexes o object hobject
    have hcount := h.counts o object hobject
    have hrefs := references_release hsp
    have hnew : o ∉ s.deleted := fun hmem => (h.gone o hmem).2 ho
    by_cases hlast : references s.pointers o = 1
    · refine ⟨_, release_last hsp hfree hobject (by omega), sound_release_last h hsp hlast, ?_,
        rfl, rfl⟩
      intro o'
      have hsum := hrefs o'
      change o' ∈ s.deleted ++ [o] ∧ _ ↔ 0 < _ ∧ references (s.pointers.insert p .null) o' = 0
      by_cases ho' : o' = o
      · subst ho'
        rw [if_pos rfl] at hsum
        have hzero : references (s.pointers.insert p .null) o' = 0 := by omega
        simp only [List.mem_append, List.mem_singleton, or_true, hnew, not_false_eq_true,
          hlast, hzero, Nat.zero_lt_one, and_self]
      · rw [if_neg ho'] at hsum
        constructor
        · rintro ⟨hin, hout⟩
          rcases List.mem_append.mp hin with hin | hin
          · exact absurd hin hout
          · exact absurd (List.mem_singleton.mp hin) ho'
        · rintro ⟨hpos, hzero⟩
          omega
    · refine ⟨_, release_shared hsp hfree hobject (by omega), sound_release_shared h hsp hobject,
        ?_, rfl, rfl⟩
      intro o'
      have hsum := hrefs o'
      change o' ∈ s.deleted ∧ _ ↔ 0 < _ ∧ references (s.pointers.insert p .null) o' = 0
      constructor
      · rintro ⟨hin, hout⟩
        exact absurd hin hout
      · rintro ⟨hpos, hzero⟩
        by_cases ho' : o' = o
        · subst ho'
          rw [if_pos rfl] at hsum
          omega
        · rw [if_neg ho'] at hsum
          omega

theorem valueAt_null_of_notMem (hp : p ∉ s.pointers) : valueAt s.pointers .null p = .null :=
  valueAt_of_notMem .null hp

theorem Sound.samePointers (h : Sound s) {pointers : Map ℕ SmartPointer}
    (hrefs : ∀ o, references pointers o = references s.pointers o)
    (hvalues : ∀ q sp, pointers.lookup q = some sp → sp = .null ∨ s.pointers.lookup q = some sp) :
    Sound { s with pointers := pointers } := by
  refine ⟨?_, ?_, h.mutexes, h.below, h.gone, h.once, h.freed⟩
  · intro o object ho
    exact (h.counts o object ho).trans (congrArg Nat.cast (hrefs o).symm)
  · intro q sp hq
    rcases hvalues q sp hq with hnull | hold
    · exact .inl hnull
    · exact h.pointers q sp hold

theorem LetsGo.samePointers_left {pointers : Map ℕ SmartPointer}
    (hrefs : ∀ o, references pointers o = references s.pointers o)
    (h : LetsGo { s with pointers := pointers } t) : LetsGo s t := by
  intro o
  rw [← hrefs o]
  exact h o

theorem references_insert_null (hnull : valueAt s.pointers .null p = .null) (o : ℕ) :
    references (s.pointers.insert p .null) o = references s.pointers o := by
  have hinsert := references_insert s.pointers p .null o
  rw [hnull] at hinsert
  omega

theorem sound_setNull (h : Sound s) (hp : p ∉ s.pointers) : Sound (s.setPointer p .null) := by
  apply h.samePointers (references_insert_null (valueAt_null_of_notMem hp))
  intro q sp hq
  rcases lookup_insert_cases hq with ⟨-, rfl⟩ | ⟨-, hq⟩
  · exact .inl rfl
  · exact .inr hq

theorem sound_assign (h : Sound s) (hp : p ∈ s.pointers) (hother : other ∈ s.pointers) :
    ∃ t, s.assign p other = some t ∧ Sound t ∧ LetsGo s t ∧
      t.pointers = s.pointers.insert p (valueAt (s.pointers.insert p .null) .null other) := by
  obtain ⟨u, hu, hsound, hgo, hpointers, -⟩ := sound_release h hp
  have hmem : other ∈ u.pointers := by
    rw [hpointers]
    exact Finmap.mem_insert.mpr (.inr hother)
  obtain ⟨sp, hsp⟩ := Finmap.mem_iff.mp hmem
  have hnull : valueAt u.pointers .null p = .null := by
    rw [hpointers, valueAt_insert, if_pos rfl]
  rw [← hpointers, valueAt_of_lookup .null hsp]
  rcases hsound.pointers other sp hsp with rfl | ⟨o, rfl, ho⟩
  · refine ⟨u, ?_, hsound, hgo, hpointers⟩
    simp only [State.assign, hu, hsp, SmartPointer.null, Option.bind_eq_bind, Option.bind_some]
  · obtain ⟨t, ht, hsound', hgrows, htake⟩ := sound_take hsound hnull ho
    refine ⟨t, ?_, hsound', hgo.grows hgrows hsound', ?_⟩
    · simp only [State.assign, hu, hsp, Option.bind_eq_bind, Option.bind_some, ht]
    · rw [htake, hpointers, Finmap.insert_insert]

theorem sound_copyConstruct (h : Sound s) (hp : p ∉ s.pointers) (hother : other ∈ s.pointers) :
    ∃ t, s.copyConstruct p other = some t ∧ Sound t ∧ LetsGo s t := by
  obtain ⟨t, ht, hsound, hgo, -⟩ :=
    sound_assign (sound_setNull h hp) (Finmap.mem_insert.mpr (.inl rfl))
      (Finmap.mem_insert.mpr (.inr hother))
  refine ⟨t, ?_, hsound, hgo.samePointers_left (references_insert_null (valueAt_null_of_notMem hp))⟩
  unfold State.copyConstruct
  rw [if_neg hp, ht]

theorem sound_construct (h : Sound s) (hp : p ∉ s.pointers) {obj : Option ℕ}
    (hobj : ∀ o ∈ obj, ∃ object ∈ s.objects.lookup o, object.castable = true) :
    ∃ t, s.construct p obj = some t ∧ Sound t ∧ LetsGo s t := by
  unfold State.construct
  rw [if_neg hp]
  cases obj with
  | none =>
    refine ⟨_, rfl, sound_setNull h hp, (letsGo_refl s).grows ⟨rfl, ?_⟩ (sound_setNull h hp)⟩
    intro o
    exact (references_insert_null (valueAt_null_of_notMem hp) o).ge
  | some o =>
    obtain ⟨object, hobject, hcast⟩ := hobj o rfl
    obtain ⟨hmutex, -⟩ := h.mutexes o object hobject
    obtain ⟨t, ht, hsound, hgrows, -⟩ :=
      sound_take h (valueAt_null_of_notMem hp) (Finmap.mem_iff.mpr ⟨object, hobject⟩)
    refine ⟨t, ?_, hsound, (letsGo_refl s).grows hgrows hsound⟩
    have hlookup : s.objects.lookup o = some object := hobject
    simp only [hlookup, hcast, hmutex, Option.bind_eq_bind, Option.bind_some, Bool.not_true,
      Bool.false_eq_true, if_false, ht]

theorem sound_destruct (h : Sound s) (hp : p ∈ s.pointers) :
    ∃ t, s.destruct p = some t ∧ Sound t ∧ LetsGo s t := by
  obtain ⟨u, hu, hsound, hgo, hpointers, -⟩ := sound_release h hp
  have hnull : u.pointers.lookup p = some .null := by
    rw [hpointers]
    exact Finmap.lookup_insert _
  have hrefs : ∀ o, references (u.pointers.erase p) o = references u.pointers o := by
    intro o
    have herase := references_erase u.pointers p o
    rw [valueAt_of_lookup .null hnull] at herase
    exact herase
  have hsound' : Sound { u with pointers := u.pointers.erase p } := by
    apply hsound.samePointers hrefs
    intro q sp hq
    exact .inr (lookup_erase_some hq).2
  refine ⟨_, ?_, hsound', hgo.grows ⟨rfl, fun o => (hrefs o).ge⟩ hsound'⟩
  simp only [State.destruct, hu, Option.bind_eq_bind, Option.bind_some]

theorem copyConstruct_eq (htmp : tmp ∉ s.pointers)
    (hother : s.pointers.lookup other = some ⟨some o, some o⟩)
    (hfree : s.mutexes.lookup o = some false) (hobject : s.objects.lookup o = some object) :
    s.copyConstruct tmp other =
      some { s with
        objects := s.objects.insert o { object with refCount := object.refCount + 1 }
        pointers := s.pointers.insert tmp ⟨some o, some o⟩ } := by
  have hne : other ≠ tmp := by
    rintro rfl
    exact htmp (Finmap.mem_iff.mpr ⟨_, hother⟩)
  have hrelease : (s.setPointer tmp .null).release tmp = some (s.setPointer tmp .null) :=
    release_null (Finmap.lookup_insert _) rfl
  have hsource : (s.setPointer tmp .null).pointers.lookup other = some ⟨some o, some o⟩ :=
    (Finmap.lookup_insert_of_ne _ hne).trans hother
  unfold State.copyConstruct State.assign
  rw [if_neg htmp, hrelease, Option.bind_eq_bind, Option.bind_some, hsource, Option.bind_eq_bind,
    Option.bind_some]
  have hretain : ((s.setPointer tmp .null).setPointer tmp ⟨some o, some o⟩).retain tmp = _ :=
    retain_eq (Finmap.lookup_insert _) hfree hobject
  refine hretain.trans ?_
  simp only [State.setPointer, Finmap.insert_insert]

theorem copyObject_eq (h : Sound s) (hp : p ∈ s.pointers) (htmp : tmp ∉ s.pointers)
    (hother : s.pointers.lookup other = some ⟨some o, some o⟩)
    (hobject : s.objects.lookup o = some object) :
    s.copyObject p other tmp =
      ((s.newObject object.castable).setPointer p ⟨some s.next, some s.next⟩).retain p := by
  obtain ⟨-, hfree⟩ := h.mutexes o object hobject
  have hcount := h.counts o object hobject
  have hpos := references_pos hother rfl
  have hnext : o ≠ s.next := Nat.ne_of_lt (h.below o (Finmap.mem_iff.mpr ⟨object, hobject⟩))
  have htp : tmp ≠ p := by
    rintro rfl
    exact htmp hp
  have hobjects :
    ((s.objects.insert o { object with refCount := object.refCount + 1 }).insert s.next
      ⟨0, s.next, object.castable⟩).insert o { object with refCount := object.refCount + 1 - 1 } =
        s.objects.insert s.next ⟨0, s.next, object.castable⟩ := by
    have hsame : { object with refCount := object.refCount + 1 - 1 } = object := by
      rw [Int.add_sub_cancel]
    rw [hsame, Finmap.insert_insert_of_ne _ hnext, Finmap.insert_insert,
      insert_of_lookup ((Finmap.lookup_insert_of_ne _ hnext).trans hobject)]
  have hpointers :
      (((s.pointers.insert tmp ⟨some o, some o⟩).insert p ⟨some s.next, none⟩).insert tmp
        .null).erase tmp = s.pointers.insert p ⟨some s.next, none⟩ := by
    have hfresh : tmp ∉ s.pointers.insert p ⟨some s.next, none⟩ := by
      intro hmem
      rcases Finmap.mem_insert.mp hmem with he | hmem
      · exact htp he
      · exact htmp hmem
    rw [Finmap.insert_insert_of_ne _ htp, erase_insert, erase_insert, erase_of_notMem hfresh]
  -- the temporary is one of two smart pointers to the object at least, so its end deletes nothing
  have hrelease := release_shared (s := (State.newObject { s with
      objects := s.objects.insert o { object with refCount := object.refCount + 1 }
      pointers := s.pointers.insert tmp ⟨some o, some o⟩ } object.castable).setPointer p
        ⟨some s.next, none⟩)
    (p := tmp) (o := o) (m := o)
    ((Finmap.lookup_insert_of_ne _ htp).trans (Finmap.lookup_insert _))
    ((Finmap.lookup_insert_of_ne _ hnext).trans hfree)
    ((Finmap.lookup_insert_of_ne _ hnext).trans (Finmap.lookup_insert _))
      (by change object.refCount + 1 ≠ 1; omega)
  unfold State.copyObject
  rw [copyConstruct_eq htmp hother hfree hobject]
  simp only [Option.bind_eq_bind, Option.bind_some, Finmap.lookup_insert, State.destruct, hrelease]
  simp only [State.newObject, State.setPointer, hobjects, hpointers, Finmap.lookup_insert,
    Finmap.insert_insert, Option.bind_some]

theorem sound_copy (h : Sound s) (hp : p ∈ s.pointers) (hother : other ∈ s.pointers)
    (htmp : tmp ∉ s.pointers) : ∃ t, s.copy p other tmp = some t ∧ Sound t ∧ LetsGo s t := by
  obtain ⟨u, hu, hsound, hgo, hpointers, -⟩ := sound_release h hp
  have hmem : ∀ q, q ∈ u.pointers ↔ q ∈ s.pointers := by
    obtain ⟨old, hold⟩ := Finmap.mem_iff.mp hp
    rw [hpointers]
    exact mem_insert_of_lookup hold .null
  have hnull : valueAt u.pointers .null p = .null := by
    rw [hpointers, valueAt_insert, if_pos rfl]
  obtain ⟨sp, hsp⟩ := Finmap.mem_iff.mp ((hmem other).mpr hother)
  rcases hsound.pointers other sp hsp with rfl | ⟨o, rfl, ho⟩
  · refine ⟨u, ?_, hsound, hgo⟩
    simp only [State.copy, hu, hsp, SmartPointer.null, Option.bind_eq_bind, Option.bind_some]
  · obtain ⟨object, hobject⟩ := Finmap.mem_iff.mp ho
    have hcopy := copyObject_eq hsound ((hmem p).mpr hp) (mt (hmem tmp).mp htmp) hsp hobject
    have hnew := sound_newObject hsound object.castable
    obtain ⟨t, ht, hsound', hgrows, -⟩ :=
      sound_take (o := u.next) hnew hnull (Finmap.mem_insert.mpr (.inl rfl))
    refine ⟨t, ?_, hsound', hgo.grows hgrows hsound'⟩
    simp only [State.copy, hu, hsp, Option.bind_eq_bind, Option.bind_some, hcopy, ht]

theorem sound_step {op : Op} (h : Sound s) (hop : wellFormed s op) :
    ∃ t, step s op = some t ∧ Sound t ∧ LetsGo s t := by
  cases op with
  | newObject castable =>
    have hsound := sound_newObject h castable
    exact ⟨_, rfl, hsound, (letsGo_refl s).grows ⟨rfl, fun _ => Nat.le_refl _⟩ hsound⟩
  | construct p obj => exact sound_construct h hop.1 hop.2
  | copyConstruct p other => exact sound_copyConstruct h hop.1 hop.2
  | assign p other =>
    obtain ⟨t, ht, hsound, hgo, -⟩ := sound_assign h hop.1 hop.2
    exact ⟨t, ht, hsound, hgo⟩
  | release p =>
    obtain ⟨t, ht, hsound, hgo, -⟩ := sound_release h hop
    exact ⟨t, ht, hsound, hgo⟩
  | copy p other tmp => exact sound_copy h hop.1 hop.2.1 hop.2.2
  | destruct p => exact sound_destruct h hop

theorem exec_sound {run : List Op} (h : Along step wellFormed start run) :
    ∃ s, exec step start run = some s ∧ Sound s :=
  exec_total_along Sound wellFormed
    (fun s op hs hop => by
      obtain ⟨t, ht, hsound, -⟩ := sound_step hs hop
      exact ⟨t, ht, hsound⟩)
    sound_start h

theorem references_counted (run : List Op) (h : Along step wellFormed start run) :
    (∀ done rest, run = done ++ rest → ∃ s, exec step start done = some s ∧ Counted s) ∧
      ∀ done op rest s, run = done ++ op :: rest → exec step start done = some s →
        ∃ t, step s op = some t ∧ LetsGo s t := by
  constructor
  · rintro done rest rfl
    obtain ⟨s, hs, hsound⟩ := exec_sound h.of_append
    exact ⟨s, hs, hsound.counted⟩
  · rintro done op rest s rfl hs
    obtain ⟨s', hs', hsound⟩ := exec_sound h.of_append
    obtain rfl := Option.some.inj (hs.symm.trans hs')
    obtain ⟨t, ht, -, hgo⟩ := sound_step hsound (h.next hs)
    exact ⟨t, ht, hgo⟩

instance decidableWellFormed (s : State) : ∀ op, Decidable (wellFormed s op)
  | .newObject _ => isTrue trivial
  | .construct _ _ | .copyConstruct _ _ | .assign _ _ | .copy _ _ _ =>
    inferInstanceAs (Decidable (_ ∧ _))
  | .release p | .destruct p => inferInstanceAs (Decidable (p ∈ s.pointers))

def severalOps : List Op :=
  [.newObject true, .construct 0 (some 0), .copyConstruct 1 0, .construct 2 none,
    .copy 2 1 7, .assign 0 0, .assign 1 2, .release 2, .destruct 1]

theorem severalOps_counted :
    Along step wellFormed start severalOps ∧
      (∀ done rest, severalOps = done ++ rest → ∃ s, exec step start done = some s ∧ Counted s) ∧
      ∀ done op rest s, severalOps = done ++ op :: rest → exec step start done = some s →
        ∃ t, step s op = some t ∧ LetsGo s t := by
  have hrun : Along step wellFormed start severalOps := by decide
  exact ⟨hrun, references_counted severalOps hrun⟩

end AnalysisPrograms.RefCount
