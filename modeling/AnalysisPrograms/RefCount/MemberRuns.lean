import AnalysisPrograms.RefCount.CascadeTotal
import AnalysisPrograms.RefCount.Runs

namespace AnalysisPrograms.RefCount

open Foundations FiniteMap Execution

variable {w u v : World} {s t : State} {gone : ℕ → Prop} {p other tmp o fuel : ℕ}
  {obj home : Option ℕ}
  {object : Object} {sp : SmartPointer}

structure Whole (w : World) : Prop where
  sound : Sound w.toState
  inside : ∀ o p, (o, p) ∈ w.stored → o ∈ w.objects ∧ p ∈ w.pointers
  single : (w.stored.map Prod.snd).Nodup

theorem whole_start : Whole World.start := by
  refine ⟨sound_start, ?_, List.nodup_nil⟩
  intro o p hin
  exact absurd hin List.not_mem_nil

theorem Whole.unlocked (h : Whole w) (ho : o ∈ w.objects) : w.mutexes.lookup o = some false :=
  h.sound.unlocked ho

theorem Whole.balanced (h : Whole w) : Balanced w := h.sound.balanced h.inside h.single

theorem Whole.shrink (h : Whole w) (hv : Balanced v) (hshrinks : Shrinks gone w v) : Whole v := by
  refine ⟨hv.sound ?_, hv.inside, hv.single⟩
  intro o ho
  obtain ⟨hin, hmutex⟩ := hshrinks.objects o ho
  exact hmutex.trans (h.unlocked hin)

theorem Whole.release (h : Whole w) (hrun : w.release fuel p = some v) :
    Whole v ∧ Shrinks (· = p) w v ∧ v.pointers.lookup p = some .null := by
  obtain ⟨hbal, hshrinks, hnull⟩ := releases fuel w p v h.balanced hrun
  exact ⟨h.shrink hbal hshrinks, hshrinks, hnull⟩

theorem Whole.destruct (h : Whole w) (hrun : w.destruct fuel p = some v) :
    Whole v ∧ Shrinks (· = p) w v := by
  obtain ⟨hbal, hshrinks, -⟩ := (releases fuel).destruct h.balanced hrun
  exact ⟨h.shrink hbal hshrinks, hshrinks⟩

theorem Whole.release_returns (h : Whole w) (hp : w.Outside p)
    (hfuel : w.objects.keys.card < fuel) : ∃ v, w.release fuel p = some v := by
  have hbal := h.balanced
  apply returns fuel w p hbal
  · intro q o hq hbusy
    cases (h.unlocked (hbal.live hq)).symm.trans hbusy
  · exact ⟨hp.1, fun o ho => h.unlocked (hbal.live ho),
      fun o hin => absurd (List.mem_map_of_mem hin) hp.2⟩
  · exact Nat.lt_of_le_of_lt (Finset.card_le_card (Finset.filter_subset _ _)) hfuel

theorem Whole.grow (h : Whole w) (ht : Sound t) (hobjects : ∀ o ∈ w.objects, o ∈ t.objects)
    (hpointers : ∀ p ∈ w.pointers, p ∈ t.pointers) : Whole { w with toState := t } := by
  refine ⟨ht, ?_, h.single⟩
  intro o p hin
  obtain ⟨ho, hp⟩ := h.inside o p hin
  exact ⟨hobjects o ho, hpointers p hp⟩

theorem Whole.newObject (h : Whole w) (castable : Bool) :
    Whole { w with toState := w.toState.newObject castable } := by
  apply h.grow (sound_newObject h.sound castable)
  · intro o ho
    exact Finmap.mem_insert.mpr (.inr ho)
  · intro p hp
    exact hp

theorem Whole.take (h : Whole w) (hnull : valueAt w.pointers .null p = .null) (ho : o ∈ w.objects) :
    ∃ t, (w.toState.setPointer p ⟨some o, some o⟩).retain p = some t ∧
      Whole { w with toState := t } ∧
      t.pointers = w.pointers.insert p ⟨some o, some o⟩ ∧ ∀ o ∈ w.objects, o ∈ t.objects := by
  obtain ⟨t, ht, hsound, -, hpointers⟩ := sound_take h.sound hnull ho
  obtain ⟨object, hobject⟩ := Finmap.mem_iff.mp ho
  have hretain : (w.toState.setPointer p ⟨some o, some o⟩).retain p = _ :=
    retain_eq (Finmap.lookup_insert _) (h.unlocked ho) hobject
  have hobjects : ∀ o ∈ w.objects, o ∈ t.objects := by
    obtain rfl := Option.some.inj (ht.symm.trans hretain)
    intro o' ho'
    exact Finmap.mem_insert.mpr (.inr ho')
  refine ⟨t, ht, h.grow hsound hobjects ?_, hpointers, hobjects⟩
  intro q hq
  rw [hpointers]
  exact Finmap.mem_insert.mpr (.inr hq)

theorem Whole.place (h : Whole w) (hp : p ∈ w.pointers) (hnew : ∀ o, (o, p) ∉ w.stored)
    (hrun : w.place p home = some v) : Whole v ∧ v.toState = w.toState := by
  cases home with
  | none =>
    obtain rfl := Option.some.inj hrun
    exact ⟨h, rfl⟩
  | some o =>
    simp only [World.place] at hrun
    by_cases ho : o ∈ w.objects
    · rw [if_pos ho] at hrun
      obtain rfl := Option.some.inj hrun
      refine ⟨⟨h.sound, ?_, ?_⟩, rfl⟩
      · intro o' q hin
        rcases List.mem_cons.mp hin with heq | hin
        · obtain ⟨rfl, rfl⟩ := Prod.mk.inj heq
          exact ⟨ho, hp⟩
        · exact h.inside o' q hin
      · refine List.nodup_cons.mpr ⟨?_, h.single⟩
        intro hmem
        obtain ⟨⟨o', q⟩, hin, rfl⟩ := List.mem_map.mp hmem
        exact hnew o' hin
    · rw [if_neg ho] at hrun
      cases hrun

theorem construct_inv (hrun : s.construct p obj = some t) :
    p ∉ s.pointers ∧ (obj = none ∧ t = s.setPointer p .null ∨
      ∃ o object, obj = some o ∧ s.objects.lookup o = some object ∧
        (s.setPointer p ⟨some o, some object.countMutex⟩).retain p = some t) := by
  unfold State.construct at hrun
  split at hrun
  · cases hrun
  · rename_i hp
    refine ⟨hp, ?_⟩
    cases obj with
    | none => exact .inl ⟨rfl, (Option.some.inj hrun).symm⟩
    | some o =>
      obtain ⟨object, hobject, hrest⟩ := Option.bind_eq_some_iff.mp hrun
      split at hrest
      · cases hrest
      · exact .inr ⟨o, object, rfl, hobject, hrest⟩

theorem Whole.construct (h : Whole w) (hrun : w.construct p obj home = some v) :
    Whole v ∧ p ∉ w.pointers ∧
      (∃ sp, v.pointers = w.pointers.insert p sp ∧ (obj = none → sp = .null)) ∧
      ∀ o ∈ w.objects, o ∈ v.objects := by
  obtain ⟨u, hu, hplace⟩ := Option.bind_eq_some_iff.mp hrun
  obtain ⟨t, ht, rfl⟩ := Option.map_eq_some_iff.mp hu
  obtain ⟨hp, hcases⟩ := construct_inv ht
  have hnew : ∀ o, (o, p) ∉ w.stored := fun o hin => hp (h.inside o p hin).2
  have hwhole : Whole { w with toState := t } ∧
    (∃ sp, t.pointers = w.pointers.insert p sp ∧ (obj = none → sp = .null)) ∧
      ∀ o ∈ w.objects, o ∈ t.objects := by
    rcases hcases with ⟨-, rfl⟩ | ⟨o, object, rfl, hobject, hretain⟩
    · refine ⟨h.grow (sound_setNull h.sound hp) (fun _ ho => ho) ?_, ⟨.null, rfl, fun _ => rfl⟩,
        fun _ ho => ho⟩
      intro q hq
      exact Finmap.mem_insert.mpr (.inr hq)
    · rw [(h.sound.mutexes o object hobject).1] at hretain
      obtain ⟨t', ht', hwhole, hpointers, hobjects⟩ :=
        h.take (valueAt_null_of_notMem hp) (Finmap.mem_iff.mpr ⟨object, hobject⟩)
      obtain rfl := Option.some.inj (ht'.symm.trans hretain)
      exact ⟨hwhole, ⟨_, hpointers, nofun⟩, hobjects⟩
  obtain ⟨hwhole, ⟨sp, hpointers, hnull⟩, hobjects⟩ := hwhole
  have hmem : p ∈ t.pointers := by
    rw [hpointers]
    exact Finmap.mem_insert.mpr (.inl rfl)
  obtain ⟨hv, hsame⟩ := hwhole.place hmem hnew hplace
  rw [hsame]
  exact ⟨hv, hp, ⟨sp, hpointers, hnull⟩, hobjects⟩

theorem Whole.assign (hu : w.release fuel p = some u) (h : Whole u)
    (hnull : u.pointers.lookup p = some .null) (hother : u.pointers.lookup other = some sp) :
    ∃ v, w.assign fuel p other = some v ∧ Whole v ∧ v.pointers = u.pointers.insert p sp ∧
      ∀ o ∈ u.objects, o ∈ v.objects := by
  unfold World.assign
  rcases h.sound.pointers other sp hother with rfl | ⟨o, rfl, ho⟩
  · refine ⟨u, ?_, h, (insert_of_lookup hnull).symm, fun _ ho => ho⟩
    simp only [hu, hother, SmartPointer.null, Option.bind_eq_bind, Option.bind_some]
  · obtain ⟨t, ht, hwhole, hpointers, hobjects⟩ := h.take (valueAt_of_lookup .null hnull) ho
    refine ⟨{ u with toState := t }, ?_, hwhole, hpointers, hobjects⟩
    simp only [hu, hother, World.lift, ht, Option.bind_eq_bind, Option.bind_some, Option.map_some]

theorem Whole.assigned (h : Whole w) (hrun : w.assign fuel p other = some v) :
    ∃ u sp, w.release fuel p = some u ∧ u.pointers.lookup other = some sp ∧ Whole v ∧
      v.pointers = u.pointers.insert p sp ∧ ∀ o ∈ u.objects, o ∈ v.objects := by
  obtain ⟨u, hu, hrest⟩ := Option.bind_eq_some_iff.mp hrun
  obtain ⟨sp, hsp, -⟩ := Option.bind_eq_some_iff.mp hrest
  obtain ⟨hwhole, -, hnull⟩ := h.release hu
  obtain ⟨v', hv', hwhole', hpointers, hobjects⟩ := Whole.assign hu hwhole hnull hsp
  obtain rfl := Option.some.inj (hv'.symm.trans hrun)
  exact ⟨u, sp, hu, hsp, hwhole', hpointers, hobjects⟩

theorem Whole.copyConstruct (h : Whole w) (hrun : w.copyConstruct fuel p other home = some v) :
    Whole v ∧ p ∉ w.pointers ∧ (∃ sp, v.pointers = w.pointers.insert p sp ∧
      (sp = .null ∨ other ≠ p ∧ w.pointers.lookup other = some sp)) ∧ ∀ o ∈ w.objects,
      o ∈ v.objects := by
  obtain ⟨u, hu, hassign⟩ := Option.bind_eq_some_iff.mp hrun
  obtain ⟨hwhole, hp, ⟨sp₀, hpointers₀, hnull⟩, hobjects₀⟩ := h.construct hu
  obtain rfl := hnull rfl
  obtain ⟨u', sp, hu', hsp, hwhole', hpointers, hobjects⟩ := hwhole.assigned hassign
  have hempty : u.pointers.lookup p = some .null := by
    rw [hpointers₀]
    exact Finmap.lookup_insert _
  cases fuel with
  | zero => cases hu'
  | succ fuel =>
    rw [World.release_null hempty rfl] at hu'
    obtain rfl := Option.some.inj hu'
    rw [hpointers₀] at hpointers hsp
    refine ⟨hwhole', hp, ⟨sp, hpointers.trans (Finmap.insert_insert _), ?_⟩,
      fun o ho => hobjects o (hobjects₀ o ho)⟩
    rcases lookup_insert_cases hsp with ⟨-, rfl⟩ | ⟨hne, hold⟩
    · exact .inl rfl
    · exact .inr ⟨hne, hold⟩

theorem Whole.exec_copyConstruct (h : Whole w) {copies : List (ℕ × ℕ)}
    (hrun : exec (fun w a => w.copyConstruct fuel a.1 a.2 (some o)) w copies = some v) :
    Whole v ∧ (∀ q ∈ w.pointers, v.pointers.lookup q = w.pointers.lookup q) ∧ ∀ o ∈ w.objects,
      o ∈ v.objects := by
  induction copies generalizing w with
  | nil =>
    obtain rfl := Option.some.inj hrun
    exact ⟨h, fun _ _ => rfl, fun _ ho => ho⟩
  | cons a copies ih =>
    obtain ⟨u, hu, hrest⟩ := exec_cons_iff.mp hrun
    obtain ⟨hwhole, hnew, ⟨sp, hpointers, -⟩, hobjects⟩ := h.copyConstruct hu
    obtain ⟨hwhole', hsame, hobjects'⟩ := ih hwhole hrest
    refine ⟨hwhole', ?_, fun o ho => hobjects' o (hobjects o ho)⟩
    intro q hq
    have hne : q ≠ a.1 := by
      rintro rfl
      exact hnew hq
    rw [hsame q (by rw [hpointers]; exact Finmap.mem_insert.mpr (.inr hq)), hpointers,
      Finmap.lookup_insert_of_ne _ hne]

theorem destruct_shared (hp : w.pointers.lookup p = some ⟨some o, some o⟩)
    (hm : w.mutexes.lookup o = some false) (ho : w.objects.lookup o = some object)
    (hcount : object.refCount ≠ 1) :
    w.destruct (fuel + 1) p =
      some { w with
        objects := w.objects.insert o { object with refCount := object.refCount - 1 }
        pointers := w.pointers.erase p
        stored := w.stored.filter fun a => a.2 ≠ p } := by
  unfold World.destruct
  rw [World.release_shared hp hm ho hcount, Option.map_some]
  unfold World.forget
  simp only [erase_insert]

theorem Whole.destruct_temporary (h : Whole w) {sp : SmartPointer} (hne : p ≠ tmp)
    (htmp : w.pointers.lookup tmp = some ⟨some o, some o⟩)
    (hother : w.pointers.lookup other = some ⟨some o, some o⟩) (hot : other ≠ tmp)
    (hrun : World.destruct { w with pointers := w.pointers.insert p sp } fuel tmp = some v) :
    ∃ u, w.destruct fuel tmp = some u ∧ v = { u with pointers := u.pointers.insert p sp } := by
  cases fuel with
  | zero => cases hrun
  | succ fuel =>
    have ho : o ∈ w.objects := h.sound.live htmp rfl
    obtain ⟨object, hobject⟩ := Finmap.mem_iff.mp ho
    have hcount : object.refCount ≠ 1 := by
      intro hone
      have hrefs := h.sound.counts o object hobject
      exact hot (eq_of_references_one (by omega) (target_of_lookup hother) (target_of_lookup htmp))
    rw [destruct_shared (w := { w with pointers := w.pointers.insert p sp })
      ((Finmap.lookup_insert_of_ne _ hne.symm).trans htmp) (h.unlocked ho) hobject hcount] at hrun
    refine ⟨_, destruct_shared htmp (h.unlocked ho) hobject hcount, ?_⟩
    obtain rfl := Option.some.inj hrun
    simp only [erase_insert_of_ne _ _ hne]

theorem Whole.copyObject (h : Whole w) {fresh : List ℕ} (hp : w.pointers.lookup p = some .null)
    (hrun : w.copyObject fuel p other tmp fresh = some v) : Whole v := by
  unfold World.copyObject at hrun
  simp only [Option.bind_eq_bind, Option.bind_eq_some_iff] at hrun
  obtain ⟨w₁, h₁, source, hsource, old, hold, object, hobject, hrest⟩ := hrun
  split at hrest
  · cases hrest
  · simp only [Option.bind_eq_some_iff] at hrest
    obtain ⟨w₂, h₂, w₃, h₃, w₄, h₄, w₅, h₅, object', hobject', h₆⟩ := hrest
    obtain ⟨hwhole₁, hnew, ⟨sp, hpointers₁, hsp⟩, -⟩ := h.copyConstruct h₁
    have hne : p ≠ tmp := by
      rintro rfl
      exact hnew (Finmap.mem_iff.mpr ⟨_, hp⟩)
    have hsource₁ : w₁.pointers.lookup tmp = some sp := by
      rw [hpointers₁]
      exact Finmap.lookup_insert _
    obtain rfl := Option.some.inj (hsource₁.symm.trans hsource)
    rcases hwhole₁.sound.pointers tmp sp hsource with rfl | ⟨o, rfl, -⟩
    · cases hold
    obtain rfl : o = old := Option.some.inj hold
    rcases hsp with hnull | ⟨hot, hother⟩
    · cases hnull
    have hother₁ : w₁.pointers.lookup other = some ⟨some o, some o⟩ := by
      rw [hpointers₁, Finmap.lookup_insert_of_ne _ hot, hother]
    have hp₁ : w₁.pointers.lookup p = some .null := by
      rw [hpointers₁, Finmap.lookup_insert_of_ne _ hne, hp]
    obtain ⟨s₂, hs₂, rfl⟩ := Option.map_eq_some_iff.mp h₂
    obtain rfl := Option.some.inj hs₂
    obtain ⟨hwhole₃, hsame, hobjects⟩ := (hwhole₁.newObject object.castable).exec_copyConstruct h₃
    have hlookup : ∀ q sp, w₁.pointers.lookup q = some sp → w₃.pointers.lookup q = some sp :=
      fun q sp hq =>
      (hsame q (Finmap.mem_iff.mpr ⟨sp, hq⟩)).trans hq
    obtain ⟨s₄, hs₄, rfl⟩ := Option.map_eq_some_iff.mp h₄
    obtain rfl := Option.some.inj hs₄
    obtain ⟨u, hu, rfl⟩ :=
      hwhole₃.destruct_temporary hne (hlookup tmp _ hsource) (hlookup other _ hother₁) hot h₅
    obtain ⟨hwhole, hshrinks⟩ := hwhole₃.destruct hu
    have hmutex := (hwhole.sound.mutexes _ object' hobject').1
    have hnull : valueAt u.pointers .null p = .null := by
      rcases hshrinks.kept p hne with hkept | ⟨hnot, -⟩
      · exact valueAt_of_lookup .null (hkept.trans (hlookup p _ hp₁))
      · exact valueAt_of_notMem .null hnot
    obtain ⟨t, ht, htake, -⟩ := hwhole.take hnull (Finmap.mem_iff.mpr ⟨object', hobject'⟩)
    obtain ⟨t', ht', rfl⟩ := Option.map_eq_some_iff.mp h₆
    simp only [State.setPointer, Finmap.insert_insert, hmutex] at ht ht'
    obtain rfl := Option.some.inj (ht.symm.trans ht')
    exact htake

theorem Whole.step (h : Whole w) {action : Action} (hrun : w.step fuel action = some v) :
    Whole v := by
  cases action with
  | newObject castable =>
    obtain rfl : { w with toState := w.toState.newObject castable } = v := Option.some.inj hrun
    exact h.newObject castable
  | construct p obj home => exact (h.construct hrun).1
  | copyConstruct p other home => exact (h.copyConstruct hrun).1
  | assign p other =>
    obtain ⟨u, sp, -, -, hwhole, -⟩ := h.assigned hrun
    exact hwhole
  | release p => exact (h.release hrun).1
  | copy p other tmp fresh =>
    obtain ⟨u, hu, hrest⟩ := Option.bind_eq_some_iff.mp hrun
    obtain ⟨sp, -, hcopy⟩ := Option.bind_eq_some_iff.mp hrest
    obtain ⟨hwhole, -, hnull⟩ := h.release hu
    split at hcopy
    · obtain rfl := Option.some.inj hcopy
      exact hwhole
    · exact hwhole.copyObject hnull hcopy
  | destruct p => exact (h.destruct hrun).1

theorem exec_whole {run : List Action} (hrun : exec (World.step fuel) World.start run = some w) :
    Whole w :=
  inv_exec Whole (fun _ _ => True) (fun _ _ _ h _ hstep => h.step hstep) whole_start
    (along_of_forall (fun _ _ => trivial) _) hrun

end AnalysisPrograms.RefCount
