import AnalysisPrograms.RefCount.Release

namespace AnalysisPrograms.RefCount

open Foundations FiniteMap Execution

variable {s t u : State} {p other tmp o : ℕ} {object : Object} {sp : SmartPointer}

structure Sound (s : State) : Prop where
  counts : ∀ o object, s.objects.lookup o = some object → object.refCount = references s.pointers o
  pointers : ∀ p sp, s.pointers.lookup p = some sp →
    sp = .null ∨ ∃ o, sp = ⟨some o, some o⟩ ∧ o ∈ s.objects
  mutexes : ∀ o object, s.objects.lookup o = some object →
    object.countMutex = o ∧ s.mutexes.lookup o = some false
  below : ∀ o ∈ s.objects, o < s.next
  gone : ∀ o ∈ s.deleted, o < s.next ∧ o ∉ s.objects
  once : s.deleted.Nodup
  freed : s.freed = s.deleted

theorem sound_start : Sound start := by
  refine ⟨?_, ?_, ?_, ?_, ?_, List.nodup_nil, rfl⟩
  · intro o object h
    simp [start] at h
  · intro p sp h
    simp [start] at h
  · intro o object h
    simp [start] at h
  · intro o h
    exact absurd h Finmap.notMem_empty
  · intro o h
    simp [start] at h

theorem Sound.live (h : Sound s) (hp : s.pointers.lookup p = some sp) (ho : sp.obj = some o) :
    o ∈ s.objects := by
  rcases h.pointers p sp hp with rfl | ⟨o', rfl, hmem⟩
  · cases ho
  · cases ho
    exact hmem

theorem Sound.counted (h : Sound s) : Counted s :=
  ⟨h.counts, fun _ _ _ => h.live, h.once, h.freed, fun o ho => (h.gone o ho).2⟩

theorem Sound.references_dead (h : Sound s) (ho : o ∉ s.objects) : references s.pointers o = 0 := by
  by_contra hne
  obtain ⟨p, sp, hp, hobj⟩ := exists_of_references (Nat.pos_of_ne_zero hne)
  exact ho (h.live hp hobj)

def Grows (s t : State) : Prop :=
  t.deleted = s.deleted ∧ ∀ o, references s.pointers o ≤ references t.pointers o

theorem letsGo_refl (s : State) : LetsGo s s := by
  intro o
  constructor
  · rintro ⟨hin, hout⟩
    exact absurd hin hout
  · rintro ⟨hpos, hzero⟩
    omega

theorem LetsGo.grows (h : LetsGo s u) (hg : Grows u t) (ht : Sound t) : LetsGo s t := by
  intro o
  constructor
  · rintro ⟨hin, hout⟩
    have hdead := (ht.gone o hin).2
    rw [hg.1] at hin
    exact ⟨((h o).mp ⟨hin, hout⟩).1, ht.references_dead hdead⟩
  · rintro ⟨hpos, hzero⟩
    have hle := hg.2 o
    rw [hg.1]
    exact (h o).mpr ⟨hpos, by omega⟩

theorem sound_newObject (h : Sound s) (castable : Bool) : Sound (s.newObject castable) := by
  have hfresh : s.next ∉ s.objects := fun hmem => Nat.lt_irrefl _ (h.below _ hmem)
  refine ⟨?_, ?_, ?_, ?_, ?_, h.once, h.freed⟩
  · intro o object ho
    rcases lookup_insert_cases ho with ⟨rfl, rfl⟩ | ⟨-, ho⟩
    · exact (congrArg Nat.cast (h.references_dead hfresh)).symm
    · exact h.counts o object ho
  · intro p sp hp
    rcases h.pointers p sp hp with hnull | ⟨o, hsp, hmem⟩
    · exact .inl hnull
    · exact .inr ⟨o, hsp, Finmap.mem_insert.mpr (.inr hmem)⟩
  · intro o object ho
    rcases lookup_insert_cases ho with ⟨rfl, rfl⟩ | ⟨hne, ho⟩
    · exact ⟨rfl, Finmap.lookup_insert _⟩
    · refine ⟨(h.mutexes o object ho).1, ?_⟩
      exact (Finmap.lookup_insert_of_ne _ hne).trans (h.mutexes o object ho).2
  · intro o ho
    rcases Finmap.mem_insert.mp ho with rfl | ho
    · exact Nat.lt_succ_self _
    · exact Nat.lt_succ_of_lt (h.below o ho)
  · intro o ho
    obtain ⟨hlt, hdead⟩ := h.gone o ho
    refine ⟨Nat.lt_succ_of_lt hlt, fun hmem => ?_⟩
    rcases Finmap.mem_insert.mp hmem with rfl | hmem
    · exact Nat.lt_irrefl _ hlt
    · exact hdead hmem

theorem Sound.recount {count : ℤ} (h : Sound s) (hobject : s.objects.lookup o = some object)
    (hsp : sp = .null ∨ ∃ o, sp = ⟨some o, some o⟩ ∧ o ∈ s.objects)
    (hcount : count = references (s.pointers.insert p sp) o)
    (hothers : ∀ o', o' ≠ o → references (s.pointers.insert p sp) o' = references s.pointers o') :
    Sound { s with
      objects := s.objects.insert o { object with refCount := count }
      pointers := s.pointers.insert p sp } := by
  have hmem := mem_insert_of_lookup hobject { object with refCount := count }
  refine ⟨?_, ?_, ?_, ?_, ?_, h.once, h.freed⟩
  · intro o' object' ho'
    rcases lookup_insert_cases ho' with ⟨rfl, rfl⟩ | ⟨hne, ho'⟩
    · exact hcount
    · exact (h.counts o' object' ho').trans (congrArg Nat.cast (hothers o' hne).symm)
  · intro q sp' hq
    simp only [hmem]
    rcases lookup_insert_cases hq with ⟨-, rfl⟩ | ⟨-, hq⟩
    · exact hsp
    · exact h.pointers q sp' hq
  · intro o' object' ho'
    rcases lookup_insert_cases ho' with ⟨rfl, rfl⟩ | ⟨-, ho'⟩
    · exact h.mutexes o' object hobject
    · exact h.mutexes o' object' ho'
  · intro o' ho'
    exact h.below o' ((hmem o').mp ho')
  · intro o' ho'
    obtain ⟨hlt, hdead⟩ := h.gone o' ho'
    exact ⟨hlt, mt (hmem o').mp hdead⟩

theorem sound_take (h : Sound s) (hnull : valueAt s.pointers .null p = .null) (ho : o ∈ s.objects) :
    ∃ t, (s.setPointer p ⟨some o, some o⟩).retain p = some t ∧ Sound t ∧ Grows s t ∧
      t.pointers = s.pointers.insert p ⟨some o, some o⟩ := by
  obtain ⟨object, hobject⟩ := Finmap.mem_iff.mp ho
  obtain ⟨-, hfree⟩ := h.mutexes o object hobject
  have hcount := h.counts o object hobject
  have hrefs : ∀ o', references (s.pointers.insert p ⟨some o, some o⟩) o' =
      references s.pointers o' + if o' = o then 1 else 0 := by
    intro o'
    have hinsert := references_insert s.pointers p ⟨some o, some o⟩ o'
    rw [hnull] at hinsert
    simp only [SmartPointer.null, Option.some.injEq, reduceCtorEq, if_false,
      Nat.add_zero] at hinsert
    rw [hinsert]
    simp only [eq_comm]
  refine ⟨_, retain_eq (Finmap.lookup_insert _) hfree hobject, ?_, ⟨rfl, ?_⟩, rfl⟩
  · apply h.recount hobject (.inr ⟨o, rfl, ho⟩)
    · rw [hrefs o, if_pos rfl, hcount]
      rfl
    · intro o' hne
      rw [hrefs o', if_neg hne, Nat.add_zero]
  · intro o'
    change references s.pointers o' ≤ references (s.pointers.insert p ⟨some o, some o⟩) o'
    rw [hrefs o']
    exact Nat.le_add_right _ _

theorem references_release (hp : s.pointers.lookup p = some ⟨some o, some o⟩) (o' : ℕ) :
    references (s.pointers.insert p .null) o' + (if o' = o then 1 else 0) =
      references s.pointers o' := by
  have hinsert := references_insert s.pointers p .null o'
  rw [valueAt_of_lookup .null hp] at hinsert
  have hnone : ¬SmartPointer.null.obj = some o' := by
    intro hc
    cases hc
  rw [if_neg hnone, Nat.add_zero] at hinsert
  rw [← hinsert]
  simp only [Option.some.injEq, eq_comm]

end AnalysisPrograms.RefCount
