import AnalysisPrograms.RefCount.SmartPointer

namespace AnalysisPrograms.RefCount

open Foundations FiniteMap

variable {s t : State} {p o m : ℕ} {object : Object} {sp : SmartPointer}

theorem references_insert (pointers : Map ℕ SmartPointer) (p : ℕ) (sp : SmartPointer) (o : ℕ) :
    references (pointers.insert p sp) o +
      (if (valueAt pointers .null p).obj = some o then 1 else 0) =
      references pointers o + if sp.obj = some o then 1 else 0 :=
  total_insert pointers .null (fun sp => if sp.obj = some o then 1 else 0) rfl p sp

theorem references_erase (pointers : Map ℕ SmartPointer) (p o : ℕ) :
    references (pointers.erase p) o + (if (valueAt pointers .null p).obj = some o then 1 else 0) =
      references pointers o :=
  total_erase pointers .null (fun sp => if sp.obj = some o then 1 else 0) rfl p

theorem references_pos {pointers : Map ℕ SmartPointer} (hp : pointers.lookup p = some sp)
    (ho : sp.obj = some o) : 0 < references pointers o := by
  have h := references_erase pointers p o
  rw [valueAt_of_lookup .null hp, if_pos ho] at h
  omega

theorem exists_of_references {pointers : Map ℕ SmartPointer} (h : 0 < references pointers o) :
    ∃ p sp, pointers.lookup p = some sp ∧ sp.obj = some o := by
  unfold references total at h
  obtain ⟨p, hp, hne⟩ := Finset.exists_ne_zero_of_sum_ne_zero (Nat.pos_iff_ne_zero.mp h)
  obtain ⟨sp, hsp⟩ := Finmap.mem_iff.mp (Finmap.mem_keys.mp hp)
  rw [valueAt_of_lookup .null hsp] at hne
  refine ⟨p, sp, hsp, ?_⟩
  by_contra hobj
  exact hne (if_neg hobj)

theorem lock_eq (hm : s.mutexes.lookup m = some false) :
    s.lock (some m) = some { s with mutexes := s.mutexes.insert m true } := by
  unfold State.lock
  simp only [hm, Option.bind_eq_bind, Option.bind_some, Bool.false_eq_true, if_false]

theorem retain_eq (hp : s.pointers.lookup p = some ⟨some o, some m⟩)
    (hm : s.mutexes.lookup m = some false) (ho : s.objects.lookup o = some object) :
    s.retain p =
      some { s with
        objects := s.objects.insert o { object with refCount := object.refCount + 1 } } := by
  unfold State.retain
  simp only [hp, lock_eq hm, State.refIncrease, State.addToCount, ho, State.unlock,
    Finmap.lookup_insert, Option.bind_eq_bind, Option.bind_some, if_true, Finmap.insert_insert,
    insert_of_lookup hm]

theorem release_null (hp : s.pointers.lookup p = some sp) (hobj : sp.obj = none) :
    s.release p = some s := by
  unfold State.release
  simp only [hp, hobj, Option.bind_eq_bind, Option.bind_some]

theorem release_shared (hp : s.pointers.lookup p = some ⟨some o, some m⟩)
    (hm : s.mutexes.lookup m = some false) (ho : s.objects.lookup o = some object)
    (hcount : object.refCount ≠ 1) :
    s.release p =
      some { s with
        objects := s.objects.insert o { object with refCount := object.refCount - 1 }
        pointers := s.pointers.insert p .null } := by
  have hne : ¬object.refCount + -1 = 0 := by omega
  unfold State.release
  simp only [hp, lock_eq hm, State.refDecrease, State.addToCount, ho, State.getRefCount,
    State.setPointer, State.unlock, Finmap.lookup_insert, Option.map_some, Option.bind_eq_bind,
    Option.bind_some, if_true, hne, if_false, Finmap.insert_insert, insert_of_lookup hm]
  rfl

theorem release_last (hp : s.pointers.lookup p = some ⟨some o, some m⟩)
    (hm : s.mutexes.lookup m = some false) (ho : s.objects.lookup o = some object)
    (hcount : object.refCount = 1) :
    s.release p =
      some { s with
        objects := s.objects.erase o
        mutexes := s.mutexes.erase m
        pointers := s.pointers.insert p .null
        deleted := s.deleted ++ [o]
        freed := s.freed ++ [m] } := by
  have hzero : object.refCount + -1 = 0 := by omega
  unfold State.release
  simp only [hp, lock_eq hm, State.refDecrease, State.addToCount, ho, State.getRefCount,
    State.setPointer, State.unlock, State.delete, State.freeMutex, Finmap.lookup_insert,
    Option.map_some, Option.bind_eq_bind, Option.bind_some, if_true, hzero, Finmap.insert_insert,
    insert_of_lookup hm, Finmap.mem_insert, true_or, erase_insert]
  have hmem : m ∈ s.mutexes := Finmap.mem_iff.mpr ⟨false, hm⟩
  simp only [hmem, if_true, Option.bind_some, Finmap.insert_insert]

end AnalysisPrograms.RefCount
