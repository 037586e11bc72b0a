import AnalysisPrograms.RefCount.Members

namespace AnalysisPrograms.RefCount

open Foundations FiniteMap Execution

variable {s t : State} {p o fuel : ℕ} {mutex : Option ℕ} {sp : SmartPointer}

def World.bare (s : State) : World := ⟨s, []⟩

def Op.outside : Op → Action
  | .newObject castable => .newObject castable
  | .construct p obj => .construct p obj none
  | .copyConstruct p other => .copyConstruct p other none
  | .assign p other => .assign p other
  | .release p => .release p
  | .copy p other tmp => .copy p other tmp []
  | .destruct p => .destruct p

namespace State

theorem pointers_lock (h : s.lock mutex = some t) : t.pointers = s.pointers := by
  unfold lock at h
  obtain ⟨m, -, h⟩ := Option.bind_eq_some_iff.mp h
  obtain ⟨locked, -, h⟩ := Option.bind_eq_some_iff.mp h
  split at h
  · cases h
  · obtain rfl := Option.some.inj h
    rfl

theorem pointers_unlock (h : s.unlock mutex = some t) : t.pointers = s.pointers := by
  unfold unlock at h
  obtain ⟨m, -, h⟩ := Option.bind_eq_some_iff.mp h
  obtain ⟨locked, -, h⟩ := Option.bind_eq_some_iff.mp h
  split at h
  · obtain rfl := Option.some.inj h
    rfl
  · cases h

theorem pointers_refDecrease (h : s.refDecrease o = some t) : t.pointers = s.pointers := by
  obtain ⟨object, -, h⟩ := Option.bind_eq_some_iff.mp h
  obtain rfl := Option.some.inj h
  rfl

theorem pointers_delete (h : s.delete o = some t) : t.pointers = s.pointers := by
  unfold delete at h
  split at h
  · obtain rfl := Option.some.inj h
    rfl
  · cases h

theorem pointers_freeMutex (h : s.freeMutex mutex = some t) : t.pointers = s.pointers := by
  obtain ⟨m, -, h⟩ := Option.bind_eq_some_iff.mp h
  split at h
  · obtain rfl := Option.some.inj h
    rfl
  · cases h

end State

namespace World

theorem write_bare (hp : p ∈ s.pointers) : (bare s).write p sp = some (bare (s.setPointer p sp)) :=
  if_pos hp

theorem bind_same {α : Type} {x : Option α} {f : α → Option World} {g : α → Option State}
    (h : ∀ a, x = some a → f a = (g a).map bare) : (x >>= f) = (x >>= g).map bare := by
  cases hx : x with
  | none => rfl
  | some a => exact h a hx

theorem bind_bare {x : Option State} {f : World → Option World} {g : State → Option State}
    (h : ∀ s, x = some s → f (bare s) = (g s).map bare) :
    (x.map bare >>= f) = (x >>= g).map bare := by
  cases hx : x with
  | none => rfl
  | some s => exact h s hx

theorem delete_bare (release : World → ℕ → Option World) :
    (bare s).delete release o = (s.delete o).map bare := rfl

theorem release_bare (s : State) (p : ℕ) :
    (bare s).release (fuel + 1) p = (s.release p).map bare := by
  unfold release State.release
  apply bind_same
  intro sp hp
  have hmem : p ∈ s.pointers := Finmap.mem_iff.mpr ⟨sp, hp⟩
  cases hobj : sp.obj with
  | none => rfl
  | some o =>
    apply bind_bare
    intro s₁ h₁
    apply bind_bare
    intro s₂ h₂
    have hsame : s₂.pointers = s.pointers :=
      (State.pointers_refDecrease h₂).trans (State.pointers_lock h₁)
    rw [← hsame] at hmem
    apply bind_same
    intro refCount _
    by_cases hzero : refCount = 0
    · simp only [hzero, if_true, delete_bare]
      apply bind_bare
      intro s₃ h₃
      rw [← State.pointers_delete h₃] at hmem
      rw [write_bare hmem]
      apply bind_bare
      intro s₄ h₄
      apply bind_bare
      intro s₅ h₅
      apply write_bare
      have hsame₅ : s₅.pointers = _ :=
        (State.pointers_freeMutex h₅).trans (State.pointers_unlock h₄)
      rw [hsame₅]
      exact Finmap.mem_insert.mpr (.inl rfl)
    · simp only [hzero, if_false, Option.bind_eq_bind, Option.bind_some]
      rw [write_bare hmem]
      apply bind_bare
      intro s₃ h₃
      apply write_bare
      have hsame₃ : s₃.pointers = _ := State.pointers_unlock h₃
      rw [hsame₃]
      exact Finmap.mem_insert.mpr (.inl rfl)

theorem assign_bare (s : State) (p other : ℕ) :
    (bare s).assign (fuel + 1) p other = (s.assign p other).map bare := by
  unfold assign State.assign
  rw [release_bare]
  apply bind_bare
  intro s₁ _
  apply bind_same
  intro sp _
  cases sp.obj with
  | none => rfl
  | some o => rfl

theorem construct_bare (s : State) (p : ℕ) (obj : Option ℕ) :
    (bare s).construct p obj none = (s.construct p obj).map bare := by
  cases hrun : s.construct p obj with
  | none =>
    simp only [construct, lift, bare, hrun, Option.map_none, Option.bind_eq_bind, Option.bind_none]
  | some t =>
    simp only [construct, lift, bare, hrun, place, Option.map_some, Option.bind_eq_bind,
      Option.bind_some]

theorem copyConstruct_bare (s : State) (p other : ℕ) :
    (bare s).copyConstruct (fuel + 1) p other none = (s.copyConstruct p other).map bare := by
  unfold copyConstruct State.copyConstruct
  rw [construct_bare]
  unfold State.construct
  split
  · rfl
  · exact assign_bare _ p other

theorem destruct_bare (s : State) (p : ℕ) :
    (bare s).destruct (fuel + 1) p = (s.destruct p).map bare := by
  unfold destruct State.destruct
  rw [release_bare]
  cases s.release p with
  | none => rfl
  | some t => rfl

theorem copyObject_bare (s : State) (p other tmp : ℕ) :
    (bare s).copyObject (fuel + 1) p other tmp [] = (s.copyObject p other tmp).map bare := by
  unfold copyObject State.copyObject
  rw [copyConstruct_bare]
  apply bind_bare
  intro s₁ _
  apply bind_same
  intro source _
  cases source.obj with
  | none => rfl
  | some old =>
    change (s₁.objects.lookup old >>= _) = Option.map bare (s₁.objects.lookup old >>= _)
    apply bind_same
    intro object _
    refine Eq.trans (if_neg (not_not_intro rfl)) ?_
    change ((bare _).destruct (fuel + 1) tmp >>= _) = _
    rw [destruct_bare]
    apply bind_bare
    intro s₂ _
    apply bind_same
    intro object' _
    rfl

theorem copy_bare (s : State) (p other tmp : ℕ) :
    (bare s).copy (fuel + 1) p other tmp [] = (s.copy p other tmp).map bare := by
  unfold copy State.copy
  rw [release_bare]
  apply bind_bare
  intro s₁ _
  apply bind_same
  intro sp _
  cases sp.obj with
  | none => rfl
  | some o => exact copyObject_bare s₁ p other tmp

theorem step_bare (s : State) (op : Op) :
    (bare s).step (fuel + 1) op.outside = (RefCount.step s op).map bare := by
  cases op with
  | newObject castable => rfl
  | construct p obj => exact construct_bare s p obj
  | copyConstruct p other => exact copyConstruct_bare s p other
  | assign p other => exact assign_bare s p other
  | release p => exact release_bare s p
  | copy p other tmp => exact copy_bare s p other tmp
  | destruct p => exact destruct_bare s p

end World

theorem exec_outside (s : State) (run : List Op) :
    exec (World.step (fuel + 1)) (World.bare s) (run.map Op.outside) =
      (exec step s run).map World.bare := by
  induction run generalizing s with
  | nil => rfl
  | cons op run ih =>
    rw [List.map_cons, exec, exec, World.step_bare]
    cases step s op with
    | none => rfl
    | some t => exact ih t

end AnalysisPrograms.RefCount
