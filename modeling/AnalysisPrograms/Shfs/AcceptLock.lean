import Mathlib.Data.Int.Notation
import AnalysisPrograms.Foundations.Interleaving

namespace AnalysisPrograms.Shfs

open Foundations Execution Interleaving

inductive Errno
  | none
  | enosys
  | econnaborted
  | eagain
  | other
deriving DecidableEq

def atomicCmpSet (lock old set : UInt32) : Bool × UInt32 :=
  if lock = old then (true, set) else (false, lock)

def acceptBreaks (rslt : ℤ) (acceptErrno : Errno) : Bool :=
  if rslt > 0 then true
  else if acceptErrno = .enosys ∨ acceptErrno = .econnaborted then true
  else if acceptErrno = .eagain then false
  else false

inductive Stage
  | forked
  | attached
  | serving
  | sawZero
  | accepting
  | releasing (rslt : ℤ)
  | exited
deriving DecidableEq

inductive SlaveStep
  | shmat (ok : Bool)
  | storeZero
  | readLock
  | cmpSet
  | accept (rslt : ℤ) (acceptErrno : Errno)
  | release
  | leave
deriving DecidableEq

def slaveStep : Stage → UInt32 → SlaveStep → Option (Stage × UInt32)
  | .forked, lock, .shmat ok => some (if ok then .attached else .exited, lock)
  | .attached, _, .storeZero => some (.serving, 0)
  | .serving, lock, .readLock => some (if lock ≠ 0 then .serving else .sawZero, lock)
  | .serving, lock, .leave => some (.exited, lock)
  | .sawZero, lock, .cmpSet =>
    let (taken, lock) := atomicCmpSet lock 0 1
    some (if taken then .accepting else .serving, lock)
  | .accepting, lock, .accept rslt acceptErrno =>
    some (if acceptBreaks rslt acceptErrno then .releasing rslt else .accepting, lock)
  | .releasing _, _, .release => some (.serving, 0)
  | _, _, _ => none

def Stage.holds : Stage → Prop
  | .accepting => True
  | .releasing _ => True
  | _ => False

instance decidableHolds : DecidablePred Stage.holds
  | .accepting | .releasing _ => isTrue trivial
  | .forked | .attached | .serving | .sawZero | .exited => isFalse id

variable {P : Type}

abbrev Slaves (P : Type) := Global P Stage UInt32

def startSlaves (P : Type) (word : UInt32) : Slaves P := ⟨fun _ => .forked, word⟩

/-- A start-up store comes when no worker is between its compare-and-set and its release. -/
def storesQuietly (s : Slaves P) (a : P × SlaveStep) : Prop :=
  a.2 = .storeZero → ∀ p, ¬(s.locals p).holds

def Locked (s : Slaves P) : Prop := Guarded Stage.holds s.locals (s.shared = 0)

theorem locked_startSlaves (word : UInt32) : Locked (startSlaves P word) :=
  guarded_of_nobody fun _ h => h

variable [DecidableEq P]

theorem slaveStep_cases {l l' : Stage} {lock lock' : UInt32} {e : SlaveStep}
    (h : slaveStep l lock e = some (l', lock')) :
    (l.holds ∧ ¬l'.holds ∧ lock' = 0) ∨ (e = .storeZero ∧ ¬l'.holds ∧ lock' = 0) ∨
      (lock = 0 ∧ lock' = 1) ∨ ((l'.holds → l.holds) ∧ lock' = lock) := by
  unfold slaveStep at h
  split at h
  case h_1 ok =>
    obtain ⟨rfl, rfl⟩ := Prod.mk.inj (Option.some.inj h)
    refine .inr (.inr (.inr ⟨?_, rfl⟩))
    cases ok <;> exact id
  case h_2 =>
    obtain ⟨rfl, rfl⟩ := Prod.mk.inj (Option.some.inj h)
    exact .inr (.inl ⟨rfl, id, rfl⟩)
  case h_3 =>
    obtain ⟨rfl, rfl⟩ := Prod.mk.inj (Option.some.inj h)
    refine .inr (.inr (.inr ⟨?_, rfl⟩))
    split <;> exact id
  case h_4 =>
    obtain ⟨rfl, rfl⟩ := Prod.mk.inj (Option.some.inj h)
    exact .inr (.inr (.inr ⟨id, rfl⟩))
  case h_5 =>
    -- the compare-and-set takes the lock only when the word is 0 at that very step
    unfold atomicCmpSet at h
    by_cases hfree : lock = 0
    · rw [if_pos hfree] at h
      obtain ⟨-, rfl⟩ := Prod.mk.inj (Option.some.inj h)
      exact .inr (.inr (.inl ⟨hfree, rfl⟩))
    · rw [if_neg hfree] at h
      obtain ⟨rfl, rfl⟩ := Prod.mk.inj (Option.some.inj h)
      exact .inr (.inr (.inr ⟨id, rfl⟩))
  case h_6 =>
    obtain ⟨-, rfl⟩ := Prod.mk.inj (Option.some.inj h)
    exact .inr (.inr (.inr ⟨fun _ => trivial, rfl⟩))
  case h_7 =>
    obtain ⟨rfl, rfl⟩ := Prod.mk.inj (Option.some.inj h)
    exact .inl ⟨trivial, id, rfl⟩
  case h_8 => cases h

theorem locked_step {s t : Slaves P} {a : P × SlaveStep} (h : Locked s) (hok : storesQuietly s a)
    (hstep : interleave slaveStep s a = some t) : Locked t := by
  obtain ⟨p, e⟩ := a
  obtain ⟨l, g, hs, rfl⟩ := interleave_eq_some hstep
  rcases slaveStep_cases hs with ⟨hp, hl, -⟩ | ⟨rfl, hl, -⟩ | ⟨hfree, hg⟩ | ⟨hl, hg⟩
  · exact h.release hp hl
  · exact guarded_of_nobody (nobody_update (hok rfl) hl)
  · apply h.acquire hfree
    intro hzero
    cases hg.symm.trans hzero
  · apply h.keep hl
    rw [hg]
    exact id

theorem acceptLock_excludes (word : UInt32) (run : List (P × SlaveStep))
    (h : Along (interleave slaveStep) storesQuietly (startSlaves P word) run) :
    ∀ done rest t, run = done ++ rest →
      exec (interleave slaveStep) (startSlaves P word) done = some t →
      Exclusive Stage.holds t.locals := by
  rintro done rest t rfl ht
  have hlocked : Locked t :=
    inv_exec Locked storesQuietly (fun _ _ _ => locked_step) (locked_startSlaves word)
      h.of_append ht
  exact hlocked.one

def startUp (p : Bool) : List (Bool × SlaveStep) := [(p, .shmat true), (p, .storeZero)]

def takeLock (p : Bool) : List (Bool × SlaveStep) := [(p, .readLock), (p, .cmpSet)]

def acceptOne (p : Bool) : List (Bool × SlaveStep) :=
  takeLock p ++ [(p, .accept (-1) .eagain), (p, .accept 7 .none), (p, .release)]

def calmRun : List (Bool × SlaveStep) :=
  startUp false ++ startUp true ++ acceptOne false ++ takeLock true

theorem calmRun_excludes :
    Along (interleave slaveStep) storesQuietly (startSlaves Bool 0) calmRun ∧
      ∀ done rest t, calmRun = done ++ rest →
        exec (interleave slaveStep) (startSlaves Bool 0) done = some t →
        Exclusive Stage.holds t.locals := by
  have hquiet : Along (interleave slaveStep) storesQuietly (startSlaves Bool 0) calmRun := by
    unfold storesQuietly
    decide
  exact ⟨hquiet, acceptLock_excludes 0 calmRun hquiet⟩

theorem late_start_breaks_lock :
    ∃ t, exec (interleave slaveStep) (startSlaves Bool 0)
      (startUp false ++ takeLock false ++ startUp true ++ takeLock true) = some t ∧
        ¬Exclusive Stage.holds t.locals := by
  refine ⟨_, rfl, fun h => ?_⟩
  cases h false true trivial trivial

end AnalysisPrograms.Shfs
