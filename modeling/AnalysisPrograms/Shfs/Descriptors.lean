import AnalysisPrograms.Shfs.Worker

namespace AnalysisPrograms.Shfs

open Foundations FiniteMap Bytes

namespace Kernel

variable {k k' : Kernel} {fd : ℤ}

def isSocket (k : Kernel) (fd : ℤ) : Prop := ∃ sent, k.fds.lookup fd = some (.socket sent)

def isFile (k : Kernel) (fd : ℤ) : Prop :=
  ∃ contents offset, k.fds.lookup fd = some (.file contents offset)

theorem isSocket.mem (h : k.isSocket fd) : fd ∈ k.fds := by
  obtain ⟨sent, h⟩ := h
  exact Finmap.mem_iff.mpr ⟨_, h⟩

theorem isFile.mem (h : k.isFile fd) : fd ∈ k.fds := by
  obtain ⟨contents, offset, h⟩ := h
  exact Finmap.mem_iff.mpr ⟨_, h⟩

theorem isSocket.not_isFile (h : k.isSocket fd) : ¬k.isFile fd := by
  rintro ⟨contents, offset, hf⟩
  obtain ⟨sent, hs⟩ := h
  cases hs.symm.trans hf

theorem newFd_notMem (os : Os) (k : Kernel) (d : Descriptor) : (k.newFd os d).1 ∉ k.fds :=
  (os.unused k.calls k.fds).1

theorem newFd_pos (os : Os) (k : Kernel) (d : Descriptor) : 0 < (k.newFd os d).1 :=
  (os.unused k.calls k.fds).2

theorem lookup_newFd (os : Os) (k : Kernel) (d : Descriptor) (fd : ℤ) :
    (k.newFd os d).2.fds.lookup fd = if fd = (k.newFd os d).1 then some d else k.fds.lookup fd := by
  by_cases h : fd = (k.newFd os d).1
  · rw [if_pos h, h]
    exact Finmap.lookup_insert _
  · rw [if_neg h]
    exact Finmap.lookup_insert_of_ne _ h

theorem close_of_mem (h : fd ∈ k.fds) : k.close fd = some { k with fds := k.fds.erase fd } := by
  simp [close, h]

theorem lookup_erase (k : Kernel) (fd x : ℤ) :
    (k.fds.erase fd).lookup x = if x = fd then none else k.fds.lookup x := by
  by_cases h : x = fd
  · subst h
    simp
  · rw [if_neg h, Finmap.lookup_erase_ne h]

theorem close_kinds (h : fd ∈ k.fds) :
    ∃ k', k.close fd = some k' ∧
      ∀ x, (k'.isSocket x ↔ k.isSocket x ∧ x ≠ fd) ∧ (k'.isFile x ↔ k.isFile x ∧ x ≠ fd) := by
  refine ⟨_, close_of_mem h, ?_⟩
  intro x
  simp only [isSocket, isFile, lookup_erase]
  by_cases hx : x = fd
  · simp [hx]
  · simp [hx]

def SameKinds (k k' : Kernel) : Prop :=
  ∀ fd, (k'.isSocket fd ↔ k.isSocket fd) ∧ (k'.isFile fd ↔ k.isFile fd)

theorem SameKinds.refl (k : Kernel) : SameKinds k k := fun _ => ⟨Iff.rfl, Iff.rfl⟩

theorem SameKinds.trans {k'' : Kernel} (h : SameKinds k k') (h' : SameKinds k' k'') :
    SameKinds k k'' :=
  fun fd => ⟨(h' fd).1.trans (h fd).1, (h' fd).2.trans (h fd).2⟩

theorem send_sameKinds (k : Kernel) (fd : ℤ) (bytes : List UInt8) :
    SameKinds k (k.send fd bytes) := by
  unfold send
  split
  next sent hl =>
    intro x
    simp only [isSocket, isFile]
    by_cases hx : x = fd
    · subst hx
      simp [hl]
    · simp [hx]
  next => exact SameKinds.refl k

theorem read_sameKinds (k : Kernel) (fd : ℤ) (want chunk : ℕ) :
    SameKinds k (k.read fd want chunk).2 := by
  unfold read
  split
  next contents offset hl =>
    intro x
    simp only [isSocket, isFile]
    by_cases hx : x = fd
    · subst hx
      simp [hl]
    · simp [hx]
  next => exact SameKinds.refl k

end Kernel

open Kernel

theorem sendLoop_sameKinds (fd : ℤ) (answers : List SendAnswer) (k : Kernel) (buf : Buf)
    (sent : ℤ) : SameKinds k (sendLoop fd answers k buf sent).2.1 := by
  induction answers generalizing k buf sent with
  | nil => exact SameKinds.refl k
  | cons answer answers ih =>
    unfold sendLoop
    by_cases hz : 0 = buf.mSize - buf.mSeek
    · simp only [hz, ↓reduceIte]
      exact SameKinds.refl k
    · cases answer with
      | accepted n =>
        simp only [hz, ↓reduceIte]
        exact (send_sameKinds k fd _).trans (ih _ _ _)
      | eagain =>
        simp only [hz, ↓reduceIte]
        exact SameKinds.refl k
      | failed =>
        simp only [hz, ↓reduceIte]
        exact SameKinds.refl k

theorem refill_sameKinds {k k' : Kernel} {clt clt' : Client} {chunk : ℕ}
    (h : refill k clt chunk = some (k', clt')) :
    SameKinds k k' ∧ clt'.mCmnctFd = clt.mCmnctFd ∧ clt'.mResp = clt.mResp ∧
      clt'.mRecvBuf = clt.mRecvBuf := by
  unfold refill at h
  split at h
  next =>
    simp only [Option.bind_eq_bind, Option.bind_eq_some_iff, Option.some.injEq, Prod.mk.injEq] at h
    obtain ⟨-, -, -, -, rfl, rfl⟩ := h
    exact ⟨read_sameKinds _ _ _ _, rfl, rfl, rfl⟩
  all_goals
    simp only [Option.some.injEq, Prod.mk.injEq] at h
    obtain ⟨rfl, rfl⟩ := h
    exact ⟨SameKinds.refl k, rfl, rfl, rfl⟩

theorem httpSend_sameKinds {k k' : Kernel} {clt clt' : Client} {answers : WriteAnswers} {ret : ℤ}
    (h : httpSend k clt answers = some (ret, k', clt')) :
    SameKinds k k' ∧ clt'.mCmnctFd = clt.mCmnctFd ∧ clt'.mResp.mFile = clt.mResp.mFile ∧
      clt'.mRecvBuf = clt.mRecvBuf := by
  have hs : SameKinds k (sendBuf k clt.mCmnctFd answers.sends clt.mSendBuf).2.1 :=
    sendLoop_sameKinds _ _ _ _ _
  unfold httpSend at h
  generalize sendBuf k clt.mCmnctFd answers.sends clt.mSendBuf = r at h hs
  obtain ⟨sent, k₁, buf⟩ := r
  dsimp only at h
  split_ifs at h
  · simp only [Option.some.injEq, Prod.mk.injEq] at h
    obtain ⟨-, rfl, rfl⟩ := h
    exact ⟨hs, rfl, rfl, rfl⟩
  · simp only [Option.bind_eq_bind, Option.bind_eq_some_iff, Option.some.injEq, Prod.mk.injEq] at h
    obtain ⟨-, -, -, rfl, rfl⟩ := h
    exact ⟨hs, rfl, rfl, rfl⟩
  · simp only [Option.bind_eq_bind, Option.bind_eq_some_iff, Option.some.injEq, Prod.mk.injEq] at h
    obtain ⟨-, -, -, rfl, rfl⟩ := h
    exact ⟨hs, rfl, rfl, rfl⟩
  · simp only [Option.bind_eq_bind, Option.bind_eq_some_iff, Option.some.injEq, Prod.mk.injEq] at h
    obtain ⟨-, -, ⟨k₂, clt₂⟩, hr, -, rfl, rfl⟩ := h
    obtain ⟨hk, hc, hf, hb⟩ := refill_sameKinds hr
    exact ⟨hs.trans hk, hc, by rw [hf], hb⟩

theorem startResp_frame {clt clt' : Client} (h : startResp clt = some clt') :
    clt'.mCmnctFd = clt.mCmnctFd ∧ clt'.mResp.mFile = clt.mResp.mFile ∧
      clt'.mRecvBuf = clt.mRecvBuf := by
  simp only [startResp, Option.bind_eq_bind, Option.bind_eq_some_iff, Option.some.injEq] at h
  obtain ⟨-, -, -, -, -, -, -, -, rfl⟩ := h
  exact ⟨rfl, rfl, rfl⟩

theorem handleHttpResp_sameKinds {k k' : Kernel} {clt clt' : Client} {answers : WriteAnswers}
    (h : handleHttpResp k clt answers = some (k', clt')) :
    SameKinds k k' ∧ clt'.mCmnctFd = clt.mCmnctFd ∧ clt'.mResp.mFile = clt.mResp.mFile ∧
      clt'.mRecvBuf = clt.mRecvBuf := by
  unfold handleHttpResp at h
  split_ifs at h
  · simp only [Option.bind_eq_bind, Option.bind_eq_some_iff, Option.some.injEq, Prod.mk.injEq] at h
    obtain ⟨clt₁, hstart, -, -, ⟨ret, k₂, clt₂⟩, hsend, rfl, rfl⟩ := h
    obtain ⟨hk, hc, hf, hb⟩ := httpSend_sameKinds hsend
    obtain ⟨hc', hf', hb'⟩ := startResp_frame hstart
    exact ⟨hk, hc.trans hc', hf.trans hf', hb.trans hb'⟩
  · simp only [Option.bind_eq_bind, Option.bind_eq_some_iff, Option.some.injEq, Prod.mk.injEq] at h
    obtain ⟨clt₁, rfl, -, -, ⟨ret, k₂, clt₂⟩, hsend, rfl, rfl⟩ := h
    exact httpSend_sameKinds hsend

end AnalysisPrograms.Shfs
