import AnalysisPrograms.Shfs.Ownership

namespace AnalysisPrograms.Shfs

open Foundations FiniteMap Links Kernel

variable {os : Os} {srv : Server} {L : Layout} {w w' : Worker} {free inuse : List ℕ} {n : ℕ}

theorem close_both {k : Kernel} {conn file : ℤ} (hc : k.isSocket conn)
    (hf : file ≠ -1 → k.isFile file ∧ 0 < file) :
    ∃ k₁ k₂, k.close conn = some k₁ ∧ closeFile k₁ file = some k₂ ∧
      ∀ fd, (k₂.isSocket fd ↔ k.isSocket fd ∧ fd ≠ conn) ∧
        (k₂.isFile fd ↔ k.isFile fd ∧ (file ≠ -1 → fd ≠ file)) := by
  obtain ⟨k₁, hk₁, hkinds₁⟩ := close_kinds hc.mem
  have hfile₁ : ∀ fd, k₁.isFile fd ↔ k.isFile fd := by
    intro fd
    rw [(hkinds₁ fd).2, and_iff_left_iff_imp]
    rintro hfd rfl
    exact hc.not_isFile hfd
  by_cases hfile : file = -1
  · refine ⟨k₁, k₁, hk₁, by simp [closeFile, hfile], ?_⟩
    intro fd
    rw [hfile₁]
    exact ⟨(hkinds₁ fd).1, by simp [hfile]⟩
  · obtain ⟨hisf, hpos⟩ := hf hfile
    obtain ⟨k₂, hk₂, hkinds₂⟩ := close_kinds ((hfile₁ file).mpr hisf).mem
    have h0 : file ≠ 0 := hpos.ne'
    refine ⟨k₁, k₂, hk₁, by simpa [closeFile, hfile, h0] using hk₂, ?_⟩
    intro fd
    rw [(hkinds₂ fd).1, (hkinds₂ fd).2, (hkinds₁ fd).1, hfile₁]
    refine ⟨?_, by simp [hfile]⟩
    rw [and_iff_left_iff_imp]
    rintro ⟨hs, -⟩ rfl
    exact hs.not_isFile hisf

section Closed

variable {before after : List ℕ}
  (hold : ∀ m ∈ before ++ after, m ≠ n ∧ cmnctFd w' m = cmnctFd w m ∧ fileFd w' m = fileFd w m)
  (hkinds : ∀ fd, (w'.kernel.isSocket fd ↔ w.kernel.isSocket fd ∧ fd ≠ cmnctFd w n) ∧
    (w'.kernel.isFile fd ↔ w.kernel.isFile fd ∧ (fileFd w n ≠ -1 → fd ≠ fileFd w n)))
include hold hkinds

theorem Holds.closed (hh : Holds w (before ++ n :: after)) : Holds w' (before ++ after) := by
  have hn : n ∈ before ++ n :: after := List.mem_append_right before List.mem_cons_self
  have hsub : ∀ m ∈ before ++ after, m ∈ before ++ n :: after := by
    intro m hm
    exact List.mem_append.mpr ((List.mem_append.mp hm).imp_right (List.mem_cons_of_mem n))
  refine ⟨?_, ?_, ?_, ?_⟩
  · intro m hm
    rw [(hold m hm).2.1, (hkinds _).1]
    exact ⟨hh.conn m (hsub m hm), fun he => (hold m hm).1 (hh.conn_inj m (hsub m hm) n hn he)⟩
  · intro m hm m' hm'
    rw [(hold m hm).2.1, (hold m' hm').2.1]
    exact hh.conn_inj m (hsub m hm) m' (hsub m' hm')
  · intro m hm hf
    rw [(hold m hm).2.2] at hf ⊢
    obtain ⟨hisf, hpos⟩ := hh.file m (hsub m hm) hf
    rw [(hkinds _).2]
    exact ⟨⟨hisf, fun _ he => (hold m hm).1 (hh.file_inj m (hsub m hm) n hn hf he)⟩, hpos⟩
  · intro m hm m' hm'
    rw [(hold m hm).2.2, (hold m' hm').2.2]
    exact hh.file_inj m (hsub m hm) m' (hsub m' hm')

theorem Owned.closed (ho : Owned w (before ++ n :: after)) : Owned w' (before ++ after) := by
  intro fd hfd
  rw [(hkinds fd).2] at hfd
  obtain ⟨hne, m, hm, he⟩ := ho fd hfd.1
  have hmn : m ≠ n := by
    rintro rfl
    exact hfd.2 (he ▸ hne) he.symm
  have hm' : m ∈ before ++ after := by
    rcases List.mem_append.mp hm with hm | hm
    · exact List.mem_append_left after hm
    · exact List.mem_append_right before ((List.mem_cons.mp hm).resolve_left hmn)
  exact ⟨hne, m, hm', (hold m hm').2.2.trans he⟩

end Closed

theorem handleDisconnection_inv (hp : Partitioned L w.words free inuse) (hh : Holds w inuse)
    (hn : n ∈ inuse) :
    ∃ w' before after, inuse = before ++ n :: after ∧
      handleDisconnection L w (containerOf n) = some w' ∧
      Partitioned L w'.words (n :: free) (before ++ after) ∧ Holds w' (before ++ after) ∧
      (Owned w inuse → Owned w' (before ++ after)) := by
  obtain ⟨before, after, rfl⟩ := List.append_of_mem hn
  have hnode := hp.mem_nodes.mpr (.inr hn)
  obtain ⟨mem, mem', hrm, hadd, hp'⟩ := hp.disconnect
  obtain ⟨k₁, k₂, hk₁, hk₂, hkinds⟩ := close_both (hh.conn n hn) (hh.file n hn)
  generalize hclt : ({ w.clients (containerOf n) with
    mResp := { (w.clients (containerOf n)).mResp with
      mFile := { (w.clients (containerOf n)).mResp.mFile with mFd := -1 } }
    mSelectType := ⟨false, false⟩
    mRecvBuf := destroyBuf (w.clients (containerOf n)).mRecvBuf
    mSendBuf := destroyBuf (w.clients (containerOf n)).mSendBuf } : Client) = clt
  generalize hw' : (⟨mem', Function.update w.clients (containerOf n) clt, k₂⟩ : Worker) = w'
  have hrun : handleDisconnection L w (containerOf n) = some w' := by
    unfold cmnctFd at hk₁
    unfold fileFd at hk₂
    simp only [handleDisconnection, L.node_containerOf hnode, hk₁, hrm, hadd, hk₂, hclt, hw',
      Option.bind_eq_bind, Option.bind_some]
  have hnd := hp.inuseList.1.nodup
  rw [List.nodup_middle] at hnd
  have hold : ∀ m ∈ before ++ after, m ≠ n ∧ cmnctFd w' m = cmnctFd w m ∧
      fileFd w' m = fileFd w m := by
    intro m hm
    have hne : m ≠ n := fun he => (List.nodup_cons.mp hnd).1 (he ▸ hm)
    have hmem : m ∈ before ++ n :: after :=
      List.mem_append.mpr ((List.mem_append.mp hm).imp_right (List.mem_cons_of_mem n))
    have hcl := update_clients_of_ne hnode (hp.mem_nodes.mpr (.inr hmem)) hne w.clients clt
    simp only [cmnctFd, fileFd, ← hw', hcl, and_self, and_true]
    exact hne
  have hkernel : w'.kernel = k₂ := by rw [← hw']
  rw [← hkernel] at hkinds
  refine ⟨w', before, after, rfl, hrun, ?_, hh.closed hold hkinds, Owned.closed hold hkinds⟩
  rw [← hw']
  exact hp'

theorem setClient_frame (hp : Partitioned L w.words free inuse) (hn : n ∈ inuse) {clt : Client}
    {k : Kernel} (hk : SameKinds w.kernel k) (hc : clt.mCmnctFd = cmnctFd w n)
    (hf : clt.mResp.mFile.mFd = fileFd w n)
    (hw : w' = ⟨w.words, Function.update w.clients (containerOf n) clt, k⟩) (hh : Holds w inuse) :
    Partitioned L w'.words free inuse ∧ Holds w' inuse ∧ (Owned w inuse → Owned w' inuse) := by
  have hfds : ∀ m ∈ inuse, cmnctFd w' m = cmnctFd w m ∧ fileFd w' m = fileFd w m := by
    intro m hm
    by_cases hmn : m = n
    · subst hmn
      simp only [cmnctFd, fileFd, hw, Function.update_self] at hc hf ⊢
      exact ⟨hc, hf⟩
    · have hcl := update_clients_of_ne (hp.mem_nodes.mpr (.inr hn)) (hp.mem_nodes.mpr (.inr hm)) hmn
        w.clients clt
      simp only [cmnctFd, fileFd, hw, hcl, and_self]
  have hk' : SameKinds w.kernel w'.kernel := by rwa [hw]
  exact ⟨by rw [hw]; exact hp, hh.congr hk' hfds, fun ho => ho.congr hk' fun m hm => (hfds m hm).2⟩

theorem answered_inv (hp : Partitioned L w.words free inuse) (hh : Holds w inuse) (hn : n ∈ inuse)
    {clt : Client} {k : Kernel} (hc : clt.mCmnctFd = cmnctFd w n)
    (hr : FileReplaced w.kernel k clt.mResp.mFile.mFd)
    (hw : w' = ⟨w.words, Function.update w.clients (containerOf n) clt, k⟩) :
    Partitioned L w'.words free inuse ∧ Holds w' inuse ∧
      (fileFd w n = -1 → Owned w inuse → Owned w' inuse) := by
  have hold : ∀ m ∈ inuse, m ≠ n → cmnctFd w' m = cmnctFd w m ∧ fileFd w' m = fileFd w m := by
    intro m hm hmn
    have hcl := update_clients_of_ne (hp.mem_nodes.mpr (.inr hn)) (hp.mem_nodes.mpr (.inr hm)) hmn
      w.clients clt
    simp only [cmnctFd, fileFd, hw, hcl, and_self]
  have hself : cmnctFd w' n = cmnctFd w n ∧ clt.mResp.mFile.mFd = fileFd w' n := by
    rw [← hc]
    simp only [cmnctFd, fileFd, hw, Function.update_self, and_self]
  rw [hself.2, show k = w'.kernel by rw [hw]] at hr
  have hconn : ∀ m ∈ inuse, cmnctFd w' m = cmnctFd w m := by
    intro m hm
    by_cases hmn : m = n
    · rw [hmn, hself.1]
    · exact (hold m hm hmn).1
  -- a file that was open before is not the one just opened
  have hother : ∀ m ∈ inuse, m ≠ n → fileFd w' m ≠ -1 → fileFd w' m ≠ fileFd w' n := by
    intro m hm hmn hf he
    have hisf := (hh.file m hm ((hold m hm hmn).2 ▸ hf)).1
    rw [← (hold m hm hmn).2, he] at hisf
    exact (hr.fresh (he ▸ hf)).1 hisf
  refine ⟨by rw [hw]; exact hp, ⟨?_, ?_, ?_, ?_⟩, ?_⟩
  · intro m hm
    rw [hconn m hm, hr.sockets]
    exact hh.conn m hm
  · intro m hm m' hm'
    rw [hconn m hm, hconn m' hm']
    exact hh.conn_inj m hm m' hm'
  · intro m hm hf
    by_cases hmn : m = n
    · subst hmn
      exact ⟨(hr.files _).mpr (.inl ⟨rfl, hf⟩), (hr.fresh hf).2⟩
    · rw [(hold m hm hmn).2] at hf ⊢
      obtain ⟨hisf, hpos⟩ := hh.file m hm hf
      exact ⟨(hr.files _).mpr (.inr hisf), hpos⟩
  · intro m hm m' hm' hf he
    by_cases hmn : m = n <;> by_cases hmn' : m' = n
    · rw [hmn, hmn']
    · exact absurd (hmn ▸ he).symm (hother m' hm' hmn' (he ▸ hf))
    · exact absurd (hmn' ▸ he) (hother m hm hmn hf)
    · rw [(hold m hm hmn).2] at hf he
      rw [(hold m' hm' hmn').2] at he
      exact hh.file_inj m hm m' hm' hf he
  · intro hnone ho fd hfd
    rcases (hr.files fd).mp hfd with ⟨rfl, hne⟩ | hisf
    · exact ⟨hne, n, hn, rfl⟩
    · obtain ⟨hne, m, hm, he⟩ := ho fd hisf
      have hmn : m ≠ n := by
        rintro rfl
        exact hne (he.symm.trans hnone)
      exact ⟨hne, m, hm, (hold m hm hmn).2.trans he⟩

/-- No request is answered while the client still has the file of an earlier one. -/
def KeepsFiles (os : Os) (srv : Server) (L : Layout) (w : Worker) : Action → Prop
  | .readable pClt a => pClt + offsetOfNode ∈ inuseNodes L w ∧ (w.clients pClt).mSelectType.mr →
    match dataInput os srv w.kernel a (w.clients pClt) with
    | some (.answered, _, _) => (w.clients pClt).mResp.mFile.mFd = -1
    | _ => True
  | _ => True

instance decidableKeepsFiles (os : Os) (srv : Server) (L : Layout) (w : Worker) :
    ∀ act, Decidable (KeepsFiles os srv L w act)
  | .readable pClt a =>
    match h : dataInput os srv w.kernel a (w.clients pClt) with
    | some (.answered, _, _) =>
      decidable_of_iff (pClt + offsetOfNode ∈ inuseNodes L w ∧ (w.clients pClt).mSelectType.mr →
        (w.clients pClt).mResp.mFile.mFd = -1) (by simp only [KeepsFiles, h])
    | some (.dropped, _, _) => isTrue (by simp only [KeepsFiles, h, implies_true])
    | none => isTrue (by simp only [KeepsFiles, h, implies_true])
  | .connect _ => isTrue trivial
  | .disconnect _ => isTrue trivial
  | .writable _ _ => isTrue trivial

theorem containerOf_add (p : ℕ) : containerOf (p + offsetOfNode) = p :=
  Nat.add_sub_cancel p offsetOfNode

theorem fileFd_add (w : Worker) (pClt : ℕ) :
    fileFd w (pClt + offsetOfNode) = (w.clients pClt).mResp.mFile.mFd := by
  rw [fileFd, containerOf_add]

theorem cmnctFd_add (w : Worker) (pClt : ℕ) :
    cmnctFd w (pClt + offsetOfNode) = (w.clients pClt).mCmnctFd := by
  rw [cmnctFd, containerOf_add]

section DataInput

variable {pClt : ℕ} {a : ReadAnswers} {k : Kernel} {clt : Client}

theorem handleDataInput_dropped (hp : Partitioned L w.words free inuse) (hh : Holds w inuse)
    (hmem : pClt + offsetOfNode ∈ inuse)
    (hin : dataInput os srv w.kernel a (w.clients pClt) = some (.dropped, k, clt)) :
    ∃ w' free' inuse', handleDataInput os srv L w pClt a = some w' ∧
      Partitioned L w'.words free' inuse' ∧
      Holds w' inuse' ∧ (Owned w inuse → Owned w' inuse') := by
  obtain ⟨rfl, requ, buf, hclt⟩ := inputLoop_cases hin
  have hw₁ : w.setClient pClt clt =
      ⟨w.words, Function.update w.clients (containerOf (pClt + offsetOfNode)) clt, w.kernel⟩ := by
    rw [containerOf_add]
    rfl
  obtain ⟨hp₁, hh₁, ho₁⟩ := setClient_frame hp hmem (SameKinds.refl _) (by rw [cmnctFd_add, hclt])
    (by rw [fileFd_add, hclt]) hw₁ hh
  obtain ⟨w₂, before, after, -, hdis, hp₂, hh₂, ho₂⟩ := handleDisconnection_inv hp₁ hh₁ hmem
  rw [containerOf_add] at hdis
  refine ⟨w₂, _, _, ?_, hp₂, hh₂, fun ho => ho₂ (ho₁ ho)⟩
  simp only [handleDataInput, hin, Option.bind_eq_bind, Option.bind_some]
  exact hdis

theorem handleDataInput_answered (hp : Partitioned L w.words free inuse) (hh : Holds w inuse)
    (hmem : pClt + offsetOfNode ∈ inuse)
    (hin : dataInput os srv w.kernel a (w.clients pClt) = some (.answered, k, clt)) :
    ∃ w', handleDataInput os srv L w pClt a = some w' ∧ Partitioned L w'.words free inuse ∧
      Holds w' inuse ∧
      FileReplaced w.kernel w'.kernel (fileFd w' (pClt + offsetOfNode)) ∧
      (∀ m ∈ inuse, m ≠ pClt + offsetOfNode → fileFd w' m = fileFd w m) ∧
      (fileFd w (pClt + offsetOfNode) = -1 → Owned w inuse → Owned w' inuse) := by
  obtain ⟨o, requ, buf, rfl, rfl⟩ := inputLoop_cases hin
  obtain ⟨hc, hr⟩ := setup_fds os w.kernel { w.clients pClt with mRequ := requ, mRecvBuf := buf } o
  generalize o.setup os w.kernel { w.clients pClt with mRequ := requ, mRecvBuf := buf } = r
    at hin hc hr
  have hc' : (answered r.2).mCmnctFd = cmnctFd w (pClt + offsetOfNode) :=
    hc.trans (cmnctFd_add w pClt).symm
  have hr' : FileReplaced w.kernel r.1 (answered r.2).mResp.mFile.mFd := hr
  generalize hw' : (⟨w.words, Function.update w.clients pClt (answered r.2), r.1⟩ : Worker) = w'
  have hw₁ : w' =
      ⟨w.words, Function.update w.clients (containerOf (pClt + offsetOfNode)) (answered r.2),
        r.1⟩ := by
    rw [containerOf_add, hw']
  obtain ⟨hp₁, hh₁, ho₁⟩ := answered_inv hp hh hmem hc' hr' hw₁
  have hfd : fileFd w' (pClt + offsetOfNode) = (answered r.2).mResp.mFile.mFd := by
    rw [fileFd_add, ← hw']
    simp only [Function.update_self]
  refine ⟨w', ?_, hp₁, hh₁, ?_, ?_, ho₁⟩
  · simp only [handleDataInput, hin, Option.bind_eq_bind, Option.bind_some]
    exact congrArg some hw'
  · rw [hfd, ← hw']
    exact hr'
  · intro m hm hne
    have hcl := update_clients_of_ne (hp.mem_nodes.mpr (.inr hmem)) (hp.mem_nodes.mpr (.inr hm)) hne
      w.clients (answered r.2)
    simp only [fileFd, hw₁, hcl]

end DataInput

theorem step_inv {act : Action} (hp : Partitioned L w.words free inuse) (hh : Holds w inuse)
    (hstep : step os srv L w act = some w') :
    ∃ free' inuse', Partitioned L w'.words free' inuse' ∧ Holds w' inuse' ∧
      (KeepsFiles os srv L w act → Owned w inuse → Owned w' inuse') := by
  have hin : inuseNodes L w = inuse := hp.inuseNodes_eq
  have hsame : w = w' → ∃ free' inuse', Partitioned L w'.words free' inuse' ∧ Holds w' inuse' ∧
      (KeepsFiles os srv L w act → Owned w inuse → Owned w' inuse') := by
    rintro rfl
    exact ⟨free, inuse, hp, hh, fun _ h => h⟩
  cases act with
  | connect a =>
    obtain ⟨w₁, free', inuse', hrun, hp', hh', ho⟩ := handleConnection_inv os a hp hh
    obtain rfl := Option.some.inj (hrun.symm.trans hstep)
    exact ⟨free', inuse', hp', hh', fun _ => ho⟩
  | disconnect pClt =>
    simp only [step, hin] at hstep
    split_ifs at hstep with hmem
    · obtain ⟨w₁, before, after, -, hrun, hp', hh', ho⟩ := handleDisconnection_inv hp hh hmem
      rw [containerOf_add] at hrun
      obtain rfl := Option.some.inj (hrun.symm.trans hstep)
      exact ⟨_, _, hp', hh', fun _ => ho⟩
    · exact hsame (Option.some.inj hstep)
  | readable pClt a =>
    simp only [step, hin] at hstep
    split_ifs at hstep with hmem
    · simp only [KeepsFiles, hin, hmem, and_self, forall_const]
      cases hrun : dataInput os srv w.kernel a (w.clients pClt) with
      | none => simp [handleDataInput, hrun] at hstep
      | some r =>
        obtain ⟨rslt, k, clt⟩ := r
        cases rslt with
        | dropped =>
          obtain ⟨w₁, free', inuse', hw₁, hp', hh', ho⟩ := handleDataInput_dropped hp hh hmem.1 hrun
          obtain rfl := Option.some.inj (hw₁.symm.trans hstep)
          exact ⟨free', inuse', hp', hh', fun _ => ho⟩
        | answered =>
          obtain ⟨w₁, hw₁, hp', hh', -, -, ho⟩ := handleDataInput_answered hp hh hmem.1 hrun
          obtain rfl := Option.some.inj (hw₁.symm.trans hstep)
          exact ⟨free, inuse, hp', hh', fun hkeep => ho ((fileFd_add w pClt).trans hkeep)⟩
    · exact hsame (Option.some.inj hstep)
  | writable pClt a =>
    simp only [step, hin] at hstep
    split_ifs at hstep with hmem
    · simp only [Option.bind_eq_bind, Option.bind_eq_some_iff, Option.some.injEq] at hstep
      obtain ⟨⟨k', clt'⟩, hresp, hw'⟩ := hstep
      obtain ⟨hk, hc, hf, -⟩ := handleHttpResp_sameKinds hresp
      have hw₁ : w' = ⟨w.words, Function.update w.clients (containerOf (pClt + offsetOfNode)) clt',
          k'⟩ := by
        rw [← hw', containerOf_add]
        rfl
      obtain ⟨hp₁, hh₁, ho₁⟩ := setClient_frame hp hmem.1 hk (by rw [hc, cmnctFd_add])
        (by rw [hf, fileFd_add]) hw₁ hh
      exact ⟨free, inuse, hp₁, hh₁, fun _ => ho₁⟩
    · exact hsame (Option.some.inj hstep)

end AnalysisPrograms.Shfs
