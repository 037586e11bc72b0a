import AnalysisPrograms.Shfs.EventLoop
import AnalysisPrograms.Shfs.Lifecycle
import AnalysisPrograms.Shfs.Runs

namespace AnalysisPrograms.Shfs

open Foundations Execution FiniteMap Links Kernel

variable {os : Os} {srv : Server} {L : Layout} {lsnFd fd : ℤ} {ev : Events} {sets : FdSets}
variable {w w' w₁ : Worker} {free free' inuse inuse' : List ℕ} {n m : ℕ}

def isReading (w : Worker) (n : ℕ) : Prop := (w.clients (containerOf n)).mSelectType.mr = true

def isWriting (w : Worker) (n : ℕ) : Prop := (w.clients (containerOf n)).mSelectType.mw = true

instance : Decidable (isReading w n) := inferInstanceAs (Decidable (_ = true))

instance : Decidable (isWriting w n) := inferInstanceAs (Decidable (_ = true))

section Search

theorem find_client (hp : Partitioned L w.words free inuse) (hh : Holds w inuse) (hn : n ∈ inuse) :
    ((inuseNodes L w).find? fun m => cmnctFd w m = cmnctFd w n) = some n := by
  rw [hp.inuseNodes_eq]
  cases hfind : inuse.find? fun m => cmnctFd w m = cmnctFd w n with
  | none => exact absurd (decide_eq_true rfl) (List.find?_eq_none.mp hfind n hn)
  | some m =>
    have heq : cmnctFd w m = cmnctFd w n := by simpa using List.find?_some hfind
    rw [hh.conn_inj m (List.mem_of_find?_eq_some hfind) n hn heq]

theorem find_client_none (hp : Partitioned L w.words free inuse)
    (hnone : ∀ m ∈ inuse, cmnctFd w m ≠ fd) :
    ((inuseNodes L w).find? fun m => cmnctFd w m = fd) = none := by
  rw [hp.inuseNodes_eq, List.find?_eq_none]
  intro m hm
  simpa using hnone m hm

theorem readClient_of_mem {ns : List ℕ} (hn : n ∈ ns)
    (hinj : ∀ m ∈ ns, cmnctFd w m = cmnctFd w n → m = n) (p : Option ℕ) :
    readClient w (cmnctFd w n) ns p = some (containerOf n) := by
  induction ns generalizing p with
  | nil => cases hn
  | cons m ns ih =>
    rw [readClient]
    by_cases heq : cmnctFd w m = cmnctFd w n
    · rw [if_pos heq, hinj m List.mem_cons_self heq]
    · rw [if_neg heq]
      have hmem : n ∈ ns := (List.mem_cons.mp hn).resolve_left fun h => heq (h ▸ rfl)
      exact ih hmem (fun x hx => hinj x (List.mem_cons_of_mem m hx)) _

end Search

section Frames

theorem handleDisconnection_clients {p : ℕ} (h : handleDisconnection L w p = some w') :
    ∃ clt, w'.clients = Function.update w.clients p clt := by
  simp only [handleDisconnection, Option.bind_eq_bind, Option.bind_eq_some_iff,
    Option.some.injEq] at h
  obtain ⟨k, -, mem, -, mem', -, k', -, rfl⟩ := h
  exact ⟨_, rfl⟩

theorem handleDisconnection_frame (hp : Partitioned L w.words free inuse) (hh : Holds w inuse)
    (hn : n ∈ inuse) (hrun : handleDisconnection L w (containerOf n) = some w') :
    ∃ free' inuse', Partitioned L w'.words free' inuse' ∧ Holds w' inuse' ∧
      inuse' ⊆ inuse ∧ n ∉ inuse' ∧
      ∀ m ∈ inuse, m ≠ n → m ∈ inuse' ∧ w'.clients (containerOf m) = w.clients (containerOf m) := by
  obtain ⟨clt, hclients⟩ := handleDisconnection_clients hrun
  have hnode := hp.mem_nodes.mpr (.inr hn)
  obtain ⟨w₁, before, after, rfl, hdis, hp₁, hh₁, -⟩ := handleDisconnection_inv hp hh hn
  obtain rfl := Option.some.inj (hdis.symm.trans hrun)
  have hnd := hp.inuseList.1.nodup
  rw [List.nodup_middle] at hnd
  refine ⟨n :: free, before ++ after, hp₁, hh₁, ?_, (List.nodup_cons.mp hnd).1,
    fun m hm hne => ⟨?_, ?_⟩⟩
  · intro m hm
    exact List.mem_append.mpr ((List.mem_append.mp hm).imp_right (List.mem_cons_of_mem n))
  · rcases List.mem_append.mp hm with hm | hm
    · exact List.mem_append_left after hm
    · exact List.mem_append_right before ((List.mem_cons.mp hm).resolve_left hne)
  · rw [hclients]
    exact update_clients_of_ne hnode (hp.mem_nodes.mpr (.inr hm)) hne w.clients clt

theorem handleDataInput_frame {a : ReadAnswers} (hp : Partitioned L w.words free inuse)
    (hh : Holds w inuse) (hn : n ∈ inuse)
    (hrun : handleDataInput os srv L w (containerOf n) a = some w') :
    ∃ free' inuse', Partitioned L w'.words free' inuse' ∧ Holds w' inuse' ∧ inuse' ⊆ inuse ∧
      (∀ m ∈ inuse, m ≠ n → m ∈ inuse' ∧ w'.clients (containerOf m) = w.clients (containerOf m)) ∧
      (n ∈ inuse' → cmnctFd w' n = cmnctFd w n ∧ isWriting w' n) := by
  have hnode := hp.mem_nodes.mpr (.inr hn)
  have hadd := L.node_containerOf hnode
  have hother : ∀ clt : Client, ∀ m ∈ inuse, m ≠ n →
      Function.update w.clients (containerOf n) clt (containerOf m) = w.clients (containerOf m) :=
    fun clt m hm hne => update_clients_of_ne hnode (hp.mem_nodes.mpr (.inr hm)) hne w.clients clt
  obtain ⟨⟨rslt, k, clt⟩, hin, hrest⟩ := Option.bind_eq_some_iff.mp hrun
  cases rslt with
  | answered =>
    obtain ⟨w₁, hw₁, hp', hh', -⟩ := handleDataInput_answered hp hh (hadd.symm ▸ hn) hin
    obtain rfl := Option.some.inj (hw₁.symm.trans hrun)
    obtain rfl := Option.some.inj hrest
    obtain ⟨o, requ, buf, -, rfl⟩ := inputLoop_cases hin
    refine ⟨free, inuse, hp', hh', List.Subset.refl _, fun m hm hne => ⟨hm, ?_⟩, fun _ => ?_⟩
    · simp only [Worker.setClient]
      exact hother _ m hm hne
    · simp only [cmnctFd, isWriting, Worker.setClient, Function.update_self]
      exact ⟨(setup_fds os w.kernel _ o).1, rfl⟩
  | dropped =>
    obtain ⟨rfl, requ, buf, hclt⟩ := inputLoop_cases hin
    obtain ⟨hp₁, hh₁, -⟩ := setClient_frame hp hn (SameKinds.refl _) (by rw [hclt]; rfl)
      (by rw [hclt]; rfl)
      (show w.setClient (containerOf n) clt = _ from rfl) hh
    obtain ⟨free₂, inuse₂, hp₂, hh₂, hsub, hgone, hkept⟩ :=
      handleDisconnection_frame hp₁ hh₁ hn hrest
    refine ⟨free₂, inuse₂, hp₂, hh₂, hsub, fun m hm hne => ⟨(hkept m hm hne).1, ?_⟩,
      fun hmem => absurd hmem hgone⟩
    rw [(hkept m hm hne).2]
    simp only [Worker.setClient]
    exact hother clt m hm hne

theorem handleHttpResp_frame {a : WriteAnswers} {k : Kernel} {clt : Client}
    (hp : Partitioned L w.words free inuse) (hh : Holds w inuse) (hn : n ∈ inuse)
    (hrun : handleHttpResp w.kernel (w.clients (containerOf n)) a = some (k, clt)) :
    Holds { w.setClient (containerOf n) clt with kernel := k } inuse ∧
      ∀ m ∈ inuse, cmnctFd { w.setClient (containerOf n) clt with kernel := k } m = cmnctFd w m ∧
        (m ≠ n → (w.setClient (containerOf n) clt).clients (containerOf m) = w.clients
          (containerOf m)) := by
  obtain ⟨hk, hc, hf, -⟩ := handleHttpResp_sameKinds hrun
  obtain ⟨-, hh', -⟩ := setClient_frame hp hn hk hc (congrArg FileT.mFd hf)
    (show { w.setClient (containerOf n) clt with kernel := k } = _ from rfl) hh
  have hother : ∀ m ∈ inuse, m ≠ n →
      (w.setClient (containerOf n) clt).clients (containerOf m) = w.clients (containerOf m) :=
    fun m hm hne => by
      simp only [Worker.setClient]
      exact update_clients_of_ne (hp.mem_nodes.mpr (.inr hn)) (hp.mem_nodes.mpr (.inr hm))
        hne w.clients clt
  refine ⟨hh', fun m hm => ⟨?_, hother m hm⟩⟩
  by_cases hne : m = n
  · subst hne
    simp only [cmnctFd, Worker.setClient, Function.update_self]
    exact hc
  · unfold cmnctFd
    dsimp only
    rw [hother m hm hne]

end Frames

section ReadPhase

def holder (L : Layout) (w : Worker) (fd : ℤ) : ℕ :=
  (((inuseNodes L w).find? fun n => cmnctFd w n = fd).map containerOf).getD 0

theorem holder_eq (hp : Partitioned L w.words free inuse) (hh : Holds w inuse) (hn : n ∈ inuse) :
    holder L w (cmnctFd w n) = containerOf n := by
  rw [holder, find_client hp hh hn]
  rfl

def readAction (L : Layout) (lsnFd : ℤ) (ev : Events) (w : Worker) (fd : ℤ) : Action :=
  if fd = lsnFd then .connect ev.connect else .readable (holder L w fd) (ev.input fd)

structure Reading (L : Layout) (lsnFd : ℤ) (w : Worker) (inuse : List ℕ) (rest : List ℤ)
    (w' : Worker) (inuse' : List ℕ) : Prop where
  part : ∃ free', Partitioned L w'.words free' inuse'
  holds : Holds w' inuse'
  above : ∀ n ∈ inuse', lsnFd < cmnctFd w' n
  waiting : ∀ n ∈ inuse, cmnctFd w n ∈ rest →
    n ∈ inuse' ∧ w'.clients (containerOf n) = w.clients (containerOf n)
  kept : ∀ n ∈ inuse, n ∈ inuse' → cmnctFd w' n = cmnctFd w n ∧ (isWriting w n → isWriting w' n)
  fresh : ∀ n ∈ inuse', n ∉ inuse → ∀ m ∈ inuse, cmnctFd w' n ≠ cmnctFd w m

variable {rest : List ℤ}

theorem Reading.start (hp : Partitioned L w.words free inuse) (hh : Holds w inuse)
    (habove : ∀ n ∈ inuse, lsnFd < cmnctFd w n) (rest : List ℤ) :
    Reading L lsnFd w inuse rest w inuse where
  part := ⟨free, hp⟩
  holds := hh
  above := habove
  waiting _ hn _ := ⟨hn, rfl⟩
  kept _ _ _ := ⟨rfl, id⟩
  fresh _ hn hnot := absurd hn hnot

theorem Reading.connect {a : ConnectAnswers} (rest : List ℤ)
    (hos : ∀ calls fds, lsnFd < os.unusedFd calls fds) (hp : Partitioned L w.words free inuse)
    (hh : Holds w inuse) (habove : ∀ n ∈ inuse, lsnFd < cmnctFd w n)
    (hrun : handleConnection os L w a = some w') :
    ∃ inuse', Reading L lsnFd w inuse rest w' inuse' := by
  rcases handleConnection_cases os a hp with
    ⟨w₁, hw₁, hwords, hk, hc⟩ | ⟨n, free', clt, words', rfl, hw₁, hp', hfd, -⟩
  · obtain rfl := Option.some.inj (hw₁.symm.trans hrun)
    have hfds : ∀ n ∈ inuse, cmnctFd w₁ n = cmnctFd w n ∧ fileFd w₁ n = fileFd w n := by
      intro n hn
      simp only [cmnctFd, fileFd, hc n hn, and_self]
    refine ⟨inuse, ⟨⟨free, hwords ▸ hp⟩, hh.congr hk hfds, ?_, fun n hn _ => ⟨hn, hc n hn⟩, ?_,
      fun n hn hnot => absurd hn hnot⟩⟩
    · intro n hn
      rw [(hfds n hn).1]
      exact habove n hn
    · intro n hn _
      exact ⟨(hfds n hn).1, fun h => by rwa [isWriting, hc n hn]⟩
  · obtain ⟨w₂, free₂, inuse₂, hw₂, hp₂, hh₂, -⟩ := handleConnection_inv os a hp hh
    obtain rfl := Option.some.inj (hw₂.symm.trans hrun)
    obtain rfl := Option.some.inj (hw₁.symm.trans hw₂)
    obtain rfl := hp₂.inuseList.1.unique hp'.inuseList.1
    have hnode := hp.mem_nodes.mpr (.inl List.mem_cons_self)
    have hold : ∀ m ∈ inuse, m ≠ n ∧ Function.update w.clients (containerOf n) clt (containerOf m) =
        w.clients (containerOf m) := by
      intro m hm
      have hne : m ≠ n := fun he => hp.disjoint n List.mem_cons_self (he ▸ hm)
      exact ⟨hne, update_clients_of_ne hnode (hp.mem_nodes.mpr (.inr hm)) hne w.clients clt⟩
    generalize hnew : (⟨words', Function.update w.clients (containerOf n) clt,
      (w.kernel.newFd os (.socket [])).2⟩ : Worker) = w₂ at hh₂ hp₂
    have hself : cmnctFd w₂ n = os.unusedFd w.kernel.calls w.kernel.fds := by
      simp only [cmnctFd, ← hnew, Function.update_self]
      exact hfd
    have hclients : ∀ m ∈ inuse, w₂.clients (containerOf m) = w.clients (containerOf m) := by
      intro m hm
      simp only [← hnew]
      exact (hold m hm).2
    refine ⟨n :: inuse,
      ⟨⟨_, hp₂⟩, hh₂, ?_, fun m hm _ => ⟨List.mem_cons_of_mem n hm, hclients m hm⟩, ?_, ?_⟩⟩
    · intro m hm
      rcases List.mem_cons.mp hm with rfl | hm
      · rw [hself]
        exact hos _ _
      · rw [cmnctFd, hclients m hm]
        exact habove m hm
    · intro m hm _
      simp only [cmnctFd, isWriting, hclients m hm, imp_self, and_self]
    · intro m hm hnot x hx heq
      obtain rfl := (List.mem_cons.mp hm).resolve_right hnot
      rw [hself] at heq
      exact (os.unused _ _).1 (heq ▸ (hh.conn x hx).mem)

theorem Reading.readable {a : ReadAnswers}
    (h : Reading L lsnFd w inuse (cmnctFd w n :: rest) w' inuse') (hn : n ∈ inuse)
    (hnew : cmnctFd w n ∉ rest) (hrun : handleDataInput os srv L w' (containerOf n) a = some w₁) :
    ∃ inuse₁, Reading L lsnFd w inuse rest w₁ inuse₁ := by
  obtain ⟨free', hp'⟩ := h.part
  have hn' := (h.waiting n hn List.mem_cons_self).1
  obtain ⟨free₁, inuse₁, hp₁, hh₁, hsub, hother, hself⟩ :=
    handleDataInput_frame hp' h.holds hn' hrun
  have hfd : ∀ m ∈ inuse₁, cmnctFd w₁ m = cmnctFd w' m := by
    intro m hm
    by_cases hmn : m = n
    · subst hmn
      exact (hself hm).1
    · rw [cmnctFd, (hother m (hsub hm) hmn).2, cmnctFd]
  refine ⟨inuse₁, ⟨⟨free₁, hp₁⟩, hh₁, ?_, ?_, ?_, ?_⟩⟩
  · intro m hm
    rw [hfd m hm]
    exact h.above m (hsub hm)
  · intro m hm hrest
    have hmn : m ≠ n := by
      rintro rfl
      exact hnew hrest
    obtain ⟨hm', hclt⟩ := h.waiting m hm (List.mem_cons_of_mem _ hrest)
    obtain ⟨hm₁, hclt₁⟩ := hother m hm' hmn
    exact ⟨hm₁, hclt₁.trans hclt⟩
  · intro m hm hm₁
    obtain ⟨hkept, hw⟩ := h.kept m hm (hsub hm₁)
    refine ⟨(hfd m hm₁).trans hkept, fun hwriting => ?_⟩
    by_cases hmn : m = n
    · subst hmn
      exact (hself hm₁).2
    · rw [isWriting, (hother m (hsub hm₁) hmn).2]
      exact hw hwriting
  · intro m hm₁ hnot x hx
    rw [hfd m hm₁]
    exact h.fresh m (hsub hm₁) hnot x hx

theorem readEvent_eq_step (srv : Server) (ev : Events)
    (hos : ∀ calls fds, lsnFd < os.unusedFd calls fds) (hp : Partitioned L w.words free inuse)
    (hh : Holds w inuse) (habove : ∀ n ∈ inuse, lsnFd < cmnctFd w n) (hlt : ∀ x ∈ rest, fd < x)
    (hset : fd ∈ sets.r) (hwatched : fd = lsnFd ∨ ∃ n ∈ inuse, cmnctFd w n = fd ∧ isReading w n)
    (hfirst : fd = lsnFd → w' = w ∧ inuse' = inuse)
    (h : Reading L lsnFd w inuse (fd :: rest) w' inuse') :
    readEvent os srv L lsnFd sets ev w' fd = step os srv L w' (readAction L lsnFd ev w fd) ∧
      ∀ w₁, step os srv L w' (readAction L lsnFd ev w fd) = some w₁ →
        lsnFd ∉ rest ∧ ∃ inuse₁, Reading L lsnFd w inuse rest w₁ inuse₁ := by
  rw [readEvent, if_neg (not_not.mpr hset), readAction]
  by_cases hlsn : fd = lsnFd
  · obtain ⟨rfl, rfl⟩ := hfirst hlsn
    rw [if_pos hlsn, if_pos hlsn]
    refine ⟨rfl, fun w₁ hrun => ⟨fun hmem => ?_, Reading.connect rest hos hp hh habove hrun⟩⟩
    have := hlt _ hmem
    omega
  · obtain ⟨n, hn, rfl, hmr⟩ := hwatched.resolve_left hlsn
    obtain ⟨hn', hclt⟩ := h.waiting n hn List.mem_cons_self
    obtain ⟨free', hp'⟩ := h.part
    have hfd : cmnctFd w' n = cmnctFd w n := (h.kept n hn hn').1
    have hsearch : readClient w' (cmnctFd w n) (inuseNodes L w') none = some (containerOf n) := by
      rw [hp'.inuseNodes_eq, ← hfd]
      exact readClient_of_mem hn' (fun m hm heq => h.holds.conn_inj m hm n hn' heq) none
    have hguard : containerOf n + offsetOfNode ∈ inuseNodes L w' ∧
        (w'.clients (containerOf n)).mSelectType.mr := by
      rw [hp'.inuseNodes_eq, L.node_containerOf (hp'.mem_nodes.mpr (.inr hn')), hclt]
      exact ⟨hn', hmr⟩
    rw [if_neg hlsn, if_neg hlsn, holder_eq hp hh hn, hsearch, step, if_pos hguard]
    refine ⟨rfl, fun w₁ hrun => ⟨fun hmem => ?_, h.readable hn (fun hmem => ?_) hrun⟩⟩
    · have h₁ := hlt _ hmem
      have h₂ := habove n hn
      omega
    · exact absurd (hlt _ hmem) (lt_irrefl _)

theorem exec_readEvent (srv : Server) (ev : Events)
    (hos : ∀ calls fds, lsnFd < os.unusedFd calls fds) (hp : Partitioned L w.words free inuse)
    (hh : Holds w inuse) (habove : ∀ n ∈ inuse, lsnFd < cmnctFd w n)
    (hsorted : rest.Pairwise (· < ·)) (hsets : ∀ fd ∈ rest, fd ∈ sets.r)
    (hrest : ∀ fd ∈ rest, fd = lsnFd ∨ ∃ n ∈ inuse, cmnctFd w n = fd ∧ isReading w n)
    (hfirst : lsnFd ∈ rest → w' = w ∧ inuse' = inuse) (h : Reading L lsnFd w inuse rest w' inuse') :
    exec (readEvent os srv L lsnFd sets ev) w' rest = exec (step os srv L) w'
      (rest.map (readAction L lsnFd ev w)) ∧
      ∀ w₁, exec (step os srv L) w' (rest.map (readAction L lsnFd ev w)) = some w₁ →
        ∃ inuse₁, Reading L lsnFd w inuse [] w₁ inuse₁ := by
  induction rest generalizing w' inuse' with
  | nil =>
    refine ⟨rfl, ?_⟩
    rintro w₁ hrun
    obtain rfl := Option.some.inj hrun
    exact ⟨inuse', h⟩
  | cons fd rest ih =>
    obtain ⟨hlt, hsorted⟩ := List.pairwise_cons.mp hsorted
    have hstep := readEvent_eq_step srv ev hos hp hh habove hlt (hsets fd List.mem_cons_self)
      (hrest fd List.mem_cons_self)
      (fun hlsn => hfirst (hlsn ▸ List.mem_cons_self)) h
    rw [List.map_cons, exec, exec, hstep.1]
    cases hrun : step os srv L w' (readAction L lsnFd ev w fd) with
    | none =>
      refine ⟨rfl, fun w₁ hnone => ?_⟩
      cases hnone
    | some w₁ =>
      obtain ⟨hnot, inuse₁, h₁⟩ := hstep.2 w₁ hrun
      exact ih hsorted (fun x hx => hsets x (List.mem_cons_of_mem fd hx))
        (fun x hx => hrest x (List.mem_cons_of_mem fd hx))
        (fun hmem => absurd hmem hnot) h₁

end ReadPhase

section WritePhase

variable {fds : List ℤ}

def writeAction (L : Layout) (ev : Events) (w : Worker) (fd : ℤ) : Action :=
  .writable (holder L w fd) (ev.output fd)

theorem writeLoop_eq (hp : Partitioned L w.words free inuse) (hh : Holds w inuse)
    (hp' : Partitioned L w'.words free' inuse') (hh' : Holds w' inuse')
    (hkept : ∀ n ∈ inuse, n ∈ inuse' →
      cmnctFd w' n = cmnctFd w n ∧ (cmnctFd w n ∈ fds → isWriting w' n))
    (hfresh : ∀ n ∈ inuse', n ∉ inuse → ∀ m ∈ inuse, cmnctFd w' n ≠ cmnctFd w m)
    (hsorted : fds.Pairwise (· < ·)) (hsets : ∀ fd ∈ fds, fd ∈ sets.w)
    (hfds : ∀ fd ∈ fds, ∃ n ∈ inuse, cmnctFd w n = fd) :
    writeLoop L sets ev w' fds = exec (step os srv L) w'
      ((fds.takeWhile fun fd => holder L w fd + offsetOfNode ∈ inuse').map
        (writeAction L ev w)) := by
  induction fds generalizing w' with
  | nil => rfl
  | cons fd fds ih =>
    obtain ⟨hlt, htail⟩ := List.pairwise_cons.mp hsorted
    obtain ⟨n, hn, rfl⟩ := hfds fd List.mem_cons_self
    have hadd := L.node_containerOf (hp.mem_nodes.mpr (.inr hn))
    rw [writeLoop, if_neg (not_not.mpr (hsets _ List.mem_cons_self)), List.takeWhile_cons,
      holder_eq hp hh hn, hadd]
    by_cases hn' : n ∈ inuse'
    · obtain ⟨hfd, hmw⟩ := hkept n hn hn'
      have hfind := find_client hp' hh' hn'
      rw [hfd] at hfind
      have hguard : containerOf n + offsetOfNode ∈ inuseNodes L w' ∧
          (w'.clients (containerOf n)).mSelectType.mw := by
        rw [hp'.inuseNodes_eq, hadd]
        exact ⟨hn', hmw List.mem_cons_self⟩
      rw [hfind, if_pos (decide_eq_true hn'), List.map_cons, exec, writeAction, holder_eq hp hh hn,
        step, if_pos hguard]
      cases hresp : handleHttpResp w'.kernel (w'.clients (containerOf n))
        (ev.output (cmnctFd w n)) with
      | none => simp only [hresp, Option.bind_eq_bind, Option.bind_none]
      | some r =>
        obtain ⟨k, clt⟩ := r
        obtain ⟨hh₁, hframe⟩ := handleHttpResp_frame hp' hh' hn' hresp
        simp only [hresp, Option.bind_eq_bind, Option.bind_some]
        refine ih hp' hh₁ ?_ ?_ htail (fun x hx => hsets x (List.mem_cons_of_mem _ hx))
          fun x hx => hfds x (List.mem_cons_of_mem _ hx)
        · intro m hm hm'
          obtain ⟨hfd', hother⟩ := hframe m hm'
          obtain ⟨hfd'', hmw'⟩ := hkept m hm hm'
          refine ⟨hfd'.trans hfd'', fun hmem => ?_⟩
          have hne : m ≠ n := by
            rintro rfl
            exact lt_irrefl _ (hlt _ hmem)
          unfold isWriting
          dsimp only
          rw [hother hne]
          exact hmw' (List.mem_cons_of_mem _ hmem)
        · intro m hm' hnot x hx
          rw [(hframe m hm').1]
          exact hfresh m hm' hnot x hx
    · have hnone : ∀ m ∈ inuse', cmnctFd w' m ≠ cmnctFd w n := by
        intro m hm heq
        by_cases hmem : m ∈ inuse
        · rw [(hkept m hmem hm).1] at heq
          exact hn' (hh.conn_inj m hmem n hn heq ▸ hm)
        · exact hfresh m hm hmem n hn heq
      rw [find_client_none hp' hnone, if_neg (by simpa using hn')]
      rfl

end WritePhase

section Watching

variable {ns : List ℕ} {sets' : FdSets}

def hasPlace (fd : ℤ) : Prop := 0 ≤ fd ∧ fd < FD_SETSIZE

theorem fdSetIf_iff {interest : Bool} {fds fds' : List ℤ} :
    fdSetIf interest fds fd = some fds' ↔
      (interest = true → hasPlace fd) ∧ fds' = if interest then fd :: fds else fds := by
  cases interest with
  | false => simp [fdSetIf, eq_comm]
  | true =>
    by_cases hfd : 0 ≤ fd ∧ fd < FD_SETSIZE
    · simp [fdSetIf, fdSet, hasPlace, hfd, eq_comm]
    · simp [fdSetIf, fdSet, hasPlace, hfd]

theorem watchClient_iff : watchClient w sets n = some sets' ↔
    cmnctFd w n ∈ w.kernel.fds ∧ (isReading w n ∨ isWriting w n → hasPlace (cmnctFd w n)) ∧
      sets' =
      ⟨max sets.fdMax (cmnctFd w n), if isReading w n then cmnctFd w n :: sets.r else sets.r,
        if isWriting w n then cmnctFd w n :: sets.w else sets.w⟩ := by
  simp only [watchClient, Option.bind_eq_bind, Option.bind_eq_some_iff, fdSetIf_iff,
    Option.guard_eq_some', exists_const, Option.some.injEq, or_imp]
  constructor
  · rintro ⟨hopen, _, ⟨hr, rfl⟩, _, ⟨hw, rfl⟩, rfl⟩
    exact ⟨hopen, ⟨hr, hw⟩, rfl⟩
  · rintro ⟨hopen, ⟨hr, hw⟩, rfl⟩
    exact ⟨hopen, _, ⟨hr, rfl⟩, _, ⟨hw, rfl⟩, rfl⟩

structure Watched (w : Worker) (ns : List ℕ) (sets sets' : FdSets) : Prop where
  reads : ∀ fd, fd ∈ sets'.r ↔ fd ∈ sets.r ∨ ∃ n ∈ ns, cmnctFd w n = fd ∧ isReading w n
  writes : ∀ fd, fd ∈ sets'.w ↔ fd ∈ sets.w ∨ ∃ n ∈ ns, cmnctFd w n = fd ∧ isWriting w n
  grows : sets.fdMax ≤ sets'.fdMax
  bounds : ∀ n ∈ ns, cmnctFd w n ≤ sets'.fdMax

theorem mem_ite_cons {x : ℤ} {fds : List ℤ} (p : Prop) [Decidable p] :
    x ∈ (if p then fd :: fds else fds) ↔ x ∈ fds ∨ fd = x ∧ p := by
  by_cases hp : p
  · simp [hp, or_comm, eq_comm]
  · simp [hp]

theorem exec_watchClient (h : exec (watchClient w) sets ns = some sets') :
    Watched w ns sets sets' := by
  induction ns generalizing sets with
  | nil =>
    obtain rfl := Option.some.inj h
    exact ⟨by simp, by simp, le_rfl, nofun⟩
  | cons n ns ih =>
    obtain ⟨mid, hmid, hrest⟩ := exec_cons_iff.mp h
    obtain ⟨-, -, rfl⟩ := watchClient_iff.mp hmid
    obtain ⟨hr, hw, hgrow, hbounds⟩ := ih hrest
    refine ⟨fun x => ?_, fun x => ?_, (le_max_left _ _).trans hgrow, ?_⟩
    · rw [hr, mem_ite_cons, or_assoc]
      simp
    · rw [hw, mem_ite_cons, or_assoc]
      simp
    · exact List.forall_mem_cons.mpr ⟨(le_max_right _ _).trans hgrow, hbounds⟩

theorem exec_watchClient_isSome : (exec (watchClient w) sets ns).isSome ↔
    ∀ n ∈ ns, cmnctFd w n ∈ w.kernel.fds ∧
    (isReading w n ∨ isWriting w n → hasPlace (cmnctFd w n)) := by
  induction ns generalizing sets with
  | nil => exact iff_of_true rfl nofun
  | cons n ns ih =>
    rw [List.forall_mem_cons, exec]
    cases hmid : watchClient w sets n with
    | none =>
      refine iff_of_false (by simp) fun hall => ?_
      cases hmid.symm.trans (watchClient_iff.mpr ⟨hall.1.1, hall.1.2, rfl⟩)
    | some mid =>
      obtain ⟨hopen, hplace, -⟩ := watchClient_iff.mp hmid
      rw [Option.bind_some, ih]
      exact ⟨fun hall => ⟨⟨hopen, hplace⟩, hall⟩, And.right⟩

theorem watch_isSome_iff (hp : Partitioned L w.words free inuse) (hh : Holds w inuse) :
    (watch L lsnFd w).isSome ↔
      hasPlace lsnFd ∧ ∀ n ∈ inuse, isReading w n ∨ isWriting w n → hasPlace (cmnctFd w n) := by
  have hunfold : watch L lsnFd w = (fdSet [] lsnFd).bind fun fdsR =>
      exec (watchClient w) ⟨lsnFd, fdsR, []⟩ (inuseNodes L w) := rfl
  rw [hunfold, hp.inuseNodes_eq]
  by_cases hlsn : 0 ≤ lsnFd ∧ lsnFd < FD_SETSIZE
  · rw [fdSet, if_pos hlsn, Option.bind_some, exec_watchClient_isSome]
    exact ⟨fun h => ⟨hlsn, fun n hn => (h n hn).2⟩, fun h n hn => ⟨(hh.conn n hn).mem, h.2 n hn⟩⟩
  · rw [fdSet, if_neg hlsn]
    exact iff_of_false (by simp) fun h => hlsn h.1

theorem watch_watched (hp : Partitioned L w.words free inuse) (h : watch L lsnFd w = some sets) :
    hasPlace lsnFd ∧ Watched w inuse ⟨lsnFd, [lsnFd], []⟩ sets := by
  obtain ⟨fdsR, hset, hexec⟩ := Option.bind_eq_some_iff.mp h
  rw [hp.inuseNodes_eq] at hexec
  by_cases hlsn : 0 ≤ lsnFd ∧ lsnFd < FD_SETSIZE
  · rw [fdSet, if_pos hlsn] at hset
    obtain rfl := Option.some.inj hset
    exact ⟨hlsn, exec_watchClient hexec⟩
  · rw [fdSet, if_neg hlsn] at hset
    cases hset

end Watching

end AnalysisPrograms.Shfs
