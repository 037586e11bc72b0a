import AnalysisPrograms.Shfs.Lifecycle
import AnalysisPrograms.Shfs.SmallServer

namespace AnalysisPrograms.Shfs

open Foundations FiniteMap Links Kernel

def ClientsPartitioned (L : Layout) (words : Words) : Prop :=
  ∃ free inuse, Walk words 0 (words L.freeClients) free ∧
    Walk words 0 (words L.inuseClients) inuse ∧ free.Nodup ∧ inuse.Nodup ∧ (∀ n ∈ free, n ∉ inuse) ∧
    ∀ n, n ∈ L.nodes ↔ n ∈ free ∨ n ∈ inuse

theorem Partitioned.clients {L : Layout} {words : Words} {free inuse : List ℕ}
    (h : Partitioned L words free inuse) : ClientsPartitioned L words :=
  ⟨free, inuse, h.freeList.1, h.inuseList.1, h.freeList.1.nodup, h.inuseList.1.nodup, h.disjoint,
    fun _ => h.mem_nodes⟩

def Action.isListCall : Action → Prop
  | .connect _ => True
  | .disconnect _ => True
  | .readable _ _ => False
  | .writable _ _ => False

def WorkerInv (L : Layout) (w : Worker) : Prop :=
  ∃ free inuse, Partitioned L w.words free inuse ∧ Holds w inuse

theorem buildContext_inv (L : Layout) (words : Words) (kernel : Kernel) :
    ∃ w, buildContext L words kernel = some w ∧ w.kernel = kernel ∧
      Partitioned L w.words L.nodes.reverse [] ∧
      Holds w [] := by
  obtain ⟨w, hrun, hk, hp⟩ := buildContext_spec L words kernel
  exact ⟨w, hrun, hk, hp, by simp, by simp, by simp, by simp⟩

theorem listCall_total (os : Os) (srv : Server) (L : Layout) (w : Worker) (act : Action)
    (h : WorkerInv L w) (hact : act.isListCall) :
    ∃ w', step os srv L w act = some w' ∧ WorkerInv L w' := by
  obtain ⟨free, inuse, hp, hh⟩ := h
  have hin : inuseNodes L w = inuse := hp.inuseNodes_eq
  cases act with
  | connect a =>
    obtain ⟨w', free', inuse', hrun, hp', hh', -⟩ := handleConnection_inv os a hp hh
    exact ⟨w', hrun, free', inuse', hp', hh'⟩
  | disconnect pClt =>
    by_cases hmem : pClt + offsetOfNode ∈ inuse
    · obtain ⟨w', before, after, -, hrun, hp', hh', -⟩ := handleDisconnection_inv hp hh hmem
      rw [containerOf_add] at hrun
      exact ⟨w', by simp only [step, hin, hmem, ↓reduceIte, hrun], _, _, hp', hh'⟩
    · exact ⟨w, by simp only [step, hin, hmem, ↓reduceIte], free, inuse, hp, hh⟩
  | readable pClt a => exact absurd hact id
  | writable pClt a => exact absurd hact id

theorem clients_partitioned (os : Os) (srv : Server) (L : Layout) (words : Words)
    (kernel : Kernel) :
    ∃ w₀, buildContext L words kernel = some w₀ ∧
      (∀ actions w, Execution.exec (step os srv L) w₀ actions = some w →
        ClientsPartitioned L w.words) ∧
      ∀ actions, (∀ act ∈ actions, Action.isListCall act) →
        ∃ w, Execution.exec (step os srv L) w₀ actions = some w := by
  obtain ⟨w₀, hrun, -, hp, hh⟩ := buildContext_inv L words kernel
  have hinv : WorkerInv L w₀ := ⟨_, _, hp, hh⟩
  refine ⟨w₀, hrun, ?_, ?_⟩
  · intro actions w hexec
    have hok : Execution.Along (step os srv L) (fun _ _ => True) w₀ actions :=
      Execution.along_of_forall (fun _ _ => trivial) w₀
    obtain ⟨free, inuse, hp', -⟩ := Execution.inv_exec (WorkerInv L) (fun _ _ => True)
      (fun w act w' h _ hstep => by
        obtain ⟨free, inuse, hp, hh⟩ := h
        obtain ⟨free', inuse', hp', hh', -⟩ := step_inv hp hh hstep
        exact ⟨free', inuse', hp', hh'⟩) hinv hok hexec
    exact hp'.clients
  · intro actions hact
    obtain ⟨w, hexec, -⟩ :=
      Execution.exec_total_along (WorkerInv L) (fun _ act => Action.isListCall act)
        (listCall_total os srv L) hinv (Execution.along_of_forall hact w₀)
    exact ⟨w, hexec⟩

def FilesOwned (L : Layout) (w : Worker) : Prop :=
  ∃ inuse, Walk w.words 0 (w.words L.inuseClients) inuse ∧
    (∀ fd, w.kernel.isFile fd ↔ ∃ n ∈ inuse, fileFd w n = fd ∧ fd ≠ -1) ∧
    ∀ n ∈ inuse, ∀ m ∈ inuse, fileFd w n ≠ -1 → fileFd w n = fileFd w m → n = m

theorem Holds.filesOwned {L : Layout} {w : Worker} {free inuse : List ℕ}
    (hp : Partitioned L w.words free inuse) (hh : Holds w inuse) (ho : Owned w inuse) :
    FilesOwned L w := by
  refine ⟨inuse, hp.inuseList.1, fun fd => ⟨fun hfd => ?_, ?_⟩, hh.file_inj⟩
  · obtain ⟨hne, n, hn, he⟩ := ho fd hfd
    exact ⟨n, hn, he, hne⟩
  · rintro ⟨n, hn, rfl, hne⟩
    exact (hh.file n hn hne).1

theorem step_leaks {os : Os} {srv : Server} {L : Layout} {w : Worker} {act : Action}
    {free inuse : List ℕ} (hp : Partitioned L w.words free inuse) (hh : Holds w inuse)
    (hbad : ¬KeepsFiles os srv L w act) :
    ∃ w', step os srv L w act = some w' ∧ ¬FilesOwned L w' := by
  have hin : inuseNodes L w = inuse := hp.inuseNodes_eq
  cases act with
  | connect a => exact absurd trivial hbad
  | disconnect pClt => exact absurd trivial hbad
  | writable pClt a => exact absurd trivial hbad
  | readable pClt a =>
    simp only [KeepsFiles, Classical.not_imp] at hbad
    obtain ⟨hmem, hbad⟩ := hbad
    cases hrun : dataInput os srv w.kernel a (w.clients pClt) with
    | none => simp [hrun] at hbad
    | some r =>
      obtain ⟨rslt, k, clt⟩ := r
      cases rslt with
      | dropped => simp [hrun] at hbad
      | answered =>
        rw [hrun] at hbad
        have hfd : fileFd w (pClt + offsetOfNode) ≠ -1 := by
          rw [fileFd_add]
          exact hbad
        rw [hin] at hmem
        obtain ⟨w', hw', hp', -, hr, hold, -⟩ := handleDataInput_answered hp hh hmem.1 hrun
        refine ⟨w', by simp only [step, hin, hmem, and_self, ↓reduceIte, hw'], ?_⟩
        rintro ⟨inuse', hwalk, hfiles, -⟩
        obtain rfl := hwalk.unique hp'.inuseList.1
        have hopen := (hh.file _ hmem.1 hfd).1
        obtain ⟨m, hm, he, -⟩ := (hfiles _).mp ((hr.files _).mpr (.inr hopen))
        by_cases hmn : m = pClt + offsetOfNode
        · subst hmn
          rw [← he] at hopen hfd
          exact (hr.fresh hfd).1 hopen
        · rw [hold m hm hmn] at he
          rw [← he] at hfd
          exact hmn (hh.file_inj m hm _ hmem.1 hfd he)

theorem filesOwned_iff (os : Os) (srv : Server) (L : Layout) (words : Words) (kernel : Kernel)
    (actions : List Action) (hk : ∀ fd, ¬kernel.isFile fd) :
    ∃ w₀, buildContext L words kernel = some w₀ ∧
      ((∀ done rest w, actions = done ++ rest → Execution.exec (step os srv L) w₀ done = some w →
          FilesOwned L w) ↔
        Execution.Along (step os srv L) (KeepsFiles os srv L) w₀ actions) := by
  obtain ⟨w₀, hrun, hkernel, hp, hh⟩ := buildContext_inv L words kernel
  have ho : Owned w₀ [] := fun fd hfd => absurd (hkernel ▸ hfd) (hk fd)
  refine ⟨w₀, hrun, Execution.good_iff_along
    (fun w => ∃ free inuse, Partitioned L w.words free inuse ∧ Holds w inuse ∧ Owned w inuse)
    (FilesOwned L) (KeepsFiles os srv L) ?_ ?_ ?_ ⟨_, _, hp, hh, ho⟩ actions⟩
  · rintro w ⟨free, inuse, hp, hh, ho⟩
    exact hh.filesOwned hp ho
  · rintro w act w' ⟨free, inuse, hp, hh, ho⟩ hkeep hstep
    obtain ⟨free', inuse', hp', hh', ho'⟩ := step_inv hp hh hstep
    exact ⟨free', inuse', hp', hh', ho' hkeep ho⟩
  · rintro w act ⟨free, inuse, hp, hh, -⟩ hbad
    exact step_leaks hp hh hbad

def smallRun (actions : List Action) : Option Worker :=
  (buildContext oneClient (fun _ => 0) ⟨∅, 0⟩).bind fun w₀ =>
    Execution.exec (step nextFd (oneFile hello) oneClient) w₀ actions

theorem filesOwned_one_request :
    ∃ w, smallRun [.connect accepts, .readable 4000 (delivers "GET /a HTTP/1.1\r\n\r\n"),
        .writable 4000 ⟨[.accepted 99], 0⟩, .connect accepts] = some w ∧
        FilesOwned oneClient w := by
  generalize hacts : [Action.connect accepts, .readable 4000 (delivers "GET /a HTTP/1.1\r\n\r\n"),
    .writable 4000 ⟨[.accepted 99], 0⟩, .connect accepts] = actions
  have hall : (buildContext oneClient (fun _ => 0) ⟨∅, 0⟩).all (fun w₀ =>
      decide (Execution.Along (step nextFd (oneFile hello) oneClient)
        (KeepsFiles nextFd (oneFile hello) oneClient) w₀ actions)) := by
    rw [← hacts]
    decide +kernel
  have hsome : (smallRun actions).isSome := by
    rw [← hacts]
    decide +kernel
  obtain ⟨w₀, hbuild, hiff⟩ := filesOwned_iff nextFd (oneFile hello) oneClient (fun _ => 0)
    ⟨∅, 0⟩ actions (by rintro fd ⟨_, _, h⟩; simp at h)
  obtain ⟨w, hw⟩ := Option.isSome_iff_exists.mp hsome
  rw [hbuild, Option.all_some, decide_eq_true_eq] at hall
  refine ⟨w, hw, hiff.mpr hall actions [] w (List.append_nil _).symm ?_⟩
  rw [smallRun, hbuild] at hw
  exact hw

def hasFile (k : Kernel) (fd : ℤ) : Bool :=
  match k.fds.lookup fd with
  | some (.file _ _) => true
  | _ => false

theorem isFile_of_hasFile {k : Kernel} {fd : ℤ} (h : hasFile k fd = true) : k.isFile fd := by
  unfold hasFile at h
  split at h
  next contents offset hl => exact ⟨contents, offset, hl⟩
  next => cases h

theorem second_request_leaks :
    ∃ w, smallRun [.connect accepts, .readable 4000 (delivers "GET /a HTTP/1.1\r\n\r\n"),
        .readable 4000 (delivers "GET /a HTTP/1.1\r\n\r\n")] = some w ∧
        ¬FilesOwned oneClient w := by
  have hrun : (smallRun [.connect accepts, .readable 4000 (delivers "GET /a HTTP/1.1\r\n\r\n"),
      .readable 4000 (delivers "GET /a HTTP/1.1\r\n\r\n")]).map (fun w =>
        (w.words oneClient.inuseClients, w.words 4144, hasFile w.kernel 2, fileFd w 4144)) =
      some (4144, 0, true, 3) := by
    decide +kernel
  obtain ⟨w, hw, hfacts⟩ := Option.map_eq_some_iff.mp hrun
  simp only [Prod.mk.injEq] at hfacts
  obtain ⟨hhead, hnext, hfile, hfd⟩ := hfacts
  refine ⟨w, hw, ?_⟩
  rintro ⟨inuse, hwalk, hfiles, -⟩
  have hone : inuse = [4144] := hwalk.unique ⟨hhead, by omega, hnext⟩
  obtain ⟨n, hn, he, -⟩ := (hfiles 2).mp (isFile_of_hasFile hfile)
  rw [hone, List.mem_singleton] at hn
  rw [hn, hfd] at he
  omega

end AnalysisPrograms.Shfs
