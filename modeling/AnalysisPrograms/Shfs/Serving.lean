import AnalysisPrograms.Shfs.Rounds

namespace AnalysisPrograms.Shfs

open Foundations Execution FiniteMap Links Kernel

variable {os : Os} {srv : Server} {L : Layout} {lsnFd fd : ℤ} {ev : Events} {sets : FdSets}
variable {w w' w₁ : Worker} {free free' inuse inuse' : List ℕ} {n m : ℕ}

section Round

def readFds (sets : FdSets) (ev : Events) : List ℤ :=
  (fdsUpTo sets.fdMax).filter fun fd => fd ∈ (sets.select ev).r

def writeFds (sets : FdSets) (ev : Events) : List ℤ :=
  (fdsUpTo sets.fdMax).filter fun fd => fd ∈ (sets.select ev).w

theorem fdsUpTo_sorted (fdMax : ℤ) : (fdsUpTo fdMax).Pairwise (· < ·) :=
  List.Pairwise.map (fun fd : ℕ => (fd : ℤ)) (fun _ _ h => Int.ofNat_lt.mpr h)
    List.pairwise_lt_range

theorem readFds_sorted (sets : FdSets) (ev : Events) : (readFds sets ev).Pairwise (· < ·) :=
  (fdsUpTo_sorted sets.fdMax).filter _

theorem mem_readFds (h : fd ∈ readFds sets ev) : fd ∈ (sets.select ev).r ∧ fd ∈ sets.r := by
  have hsel : fd ∈ (sets.select ev).r := by simpa using (List.mem_filter.mp h).2
  exact ⟨hsel, (List.mem_filter.mp hsel).1⟩

theorem mem_writeFds (h : fd ∈ writeFds sets ev) : fd ∈ (sets.select ev).w ∧ fd ∈ sets.w := by
  have hsel : fd ∈ (sets.select ev).w := by simpa using (List.mem_filter.mp h).2
  exact ⟨hsel, (List.mem_filter.mp hsel).1⟩

theorem handleReadEvents_eq (os : Os) (srv : Server) (L : Layout) (lsnFd : ℤ) (sets : FdSets)
    (ev : Events) (w : Worker) :
    handleReadEvents os srv L lsnFd (sets.select ev) ev w =
      exec (readEvent os srv L lsnFd (sets.select ev) ev) w (readFds sets ev) := by
  refine (exec_filter _ (fun w fd hfd => ?_) w _).symm
  rw [readEvent, if_pos (of_decide_eq_false hfd)]

theorem writeLoop_filter (L : Layout) (sets : FdSets) (ev : Events) (w : Worker) (fds : List ℤ) :
    writeLoop L sets ev w (fds.filter fun fd => fd ∈ sets.w) = writeLoop L sets ev w fds := by
  induction fds generalizing w with
  | nil => rfl
  | cons fd fds ih =>
    by_cases hfd : fd ∈ sets.w
    · rw [List.filter_cons_of_pos (by simpa using hfd), writeLoop, writeLoop]
      simp only [ih]
    · rw [List.filter_cons_of_neg (by simpa using hfd), writeLoop, if_pos hfd, ih]

def readActions (L : Layout) (lsnFd : ℤ) (sets : FdSets) (ev : Events) (w : Worker) : List Action :=
  (readFds sets ev).map (readAction L lsnFd ev w)

def writeActions (L : Layout) (sets : FdSets) (ev : Events) (w w₁ : Worker) : List Action :=
  ((writeFds sets ev).takeWhile fun fd => holder L w fd + offsetOfNode ∈ inuseNodes L w₁).map
    (writeAction L ev w)

theorem handleEvents_eq (hos : ∀ calls fds, lsnFd < os.unusedFd calls fds)
    (hp : Partitioned L w.words free inuse) (hh : Holds w inuse)
    (habove : ∀ n ∈ inuse, lsnFd < cmnctFd w n) (hwatch : watch L lsnFd w = some sets)
    (ev : Events) :
    handleEvents os srv L lsnFd (sets.select ev) ev w =
      (exec (step os srv L) w (readActions L lsnFd sets ev w)).bind fun w₁ =>
        exec (step os srv L) w₁ (writeActions L sets ev w w₁) := by
  obtain ⟨-, hwatched⟩ := watch_watched hp hwatch
  have hreads : ∀ fd ∈ readFds sets ev, fd = lsnFd ∨
      ∃ n ∈ inuse, cmnctFd w n = fd ∧ isReading w n := by
    intro fd hfd
    simpa using (hwatched.reads fd).mp (mem_readFds hfd).2
  have hwrites : ∀ fd ∈ writeFds sets ev, ∃ n ∈ inuse, cmnctFd w n = fd ∧ isWriting w n := by
    intro fd hfd
    simpa using (hwatched.writes fd).mp (mem_writeFds hfd).2
  obtain ⟨heq, hafter⟩ := exec_readEvent srv ev hos hp hh habove (readFds_sorted sets ev)
    (fun fd hfd => (mem_readFds hfd).1) hreads (fun _ => ⟨rfl, rfl⟩) (.start hp hh habove _)
  rw [handleEvents, handleReadEvents_eq, heq, readActions]
  cases hrun : exec (step os srv L) w ((readFds sets ev).map (readAction L lsnFd ev w)) with
  | none => rfl
  | some w₁ =>
    obtain ⟨inuse₁, hreading⟩ := hafter w₁ hrun
    obtain ⟨free₁, hp₁⟩ := hreading.part
    show handleWriteEvents L (sets.select ev) ev w₁ = exec (step os srv L) w₁
      (writeActions L sets ev w w₁)
    rw [handleWriteEvents, ← writeLoop_filter, writeActions, hp₁.inuseNodes_eq]
    refine writeLoop_eq hp hh hp₁ hreading.holds ?_ hreading.fresh
      ((fdsUpTo_sorted sets.fdMax).filter _)
      (fun fd hfd => (mem_writeFds hfd).1) fun fd hfd => ?_
    · intro n hn hn₁
      refine ⟨(hreading.kept n hn hn₁).1, fun hmem => (hreading.kept n hn hn₁).2 ?_⟩
      obtain ⟨m, hm, heq, hwriting⟩ := hwrites _ hmem
      rwa [hh.conn_inj m hm n hn heq] at hwriting
    · obtain ⟨n, hn, heq, -⟩ := hwrites fd hfd
      exact ⟨n, hn, heq⟩

end Round

section Runs

def Serving (L : Layout) (lsnFd : ℤ) (w : Worker) : Prop :=
  ∃ free inuse, Partitioned L w.words free inuse ∧ Holds w inuse ∧ ∀ n ∈ inuse, lsnFd < cmnctFd w n

theorem Serving.shrink (hp : Partitioned L w'.words free' inuse') (hh : Holds w' inuse')
    (habove : ∀ n ∈ inuse, lsnFd < cmnctFd w n)
    (hfd : ∀ m ∈ inuse', m ∈ inuse ∧ cmnctFd w' m = cmnctFd w m) : Serving L lsnFd w' := by
  refine ⟨free', inuse', hp, hh, fun m hm => ?_⟩
  rw [(hfd m hm).2]
  exact habove m (hfd m hm).1

theorem step_serving (hos : ∀ calls fds, lsnFd < os.unusedFd calls fds) {act : Action}
    (h : Serving L lsnFd w) (hstep : step os srv L w act = some w') : Serving L lsnFd w' := by
  obtain ⟨free, inuse, hp, hh, habove⟩ := h
  have hin : inuseNodes L w = inuse := hp.inuseNodes_eq
  have hsame : w = w' → Serving L lsnFd w' := by
    rintro rfl
    exact ⟨free, inuse, hp, hh, habove⟩
  cases act with
  | connect a =>
    obtain ⟨inuse', hreading⟩ := Reading.connect [] hos hp hh habove hstep
    obtain ⟨free', hp'⟩ := hreading.part
    exact ⟨free', inuse', hp', hreading.holds, hreading.above⟩
  | disconnect pClt =>
    simp only [step, hin] at hstep
    split_ifs at hstep with hmem
    · rw [← containerOf_add pClt] at hstep
      obtain ⟨free', inuse', hp', hh', hsub, hgone, hkept⟩ :=
        handleDisconnection_frame hp hh hmem hstep
      refine .shrink hp' hh' habove fun m hm => ⟨hsub hm, ?_⟩
      have hne : m ≠ pClt + offsetOfNode := fun he => hgone (he ▸ hm)
      rw [cmnctFd, (hkept m (hsub hm) hne).2, cmnctFd]
    · exact hsame (Option.some.inj hstep)
  | readable pClt a =>
    simp only [step, hin] at hstep
    split_ifs at hstep with hmem
    · rw [← containerOf_add pClt] at hstep
      obtain ⟨free', inuse', hp', hh', hsub, hother, hself⟩ :=
        handleDataInput_frame hp hh hmem.1 hstep
      refine .shrink hp' hh' habove fun m hm => ⟨hsub hm, ?_⟩
      by_cases hne : m = pClt + offsetOfNode
      · subst hne
        exact (hself hm).1
      · rw [cmnctFd, (hother m (hsub hm) hne).2, cmnctFd]
    · exact hsame (Option.some.inj hstep)
  | writable pClt a =>
    simp only [step, hin] at hstep
    split_ifs at hstep with hmem
    · rw [← containerOf_add pClt] at hstep
      obtain ⟨⟨k, clt⟩, hresp, hw'⟩ := Option.bind_eq_some_iff.mp hstep
      obtain rfl := Option.some.inj hw'
      obtain ⟨hh', hframe⟩ := handleHttpResp_frame hp hh hmem.1 hresp
      exact .shrink hp hh' habove fun m hm => ⟨hm, (hframe m hm).1⟩
    · exact hsame (Option.some.inj hstep)

theorem exec_serving (hos : ∀ calls fds, lsnFd < os.unusedFd calls fds) {acts : List Action}
    (h : Serving L lsnFd w) (hrun : exec (step os srv L) w acts = some w') : Serving L lsnFd w' :=
  inv_exec (Serving L lsnFd) (fun _ _ => True) (fun _ _ _ hs _ hstep => step_serving hos hs hstep) h
    (along_of_forall (fun _ _ => trivial) w) hrun

theorem iteration_ready (hos : ∀ calls fds, lsnFd < os.unusedFd calls fds) (h : Serving L lsnFd w)
    (ev : Events) :
    iteration os srv L lsnFd (.running w) (.ready ev) = (watch L lsnFd w).bind fun sets =>
      (exec (step os srv L) w (readActions L lsnFd sets ev w)).bind fun w₁ =>
        (exec (step os srv L) w₁ (writeActions L sets ev w w₁)).map .running := by
  obtain ⟨free, inuse, hp, hh, habove⟩ := h
  rw [iteration]
  cases hwatch : watch L lsnFd w with
  | none => rfl
  | some sets =>
    simp only [Option.bind_eq_bind, Option.bind_some, handleEvents_eq hos hp hh habove hwatch]
    cases exec (step os srv L) w (readActions L lsnFd sets ev w) with
    | none => rfl
    | some w₁ =>
      simp only [Option.bind_some]
      cases exec (step os srv L) w₁ (writeActions L sets ev w w₁) with
      | none => rfl
      | some w₂ => rfl

theorem iteration_refines (hos : ∀ calls fds, lsnFd < os.unusedFd calls fds) {loop loop' : Loop}
    {selected : Selected} (h : Serving L lsnFd loop.worker)
    (hrun : iteration os srv L lsnFd loop selected = some loop') :
    Serving L lsnFd loop'.worker ∧
      ∃ acts, exec (step os srv L) loop.worker acts = some loop'.worker := by
  have hsame : loop.worker = loop'.worker →
      Serving L lsnFd loop'.worker ∧
      ∃ acts, exec (step os srv L) loop.worker acts = some loop'.worker := by
    intro heq
    exact ⟨heq ▸ h, [], congrArg some heq⟩
  cases loop with
  | returned rslt w =>
    obtain rfl := Option.some.inj hrun
    exact hsame rfl
  | running w =>
    cases selected with
    | ready ev =>
      have hserving : Serving L lsnFd w := h
      rw [iteration_ready hos hserving] at hrun
      obtain ⟨sets, -, hrun⟩ := Option.bind_eq_some_iff.mp hrun
      obtain ⟨w₁, hread, hrun⟩ := Option.bind_eq_some_iff.mp hrun
      obtain ⟨w₂, hwrite, rfl⟩ := Option.map_eq_some_iff.mp hrun
      have hexec := exec_append hread hwrite
      exact ⟨exec_serving hos h hexec, _, hexec⟩
    | timeout =>
      obtain ⟨sets, -, hrun⟩ := Option.bind_eq_some_iff.mp hrun
      obtain rfl := Option.some.inj hrun
      exact hsame rfl
    | interrupted =>
      obtain ⟨sets, -, hrun⟩ := Option.bind_eq_some_iff.mp hrun
      obtain rfl := Option.some.inj hrun
      exact hsame rfl
    | failed =>
      obtain ⟨sets, -, hrun⟩ := Option.bind_eq_some_iff.mp hrun
      obtain rfl := Option.some.inj hrun
      exact hsame rfl

theorem eventLoop_serving (hos : ∀ calls fds, lsnFd < os.unusedFd calls fds) {listens : Bool}
    {answers : List Selected} {loop : Loop} (h : Serving L lsnFd w)
    (hrun : eventLoop os srv L lsnFd listens answers w = some loop) :
    Serving L lsnFd loop.worker ∧ ∃ acts, exec (step os srv L) w acts = some loop.worker := by
  cases listens with
  | false =>
    obtain rfl := Option.some.inj hrun
    exact ⟨h, [], rfl⟩
  | true =>
    have hrun : exec (iteration os srv L lsnFd) (.running w) answers = some loop := hrun
    have h : Serving L lsnFd (Loop.running w).worker := h
    refine ⟨?_, exec_refines Loop.worker (fun loop => Serving L lsnFd loop.worker)
      (fun loop selected loop' h hstep =>
      iteration_refines hos h hstep) h hrun⟩
    exact inv_exec (fun loop => Serving L lsnFd loop.worker) (fun _ _ => True)
      (fun loop selected loop' h _ hstep => (iteration_refines hos h hstep).1) h
        (along_of_forall (fun _ _ => trivial) _) hrun

theorem buildContext_serving {words : Words} {kernel : Kernel} (lsnFd : ℤ)
    (h : buildContext L words kernel = some w) : Serving L lsnFd w := by
  obtain ⟨w₀, hbuild, -, hp, hh⟩ := buildContext_inv L words kernel
  obtain rfl := Option.some.inj (hbuild.symm.trans h)
  exact ⟨_, _, hp, hh, nofun⟩

theorem eventLoop_round {words : Words} {kernel : Kernel} {w₀ : Worker} {answers : List Selected}
    (hos : ∀ calls fds, lsnFd < os.unusedFd calls fds)
    (hbuild : buildContext L words kernel = some w₀)
    (hreach : eventLoop os srv L lsnFd true answers w₀ = some (.running w)) (ev : Events) :
    iteration os srv L lsnFd (.running w) (.ready ev) = (watch L lsnFd w).bind fun sets =>
      (exec (step os srv L) w (readActions L lsnFd sets ev w)).bind fun w₁ =>
        (exec (step os srv L) w₁ (writeActions L sets ev w w₁)).map .running :=
  iteration_ready hos (eventLoop_serving hos (buildContext_serving lsnFd hbuild) hreach).1 ev

theorem eventLoop_refines {words : Words} {kernel : Kernel} {w₀ : Worker} {listens : Bool}
    {answers : List Selected} {loop : Loop} (hos : ∀ calls fds, lsnFd < os.unusedFd calls fds)
    (hbuild : buildContext L words kernel = some w₀)
    (hrun : eventLoop os srv L lsnFd listens answers w₀ = some loop) :
    (∃ acts, exec (step os srv L) w₀ acts = some loop.worker) ∧
      ClientsPartitioned L loop.worker.words ∧
      (∀ n ∈ inuseNodes L loop.worker, loop.worker.kernel.isSocket (cmnctFd loop.worker n) ∧
        lsnFd < cmnctFd loop.worker n) ∧
      (∀ n ∈ inuseNodes L loop.worker, ∀ m ∈ inuseNodes L loop.worker,
        cmnctFd loop.worker n = cmnctFd loop.worker m → n = m) ∧
      ((watch L lsnFd loop.worker).isSome ↔ hasPlace lsnFd ∧
        ∀ n ∈ inuseNodes L loop.worker, isReading loop.worker n ∨ isWriting loop.worker n →
        hasPlace (cmnctFd loop.worker n)) := by
  obtain ⟨⟨free, inuse, hp, hh, habove⟩, hacts⟩ :=
    eventLoop_serving hos (buildContext_serving lsnFd hbuild) hrun
  refine ⟨hacts, hp.clients, ?_⟩
  rw [hp.inuseNodes_eq]
  exact ⟨fun n hn => ⟨hh.conn n hn, habove n hn⟩, hh.conn_inj, watch_isSome_iff hp hh⟩

end Runs

section SmallLoop

def arrives : Selected :=
  .ready ⟨fun fd => fd = 0, fun _ => false, accepts, fun _ => delivers "", fun _ => ⟨[], 0⟩⟩

def asksAndCloses : Events :=
  ⟨fun fd => fd = 1, fun _ => true, accepts, fun _ => ⟨[], [], true, [], true⟩,
    fun _ => ⟨[.accepted 99], 0⟩⟩

theorem nextFd_above (calls : ℕ) (fds : Map ℤ Descriptor) : 0 < nextFd.unusedFd calls fds :=
  (nextFd.unused calls fds).2

def Loop.running? : Loop → Option Worker
  | .running w => some w
  | .returned _ _ => none

theorem eventLoop_round_one_client : ∃ w₀ w, buildContext oneClient (fun _ => 0) ⟨∅, 0⟩ = some w₀ ∧
    eventLoop nextFd (oneFile hello) oneClient 0 true [arrives, .timeout] w₀ = some (.running w) ∧
    iteration nextFd (oneFile hello) oneClient 0 (.running w) (.ready asksAndCloses) =
      (watch oneClient 0 w).bind fun sets =>
        (exec (step nextFd (oneFile hello) oneClient) w
          (readActions oneClient 0 sets asksAndCloses w)).bind fun w₁ =>
          (exec (step nextFd (oneFile hello) oneClient) w₁
            (writeActions oneClient sets asksAndCloses w w₁)).map .running := by
  have hrun : ((buildContext oneClient (fun _ => 0) ⟨∅, 0⟩).bind fun w₀ =>
      (eventLoop nextFd (oneFile hello) oneClient 0 true [arrives, .timeout] w₀).bind
        Loop.running?).isSome = true := by
    decide +kernel
  obtain ⟨w, hw⟩ := Option.isSome_iff_exists.mp hrun
  obtain ⟨w₀, hbuild, hw⟩ := Option.bind_eq_some_iff.mp hw
  obtain ⟨loop, hloop, hw⟩ := Option.bind_eq_some_iff.mp hw
  cases loop with
  | returned rslt w' => cases hw
  | running w' =>
    obtain rfl := Option.some.inj hw
    exact ⟨w₀, _, hbuild, hloop, eventLoop_round nextFd_above hbuild hloop asksAndCloses⟩

theorem eventLoop_refines_one_client :
    ∃ w₀ loop, buildContext oneClient (fun _ => 0) ⟨∅, 0⟩ = some w₀ ∧
      eventLoop nextFd (oneFile hello) oneClient 0 true [arrives, .ready asksAndCloses, .failed]
      w₀ = some loop ∧
      ∃ acts, exec (step nextFd (oneFile hello) oneClient) w₀ acts = some loop.worker := by
  have hrun : ((buildContext oneClient (fun _ => 0) ⟨∅, 0⟩).bind fun w₀ =>
      eventLoop nextFd (oneFile hello) oneClient 0 true [arrives, .ready asksAndCloses, .failed]
      w₀).isSome = true := by
    decide +kernel
  obtain ⟨loop, hloop⟩ := Option.isSome_iff_exists.mp hrun
  obtain ⟨w₀, hbuild, hloop⟩ := Option.bind_eq_some_iff.mp hloop
  exact ⟨w₀, loop, hbuild, hloop, (eventLoop_refines nextFd_above hbuild hloop).1⟩

end SmallLoop

end AnalysisPrograms.Shfs
