import AnalysisPrograms.Shfs.Descriptors
import AnalysisPrograms.Shfs.Outcome
import AnalysisPrograms.Shfs.Partition

namespace AnalysisPrograms.Shfs

open Foundations FiniteMap Links Kernel

def cmnctFd (w : Worker) (n : ℕ) : ℤ := (w.clients (containerOf n)).mCmnctFd

def fileFd (w : Worker) (n : ℕ) : ℤ := (w.clients (containerOf n)).mResp.mFile.mFd

structure Holds (w : Worker) (inuse : List ℕ) : Prop where
  conn : ∀ n ∈ inuse, w.kernel.isSocket (cmnctFd w n)
  conn_inj : ∀ n ∈ inuse, ∀ m ∈ inuse, cmnctFd w n = cmnctFd w m → n = m
  file : ∀ n ∈ inuse, fileFd w n ≠ -1 → w.kernel.isFile (fileFd w n) ∧ 0 < fileFd w n
  file_inj : ∀ n ∈ inuse, ∀ m ∈ inuse, fileFd w n ≠ -1 → fileFd w n = fileFd w m → n = m

def Owned (w : Worker) (inuse : List ℕ) : Prop :=
  ∀ fd, w.kernel.isFile fd → fd ≠ -1 ∧ ∃ n ∈ inuse, fileFd w n = fd

theorem containerOf_inj (L : Layout) {n m : ℕ} (hn : n ∈ L.nodes) (hm : m ∈ L.nodes)
    (h : containerOf n = containerOf m) : n = m := by
  rw [← L.node_containerOf hn, h, L.node_containerOf hm]

theorem Holds.congr {w w' : Worker} {inuse : List ℕ} (h : Holds w inuse)
    (hk : SameKinds w.kernel w'.kernel)
    (hc : ∀ n ∈ inuse, cmnctFd w' n = cmnctFd w n ∧ fileFd w' n = fileFd w n) : Holds w' inuse where
  conn n hn := by
    rw [(hc n hn).1, (hk _).1]
    exact h.conn n hn
  conn_inj n hn m hm := by
    rw [(hc n hn).1, (hc m hm).1]
    exact h.conn_inj n hn m hm
  file n hn := by
    rw [(hc n hn).2, (hk _).2]
    exact h.file n hn
  file_inj n hn m hm := by
    rw [(hc n hn).2, (hc m hm).2]
    exact h.file_inj n hn m hm

theorem Owned.congr {w w' : Worker} {inuse : List ℕ} (h : Owned w inuse)
    (hk : SameKinds w.kernel w'.kernel) (hc : ∀ n ∈ inuse, fileFd w' n = fileFd w n) :
    Owned w' inuse := by
  intro fd hfd
  obtain ⟨hne, n, hn, he⟩ := h fd ((hk fd).2.mp hfd)
  exact ⟨hne, n, hn, (hc n hn).trans he⟩

theorem update_clients_of_ne {L : Layout} {n m : ℕ} (hn : n ∈ L.nodes) (hm : m ∈ L.nodes)
    (hne : m ≠ n) (clients : ℕ → Client) (clt : Client) :
    Function.update clients (containerOf n) clt (containerOf m) = clients (containerOf m) := by
  have hc : containerOf m ≠ containerOf n := fun he => hne (containerOf_inj L hm hn he)
  rw [Function.update_of_ne hc]

section Connection

variable {L : Layout} {w : Worker} {free inuse : List ℕ}

theorem accept_close (os : Os) (k : Kernel) (d : Descriptor) :
    ∃ k', (k.newFd os d).2.close (k.newFd os d).1 = some k' ∧ SameKinds k k' := by
  have hmem : (k.newFd os d).1 ∈ (k.newFd os d).2.fds := Finmap.mem_insert.mpr (.inl rfl)
  refine ⟨_, close_of_mem hmem, ?_⟩
  intro fd
  have hl : ((k.newFd os d).2.fds.erase (k.newFd os d).1).lookup fd = k.fds.lookup fd := by
    rw [Kernel.lookup_erase, lookup_newFd]
    by_cases h : fd = (k.newFd os d).1
    · rw [if_pos h, h, Finmap.lookup_eq_none.mpr (newFd_notMem os k d)]
    · rw [if_neg h, if_neg h]
  simp only [isSocket, isFile, hl, and_self]

theorem newSocket_kinds (os : Os) (k : Kernel) (fd : ℤ) :
    ((k.newFd os (.socket [])).2.isSocket fd ↔ fd = (k.newFd os (.socket [])).1 ∨ k.isSocket fd) ∧
      ((k.newFd os (.socket [])).2.isFile fd ↔ k.isFile fd) := by
  have hnew := newFd_notMem os k (.socket [])
  unfold isSocket isFile
  rw [lookup_newFd]
  by_cases h : fd = (k.newFd os (.socket [])).1
  · subst h
    rw [if_pos rfl, Finmap.lookup_eq_none.mpr hnew]
    simp
  · simp [h]

theorem newFile_kinds (os : Os) (k : Kernel) (contents : List UInt8) (fd : ℤ) :
    ((k.newFd os (.file contents 0)).2.isFile fd ↔
      fd = (k.newFd os (.file contents 0)).1 ∨ k.isFile fd) ∧
      ((k.newFd os (.file contents 0)).2.isSocket fd ↔ k.isSocket fd) := by
  have hnew := newFd_notMem os k (.file contents 0)
  unfold isSocket isFile
  rw [lookup_newFd]
  by_cases h : fd = (k.newFd os (.file contents 0)).1
  · subst h
    rw [if_pos rfl, Finmap.lookup_eq_none.mpr hnew]
    simp
  · simp [h]

structure FileReplaced (k k' : Kernel) (fd : ℤ) : Prop where
  sockets : ∀ x, k'.isSocket x ↔ k.isSocket x
  files : ∀ x, k'.isFile x ↔ (x = fd ∧ fd ≠ -1) ∨ k.isFile x
  fresh : fd ≠ -1 → ¬k.isFile fd ∧ 0 < fd

theorem fileReplaced_none (k : Kernel) : FileReplaced k k (-1) := by
  refine ⟨fun _ => Iff.rfl, fun x => ?_, fun h => absurd rfl h⟩
  constructor
  · exact .inr
  · rintro (⟨-, h⟩ | h)
    · exact absurd rfl h
    · exact h

theorem setup_fds (os : Os) (k : Kernel) (clt : Client) (o : Outcome) :
    (o.setup os k clt).2.mCmnctFd = clt.mCmnctFd ∧
      FileReplaced k (o.setup os k clt).1 (o.setup os k clt).2.mResp.mFile.mFd := by
  cases o with
  | notFound => exact ⟨rfl, fileReplaced_none k⟩
  | forbidden => exact ⟨rfl, fileReplaced_none k⟩
  | found contents mime =>
    have hpos := newFd_pos os k (.file contents.bytes 0)
    have hne : (k.newFd os (.file contents.bytes 0)).1 ≠ -1 := by omega
    refine ⟨rfl, fun fd => (newFile_kinds os k contents.bytes fd).2, fun fd => ?_,
      fun _ => ⟨?_, hpos⟩⟩
    · simp only [Outcome.setup, (newFile_kinds os k contents.bytes fd).1, hne, ne_eq,
        not_false_eq_true, and_true]
    · exact fun h => newFd_notMem os k (.file contents.bytes 0) h.mem

theorem giveUp_spec {k : Kernel} {w : Worker} (os : Os)
    (hk : w.kernel = (k.newFd os (.socket [])).2) :
    ∃ k', giveUp w (k.newFd os (.socket [])).1 = some { w with kernel := k' } ∧ SameKinds k k' := by
  obtain ⟨k', hclose, hkinds⟩ := accept_close os k (.socket [])
  refine ⟨k', ?_, hkinds⟩
  simp [giveUp, hk, hclose]

theorem initClient_fds (clt : Client) (fd r s : ℤ) (a : ConnectAnswers) :
    (initClient clt fd r s a).2.mCmnctFd = fd ∧
      (initClient clt fd r s a).2.mResp.mFile.mFd = -1 := by
  unfold initClient
  dsimp only
  split_ifs
  · exact ⟨rfl, rfl⟩
  · exact ⟨rfl, rfl⟩
  · exact ⟨rfl, rfl⟩

theorem handleConnection_cases (os : Os) (a : ConnectAnswers)
    (hp : Partitioned L w.words free inuse) :
    (∃ w', handleConnection os L w a = some w' ∧ w'.words = w.words ∧ SameKinds w.kernel w'.kernel ∧
      ∀ m ∈ inuse, w'.clients (containerOf m) = w.clients (containerOf m)) ∨
    ∃ n free' clt words', free = n :: free' ∧
      handleConnection os L w a =
        some ⟨words', Function.update w.clients (containerOf n) clt,
          (w.kernel.newFd os (.socket [])).2⟩ ∧
      Partitioned L words' free' (n :: inuse) ∧
      clt.mCmnctFd = (w.kernel.newFd os (.socket [])).1 ∧ clt.mResp.mFile.mFd = -1 := by
  cases free with
  | nil =>
    have hz : w.words L.freeClients = 0 := hp.freeList.1
    exact .inl ⟨w, by simp [handleConnection, hz], rfl, SameKinds.refl _, fun _ _ => rfl⟩
  | cons n free =>
    obtain ⟨hn, hn0, -⟩ := hp.freeList.1
    have hnode : n ∈ L.nodes := hp.mem_nodes.mpr (.inl List.mem_cons_self)
    -- a client of the free list may be half initialised when its connection is given up
    have hother : ∀ clt : Client, ∀ m ∈ inuse,
        Function.update w.clients (containerOf n) clt (containerOf m) = w.clients
        (containerOf m) := by
      intro clt m hm
      apply update_clients_of_ne hnode (hp.mem_nodes.mpr (.inr hm))
      rintro rfl
      exact hp.disjoint m List.mem_cons_self hm
    unfold handleConnection
    rw [hn, if_neg hn0]
    by_cases haccept : a.accept = true
    swap
    · exact .inl ⟨w, by simp [haccept], rfl, SameKinds.refl _, fun _ _ => rfl⟩
    obtain ⟨k', hgive, hkinds⟩ :=
      giveUp_spec (w := { w with kernel := (w.kernel.newFd os (.socket [])).2 }) os rfl
    by_cases hfcntl : a.fcntl = true
    swap
    · exact .inl
        ⟨{ w with kernel := k' }, by simpa [haccept,
          hfcntl] using hgive, rfl, hkinds, fun _ _ => rfl⟩
    cases hr : a.rcvbuf with
    | none =>
      exact .inl
        ⟨{ w with kernel := k' }, by simpa [haccept,
          hfcntl] using hgive, rfl, hkinds, fun _ _ => rfl⟩
    | some r =>
      cases hs : a.sndbuf with
      | none =>
        exact .inl
          ⟨{ w with kernel := k' }, by simpa [haccept,
            hfcntl] using hgive, rfl, hkinds, fun _ _ => rfl⟩
      | some s =>
        generalize hi : initClient (w.clients (containerOf n))
          (w.kernel.newFd os (.socket [])).1 r s a = ic
        obtain ⟨ready, clt⟩ := ic
        have hfds :=
          initClient_fds (w.clients (containerOf n)) (w.kernel.newFd os (.socket [])).1 r s a
        rw [hi] at hfds
        cases ready with
        | false =>
          obtain ⟨k', hgive, hkinds⟩ := giveUp_spec
            (w := ⟨w.words, Function.update w.clients (containerOf n) clt,
              (w.kernel.newFd os (.socket [])).2⟩)
            os rfl
          refine .inl ⟨⟨w.words, Function.update w.clients (containerOf n) clt, k'⟩, ?_,
            rfl, hkinds, ?_⟩
          · simpa [haccept, hfcntl, hi, Worker.setClient] using hgive
          · intro m hm
            simp only [hother clt m hm]
        | true =>
          obtain ⟨mem, mem', hrm, hadd, hp'⟩ := hp.connect
          refine .inr ⟨n, free, clt, mem', rfl, ?_, hp', hfds⟩
          simp [haccept, hfcntl, hi, Worker.setClient, hn, hrm, L.node_containerOf hnode, hadd]

theorem handleConnection_inv (os : Os) (a : ConnectAnswers)
    (hp : Partitioned L w.words free inuse) (hh : Holds w inuse) :
    ∃ w' free' inuse', handleConnection os L w a = some w' ∧ Partitioned L w'.words free' inuse' ∧
      Holds w' inuse' ∧ (Owned w inuse → Owned w' inuse') := by
  rcases handleConnection_cases os a hp with
    ⟨w', hrun, hw, hk, hc⟩ | ⟨n, free', clt, words', rfl, hrun, hp', hfd, hfile⟩
  · have hfds : ∀ n ∈ inuse, cmnctFd w' n = cmnctFd w n ∧ fileFd w' n = fileFd w n := by
      intro n hn
      simp only [cmnctFd, fileFd, hc n hn, and_self]
    exact ⟨w', free, inuse, hrun, hw ▸ hp, hh.congr hk hfds, fun ho => ho.congr hk
      fun n hn => (hfds n hn).2⟩
  · generalize hw' : (⟨words', Function.update w.clients (containerOf n) clt,
      (w.kernel.newFd os (.socket [])).2⟩ : Worker) = w' at hrun
    have hself : cmnctFd w' n = (w.kernel.newFd os (.socket [])).1 ∧ fileFd w' n = -1 := by
      simp only [cmnctFd, fileFd, ← hw', Function.update_self]
      exact ⟨hfd, hfile⟩
    have hold : ∀ m ∈ inuse, m ≠ n ∧ cmnctFd w' m = cmnctFd w m ∧ fileFd w' m = fileFd w m := by
      intro m hm
      have hne : m ≠ n := fun he => hp.disjoint n List.mem_cons_self (he ▸ hm)
      have hcl := update_clients_of_ne (hp.mem_nodes.mpr (.inl List.mem_cons_self))
        (hp.mem_nodes.mpr (.inr hm)) hne w.clients clt
      simp only [cmnctFd, fileFd, ← hw', hcl, and_self, and_true]
      exact hne
    have hkinds : ∀ fd, (w'.kernel.isSocket fd ↔ fd = (w.kernel.newFd os (.socket [])).1 ∨
        w.kernel.isSocket fd) ∧ (w'.kernel.isFile fd ↔ w.kernel.isFile fd) := by
      rw [← hw']
      exact newSocket_kinds os w.kernel
    have hnew : ∀ m ∈ inuse, cmnctFd w m ≠ (w.kernel.newFd os (.socket [])).1 := by
      intro m hm he
      exact newFd_notMem os w.kernel (.socket []) (he ▸ (hh.conn m hm).mem)
    refine ⟨w', free', n :: inuse, hrun, by rw [← hw']; exact hp', ⟨?_, ?_, ?_, ?_⟩, ?_⟩
    · intro m hm
      rcases List.mem_cons.mp hm with rfl | hm
      · exact (hkinds _).1.mpr (.inl hself.1)
      · rw [(hold m hm).2.1]
        exact (hkinds _).1.mpr (.inr (hh.conn m hm))
    · intro m hm m' hm' he
      rcases List.mem_cons.mp hm with rfl | h₁ <;> rcases List.mem_cons.mp hm' with rfl | h₂
      · rfl
      · rw [hself.1, (hold m' h₂).2.1] at he
        exact absurd he.symm (hnew m' h₂)
      · rw [hself.1, (hold m h₁).2.1] at he
        exact absurd he (hnew m h₁)
      · rw [(hold m h₁).2.1, (hold m' h₂).2.1] at he
        exact hh.conn_inj m h₁ m' h₂ he
    · intro m hm hf
      rcases List.mem_cons.mp hm with rfl | hm
      · exact absurd hself.2 hf
      · rw [(hold m hm).2.2] at hf ⊢
        rw [(hkinds _).2]
        exact hh.file m hm hf
    · intro m hm m' hm' hf he
      rcases List.mem_cons.mp hm with rfl | hm
      · exact absurd hself.2 hf
      · rcases List.mem_cons.mp hm' with rfl | hm'
        · exact absurd (he.trans hself.2) hf
        · rw [(hold m hm).2.2] at hf he
          rw [(hold m' hm').2.2] at he
          exact hh.file_inj m hm m' hm' hf he
    · intro ho fd hfd
      obtain ⟨hne, m, hm, he⟩ := ho fd ((hkinds fd).2.mp hfd)
      exact ⟨hne, m, List.mem_cons_of_mem n hm, (hold m hm).2.2.trans he⟩

end Connection

end AnalysisPrograms.Shfs
