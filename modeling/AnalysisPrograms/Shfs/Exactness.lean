import AnalysisPrograms.Shfs.SmallServer
import AnalysisPrograms.Shfs.WriteEvents

namespace AnalysisPrograms.Shfs

open Foundations Execution FiniteMap Bytes

theorem Waiting.answered {o : Outcome} {wire : List UInt8} {k : Kernel} {clt : Client}
    (h : Waiting o wire k clt) : Waiting o wire k (answered clt) where
  ready := ⟨h.ready.status, h.ready.data, h.ready.capacity⟩
  mime := h.mime
  size := h.size
  sentSize := h.sentSize
  total := h.total
  wire := h.wire
  source := h.source.congr rfl rfl fun _ _ => rfl
  short := h.short

theorem waiting_setup (os : Os) {o : Outcome} {wire : List UInt8} {k : Kernel} {clt : Client}
    (hwire : k.fds.lookup clt.mCmnctFd = some (.socket wire)) (hdata : clt.mSendBuf.mpData.isSome)
    (hcap : 4096 ≤ clt.mSendBuf.mCapacity) (hmime : (text o.mime).length ≤ 24) :
    Waiting o wire (o.setup os k clt).1 (o.setup os k clt).2 := by
  have hshort := length_header_lt hmime
  cases o with
  | notFound => exact ⟨⟨rfl, hdata, hcap⟩, rfl, rfl, rfl, rfl, hwire, .inl rfl, hshort⟩
  | forbidden => exact ⟨⟨rfl, hdata, hcap⟩, rfl, rfl, rfl, rfl, hwire, .inl rfl, hshort⟩
  | found contents mime =>
    obtain ⟨hfresh, hpos⟩ := os.unused k.calls k.fds
    have hne : os.unusedFd k.calls k.fds ≠ clt.mCmnctFd := by
      intro heq
      rw [heq, ← Finmap.lookup_isSome, hwire] at hfresh
      exact hfresh rfl
    refine ⟨⟨rfl, hdata, hcap⟩, rfl, rfl, rfl, rfl, ?_, ⟨?_, hne, 0, ?_, rfl⟩, hshort⟩
    · simp only [Outcome.setup, Kernel.newFd]
      rw [Finmap.lookup_insert_of_ne _ hne.symm]
      exact hwire
    · simp only [Outcome.setup, Kernel.newFd]
      omega
    · simp only [Outcome.setup, Kernel.newFd]
      exact Finmap.lookup_insert _

theorem handleHttpRequ_waiting {os : Os} {srv : Server} {k k' : Kernel} {clt clt' : Client}
    {canOpen : Bool} {wire : List UInt8}
    (h : handleHttpRequ os srv k clt canOpen = some (0, k', clt'))
    (hwire : k.fds.lookup clt.mCmnctFd = some (.socket wire)) (hdata : clt.mSendBuf.mpData.isSome)
    (hcap : 4096 ≤ clt.mSendBuf.mCapacity) :
    ∃ data item o, clt.mRecvBuf.mpData = some data ∧
      requestItem data clt.mRecvBuf.mCapacity.toNat = some item ∧
      outcomeOf srv item canOpen = some o ∧
      Waiting o wire k' (answered clt') := by
  obtain ⟨hret, -⟩ | ⟨-, data, item, o, requ, hd, hitem, ho, hset⟩ := handleHttpRequ_cases h
  · cases hret
  · have hwait : Waiting o wire (o.setup os k { clt with mRequ := requ }).1
        (o.setup os k { clt with mRequ := requ }).2 :=
          waiting_setup os hwire hdata hcap (outcomeOf_mime ho)
    rw [← hset] at hwait
    exact ⟨data, item, o, hd, hitem, ho, hwait.answered⟩

/-- Whatever the write events bring, the response goes out exactly, and `SELECT_MW` tells when it is
out. -/
def SentExactly (o : Outcome) (wire : List UInt8) (s : Kernel × Client) : Prop :=
  ∀ events : List WriteAnswers, (∀ e ∈ events, SendAnswer.failed ∉ e.sends) →
    ∃ t sent, exec writeEvent s events = some t ∧
      t.1.fds.lookup s.2.mCmnctFd = some (.socket (wire ++ sent)) ∧ sent <+: o.response ∧
      (t.2.mSelectType.mw = false ↔ sent = o.response)

section Waiting

variable {o : Outcome} {wire : List UInt8} {k : Kernel} {clt : Client}

theorem Waiting.not_sentExactly (h : Waiting o wire k clt) (hmw : clt.mSelectType.mw = true)
    (hsize : 2 ^ 63 ≤ o.response.length) (o' : Outcome) (wire' : List UInt8) :
    ¬SentExactly o' wire' (k, clt) := by
  intro hexact
  obtain ⟨t, sent, hrun, -⟩ := hexact [⟨[], 0⟩] (by simp)
  have hnone : writeEvent (k, clt) ⟨[], 0⟩ = none := by
    rw [writeEvent, if_pos hmw, h.handleHttpResp_none hsize]
  rw [exec, hnone, Option.bind_none] at hrun
  cases hrun

theorem Waiting.sentExactly_iff (h : Waiting o wire k clt) (hmw : clt.mSelectType.mw = true) :
    SentExactly o wire (k, clt) ↔ o.response.length < 2 ^ 63 := by
  constructor
  · intro hexact
    apply lt_of_not_ge
    intro hsize
    exact h.not_sentExactly hmw hsize o wire hexact
  · intro hsize events hno
    have hstart : Progress o wire (k, clt) := .inl ⟨hmw, h⟩
    obtain ⟨t, hrun, hprogress, hkept⟩ := exec_progress hsize hstart hno
    obtain ⟨sent, hwire, hprefix, hiff⟩ := hprogress.sent
    rw [hkept.cmnctFd] at hwire
    exact ⟨t, sent, hrun, hwire, hprefix, hiff⟩

end Waiting

theorem response_sentExactly_iff {os : Os} {srv : Server} {k k' : Kernel} {clt clt' : Client}
    {canOpen : Bool} {wire : List UInt8}
    (h : handleHttpRequ os srv k clt canOpen = some (0, k', clt'))
    (hwire : k.fds.lookup clt.mCmnctFd = some (.socket wire)) (hdata : clt.mSendBuf.mpData.isSome)
    (hcap : 4096 ≤ clt.mSendBuf.mCapacity) :
    ∃ data item o, clt.mRecvBuf.mpData = some data ∧
      requestItem data clt.mRecvBuf.mCapacity.toNat = some item ∧
      outcomeOf srv item canOpen = some o ∧
      (SentExactly o wire (k', answered clt') ↔ o.header.length + o.body.length < 2 ^ 63) := by
  obtain ⟨data, item, o, hd, hitem, ho, hwait⟩ := handleHttpRequ_waiting h hwire hdata hcap
  refine ⟨data, item, o, hd, hitem, ho, ?_⟩
  rw [hwait.sentExactly_iff rfl, Outcome.response, List.length_append]

def connected (request : String) : Client :=
  { Client.zero with
    mCmnctFd := 4
    mSelectType := ⟨true, false⟩
    mRecvBuf := ⟨some (blit (fun _ => 0) 0 (text request)), 0, (text request).length, 4096⟩
    mSendBuf := ⟨some fun _ => 0, 0, 0, 4096⟩ }

def oneSocket : Kernel := ⟨(∅ : Map ℤ Descriptor).insert 4 (.socket []), 1⟩

def getRequest : String := "GET /a.txt HTTP/1.1\r\n\r\n"

theorem exists_of_fst_eq_zero {α β : Type} {r : Option (ℤ × α × β)}
    (h : r.map (fun x => x.1) = some 0) : ∃ a b, r = some (0, a, b) := by
  obtain ⟨⟨ret, a, b⟩, hr, rfl⟩ := Option.map_eq_some_iff.mp h
  exact ⟨a, b, hr⟩

theorem outcomeOf_oneFile {contents : Contents} {item : List UInt8} {o : Outcome}
    (h : outcomeOf (oneFile contents) item true = some o) : ∃ mime, o = .found contents mime := by
  obtain ⟨path, hpath, rfl⟩ := Option.map_eq_some_iff.mp h
  simp only [openPath, oneFile, Option.bind_eq_bind, Option.bind_eq_some_iff,
    Option.some.injEq] at hpath
  obtain ⟨_, -, _, -, _, -, _, -, rfl⟩ := hpath
  exact ⟨_, rfl⟩

theorem hello_sentExactly :
    ∃ k' clt' o, handleHttpRequ nextFd (oneFile hello) oneSocket (connected getRequest) true =
        some (0, k', clt') ∧ o.body = text "hello" ∧ SentExactly o [] (k', answered clt') := by
  obtain ⟨k', clt', hrequ⟩ :=
    exists_of_fst_eq_zero (r := handleHttpRequ nextFd (oneFile hello) oneSocket
      (connected getRequest) true) (by decide +kernel)
  obtain ⟨data, item, o, -, -, ho, hiff⟩ :=
    response_sentExactly_iff hrequ (Finmap.lookup_insert _) rfl le_rfl
  have hheader := length_header_lt (outcomeOf_mime ho)
  obtain ⟨mime, rfl⟩ := outcomeOf_oneFile ho
  have hbody : (Outcome.found hello mime).body.length = 5 := by
    rw [Outcome.body, hello]
    decide
  exact ⟨k', clt', _, hrequ, rfl, hiff.mpr (by omega)⟩

def greatest : Contents := ⟨List.replicate (2 ^ 63 - 1) 0, by
  rw [List.length_replicate]
  omega⟩

theorem greatest_not_sentExactly :
    ∃ k' clt', handleHttpRequ nextFd (oneFile greatest) oneSocket (connected getRequest) true =
        some (0, k', clt') ∧ ∀ o, ¬SentExactly o [] (k', answered clt') := by
  obtain ⟨k', clt', hrequ⟩ :=
    exists_of_fst_eq_zero (r := handleHttpRequ nextFd (oneFile greatest) oneSocket
      (connected getRequest) true) (by decide +kernel)
  obtain ⟨data, item, o, -, -, ho, hwait⟩ :=
    handleHttpRequ_waiting hrequ (Finmap.lookup_insert _) rfl le_rfl
  refine ⟨k', clt', hrequ, fun o' => ?_⟩
  apply hwait.not_sentExactly rfl
  obtain ⟨mime, rfl⟩ := outcomeOf_oneFile ho
  have hheader := List.length_pos_iff.mpr (header_ne_nil (.found greatest mime))
  have hbody : (Outcome.found greatest mime).body.length = 2 ^ 63 - 1 := by
    rw [Outcome.body, greatest, List.length_replicate]
  rw [Outcome.response, List.length_append]
  omega

end AnalysisPrograms.Shfs
