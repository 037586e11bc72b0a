import AnalysisPrograms.Shfs.Exactness
import AnalysisPrograms.Shfs.Received

namespace AnalysisPrograms.Shfs

open Foundations Execution FiniteMap Bytes

inductive Conn
  | up (kernel : Kernel) (client : Client)
  | down (sent : List UInt8)

def Conn.sent : Conn → List UInt8
  | .up kernel client => kernel.sentOn client.mCmnctFd
  | .down sent => sent

inductive Event
  | read (a : ReadAnswers)
  | write (a : WriteAnswers)

def connStep (os : Os) (srv : Server) : Conn → Event → Option Conn
  | .down sent, _ => some (.down sent)
  | .up k clt, .write a => (writeEvent (k, clt) a).map fun s => .up s.1 s.2
  | .up k clt, .read a =>
    if clt.mSelectType.mr then
      (dataInput os srv k a clt).map fun
        | (.answered, k, clt) => .up k clt
        | (.dropped, k, clt) => .down (k.sentOn clt.mCmnctFd)
    else some (.up k clt)

def reads : List Event → List (List UInt8 × Bool)
  | [] => []
  | .read a :: events => (a.input, a.canOpen) :: reads events
  | .write _ :: events => reads events

def reply (srv : Server) (x : Request × Bool) : List UInt8 :=
  ((outcomeOf srv x.1.path x.2).map Outcome.response).getD []

def expected (srv : Server) (rs : List (Request × Bool)) : List UInt8 := rs.flatMap (reply srv)

def sendsWell : Event → Prop
  | .read _ => True
  | .write a => SendAnswer.failed ∉ a.sends

def quiet : Conn → Event → Prop
  | .up _ clt, .read _ => clt.mSelectType.mw = false
  | _, _ => True

instance decidableQuiet : ∀ c e, Decidable (quiet c e)
  | .up _ clt, .read _ => inferInstanceAs (Decidable (clt.mSelectType.mw = false))
  | .up _ _, .write _ => isTrue trivial
  | .down _, _ => isTrue trivial

section Events

variable {os : Os} {srv : Server} {L : Layout} {w w' : Worker} {pClt : ℕ}

theorem connStep_of_writable {a : WriteAnswers} (hin : pClt + offsetOfNode ∈ inuseNodes L w)
    (h : step os srv L w (.writable pClt a) = some w') :
    connStep os srv (.up w.kernel (w.clients pClt)) (.write a) =
      some (.up w'.kernel (w'.clients pClt)) := by
  by_cases hmw : (w.clients pClt).mSelectType.mw = true
  · rw [step, if_pos ⟨hin, hmw⟩] at h
    obtain ⟨⟨k, clt⟩, hresp, hw⟩ := Option.bind_eq_some_iff.mp h
    obtain rfl := Option.some.inj hw
    simp only [connStep, writeEvent, hmw, ↓reduceIte, hresp, Option.map_some, Worker.setClient,
      Function.update_self]
  · rw [step, if_neg (fun hboth => hmw hboth.2)] at h
    obtain rfl := Option.some.inj h
    simp only [connStep, writeEvent, hmw]
    rfl

theorem connStep_of_readable {a : ReadAnswers} (hin : pClt + offsetOfNode ∈ inuseNodes L w)
    (h : step os srv L w (.readable pClt a) = some w') :
    ∃ c, connStep os srv (.up w.kernel (w.clients pClt)) (.read a) = some c ∧
      (c = .up w'.kernel (w'.clients pClt) ∨ ∃ sent, c = .down sent) := by
  by_cases hmr : (w.clients pClt).mSelectType.mr = true
  · rw [step, if_pos ⟨hin, hmr⟩] at h
    obtain ⟨⟨rslt, k, clt⟩, hinput, hw⟩ := Option.bind_eq_some_iff.mp h
    rw [connStep, if_pos hmr, hinput]
    cases rslt with
    | answered =>
      obtain rfl := Option.some.inj hw
      refine ⟨_, rfl, .inl ?_⟩
      simp only [Worker.setClient, Function.update_self]
    | dropped => exact ⟨_, rfl, .inr ⟨_, rfl⟩⟩
  · rw [step, if_neg (fun hboth => hmr hboth.2)] at h
    obtain rfl := Option.some.inj h
    rw [connStep, if_neg hmr]
    exact ⟨_, rfl, .inl rfl⟩

end Events

structure Buffers (clt : Client) : Prop where
  sendData : clt.mSendBuf.mpData.isSome
  capacity : 4096 ≤ clt.mSendBuf.mCapacity
  recvSize : clt.mRecvBuf.mSize = 0
  recvData : clt.mRecvBuf.mpData.isSome
  mr : clt.mSelectType.mr = true

theorem Kept.buffers {clt clt' : Client} (h : Kept clt clt') (hb : Buffers clt) : Buffers clt' where
  sendData := h.data.trans hb.sendData
  capacity := h.capacity ▸ hb.capacity
  recvSize := h.recvBuf ▸ hb.recvSize
  recvData := h.recvBuf ▸ hb.recvData
  mr := h.mr hb.mr

def Linked (acc : List UInt8) : Conn → Prop
  | .up k clt => Buffers clt ∧
    ((clt.mSelectType.mw = false ∧ k.fds.lookup clt.mCmnctFd = some (.socket acc)) ∨
      ∃ o wire, acc = wire ++ o.response ∧ Progress o wire (k, clt))
  | .down sent => sent <+: acc

section Linked

variable {os : Os} {srv : Server} {acc : List UInt8} {k : Kernel} {clt : Client} {c c' : Conn}

theorem Linked.sent_prefix (h : Linked acc c) : c.sent <+: acc := by
  cases c with
  | down sent => exact h
  | up k clt =>
    obtain ⟨-, ⟨-, hwire⟩ | ⟨o, wire, rfl, hprogress⟩⟩ := h
    · rw [Conn.sent, Kernel.sentOn, hwire]
    · obtain ⟨sent, hwire, hprefix, -⟩ := hprogress.sent
      rw [Conn.sent, Kernel.sentOn, hwire]
      exact (List.prefix_append_right_inj wire).mpr hprefix

theorem Linked.wire (h : Linked acc (.up k clt)) (hmw : clt.mSelectType.mw = false) :
    k.fds.lookup clt.mCmnctFd = some (.socket acc) := by
  obtain ⟨-, ⟨-, hwire⟩ | ⟨o, wire, rfl, hprogress⟩⟩ := h
  · exact hwire
  · obtain ⟨sent, hwire, -, hiff⟩ := hprogress.sent
    rw [← hiff.mp hmw]
    exact hwire

theorem Linked.write (h : Linked acc c) {a : WriteAnswers} (hno : SendAnswer.failed ∉ a.sends)
    (hrun : connStep os srv c (.write a) = some c') : Linked acc c' := by
  cases c with
  | down sent =>
    obtain rfl := Option.some.inj hrun
    exact h
  | up k clt =>
    obtain ⟨t, ht, rfl⟩ := Option.map_eq_some_iff.mp hrun
    obtain ⟨hbuf, ⟨hmw, hwire⟩ | ⟨o, wire, rfl, hprogress⟩⟩ := h
    · rw [writeEvent, hmw] at ht
      obtain rfl := Option.some.inj ht
      exact ⟨hbuf, .inl ⟨hmw, hwire⟩⟩
    · obtain ⟨-, hnone⟩ | ⟨u, hu, hprogress', hkept⟩ := writeEvent_progress hprogress hno
      · cases hnone.symm.trans ht
      · obtain rfl := Option.some.inj (hu.symm.trans ht)
        exact ⟨hkept.buffers hbuf, .inr ⟨o, wire, rfl, hprogress'⟩⟩

theorem Linked.read (h : Linked acc c) {a : ReadAnswers} {r : Request} (hinput : a.input = r.bytes)
    (hquiet : quiet c (.read a)) (hrun : connStep os srv c (.read a) = some c') :
    Linked (acc ++ reply srv (r, a.canOpen)) c' := by
  cases c with
  | down sent =>
    obtain rfl := Option.some.inj hrun
    exact List.IsPrefix.trans h (List.prefix_append _ _)
  | up k clt =>
    have hwire := h.wire hquiet
    obtain ⟨hbuf, -⟩ := h
    rw [connStep, if_pos hbuf.mr] at hrun
    obtain ⟨⟨rslt, k', clt'⟩, hdata, rfl⟩ := Option.map_eq_some_iff.mp hrun
    cases rslt with
    | dropped =>
      obtain ⟨rfl, requ, buf, rfl⟩ := inputLoop_cases hdata
      simp only [Linked, Kernel.sentOn, hwire]
      exact List.prefix_append _ _
    | answered =>
      obtain ⟨o, requ, buf, ho, hdata', rfl, rfl⟩ :=
        dataInput_answer hbuf.recvSize hbuf.recvData hinput hdata
      have hwait : Waiting o acc (o.setup os k { clt with mRequ := requ, mRecvBuf := buf }).1
          (o.setup os k { clt with mRequ := requ, mRecvBuf := buf }).2 :=
        waiting_setup os hwire hbuf.sendData hbuf.capacity (outcomeOf_mime ho)
      refine ⟨?_, .inr ⟨o, acc, by rw [reply, ho]; rfl, .inl ⟨rfl, hwait.answered⟩⟩⟩
      cases o with
      | notFound => exact ⟨hbuf.sendData, hbuf.capacity, rfl, hdata', hbuf.mr⟩
      | forbidden => exact ⟨hbuf.sendData, hbuf.capacity, rfl, hdata', hbuf.mr⟩
      | found contents mime => exact ⟨hbuf.sendData, hbuf.capacity, rfl, hdata', hbuf.mr⟩

theorem exec_linked {events : List Event} {rs : List (Request × Bool)} (h : Linked acc c)
    (hreads : reads events = rs.map fun x => (x.1.bytes, x.2))
    (hsends : ∀ e ∈ events, sendsWell e) (hquiet : Along (connStep os srv) quiet c events)
    (hrun : exec (connStep os srv) c events = some c') : Linked (acc ++ expected srv rs) c' := by
  induction events generalizing acc c rs with
  | nil =>
    obtain rfl := Option.some.inj hrun
    obtain rfl := List.map_eq_nil_iff.mp hreads.symm
    rwa [expected, List.flatMap_nil, List.append_nil]
  | cons e events ih =>
    obtain ⟨u, hu, hrest⟩ := exec_cons_iff.mp hrun
    have hsends' : ∀ x ∈ events, sendsWell x := fun x hx => hsends x (List.mem_cons_of_mem e hx)
    cases e with
    | write a =>
      exact ih (h.write (hsends _ List.mem_cons_self) hu) hreads hsends' (hquiet.2 u hu) hrest
    | read a =>
      obtain ⟨⟨r, canOpen⟩, rs', rfl, hr, hrs⟩ := List.map_eq_cons_iff.mp hreads.symm
      obtain ⟨hinput, hopen⟩ := Prod.mk.inj hr
      subst hopen
      have hstep := h.read hinput.symm hquiet.1 hu
      have hlast := ih hstep hrs.symm hsends' (hquiet.2 u hu) hrest
      rwa [List.append_assoc] at hlast

end Linked

structure Fresh (k : Kernel) (clt : Client) : Prop where
  wire : k.fds.lookup clt.mCmnctFd = some (.socket [])
  mw : clt.mSelectType.mw = false
  buffers : Buffers clt

theorem fresh_initClient {k : Kernel} {clt clt' : Client} {fd r s : ℤ} {a : ConnectAnswers}
    (hfd : k.fds.lookup fd = some (.socket [])) (hmw : clt.mSelectType.mw = false)
    (hrecv : clt.mRecvBuf.mpData = none) (hsend : clt.mSendBuf.mpData = none)
    (h : initClient clt fd r s a = (true, clt')) : Fresh k clt' := by
  cases hr : a.recvMalloc with
  | none => simp [initClient, openBuf, isBufEmpty, createBuf, hrecv, hr] at h
  | some recvData =>
    cases hs : a.sendMalloc with
    | none => simp [initClient, openBuf, isBufEmpty, createBuf, hrecv, hsend, hr, hs] at h
    | some sendData =>
      simp only [initClient, openBuf, isBufEmpty, createBuf, hrecv, hsend, hr, hs,
        Option.isNone_none, ↓reduceIte, Prod.mk.injEq, true_and, show ¬(0 : ℤ) = -1 by omega] at h
      subst h
      refine ⟨hfd, hmw, rfl, ?_, rfl, rfl, rfl⟩
      simp only [MIN_BUF_SIZE]
      omega

theorem responses_in_order {os : Os} {srv : Server} {k : Kernel} {clt : Client}
    {events : List Event} {rs : List (Request × Bool)} {c : Conn} (hfresh : Fresh k clt)
    (hreads : reads events = rs.map fun x => (x.1.bytes, x.2))
    (hsends : ∀ e ∈ events, sendsWell e)
    (hquiet : Along (connStep os srv) quiet (.up k clt) events)
    (hrun : exec (connStep os srv) (.up k clt) events = some c) : c.sent <+: expected srv rs := by
  have hstart : Linked [] (.up k clt) := ⟨hfresh.buffers, .inl ⟨hfresh.mw, hfresh.wire⟩⟩
  have hlast := exec_linked hstart hreads hsends hquiet hrun
  rw [List.nil_append] at hlast
  exact hlast.sent_prefix

def helloRequest : Request where
  path := text "/a.txt"
  fields := []
  path_slash := by decide
  path_plain b hb := by
    have hall : (text "/a.txt").all (fun b => decide (b ≠ CR ∧ b ≠ LF ∧ b ≠ SPACE ∧ b ≠ 0)) =
      true := by decide
    exact of_decide_eq_true (List.all_eq_true.mp hall b hb)
  fields_plain := by simp

def asks : Event := .read ⟨helloRequest.bytes, [], false, [], true⟩

def sends (n : ℕ) : Event := .write ⟨[.accepted n, .eagain], 999⟩

theorem fresh_connected : Fresh oneSocket (connected "") where
  wire := Finmap.lookup_insert _
  mw := rfl
  buffers := ⟨rfl, le_rfl, by decide, rfl, rfl⟩

theorem two_responses_in_order :
    ∃ c, exec (connStep nextFd (oneFile hello)) (.up oneSocket (connected ""))
        [asks, sends 20, sends 999, sends 999, asks, sends 999] = some c ∧
      c.sent <+: expected (oneFile hello) [(helloRequest, true), (helloRequest, true)] := by
  obtain ⟨c, hrun⟩ := Option.isSome_iff_exists.mp (show (exec (connStep nextFd (oneFile hello))
    (.up oneSocket (connected "")) [asks, sends 20, sends 999, sends 999, asks,
      sends 999]).isSome by
      decide +kernel)
  refine ⟨c, hrun, responses_in_order fresh_connected rfl ?_ (by decide +kernel) hrun⟩
  simp [asks, sends, sendsWell]

theorem later_request_cuts_response :
    ∃ c, exec (connStep nextFd (oneFile hello)) (.up oneSocket (connected ""))
        [asks, sends 0, asks, sends 0] = some c ∧
      ¬c.sent <+: expected (oneFile hello) [(helloRequest, true), (helloRequest, true)] := by
  obtain ⟨c, hrun, hsent⟩ := Option.map_eq_some_iff.mp (show (exec (connStep nextFd (oneFile hello))
    (.up oneSocket (connected "")) [asks, sends 0, asks, sends 0]).map Conn.sent =
    some (text "HH") by
      decide +kernel)
  refine ⟨c, hrun, ?_⟩
  rw [hsent]
  intro hprefix
  obtain ⟨o, ho⟩ := Option.isSome_iff_exists.mp
    (show (outcomeOf (oneFile hello) helloRequest.path true).isSome by decide +kernel)
  have hresponse : o.response <+: expected (oneFile hello)
      [(helloRequest, true), (helloRequest, true)] := by
    rw [expected, List.flatMap_cons, reply, ho]
    exact List.prefix_append _ _
  have hversion := (version_prefix_response o).trans hresponse
  have hle := List.prefix_of_prefix_length_le hprefix hversion (by decide)
  revert hle
  decide

end AnalysisPrograms.Shfs
