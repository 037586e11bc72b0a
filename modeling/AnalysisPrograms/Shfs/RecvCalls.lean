import AnalysisPrograms.Shfs.Connection
import AnalysisPrograms.Shfs.Descriptors
import AnalysisPrograms.Shfs.RecvBuffer

namespace AnalysisPrograms.Shfs

open Foundations Execution FiniteMap Bytes

variable {os : Os} {srv : Server} {k k' : Kernel} {clt clt' : Client} {buf : Buf}
  {bytes : List UInt8}
  {rslt : InputResult}

theorem opened_openBuf {size : ℤ} {malloc : MallocAnswer} (low : -2 ^ 31 ≤ size)
    (high : size < 2 ^ 31) (hbuf : isBufEmpty buf = true ∨ Opened buf)
    (h : (openBuf buf size malloc).1 ≠ -1) : Opened (openBuf buf size malloc).2 := by
  unfold openBuf at h ⊢
  by_cases hempty : isBufEmpty buf = true
  · rw [if_pos hempty] at h ⊢
    cases malloc with
    | none => exact absurd rfl h
    | some data =>
      have created : createBuf buf size (some data) = (0, (createBuf buf size (some data)).2) := rfl
      exact .create low high created
  · rw [if_neg hempty]
    exact .clean (hbuf.resolve_left hempty)

theorem opened_initClient {fd size sendSize : ℤ} {a : ConnectAnswers} (low : -2 ^ 31 ≤ size)
    (high : size < 2 ^ 31) (hbuf : isBufEmpty clt.mRecvBuf = true ∨ Opened clt.mRecvBuf)
    (h : initClient clt fd size sendSize a = (true, clt')) : Opened clt'.mRecvBuf := by
  unfold initClient at h
  dsimp only at h
  split_ifs at h with hrecv hsend
  · cases h
  · cases h
  · obtain ⟨-, rfl⟩ := Prod.mk.inj h
    exact opened_openBuf low high hbuf hrecv

theorem beforeRecv_of_growBuf {mallocs : List MallocAnswer}
    {grown : Option (Buf × List MallocAnswer)} (h : growBuf buf mallocs = some grown) :
    beforeRecv buf (mallocs.headD none) = some (grown.map Prod.fst) := by
  unfold beforeRecv growBuf at *
  split_ifs at h ⊢ with hfull hlarge
  · obtain rfl := Option.some.inj h
    rfl
  · obtain ⟨⟨ret, doubled⟩, hdouble, h⟩ := Option.bind_eq_some_iff.mp h
    have hdouble' : doublesizeBuf buf 2 ([mallocs.headD none].headD none) = some (ret, doubled) :=
      hdouble
    rw [hdouble', Option.bind_eq_bind, Option.bind_some]
    dsimp only at h ⊢
    split_ifs at h ⊢
    all_goals
      obtain rfl := Option.some.inj h
      rfl
  · obtain rfl := Option.some.inj h
    rfl

def afterCall (clt : Client) : InputResult → RecvBuf
  | .answered => .up clt.mRecvBuf
  | .dropped => .down

theorem inputTurn_of_before {start buf : Buf} {malloc : MallocAnswer}
    (h : beforeRecv start malloc = some (some buf)) (recv : RecvAnswer) :
    inputTurn (.up start) ⟨malloc, recv⟩ = onRecv buf recv := by
  simp only [inputTurn, h, Option.bind_eq_bind, Option.bind_some]

theorem onRecv_takeRequest {canOpen : Bool}
    (h : takeRequest os srv k canOpen clt = some (rslt, k', clt')) :
    onRecv clt.mRecvBuf (.eagain rslt) = some (afterCall clt' rslt) := by
  obtain ⟨rfl, -⟩ | ⟨rfl, data, item, o, requ, -, -, -, -, hc⟩ := takeRequest_inv h
  · rfl
  · rw [hc]
    cases o with
    | notFound => rfl
    | forbidden => rfl
    | found contents mime => rfl

theorem inputLoop_turns {a : ReadAnswers} {turns : ℕ} {input : List UInt8} {sizes : List ℕ}
    {mallocs : List MallocAnswer} (hsound : Sound clt.mRecvBuf bytes)
    (h : inputLoop os srv k a turns input sizes mallocs clt = some (rslt, k', clt')) :
    ∃ run, exec inputTurn (.up clt.mRecvBuf) run = some (afterCall clt' rslt) := by
  induction turns generalizing input sizes mallocs clt bytes with
  | zero => cases h
  | succ turns ih =>
    have hone (recv : RecvAnswer) {s : RecvBuf}
        (hturn : inputTurn (.up clt.mRecvBuf) ⟨mallocs.headD none, recv⟩ = some s) :
        ∃ run, exec inputTurn (.up clt.mRecvBuf) run = some s :=
        ⟨[_], exec_cons_iff.mpr ⟨s, hturn, rfl⟩⟩
    obtain ⟨hgrow, rfl, -⟩ | ⟨buf, mallocs', hgrow, hrecv⟩ := inputLoop_inv h
    · apply hone .other
      rw [inputTurn, beforeRecv_of_growBuf hgrow]
      rfl
    have hturn := inputTurn_of_before (beforeRecv_of_growBuf hgrow)
    obtain ⟨-, rfl, -⟩ | ⟨-, htake⟩ | ⟨hinput, n, rfl, hrest⟩ := hrecv
    · exact hone _ (hturn .other)
    · apply hone (.eagain rslt)
      rw [hturn]
      exact onRecv_takeRequest htake
    · obtain ⟨hgrown, hready⟩ := hsound.grow hgrow
      generalize hn : min (buf.mCapacity - buf.mSize - 1).toNat (sizes.headD input.length + 1) = n
        at hrest
      have hpos := List.length_pos_iff.mpr hinput
      have hasked := hready.asked_pos
      have hmore : 0 < (input.take n).length ∧ (input.take n).length ≤ asked buf := by
        rw [List.length_take]
        simp only [asked] at *
        omega
      have hnext : Sound ({ clt with mRecvBuf := buf.receive (input.take n) } : Client).mRecvBuf
          (bytes ++ input.take n) := hgrown.receive hmore.2
      obtain ⟨run, hrun⟩ := ih hnext hrest
      refine ⟨⟨mallocs.headD none, .bytes (input.take n)⟩ :: run, exec_cons_iff.mpr ⟨_, ?_, hrun⟩⟩
      rw [hturn, onRecv, if_pos hmore]

def Conn.recvBuf : Conn → RecvBuf
  | .up _ clt => .up clt.mRecvBuf
  | .down _ => .down

theorem connStep_turns {c c' : Conn} {e : Event} (hsound : SoundOr bytes c.recvBuf)
    (h : connStep os srv c e = some c') :
    ∃ run, exec inputTurn c.recvBuf run = some c'.recvBuf := by
  cases c with
  | down sent =>
    obtain rfl := Option.some.inj h
    exact ⟨[], rfl⟩
  | up k clt =>
    cases e with
    | write a =>
      obtain ⟨⟨k', clt'⟩, hwrite, rfl⟩ := Option.map_eq_some_iff.mp h
      refine ⟨[], ?_⟩
      unfold writeEvent at hwrite
      split_ifs at hwrite
      · obtain ⟨-, -, -, hbuf⟩ := handleHttpResp_sameKinds hwrite
        simp only [Conn.recvBuf, hbuf, exec]
      · obtain ⟨-, rfl⟩ := Prod.mk.inj (Option.some.inj hwrite)
        rfl
    | read a =>
      simp only [connStep] at h
      split_ifs at h
      · obtain ⟨⟨rslt, k', clt'⟩, hdata, rfl⟩ := Option.map_eq_some_iff.mp h
        obtain ⟨run, hrun⟩ := inputLoop_turns hsound hdata
        refine ⟨run, ?_⟩
        rw [Conn.recvBuf, hrun]
        cases rslt with
        | answered => rfl
        | dropped => rfl
      · obtain rfl := Option.some.inj h
        exact ⟨[], rfl⟩

theorem exec_connStep_turns {c c' : Conn} {events : List Event} (hsound : SoundOr bytes c.recvBuf)
    (h : exec (connStep os srv) c events = some c') :
    ∃ run, exec inputTurn c.recvBuf run = some c'.recvBuf := by
  apply exec_refines Conn.recvBuf (fun c => ∃ bytes, SoundOr bytes c.recvBuf) _ ⟨bytes, hsound⟩ h
  rintro c e d ⟨bytes, hc⟩ hd
  obtain ⟨run, hrun⟩ := connStep_turns hc hd
  exact ⟨⟨_, exec_inputTurn_sound hc hrun⟩, run, hrun⟩

end AnalysisPrograms.Shfs
