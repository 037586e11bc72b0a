import AnalysisPrograms.Shfs.Parsing
import AnalysisPrograms.Shfs.Worker

namespace AnalysisPrograms.Shfs

open Foundations FiniteMap Bytes

inductive Outcome
  | notFound
  | forbidden
  | found (contents : Contents) (mime : String)

def Outcome.ofPath (srv : Server) (canOpen : Bool) : Option (List UInt8) → Outcome
  | none => .notFound
  | some path =>
    match if canOpen then srv.fs.contents path else none with
    | none => .forbidden
    | some contents => .found contents (mimeOf (path.drop (filetypeLoop path (path.length - 1))))

/-- `none` stands for a failed assertion or a path too long for its buffer. -/
def outcomeOf (srv : Server) (item : List UInt8) (canOpen : Bool) : Option Outcome :=
  (openPath srv item).map (Outcome.ofPath srv canOpen)

def Outcome.setup (os : Os) (k : Kernel) (clt : Client) : Outcome → Kernel × Client
  | .notFound => (k, { clt with mResp := failResp .rsHttp404 HTTP404CONTENT clt.mResp })
  | .forbidden => (k, { clt with mResp := failResp .rsHttp403 HTTP403CONTENT clt.mResp })
  | .found contents mime =>
    ((k.newFd os (.file contents.bytes 0)).2, { clt with mResp :=
      { mRespStatus := some .rsHttp200
        mFile := ⟨(k.newFd os (.file contents.bytes 0)).1, contents.bytes.length⟩
        mpcMime := mime
        mRangeB := clt.mRequ.mRangeB
        mSentSize := 0
        mTotalSize := 0 } })

theorem respondFile_eq (os : Os) (srv : Server) (k : Kernel) (clt : Client) (item : List UInt8)
    (canOpen : Bool) :
    respondFile os srv k clt item canOpen =
      (outcomeOf srv item canOpen).map fun o => (0, o.setup os k clt) := by
  have hfd : ∀ d, (k.newFd os d).1 ≠ 0 := fun d => (os.unused k.calls k.fds).2.ne'
  rw [respondFile, outcomeOf, Option.map_map]
  cases openPath srv item with
  | none => rfl
  | some path =>
    cases path with
    | none => rfl
    | some path =>
      cases hc : (if canOpen then srv.fs.contents path else none) with
      | none => simp [hc, Outcome.ofPath, Outcome.setup]
      | some contents => simp [hc, hfd, Outcome.ofPath, Outcome.setup]

theorem handleHttpRequ_cases {os : Os} {srv : Server} {k k' : Kernel} {clt clt' : Client}
    {canOpen : Bool} {ret : ℤ} (h : handleHttpRequ os srv k clt canOpen = some (ret, k', clt')) :
    (ret = -1 ∧ k' = k ∧ ∃ requ, clt' = { clt with mRequ := requ }) ∨
      ret = 0 ∧ ∃ data item o requ, clt.mRecvBuf.mpData = some data ∧
        requestItem data clt.mRecvBuf.mCapacity.toNat = some item ∧
        outcomeOf srv item canOpen = some o ∧
        (k', clt') = o.setup os k { clt with mRequ := requ } := by
  obtain ⟨⟨clt₁, found⟩, hparse, h⟩ := Option.bind_eq_some_iff.mp h
  obtain ⟨⟨requ, rfl⟩, hfound⟩ := parseRequ_spec hparse
  cases found with
  | none =>
    cases h
    exact .inl ⟨rfl, rfl, requ, rfl⟩
  | some item =>
    obtain ⟨-, data, hdata, hitem⟩ := hfound item rfl
    dsimp only at h
    rw [respondFile_eq] at h
    obtain ⟨o, ho, h⟩ := Option.map_eq_some_iff.mp h
    obtain ⟨hret, hset⟩ := Prod.mk.inj h
    exact .inr ⟨hret.symm, data, item, o, requ, hdata, hitem, ho, hset.symm⟩

def answered (clt : Client) : Client :=
  { clt with
    mRecvBuf := cleanBuf clt.mRecvBuf
    mSelectType := { clt.mSelectType with mw := true } }

def InputSpec (os : Os) (k k' : Kernel) (clt clt' : Client) : InputResult → Prop
  | .dropped => k' = k ∧ ∃ requ buf, clt' = { clt with mRequ := requ, mRecvBuf := buf }
  | .answered => ∃ (o : Outcome) (requ : HttpRequ) (buf : Buf),
    k' = (o.setup os k { clt with mRequ := requ, mRecvBuf := buf }).1 ∧
    clt' = answered (o.setup os k { clt with mRequ := requ, mRecvBuf := buf }).2

theorem InputSpec.of_recvBuf {os : Os} {k k' : Kernel} {clt clt' : Client} {rslt : InputResult}
    {buf : Buf} (h : InputSpec os k k' { clt with mRecvBuf := buf } clt' rslt) :
    InputSpec os k k' clt clt' rslt := by
  cases rslt with
  | dropped => exact h
  | answered => exact h

def withNul (clt : Client) : Client :=
  { clt with mRecvBuf := clt.mRecvBuf.store clt.mRecvBuf.mSize.toNat [0] }

theorem takeRequest_inv {os : Os} {srv : Server} {k k' : Kernel} {canOpen : Bool}
    {clt clt' : Client} {rslt : InputResult}
    (h : takeRequest os srv k canOpen clt = some (rslt, k', clt')) :
    (rslt = .dropped ∧ k' = k ∧ ∃ requ, clt' = { withNul clt with mRequ := requ }) ∨
      rslt = .answered ∧ ∃ data item o requ, (withNul clt).mRecvBuf.mpData = some data ∧
        requestItem data (withNul clt).mRecvBuf.mCapacity.toNat = some item ∧
        outcomeOf srv item canOpen = some o ∧
        k' = (o.setup os k { withNul clt with mRequ := requ }).1 ∧
        clt' = answered (o.setup os k { withNul clt with mRequ := requ }).2 := by
  simp only [takeRequest, Option.bind_eq_bind, Option.bind_eq_some_iff] at h
  obtain ⟨⟨ret, k₁, clt₁⟩, hrequ, h⟩ := h
  obtain ⟨rfl, rfl, hclt⟩ | ⟨rfl, data, item, o, requ, hdata, hitem, ho, hset⟩ :=
    handleHttpRequ_cases hrequ
  · simp only [show ¬(-1 : ℤ) = 0 by omega, ↓reduceIte, Option.some.injEq, Prod.mk.injEq] at h
    obtain ⟨rfl, rfl, rfl⟩ := h
    exact .inl ⟨rfl, rfl, hclt⟩
  · simp only [↓reduceIte, Option.some.injEq, Prod.mk.injEq] at h
    obtain ⟨rfl, rfl, rfl⟩ := h
    obtain ⟨hk, hc⟩ := Prod.ext_iff.mp hset
    exact .inr ⟨rfl, data, item, o, requ, hdata, hitem, ho, hk, congrArg answered hc⟩

theorem inputLoop_inv {os : Os} {srv : Server} {k k' : Kernel} {a : ReadAnswers} {turns : ℕ}
    {input : List UInt8} {sizes : List ℕ} {mallocs : List MallocAnswer} {clt clt' : Client}
    {rslt : InputResult}
    (h : inputLoop os srv k a (turns + 1) input sizes mallocs clt = some (rslt, k', clt')) :
    (growBuf clt.mRecvBuf mallocs = some none ∧ rslt = .dropped ∧ k' = k ∧ clt' = clt) ∨
      ∃ buf mallocs', growBuf clt.mRecvBuf mallocs = some (some (buf, mallocs')) ∧
        ((input = [] ∧ rslt = .dropped ∧ k' = k ∧ clt' = { clt with mRecvBuf := buf }) ∨
          (input = [] ∧ takeRequest os srv k a.canOpen { clt with mRecvBuf := buf } =
            some (rslt, k', clt')) ∨
          input ≠ [] ∧ ∃ n, n = min (buf.mCapacity - buf.mSize - 1).toNat
          (sizes.headD input.length + 1) ∧
            inputLoop os srv k a turns (input.drop n) sizes.tail mallocs'
              { clt with mRecvBuf := buf.receive (input.take n) } = some (rslt, k', clt')) := by
  obtain ⟨grown, hgrow, h⟩ := Option.bind_eq_some_iff.mp h
  cases grown with
  | none =>
    obtain ⟨rfl, rfl, rfl⟩ : InputResult.dropped = rslt ∧ k = k' ∧ clt = clt' := by
      simpa only [Option.some.injEq, Prod.mk.injEq] using h
    exact .inl ⟨hgrow, rfl, rfl, rfl⟩
  | some grown =>
    refine .inr ⟨grown.1, grown.2, hgrow, ?_⟩
    dsimp only at h
    split_ifs at h with hnil hclosed
    · simp only [Option.some.injEq, Prod.mk.injEq] at h
      obtain ⟨rfl, rfl, rfl⟩ := h
      exact .inl ⟨hnil, rfl, rfl, rfl⟩
    · exact .inr (.inl ⟨hnil, h⟩)
    · exact .inr (.inr ⟨hnil, _, rfl, h⟩)

theorem takeRequest_cases {os : Os} {srv : Server} {k k' : Kernel} {canOpen : Bool}
    {clt clt' : Client} {rslt : InputResult}
    (h : takeRequest os srv k canOpen clt = some (rslt, k', clt')) :
    InputSpec os k k' clt clt' rslt := by
  obtain ⟨rfl, hk, requ, hc⟩ | ⟨rfl, data, item, o, requ, -, -, -, hk, hc⟩ := takeRequest_inv h
  · exact ⟨hk, requ, _, hc⟩
  · exact ⟨o, requ, _, hk, hc⟩

theorem inputLoop_cases {os : Os} {srv : Server} {k k' : Kernel} {a : ReadAnswers} {turns : ℕ}
    {input : List UInt8} {sizes : List ℕ} {mallocs : List MallocAnswer} {clt clt' : Client}
    {rslt : InputResult}
    (h : inputLoop os srv k a turns input sizes mallocs clt = some (rslt, k', clt')) :
    InputSpec os k k' clt clt' rslt := by
  induction turns generalizing input sizes mallocs clt with
  | zero => cases h
  | succ turns ih =>
    obtain ⟨-, rfl, rfl, rfl⟩ | ⟨buf, mallocs', -, hrecv⟩ := inputLoop_inv h
    · exact ⟨rfl, clt'.mRequ, clt'.mRecvBuf, rfl⟩
    obtain ⟨-, rfl, rfl, rfl⟩ | ⟨-, htake⟩ | ⟨-, n, -, hrest⟩ := hrecv
    · exact ⟨rfl, clt.mRequ, buf, rfl⟩
    · exact (takeRequest_cases htake).of_recvBuf
    · exact (ih hrest).of_recvBuf

end AnalysisPrograms.Shfs
