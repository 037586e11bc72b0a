import AnalysisPrograms.Shfs.Spec

namespace AnalysisPrograms.Shfs

open Foundations FiniteMap Bytes

theorem length_pending {buf : Buf} {data : ℕ → UInt8} (hdata : buf.mpData = some data) :
    buf.pending.length = (buf.mSize - buf.mSeek).toNat := by
  simp [Buf.pending, hdata]

theorem pending_advance {buf : Buf} (hseek : 0 ≤ buf.mSeek) {n : ℕ} (hn : n ≤ buf.pending.length) :
    ({ buf with mSeek := buf.mSeek + n } : Buf).pending = buf.pending.drop n := by
  cases hdata : buf.mpData with
  | none => simp [Buf.pending, hdata]
  | some data =>
    rw [length_pending hdata] at hn
    have hi : (buf.mSeek + n).toNat = buf.mSeek.toNat + n := by omega
    have hl : (buf.mSize - (buf.mSeek + n)).toNat = (buf.mSize - buf.mSeek).toNat - n := by omega
    simp only [Buf.pending, hdata, slice_drop, hi, hl]

theorem pending_fill {buf : Buf} {data : ℕ → UInt8} (hdata : buf.mpData = some data)
    (bytes : List UInt8) : (buf.fill bytes).pending = bytes := by
  simp [Buf.pending, Buf.fill, Buf.store, hdata, slice_blit_self]

structure Wrote (k k' : Kernel) (fd : ℤ) (wire bytes : List UInt8) : Prop where
  wire : k'.fds.lookup fd = some (.socket (wire ++ bytes))
  others : ∀ x, x ≠ fd → k'.fds.lookup x = k.fds.lookup x

theorem wrote_nil {k : Kernel} {fd : ℤ} {wire : List UInt8}
    (h : k.fds.lookup fd = some (.socket wire)) :
    Wrote k k fd wire [] := ⟨by rw [h, List.append_nil], fun _ _ => rfl⟩

theorem send_wrote {k : Kernel} {fd : ℤ} {wire : List UInt8}
    (h : k.fds.lookup fd = some (.socket wire)) (bytes : List UInt8) :
    Wrote k (k.send fd bytes) fd wire bytes := by
  constructor
  · simp [Kernel.send, h]
  · intro x hx
    simp [Kernel.send, h, hx]

theorem sendLoop_spec {fd : ℤ} {answers : List SendAnswer} (hno : SendAnswer.failed ∉ answers)
    {k : Kernel} {buf : Buf} {wire : List UInt8} (hk : k.fds.lookup fd = some (.socket wire))
    (hseek : 0 ≤ buf.mSeek) (hdata : buf.mpData.isSome) (sent : ℤ) :
    ∃ out rest k', buf.pending = out ++ rest ∧ Wrote k k' fd wire out ∧
      sendLoop fd answers k buf sent =
        (sent + out.length, k', { buf with mSeek := buf.mSeek + out.length }) := by
  induction answers generalizing k buf wire sent with
  | nil => exact ⟨[], buf.pending, k, rfl, wrote_nil hk, by simp [sendLoop]⟩
  | cons answer answers ih =>
    rw [List.mem_cons, not_or] at hno
    have hstay : ∀ r, r = (sent, k, buf) →
        ∃ out rest k', buf.pending = out ++ rest ∧ Wrote k k' fd wire out ∧
          r = (sent + out.length, k', { buf with mSeek := buf.mSeek + out.length }) := by
      rintro r rfl
      exact ⟨[], buf.pending, k, rfl, wrote_nil hk, by simp⟩
    by_cases hz : 0 = buf.mSize - buf.mSeek
    · exact hstay _ (by simp [sendLoop, hz])
    · cases answer with
      | failed => exact absurd rfl hno.1
      | eagain => exact hstay _ (by simp [sendLoop, hz])
      | accepted n =>
        obtain ⟨data, hd⟩ := Option.isSome_iff_exists.mp hdata
        generalize hm : min (n + 1) (buf.mSize - buf.mSeek).toNat = m
        have hle : m ≤ buf.pending.length := by
          rw [length_pending hd]
          omega
        have hseek' : 0 ≤ ({ buf with mSeek := buf.mSeek + m } : Buf).mSeek := by
          simp only
          omega
        obtain ⟨out, rest, k', hp, hw, hrun⟩ :=
          ih hno.2 (send_wrote hk (buf.pending.take m)).wire hseek' hdata (sent + m)
        rw [pending_advance hseek hle] at hp
        refine ⟨buf.pending.take m ++ out, rest, k', ?_, ?_, ?_⟩
        · rw [List.append_assoc, ← hp, List.take_append_drop]
        · refine ⟨?_, fun x hx => (hw.others x hx).trans ((send_wrote hk _).others x hx)⟩
          rw [hw.wire, List.append_assoc]
        · have hlen : ((buf.pending.take m ++ out).length : ℤ) = m + out.length := by
            rw [List.length_append, List.length_take, Nat.min_eq_left hle]
            omega
          simp only [sendLoop, hz, ↓reduceIte, hm, hrun, hlen, add_assoc]

def Source (o : Outcome) (k : Kernel) (clt : Client) (rest : List UInt8) : Prop :=
  match o with
  | .found contents _ => clt.mResp.mFile.mFd ≠ -1 ∧ clt.mResp.mFile.mFd ≠ clt.mCmnctFd ∧
    ∃ offset, k.fds.lookup clt.mResp.mFile.mFd = some (.file contents.bytes offset) ∧
      rest = contents.bytes.drop offset
  | .forbidden => rest = HTTP403CONTENT ∨ rest = []
  | .notFound => rest = HTTP404CONTENT ∨ rest = []

theorem Source.congr {o : Outcome} {k k' : Kernel} {clt clt' : Client} {rest : List UInt8}
    (h : Source o k clt rest) (hconn : clt'.mCmnctFd = clt.mCmnctFd)
    (hfile : clt'.mResp.mFile.mFd = clt.mResp.mFile.mFd)
    (hk : ∀ x, x ≠ clt.mCmnctFd → k'.fds.lookup x = k.fds.lookup x) : Source o k' clt' rest := by
  cases o with
  | notFound => exact h
  | forbidden => exact h
  | found contents mime =>
    obtain ⟨hfd, hne, offset, hlookup, hrest⟩ := h
    refine ⟨?_, ?_, offset, ?_, hrest⟩
    · rw [hfile]
      exact hfd
    · rw [hfile, hconn]
      exact hne
    · rw [hfile, hk _ hne]
      exact hlookup

structure Ready (o : Outcome) (clt : Client) : Prop where
  status : clt.mResp.mRespStatus = some o.status
  data : clt.mSendBuf.mpData.isSome
  capacity : 4096 ≤ clt.mSendBuf.mCapacity

structure Sending (o : Outcome) (wire : List UInt8) (k : Kernel) (clt : Client)
    (sent rest : List UInt8) : Prop where
  ready : Ready o clt
  seek : 0 ≤ clt.mSendBuf.mSeek
  total : clt.mResp.mTotalSize = o.response.length
  sentSize : clt.mResp.mSentSize = sent.length
  wire : k.fds.lookup clt.mCmnctFd = some (.socket (wire ++ sent))
  split : sent ++ clt.mSendBuf.pending ++ rest = o.response
  source : Source o k clt rest

section Refill

variable {o : Outcome} {wire : List UInt8} {k k' : Kernel} {clt : Client}
  {sent rest rest' : List UInt8}

theorem pending_refilled (h : Ready o clt) (bytes : List UInt8) :
    ((cleanBuf clt.mSendBuf).fill bytes).pending = bytes := by
  obtain ⟨data, hd⟩ := Option.isSome_iff_exists.mp h.data
  exact pending_fill (show (cleanBuf clt.mSendBuf).mpData = some data from hd) bytes

theorem Sending.refilled (h : Sending o wire k clt sent rest) (hempty : clt.mSendBuf.pending = [])
    {bytes : List UInt8} (hrest : rest = bytes ++ rest')
    (hwire : k'.fds.lookup clt.mCmnctFd = k.fds.lookup clt.mCmnctFd)
    (hsource : Source o k' clt rest') :
    Sending o wire k' { clt with mSendBuf := (cleanBuf clt.mSendBuf).fill bytes } sent rest' where
  ready := by
    refine ⟨h.ready.status, ?_, h.ready.capacity⟩
    simpa [Buf.fill, Buf.store, cleanBuf] using h.ready.data
  seek := le_refl 0
  total := h.total
  sentSize := h.sentSize
  wire := hwire.trans h.wire
  split := by
    have hs := h.split
    rw [hempty, List.append_nil, hrest] at hs
    rw [pending_refilled h.ready, List.append_assoc]
    exact hs
  source := hsource.congr rfl rfl fun _ _ => rfl

theorem read_spec {fd : ℤ} {contents : List UInt8} {offset : ℕ}
    (hfd : k.fds.lookup fd = some (.file contents offset)) (hrest : contents.drop offset ≠ [])
    {want : ℕ} (hwant : 0 < want) (chunk : ℕ) :
    ∃ bytes k' offset', k.read fd want chunk = (bytes, k') ∧ 0 < bytes.length ∧
      contents.drop offset = bytes ++ contents.drop offset' ∧
      k'.fds.lookup fd = some (.file contents offset') ∧ ∀ x, x ≠ fd →
      k'.fds.lookup x = k.fds.lookup x := by
  have hlen : 0 < contents.length - offset := by
    rw [← List.length_drop]
    exact List.length_pos_iff.mpr hrest
  generalize hn : min (chunk + 1) (min want (contents.length - offset)) = n
  have hpos : 0 < n := by omega
  refine ⟨(contents.drop offset).take n,
    { k with fds := k.fds.insert fd (.file contents (offset + n)) }, offset + n, by
      simp [Kernel.read, hfd, hn], ?_, ?_, by simp, fun x hx => by simp [hx]⟩
  · rw [List.length_take, List.length_drop]
    omega
  · rw [← List.drop_drop, List.take_append_drop]

theorem refill_spec (h : Sending o wire k clt sent rest) (hempty : clt.mSendBuf.pending = [])
    (hrest : rest ≠ []) (chunk : ℕ) :
    ∃ bytes k' rest', bytes ≠ [] ∧ rest = bytes ++ rest' ∧
      refill k { clt with mSendBuf := cleanBuf clt.mSendBuf } chunk =
        some (k', { clt with mSendBuf := (cleanBuf clt.mSendBuf).fill bytes }) ∧
      Sending o wire k' { clt with mSendBuf := (cleanBuf clt.mSendBuf).fill bytes } sent rest' := by
  have hstatus := h.ready.status
  cases o with
  | notFound =>
    obtain hr | hr := h.source
    · refine ⟨HTTP404CONTENT, k, [], HTTP404CONTENT_ne_nil, by rw [hr, List.append_nil], ?_, ?_⟩
      · simp only [refill, hstatus, Outcome.status]
      · exact h.refilled hempty (by rw [hr, List.append_nil]) rfl (.inr rfl)
    · exact absurd hr hrest
  | forbidden =>
    obtain hr | hr := h.source
    · refine ⟨HTTP403CONTENT, k, [], HTTP403CONTENT_ne_nil, by rw [hr, List.append_nil], ?_, ?_⟩
      · simp only [refill, hstatus, Outcome.status]
      · exact h.refilled hempty (by rw [hr, List.append_nil]) rfl (.inr rfl)
    · exact absurd hr hrest
  | found contents mime =>
    obtain ⟨hfd, hne, offset, hfile, rfl⟩ := h.source
    have hcap := h.ready.capacity
    have hwant : 0 < clt.mSendBuf.mCapacity.toNat := by omega
    obtain ⟨bytes, k', offset', hread, hpos, hsplit, hfile', hothers⟩ :=
      read_spec hfile hrest hwant chunk
    refine ⟨bytes, k', contents.bytes.drop offset', List.length_pos_iff.mp hpos, hsplit, ?_, ?_⟩
    · have hread' : k.read clt.mResp.mFile.mFd (cleanBuf clt.mSendBuf).mCapacity.toNat chunk =
        (bytes, k') := hread
      simp only [refill, hstatus, Outcome.status, hread', guard, hfd, hpos, ne_eq,
        not_false_eq_true, ↓reduceIte, Option.bind_eq_bind, pure, Option.bind_some]
    · exact h.refilled hempty hsplit (hothers _ hne.symm) ⟨hfd, hne, offset', hfile', rfl⟩

def afterSend (clt : Client) (out : List UInt8) : Client :=
  { clt with
    mSendBuf := { clt.mSendBuf with mSeek := clt.mSendBuf.mSeek + out.length }
    mResp := { clt.mResp with mSentSize := clt.mResp.mSentSize + out.length } }

theorem Sending.advance (h : Sending o wire k clt sent rest) {out left : List UInt8}
    (hp : clt.mSendBuf.pending = out ++ left) (hw : Wrote k k' clt.mCmnctFd (wire ++ sent) out) :
    Sending o wire k' (afterSend clt out) (sent ++ out) rest ∧
      (afterSend clt out).mSendBuf.pending = left := by
  have hleft : (afterSend clt out).mSendBuf.pending = left := by
    have hle : out.length ≤ clt.mSendBuf.pending.length := by
      rw [hp, List.length_append]
      omega
    rw [afterSend, pending_advance h.seek hle, hp, List.drop_left]
  refine ⟨⟨⟨h.ready.status, h.ready.data, h.ready.capacity⟩, ?_, h.total, ?_, ?_, ?_, ?_⟩, hleft⟩
  · have hseek := h.seek
    simp only [afterSend]
    omega
  · simp only [afterSend, h.sentSize, List.length_append]
    omega
  · rw [← List.append_assoc]
    exact hw.wire
  · rw [hleft, ← h.split, hp]
    simp only [List.append_assoc]
  · exact h.source.congr rfl rfl hw.others

structure Done (o : Outcome) (wire : List UInt8) (k : Kernel) (clt : Client) : Prop where
  mw : clt.mSelectType.mw = false
  wire : k.fds.lookup clt.mCmnctFd = some (.socket (wire ++ o.response))

structure Kept (clt clt' : Client) : Prop where
  cmnctFd : clt'.mCmnctFd = clt.mCmnctFd
  recvBuf : clt'.mRecvBuf = clt.mRecvBuf
  data : clt'.mSendBuf.mpData.isSome = clt.mSendBuf.mpData.isSome
  capacity : clt'.mSendBuf.mCapacity = clt.mSendBuf.mCapacity
  mr : clt.mSelectType.mr = true → clt'.mSelectType.mr = true

theorem Kept.refl (clt : Client) : Kept clt clt := ⟨rfl, rfl, rfl, rfl, id⟩

theorem Kept.trans {clt₁ clt₂ clt₃ : Client} (h : Kept clt₁ clt₂) (h' : Kept clt₂ clt₃) :
    Kept clt₁ clt₃ :=
  ⟨h'.cmnctFd.trans h.cmnctFd, h'.recvBuf.trans h.recvBuf, h'.data.trans h.data,
    h'.capacity.trans h.capacity, fun hmr => h'.mr (h.mr hmr)⟩

theorem httpSend_spec (h : Sending o wire k clt sent rest) {answers : WriteAnswers}
    (hno : SendAnswer.failed ∉ answers.sends) :
    ∃ k' clt', httpSend k clt answers = some (0, k', clt') ∧ Kept clt clt' ∧
      (Done o wire k' clt' ∨ ∃ sent' rest', Sending o wire k' clt' sent' rest' ∧
        clt'.mSendBuf.pending ≠ [] ∧ clt'.mSelectType = clt.mSelectType) := by
  obtain ⟨out, left, k₁, hp, hw, hloop⟩ := sendLoop_spec hno h.wire h.seek h.ready.data 0
  obtain ⟨hadv, hleft⟩ := h.advance hp hw
  obtain ⟨data, hd⟩ := Option.isSome_iff_exists.mp hadv.ready.data
  have hlen := length_pending hd
  rw [hleft] at hlen
  have hsent : httpSend k clt answers =
      if (afterSend clt out).mSendBuf.mSeek < (afterSend clt out).mSendBuf.mSize then
        some (0, k₁, afterSend clt out)
      else if (afterSend clt out).mResp.mSentSize ≥ (afterSend clt out).mResp.mTotalSize then
        some (0, k₁, { afterSend clt out with mSelectType := { mr := true, mw := false } })
      else
        (refill k₁ { afterSend clt out with mSendBuf := cleanBuf (afterSend clt out).mSendBuf }
          answers.chunk).bind fun r => some (0, r.1, r.2) := by
    have hne : ¬(out.length : ℤ) = -1 := by omega
    have hge : (out.length : ℤ) ≥ 0 := by omega
    simp only [httpSend, sendBuf, hloop, zero_add, hne, hge, ↓reduceIte, guard]
    rfl
  rw [hsent]
  by_cases hmore : (afterSend clt out).mSendBuf.mSeek < (afterSend clt out).mSendBuf.mSize
  · rw [if_pos hmore]
    refine ⟨k₁, _, rfl, ⟨rfl, rfl, rfl, rfl, id⟩, .inr ⟨sent ++ out, rest, hadv, ?_, rfl⟩⟩
    rw [hleft, ← List.length_pos_iff, hlen]
    omega
  · rw [if_neg hmore]
    have hnil : left = [] := by
      rw [← List.length_eq_zero_iff, hlen]
      omega
    have hsplit := hadv.split
    rw [hleft, hnil, List.append_nil] at hsplit
    have hlens := congrArg List.length hsplit
    rw [List.length_append] at hlens
    rw [hadv.sentSize, hadv.total]
    by_cases hall : rest = []
    · rw [if_pos (by rw [hall] at hlens; simp only [List.length_nil] at hlens; omega)]
      refine ⟨k₁, _, rfl, ⟨rfl, rfl, rfl, rfl, fun _ => rfl⟩, .inl ⟨rfl, ?_⟩⟩
      rw [← hsplit, hall, List.append_nil]
      exact hadv.wire
    · have hpos := List.length_pos_iff.mpr hall
      rw [if_neg (by omega)]
      obtain ⟨bytes, k₂, rest', hne, -, hrefill, hsend⟩ :=
        refill_spec hadv (hleft.trans hnil) hall answers.chunk
      rw [hrefill]
      refine ⟨k₂, _, rfl, ⟨rfl, rfl, Option.isSome_map, rfl, id⟩, .inr ⟨_, rest', hsend, ?_, rfl⟩⟩
      rw [pending_refilled hadv.ready]
      exact hne

end Refill

end AnalysisPrograms.Shfs
