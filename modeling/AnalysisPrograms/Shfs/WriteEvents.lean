import AnalysisPrograms.Foundations.Execution
import AnalysisPrograms.Shfs.Sending

namespace AnalysisPrograms.Shfs

open Foundations Execution FiniteMap Bytes Decimal

theorem toOffT_of_lt {n : ℕ} (h : n < 2 ^ 63) : toOffT n = n := by
  simp only [toOffT, Int.bmod]
  omega

theorem toOffT_nonpos {n : ℕ} (hlow : 2 ^ 63 ≤ n) (hhigh : n < 2 ^ 64) : toOffT n ≤ 0 := by
  simp only [toOffT, Int.bmod]
  omega

structure Waiting (o : Outcome) (wire : List UInt8) (k : Kernel) (clt : Client) : Prop where
  ready : Ready o clt
  mime : clt.mResp.mpcMime = o.mime
  size : clt.mResp.mFile.mSize = o.body.length
  sentSize : clt.mResp.mSentSize = 0
  total : clt.mResp.mTotalSize = 0
  wire : k.fds.lookup clt.mCmnctFd = some (.socket wire)
  source : Source o k clt o.body
  short : o.header.length < 4096

def withHeader (o : Outcome) (total : ℤ) (clt : Client) : Client :=
  { clt with
    mSendBuf := { (cleanBuf clt.mSendBuf).store 0 (o.header ++ [0]) with mSize := o.header.length }
    mResp := { clt.mResp with mTotalSize := total } }

section FirstEvent

variable {o : Outcome} {wire : List UInt8} {k : Kernel} {clt : Client}

theorem statusLine_status (o : Outcome) : statusLine o.status = some o.statusLine := by
  cases o with
  | notFound => rfl
  | forbidden => rfl
  | found contents mime => rfl

theorem startResp_eq (h : Waiting o wire k clt) :
    startResp clt = some (withHeader o (toOffT (o.response.length : ℕ)) clt) := by
  have hsize := length_body_lt o
  have hlen := List.length_pos_iff.mpr (numeral_ne_nil o.body.length)
  have hcap := h.ready.capacity
  have hshort := h.short
  have hfits : (o.header.length : ℤ) < (cleanBuf clt.mSendBuf).mCapacity := by
    simp only [cleanBuf]
    omega
  have hpos : ((numeral o.body.length).length : ℤ) > 0 := by omega
  have hsum : (o.header.length : ℤ) + o.body.length = (o.response.length : ℕ) := by
    rw [Outcome.response, List.length_append, Nat.cast_add]
  simp only [startResp, h.size, offsetToStr_eq (n := o.body.length) (by omega), guard,
    hpos, ↓reduceIte, h.ready.status, statusLine_status, h.mime, Option.bind_eq_bind,
    Option.bind_some, pure]
  rw [show headerText o.statusLine (numeral o.body.length) o.mime = o.header from rfl, if_pos hfits,
    Option.bind_some, hsum]
  simp only [withHeader, h.ready.status, h.mime]

theorem pending_withHeader (h : Ready o clt) (total : ℤ) :
    (withHeader o total clt).mSendBuf.pending = o.header := by
  obtain ⟨data, hd⟩ := Option.isSome_iff_exists.mp h.data
  have hdata : (withHeader o total clt).mSendBuf.mpData = some (blit data 0 (o.header ++ [0])) := by
    rw [withHeader, Buf.store, cleanBuf, hd, Option.map_some]
  have hsize :
      ((withHeader o total clt).mSendBuf.mSize - (withHeader o total clt).mSendBuf.mSeek).toNat =
        o.header.length := by
    rw [withHeader, Buf.store, cleanBuf, sub_zero, Int.toNat_natCast]
  rw [Buf.pending, hdata, hsize]
  exact slice_blit_append data 0 o.header [0]

theorem Waiting.sending (h : Waiting o wire k clt) {total : ℤ}
    (htotal : total = o.response.length) : Sending o wire k (withHeader o total clt) [] o.body where
  ready := ⟨h.ready.status, Option.isSome_map.trans h.ready.data, h.ready.capacity⟩
  seek := le_refl 0
  total := htotal
  sentSize := h.sentSize
  wire := by
    rw [List.append_nil]
    exact h.wire
  split := by rw [pending_withHeader h.ready, List.nil_append, Outcome.response]
  source := h.source.congr rfl rfl fun _ _ => rfl

theorem kept_withHeader (o : Outcome) (total : ℤ) (clt : Client) :
    Kept clt (withHeader o total clt) :=
  ⟨rfl, rfl, Option.isSome_map, rfl, id⟩

theorem response_length_pos (o : Outcome) : 0 < o.response.length := by
  rw [Outcome.response, List.length_append]
  have h := List.length_pos_iff.mpr (header_ne_nil o)
  omega

theorem handleHttpResp_of_total {k : Kernel} {clt : Client} (h : clt.mResp.mTotalSize > 0)
    (answers : WriteAnswers) :
    handleHttpResp k clt answers = (httpSend k clt answers).map fun r => (r.2.1, r.2.2) := by
  have hne : ¬0 = clt.mResp.mTotalSize := by omega
  simp only [handleHttpResp, hne, h, ↓reduceIte, guard, Option.bind_eq_bind, Option.bind_some, pure]
  cases httpSend k clt answers with
  | none => rfl
  | some r => rfl

theorem Waiting.handleHttpResp_eq (h : Waiting o wire k clt) {total : ℤ}
    (htotal : toOffT (o.response.length : ℕ) = total) (answers : WriteAnswers) :
    handleHttpResp k clt answers =
      if total > 0 then (httpSend k (withHeader o total clt) answers).map fun r => (r.2.1, r.2.2)
      else none := by
  simp only [handleHttpResp, h.total, ↓reduceIte, startResp_eq h, htotal, guard,
    Option.bind_eq_bind, Option.bind_some, pure]
  by_cases hpos : total > 0
  · have hpos' : (withHeader o total clt).mResp.mTotalSize > 0 := hpos
    rw [if_pos hpos, if_pos hpos', Option.bind_some]
    cases httpSend k (withHeader o total clt) answers with
    | none => rfl
    | some r => rfl
  · have hpos' : ¬(withHeader o total clt).mResp.mTotalSize > 0 := hpos
    rw [if_neg hpos, if_neg hpos']
    rfl

theorem Waiting.handleHttpResp_none (h : Waiting o wire k clt) (hsize : 2 ^ 63 ≤ o.response.length)
    (answers : WriteAnswers) : handleHttpResp k clt answers = none := by
  have hbody := length_body_lt o
  have hshort := h.short
  have hlen : o.response.length = o.header.length + o.body.length := by
    rw [Outcome.response, List.length_append]
  have htotal := toOffT_nonpos hsize (by omega)
  rw [h.handleHttpResp_eq rfl, if_neg (by omega)]

end FirstEvent

def Progress (o : Outcome) (wire : List UInt8) (s : Kernel × Client) : Prop :=
  (s.2.mSelectType.mw = true ∧ Waiting o wire s.1 s.2) ∨
    (s.2.mSelectType.mw = true ∧ s.2.mSendBuf.pending ≠ [] ∧ ∃ sent rest,
      Sending o wire s.1 s.2 sent rest) ∨
    Done o wire s.1 s.2

def writeEvent (s : Kernel × Client) (answers : WriteAnswers) : Option (Kernel × Client) :=
  if s.2.mSelectType.mw then handleHttpResp s.1 s.2 answers else some s

section Run

variable {o : Outcome} {wire : List UInt8} {s : Kernel × Client}

theorem Sending.event {k : Kernel} {clt : Client} {sent rest : List UInt8}
    (h : Sending o wire k clt sent rest) (hmw : clt.mSelectType.mw = true)
    {answers : WriteAnswers} (hno : SendAnswer.failed ∉ answers.sends) :
    ∃ t, (httpSend k clt answers).map (fun r => (r.2.1, r.2.2)) = some t ∧ Progress o wire t ∧
      Kept clt t.2 := by
  obtain ⟨k', clt', hsend, hkept, hcases⟩ := httpSend_spec h hno
  refine ⟨(k', clt'), by rw [hsend]; rfl, ?_, hkept⟩
  obtain hdone | ⟨sent', rest', hsending, hpending, hsel⟩ := hcases
  · exact .inr (.inr hdone)
  · exact .inr (.inl ⟨by rw [hsel, hmw], hpending, sent', rest', hsending⟩)

theorem writeEvent_progress (h : Progress o wire s) {answers : WriteAnswers}
    (hno : SendAnswer.failed ∉ answers.sends) :
    (2 ^ 63 ≤ o.response.length ∧ writeEvent s answers = none) ∨
      ∃ t, writeEvent s answers = some t ∧ Progress o wire t ∧ Kept s.2 t.2 := by
  have hpos := response_length_pos o
  obtain ⟨hmw, hwait⟩ | ⟨hmw, -, sent, rest, hsend⟩ | hdone := h
  · rw [writeEvent, if_pos hmw]
    by_cases hsize : o.response.length < 2 ^ 63
    · rw [hwait.handleHttpResp_eq (toOffT_of_lt hsize), if_pos (by omega)]
      obtain ⟨t, hrun, hprogress, hkept⟩ := (hwait.sending rfl).event hmw hno
      exact .inr ⟨t, hrun, hprogress, (kept_withHeader _ _ _).trans hkept⟩
    · have hbig : 2 ^ 63 ≤ o.response.length := by omega
      exact .inl ⟨hbig, hwait.handleHttpResp_none hbig answers⟩
  · have htotal : s.2.mResp.mTotalSize > 0 := by
      rw [hsend.total]
      omega
    rw [writeEvent, if_pos hmw, handleHttpResp_of_total htotal]
    exact .inr (hsend.event hmw hno)
  · refine .inr ⟨s, ?_, .inr (.inr hdone), Kept.refl _⟩
    rw [writeEvent, hdone.mw]
    rfl

theorem exec_progress (hsize : o.response.length < 2 ^ 63) (h : Progress o wire s)
    {events : List WriteAnswers} (hno : ∀ e ∈ events, SendAnswer.failed ∉ e.sends) :
    ∃ t, exec writeEvent s events = some t ∧ Progress o wire t ∧ Kept s.2 t.2 := by
  induction events generalizing s with
  | nil => exact ⟨s, rfl, h, Kept.refl _⟩
  | cons e events ih =>
    obtain ⟨hbig, -⟩ | ⟨u, hu, hprogress, hkept⟩ := writeEvent_progress h (hno e List.mem_cons_self)
    · omega
    · obtain ⟨t, ht, hlast, hkept'⟩ := ih hprogress fun x hx => hno x (List.mem_cons_of_mem e hx)
      exact ⟨t, exec_cons_iff.mpr ⟨u, hu, ht⟩, hlast, hkept.trans hkept'⟩

theorem Progress.sent (h : Progress o wire s) :
    ∃ sent, s.1.fds.lookup s.2.mCmnctFd = some (.socket (wire ++ sent)) ∧ sent <+: o.response ∧
      (s.2.mSelectType.mw = false ↔ sent = o.response) := by
  have hpos := response_length_pos o
  obtain ⟨hmw, hwait⟩ | ⟨hmw, hpending, sent, rest, hsend⟩ | hdone := h
  · refine ⟨[], by rw [List.append_nil, hwait.wire], List.nil_prefix, ?_⟩
    rw [hmw]
    simp only [Bool.true_eq_false, false_iff]
    intro hnil
    rw [← hnil] at hpos
    exact absurd hpos (lt_irrefl 0)
  · have hsplit := hsend.split
    rw [List.append_assoc] at hsplit
    refine ⟨sent, hsend.wire, ⟨_, hsplit⟩, ?_⟩
    rw [hmw]
    simp only [Bool.true_eq_false, false_iff]
    intro hall
    have hnil := List.append_right_eq_self.mp (hsplit.trans hall.symm)
    exact hpending (List.append_eq_nil_iff.mp hnil).1
  · exact ⟨o.response, hdone.wire, List.prefix_rfl, by simp [hdone.mw]⟩

end Run

end AnalysisPrograms.Shfs
