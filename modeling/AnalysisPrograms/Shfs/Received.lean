import AnalysisPrograms.Shfs.Outcome
import AnalysisPrograms.Shfs.Scanning

namespace AnalysisPrograms.Shfs

open Foundations FiniteMap Bytes

def LF : UInt8 := 10

structure Request where
  path : List UInt8
  fields : List (List UInt8)
  path_slash : path.head? = some SLASH
  path_plain : ∀ b ∈ path, b ≠ CR ∧ b ≠ LF ∧ b ≠ SPACE ∧ b ≠ 0
  fields_plain : ∀ line ∈ fields, line ≠ [] ∧ ∀ b ∈ line, b ≠ CR ∧ b ≠ LF ∧ b ≠ 0

def Request.tail (r : Request) : List UInt8 :=
  text "HTTP/1.1\r\n" ++ r.fields.flatMap (fun line => line ++ text "\r\n") ++ text "\r\n"

def Request.bytes (r : Request) : List UInt8 := text "GET " ++ (r.path ++ SPACE :: r.tail)

theorem Request.slices (r : Request) {data : ℕ → UInt8}
    (h : slice data 0 r.bytes.length = r.bytes) :
    slice data 0 4 = text "GET " ∧ slice data 4 r.path.length = r.path ∧
      data (4 + r.path.length) = SPACE := by
  have hlen : r.bytes.length = 4 + (r.path.length + (r.tail.length + 1)) := by
    simp only [Request.bytes, List.length_append, List.length_cons]
    congr 1
  rw [hlen, slice_add, slice_add, Request.bytes] at h
  obtain ⟨hget, hrest⟩ := List.append_inj h (by rw [length_slice]; decide)
  simp only [Nat.zero_add] at hrest
  obtain ⟨hpath, htail⟩ := List.append_inj hrest (by rw [length_slice])
  rw [slice_succ] at htail
  exact ⟨hget, hpath, (List.cons.inj htail).1⟩

theorem requestItem_eq (r : Request) {data : ℕ → UInt8}
    (h : slice data 0 r.bytes.length = r.bytes) {capacity : ℕ} {item : List UInt8}
    (hitem : requestItem data capacity = some item) : item = r.path := by
  obtain ⟨hget, hpath, hspace⟩ := r.slices h
  have hne : r.path ≠ [] := by
    intro hnil
    have hslash := r.path_slash
    rw [hnil] at hslash
    cases hslash
  have hpos := List.length_pos_iff.mpr hne
  have hfirst : data 4 = SLASH := by
    have hslash := r.path_slash
    rw [← hpath, show r.path.length = (r.path.length - 1) + 1 by omega, slice_succ] at hslash
    exact Option.some.inj hslash
  obtain ⟨⟨start, itemLen⟩, hfile, rfl⟩ := Option.map_eq_some_iff.mp hitem
  obtain ⟨hstart, -, ⟨stop, hstop, rfl⟩, -⟩ := parseFile_found (Option.join_eq_some_iff.mp hfile)
  obtain ⟨slash, hslash, hstart⟩ := Option.bind_eq_some_iff.mp hstart
  obtain rfl : slash = 4 := by
    apply scan_eq hslash (by omega)
    · rw [hfirst]
      decide
    · intro m _ hm
      have hmem := mem_slice data (Nat.zero_le m) (show m < 0 + 4 by omega)
      rw [hget] at hmem
      have hall : (text "GET ").all (fun b => !(b = CR || b = SLASH)) = true := by decide
      exact Bool.not_eq_true' _ ▸ List.all_eq_true.mp hall _ hmem
  obtain rfl : 4 = start := by rw [← Option.some.inj hstart, if_pos hfirst]
  obtain rfl : stop = 4 + r.path.length := by
    apply scan_eq hstop (by omega)
    · rw [hspace]
      decide
    · intro m hlow hm
      have hmem := mem_slice data hlow hm
      rw [hpath] at hmem
      obtain ⟨hcr, -, hsp, -⟩ := r.path_plain _ hmem
      simp [hcr, hsp]
  rw [Nat.add_sub_cancel_left]
  exact hpath

structure Received (buf : Buf) (bytes : List UInt8) : Prop where
  size : buf.mSize = bytes.length
  data : ∃ data, buf.mpData = some data ∧ slice data 0 bytes.length = bytes

theorem received_nil {buf : Buf} (hsize : buf.mSize = 0) (hdata : buf.mpData.isSome) :
    Received buf [] := by
  obtain ⟨data, hd⟩ := Option.isSome_iff_exists.mp hdata
  exact ⟨hsize, data, hd, rfl⟩

section Input

variable {os : Os} {srv : Server} {k k' : Kernel} {clt clt' : Client} {buf buf' : Buf}
  {bytes : List UInt8}

theorem Received.store (h : Received buf bytes) (more : List UInt8) :
    Received (buf.store buf.mSize.toNat more) bytes := by
  obtain ⟨data, hd, hbytes⟩ := h.data
  have hsize := h.size
  refine ⟨hsize, _, by rw [Buf.store, hd, Option.map_some], ?_⟩
  rw [slice_blit_below _ _ (by omega), hbytes]

theorem Received.receive (h : Received buf bytes) (more : List UInt8) :
    Received (buf.receive more) (bytes ++ more) := by
  obtain ⟨data, hd, hbytes⟩ := h.data
  have hsize := h.size
  have hat : buf.mSize.toNat = bytes.length := by omega
  refine ⟨by simp [Buf.receive, hsize], _, by rw [Buf.receive, Buf.store, hd, Option.map_some], ?_⟩
  rw [List.length_append, slice_add, hat, slice_blit_below _ _ (by omega), hbytes, Nat.zero_add,
    slice_blit_self]

theorem Received.doublesize (h : Received buf bytes) (tmp : ℕ → UInt8) :
    ∃ buf', doublesizeBuf buf 2 (some tmp) = some (0, buf') ∧ Received buf' bytes := by
  obtain ⟨data, hd, hbytes⟩ := h.data
  have hsize := h.size
  have hat : buf.mSize.toNat = bytes.length := by omega
  refine ⟨{ buf with mpData := some (blit tmp 0 bytes), mCapacity := 2 * buf.mCapacity }, ?_,
    hsize, _, rfl, ?_⟩
  · simp [doublesizeBuf, hd, hat, hbytes]
  · exact slice_blit_self tmp 0 bytes

theorem growBuf_cases {mallocs mallocs' : List MallocAnswer}
    (h : growBuf buf mallocs = some (some (buf', mallocs'))) :
    (isBufFull buf = false ∧ buf' = buf) ∨
      isBufFull buf = true ∧ buf.mSize ≤ 4096 * 4 ∧
      ∃ tmp, doublesizeBuf buf 2 (some tmp) = some (0, buf') := by
  unfold growBuf at h
  split_ifs at h with hfull hlarge
  · cases h
  · refine .inr ⟨hfull, by omega, ?_⟩
    obtain ⟨⟨ret, grown⟩, hdouble, h⟩ := Option.bind_eq_some_iff.mp h
    cases hm : mallocs.headD none with
    | none =>
      rw [hm] at hdouble
      obtain ⟨rfl, rfl⟩ := Prod.mk.inj (Option.some.inj hdouble)
      cases h
    | some tmp =>
      rw [hm] at hdouble
      obtain ⟨rfl, -⟩ := Prod.mk.inj (Option.some.inj hdouble)
      obtain ⟨rfl, -⟩ := Prod.mk.inj (Option.some.inj (Option.some.inj h))
      exact ⟨tmp, hdouble⟩
  · obtain ⟨rfl, -⟩ := Prod.mk.inj (Option.some.inj (Option.some.inj h))
    exact .inl ⟨Bool.eq_false_of_not_eq_true hfull, rfl⟩

theorem growBuf_received (h : Received buf bytes) {mallocs mallocs' : List MallocAnswer}
    (hgrow : growBuf buf mallocs = some (some (buf', mallocs'))) : Received buf' bytes := by
  obtain ⟨-, rfl⟩ | ⟨-, -, tmp, hdouble⟩ := growBuf_cases hgrow
  · exact h
  · obtain ⟨grown, hsome, hreceived⟩ := h.doublesize tmp
    obtain ⟨-, rfl⟩ := Prod.mk.inj (Option.some.inj (hsome.symm.trans hdouble))
    exact hreceived

def AnswerTo (os : Os) (srv : Server) (k : Kernel) (canOpen : Bool) (clt : Client)
    (bytes : List UInt8) (k' : Kernel) (clt' : Client) : Prop :=
  ∃ data capacity item o requ buf, slice data 0 bytes.length = bytes ∧
    requestItem data capacity = some item ∧ outcomeOf srv item canOpen = some o ∧
    buf.mpData.isSome ∧ k' = (o.setup os k { clt with mRequ := requ, mRecvBuf := buf }).1 ∧
    clt' = answered (o.setup os k { clt with mRequ := requ, mRecvBuf := buf }).2

theorem takeRequest_answer {canOpen : Bool} (hreceived : Received clt.mRecvBuf bytes)
    (h : takeRequest os srv k canOpen clt = some (.answered, k', clt')) :
    AnswerTo os srv k canOpen clt bytes k' clt' := by
  have hstored : Received (withNul clt).mRecvBuf bytes := hreceived.store [0]
  obtain ⟨hdropped, -⟩ | ⟨-, data, item, o, requ, hd, hitem, ho, hk, hc⟩ := takeRequest_inv h
  · cases hdropped
  · obtain ⟨data', hd', hbytes⟩ := hstored.data
    obtain rfl := Option.some.inj (hd.symm.trans hd')
    exact ⟨data, _, item, o, requ, _, hbytes, hitem, ho, by rw [hd]; rfl, hk, hc⟩

theorem inputLoop_answer {a : ReadAnswers} {turns : ℕ} {input : List UInt8} {sizes : List ℕ}
    {mallocs : List MallocAnswer} (hreceived : Received clt.mRecvBuf bytes)
    (h : inputLoop os srv k a turns input sizes mallocs clt = some (.answered, k', clt')) :
    AnswerTo os srv k a.canOpen clt (bytes ++ input) k' clt' := by
  induction turns generalizing input sizes mallocs clt bytes with
  | zero => cases h
  | succ turns ih =>
    obtain ⟨-, hdropped, -⟩ | ⟨buf, mallocs', hgrow, hrecv⟩ := inputLoop_inv h
    · cases hdropped
    obtain ⟨-, hdropped, -⟩ | ⟨rfl, htake⟩ | ⟨-, n, -, hrest⟩ := hrecv
    · cases hdropped
    · have hall : Received ({ clt with mRecvBuf := buf } : Client).mRecvBuf bytes :=
        growBuf_received hreceived hgrow
      have hanswer := takeRequest_answer hall htake
      rw [List.append_nil]
      exact hanswer
    · have hmore : Received ({ clt with mRecvBuf := buf.receive (input.take n) } : Client).mRecvBuf
          (bytes ++ input.take n) := (growBuf_received hreceived hgrow).receive _
      have hanswer := ih hmore hrest
      rw [List.append_assoc, List.take_append_drop] at hanswer
      exact hanswer

theorem dataInput_answer {a : ReadAnswers} (hsize : clt.mRecvBuf.mSize = 0)
    (hdata : clt.mRecvBuf.mpData.isSome) {r : Request} (hinput : a.input = r.bytes)
    (h : dataInput os srv k a clt = some (.answered, k', clt')) :
    ∃ o requ buf, outcomeOf srv r.path a.canOpen = some o ∧ buf.mpData.isSome ∧
      k' = (o.setup os k { clt with mRequ := requ, mRecvBuf := buf }).1 ∧
      clt' = answered (o.setup os k { clt with mRequ := requ, mRecvBuf := buf }).2 := by
  obtain ⟨data, capacity, item, o, requ, buf, hbytes, hitem, ho, hbuf, hk, hc⟩ :=
    inputLoop_answer (received_nil hsize hdata) h
  rw [List.nil_append, hinput] at hbytes
  obtain rfl := requestItem_eq r hbytes hitem
  exact ⟨o, requ, buf, ho, hbuf, hk, hc⟩

end Input

end AnalysisPrograms.Shfs
