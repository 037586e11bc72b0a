import AnalysisPrograms.Foundations.Execution
import AnalysisPrograms.Shfs.Received

namespace AnalysisPrograms.Shfs

open Foundations Execution FiniteMap Bytes

inductive RecvBuf
  | up (buf : Buf)
  | down

/-- What `recv` answers: bytes, EAGAIN with what `handle_http_requ` makes of the bytes there are, or
anything else. -/
inductive RecvAnswer
  | bytes (more : List UInt8)
  | eagain (rslt : InputResult)
  | other

structure Turn where
  malloc : MallocAnswer
  recv : RecvAnswer

def asked (buf : Buf) : ℤ := buf.mCapacity - buf.mSize - 1

def onRecv (buf : Buf) : RecvAnswer → Option RecvBuf
  | .bytes more =>
    if 0 < more.length ∧ more.length ≤ asked buf then some (.up (buf.receive more)) else none
  | .eagain .answered => some (.up (cleanBuf (buf.store buf.mSize.toNat [0])))
  | .eagain .dropped => some .down
  | .other => some .down

def beforeRecv (buf : Buf) (malloc : MallocAnswer) : Option (Option Buf) :=
  (growBuf buf [malloc]).map (Option.map Prod.fst)

def inputTurn : RecvBuf → Turn → Option RecvBuf
  | .down, _ => some .down
  | .up buf, t => do
    match ← beforeRecv buf t.malloc with
    | none => some .down
    | some buf => onRecv buf t.recv

def gathered (bytes : List UInt8) (t : Turn) : List UInt8 :=
  match t.recv with
  | .bytes more => bytes ++ more
  | .eagain _ => []
  | .other => bytes

def receivedSince (turns : List Turn) : List UInt8 := turns.foldl gathered []

/-- A buffer that `handle_connection` gives to a new connection; a client that is given up keeps its
buffer. -/
inductive Opened : Buf → Prop
  | create {buf buf' : Buf} {size : ℤ} {malloc : MallocAnswer} (low : -2 ^ 31 ≤ size)
    (high : size < 2 ^ 31)
      (created : createBuf buf size malloc = (0, buf')) : Opened buf'
  | clean {buf : Buf} (opened : Opened buf) : Opened (cleanBuf buf)

structure Sound (buf : Buf) (bytes : List UInt8) : Prop where
  received : Received buf bytes
  below : buf.mSize < buf.mCapacity
  least : MIN_BUF_SIZE ≤ buf.mCapacity
  int : buf.mCapacity < 2 ^ 31

theorem Sound.clean {buf : Buf} {bytes : List UInt8} (h : Sound buf bytes) :
    Sound (cleanBuf buf) [] := by
  obtain ⟨data, hdata, -⟩ := h.received.data
  have hleast := h.least
  refine ⟨received_nil rfl ?_, ?_, h.least, h.int⟩
  · rw [cleanBuf, hdata]
    rfl
  · simp only [cleanBuf, MIN_BUF_SIZE] at *
    omega

theorem Opened.sound {buf : Buf} (h : Opened buf) : Sound buf [] := by
  induction h with
  | @create buf buf' size malloc low high created =>
    cases malloc with
    | none => cases created
    | some data =>
      obtain ⟨-, rfl⟩ := Prod.mk.inj created
      refine ⟨received_nil rfl rfl, ?_, ?_, ?_⟩
      all_goals
        dsimp only
        split_ifs
        all_goals
          simp only [MIN_BUF_SIZE] at *
          omega
  | clean opened ih => exact ih.clean

structure RecvReady (buf : Buf) : Prop where
  size_nonneg : 0 ≤ buf.mSize
  size_lt : buf.mSize < buf.mCapacity - 1
  asked_pos : 1 ≤ asked buf
  asked_end : buf.mSize + asked buf ≤ buf.mCapacity - 1
  nul_inside : buf.mSize < buf.mCapacity

section Turns

variable {buf buf' : Buf} {bytes : List UInt8}

theorem Sound.double_int (h : Sound buf bytes) (hfull : isBufFull buf = true)
    (hsize : buf.mSize ≤ 4096 * 4) : 0 ≤ 2 * buf.mCapacity ∧ 2 * buf.mCapacity < 2 ^ 31 := by
  have hleast := h.least
  simp only [isBufFull, Bool.not_eq_true', decide_eq_false_iff_not, MIN_BUF_SIZE] at hfull hleast
  omega

theorem Sound.grow (h : Sound buf bytes) {mallocs mallocs' : List MallocAnswer}
    (hgrow : growBuf buf mallocs = some (some (buf', mallocs'))) :
    Sound buf' bytes ∧ RecvReady buf' := by
  have hreceived := growBuf_received h.received hgrow
  have hsize := hreceived.size
  have hroom : Sound buf' bytes ∧ buf'.mSize < buf'.mCapacity - 1 := by
    obtain ⟨hfull, rfl⟩ | ⟨hfull, hlimit, tmp, hdouble⟩ := growBuf_cases hgrow
    · simp only [isBufFull, Bool.not_eq_false', decide_eq_true_eq] at hfull
      exact ⟨h, hfull⟩
    · have hint := h.double_int hfull hlimit
      have hbelow := h.below
      have hleast := h.least
      obtain ⟨-, rfl⟩ := Prod.mk.inj (Option.some.inj hdouble)
      simp only [MIN_BUF_SIZE] at hleast
      refine ⟨⟨hreceived, ?_, ?_, hint.2⟩, ?_⟩
      all_goals
        simp only [MIN_BUF_SIZE]
        omega
  obtain ⟨hsound, hroom⟩ := hroom
  have hasked : asked buf' = buf'.mCapacity - buf'.mSize - 1 := rfl
  exact ⟨hsound, by omega, hroom, by omega, by omega, hsound.below⟩

theorem Sound.beforeRecv (h : Sound buf bytes) {malloc : MallocAnswer}
    (hgrow : beforeRecv buf malloc = some (some buf')) : Sound buf' bytes ∧ RecvReady buf' := by
  obtain ⟨grown, hgrown, hsome⟩ := Option.map_eq_some_iff.mp hgrow
  obtain ⟨⟨buf', mallocs⟩, rfl, rfl⟩ := Option.map_eq_some_iff.mp hsome
  exact h.grow hgrown

theorem Sound.receive (h : Sound buf bytes) {more : List UInt8} (hmore : more.length ≤ asked buf) :
    Sound (buf.receive more) (bytes ++ more) := by
  refine ⟨h.received.receive more, ?_, h.least, h.int⟩
  simp only [Buf.receive, Buf.store, asked] at *
  omega

def SoundOr (bytes : List UInt8) : RecvBuf → Prop
  | .up buf => Sound buf bytes
  | .down => True

theorem inputTurn_sound {s s' : RecvBuf} {t : Turn} (h : SoundOr bytes s)
    (hturn : inputTurn s t = some s') : SoundOr (gathered bytes t) s' := by
  cases s with
  | down =>
    obtain rfl := Option.some.inj hturn
    exact trivial
  | up buf =>
    obtain ⟨grown, hgrow, hturn⟩ := Option.bind_eq_some_iff.mp hturn
    cases grown with
    | none =>
      obtain rfl := Option.some.inj hturn
      exact trivial
    | some grown =>
      obtain ⟨hsound, -⟩ := Sound.beforeRecv h hgrow
      unfold gathered
      cases hrecv : t.recv with
      | bytes more =>
        simp only [hrecv, onRecv] at hturn
        split_ifs at hturn with hmore
        obtain rfl := Option.some.inj hturn
        exact hsound.receive hmore.2
      | eagain rslt =>
        rw [hrecv] at hturn
        cases rslt with
        | answered =>
          obtain rfl := Option.some.inj hturn
          have hstored : Sound (grown.store grown.mSize.toNat [0]) bytes :=
            ⟨hsound.received.store [0], hsound.below, hsound.least, hsound.int⟩
          exact hstored.clean
        | dropped =>
          obtain rfl := Option.some.inj hturn
          exact trivial
      | other =>
        rw [hrecv] at hturn
        obtain rfl := Option.some.inj hturn
        exact trivial

theorem exec_inputTurn_sound {s s' : RecvBuf} {turns : List Turn} (h : SoundOr bytes s)
    (hrun : exec inputTurn s turns = some s') : SoundOr (turns.foldl gathered bytes) s' := by
  apply exec_tracked (fun s bytes => SoundOr bytes s) gathered _ h hrun
  intro s s' bytes t hs hturn
  exact inputTurn_sound hs hturn

end Turns

theorem recv_buffer_keeps_all {start buf : Buf} {turns : List Turn} (hstart : Opened start)
    (hrun : exec inputTurn (.up start) turns = some (.up buf)) :
    Received buf (receivedSince turns) ∧
      (isBufFull buf = true → buf.mSize ≤ 4096 * 4 →
        0 ≤ 2 * buf.mCapacity ∧ 2 * buf.mCapacity < 2 ^ 31) ∧
      ∀ malloc ready, beforeRecv buf malloc = some (some ready) →
        RecvReady ready ∧ Received ready (receivedSince turns) := by
  have hsound : Sound buf (receivedSince turns) :=
    exec_inputTurn_sound (show SoundOr [] (.up start) from hstart.sound) hrun
  refine ⟨hsound.received, hsound.double_int, ?_⟩
  intro malloc ready hready
  obtain ⟨hsound', hrecv⟩ := hsound.beforeRecv hready
  exact ⟨hrecv, hsound'.received⟩

def smallBuf : Buf := (createBuf ⟨none, 0, 0, 0⟩ (-1) (some fun _ => 0)).2

theorem smallBuf_opened : Opened smallBuf := by
  have created : createBuf ⟨none, 0, 0, 0⟩ (-1) (some fun _ => 0) = (0, smallBuf) := rfl
  exact .create (by decide) (by decide) created

-- a request in two pieces, and the first bytes of the next one
def twoRequests : List Turn :=
  [⟨none, .bytes [71, 69]⟩, ⟨none, .bytes [84]⟩, ⟨none, .eagain .answered⟩, ⟨none, .bytes [71]⟩,
    ⟨none, .bytes [69]⟩]

theorem recv_buffer_keeps_two : ∃ buf, exec inputTurn (.up smallBuf) twoRequests = some (.up buf) ∧
    Received buf [71, 69] ∧ ∃ ready, beforeRecv buf none = some (some ready) ∧ RecvReady ready := by
  have hkeeps := @recv_buffer_keeps_all smallBuf _ twoRequests smallBuf_opened rfl
  exact ⟨_, rfl, hkeeps.1, _, rfl, (hkeeps.2.2 none _ rfl).1⟩

end AnalysisPrograms.Shfs
