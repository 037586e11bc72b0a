import AnalysisPrograms.TeamTalk.Stream

namespace AnalysisPrograms.TeamTalk

open Foundations

/-- A stream position behind a complete header whose body has not yet ended. -/
def InsideBody : List Msg → ℕ → Prop
  | [], _ => False
  | m :: ms, n =>
    if n < 12 + m.body.length then 12 ≤ n else InsideBody ms (n - (12 + m.body.length))

instance decidableInsideBody : (ms : List Msg) → (n : ℕ) → Decidable (InsideBody ms n)
  | [], _ => inferInstanceAs (Decidable False)
  | m :: ms, n =>
    if h : n < 12 + m.body.length then decidable_of_iff (12 ≤ n) (by simp [InsideBody, h])
    else
      have := decidableInsideBody ms (n - (12 + m.body.length))
      decidable_of_iff (InsideBody ms (n - (12 + m.body.length))) (by simp [InsideBody, h])

def ChunkingIrrelevant (chunks : List (List UInt8)) : Prop :=
  ∃ fuel rslt p p', feed fuel .fresh chunks = some (rslt, p) ∧
    unpackTtMsg fuel .fresh chunks.flatten = some (rslt, p')

def Unpacks (p : TTMsgParser) (data : List UInt8) (rslt : List MsgTuple) (p' : TTMsgParser) :
    Prop :=
  ∃ fuel, unpackTtMsg fuel p data = some (rslt, p')

def Feeds (p : TTMsgParser) (chunks : List (List UInt8)) (rslt : List MsgTuple)
    (p' : TTMsgParser) : Prop :=
  ∃ fuel, feed fuel p chunks = some (rslt, p')

theorem unpacks_iff {p p' : TTMsgParser} {data : List UInt8} {rslt : List MsgTuple} :
    Unpacks p data rslt p' ↔
      Iteration.Returns unpackBody (p.data ++ data, []) (some (rslt, p')) := by
  simp only [Unpacks, unpackTtMsg, Iteration.Returns, Option.join_eq_some_iff]

theorem Unpacks.unique {p p₁ p₂ : TTMsgParser} {data : List UInt8} {r₁ r₂ : List MsgTuple}
    (h₁ : Unpacks p data r₁ p₁) (h₂ : Unpacks p data r₂ p₂) : r₁ = r₂ ∧ p₁ = p₂ := by
  have h := (unpacks_iff.mp h₁).unique (unpacks_iff.mp h₂)
  simpa using h

theorem unpackTtMsg_mono {n m : ℕ} {p : TTMsgParser} {data : List UInt8}
    {r : List MsgTuple × TTMsgParser} (h : unpackTtMsg n p data = some r) (hm : n ≤ m) :
    unpackTtMsg m p data = some r := by
  simp only [unpackTtMsg, Option.join_eq_some_iff] at h ⊢
  exact Iteration.run_mono _ h hm

theorem feed_cons_iff {fuel : ℕ} {p : TTMsgParser} {c : List UInt8} {cs : List (List UInt8)}
    {r : List MsgTuple × TTMsgParser} :
    feed fuel p (c :: cs) = some r ↔ ∃ r₁ p₁ r₂ p₂, unpackTtMsg fuel p c = some (r₁, p₁) ∧
      feed fuel p₁ cs = some (r₂, p₂) ∧ r = (r₁ ++ r₂, p₂) := by
  simp only [feed, Option.bind_eq_bind, Option.bind_eq_some_iff, Prod.exists, Option.pure_def,
    Option.some.injEq]
  constructor
  · rintro ⟨r₁, p₁, h₁, r₂, p₂, h₂, rfl⟩
    exact ⟨r₁, p₁, r₂, p₂, h₁, h₂, rfl⟩
  · rintro ⟨r₁, p₁, r₂, p₂, h₁, h₂, rfl⟩
    exact ⟨r₁, p₁, h₁, r₂, p₂, h₂, rfl⟩

theorem feed_mono {n m : ℕ} {p : TTMsgParser} {cs : List (List UInt8)}
    {r : List MsgTuple × TTMsgParser} (h : feed n p cs = some r) (hm : n ≤ m) :
    feed m p cs = some r := by
  induction cs generalizing p r with
  | nil => exact h
  | cons c cs ih =>
    obtain ⟨r₁, p₁, r₂, p₂, h₁, h₂, rfl⟩ := feed_cons_iff.mp h
    exact feed_cons_iff.mpr ⟨r₁, p₁, r₂, p₂, unpackTtMsg_mono h₁ hm, ih h₂, rfl⟩

theorem feeds_cons {p p₂ : TTMsgParser} {c : List UInt8} {cs : List (List UInt8)}
    {rslt : List MsgTuple} :
    Feeds p (c :: cs) rslt p₂ ↔
      ∃ r₁ p₁ r₂, Unpacks p c r₁ p₁ ∧ Feeds p₁ cs r₂ p₂ ∧ rslt = r₁ ++ r₂ := by
  constructor
  · rintro ⟨fuel, h⟩
    obtain ⟨r₁, p₁, r₂, p₂', h₁, h₂, he⟩ := feed_cons_iff.mp h
    obtain ⟨rfl, rfl⟩ := Prod.mk.inj he
    exact ⟨r₁, p₁, r₂, ⟨fuel, h₁⟩, ⟨fuel, h₂⟩, rfl⟩
  · rintro ⟨r₁, p₁, r₂, ⟨n, h₁⟩, ⟨m, h₂⟩, rfl⟩
    exact ⟨max n m, feed_cons_iff.mpr ⟨r₁, p₁, r₂, p₂, unpackTtMsg_mono h₁ (Nat.le_max_left n m),
      feed_mono h₂ (Nat.le_max_right n m), rfl⟩⟩

theorem not_insideBody_of_lt (ms : List Msg) {n : ℕ} (h : n < 12) : ¬InsideBody ms n := by
  cases ms with
  | nil => exact id
  | cons m ms =>
    simp only [InsideBody, show n < 12 + m.body.length by omega, ↓reduceIte]
    omega

theorem insideBody_append {done : List Msg} {stream : List UInt8}
    (h : packAll done = some stream) (rest : List Msg) (n : ℕ) :
    InsideBody (done ++ rest) (stream.length + n) ↔ InsideBody rest n := by
  induction done generalizing stream with
  | nil =>
    obtain rfl : [] = stream := Option.some.inj h
    simp
  | cons m done ih =>
    obtain ⟨bytes, tail, hb, ht, rfl⟩ := packAll_cons h
    have hlen := (encodes_of_pack hb).length
    simp only [List.cons_append, InsideBody, List.length_append]
    rw [if_neg (by omega), show bytes.length + tail.length + n - (12 + m.body.length) =
      tail.length + n by omega]
    exact ih ht

theorem buffer_cases {m : Msg} {ms : List Msg} {stream data tail : List UInt8}
    (h : packAll (m :: ms) = some stream) (hd : data ++ tail = stream) :
    data.length < 12 + m.body.length ∨ ∃ bytes data' rest, m.pack = some bytes ∧
      packAll ms = some rest ∧ data = bytes ++ data' ∧ data' ++ tail = rest ∧
      (InsideBody (m :: ms) data.length ↔ InsideBody ms data'.length) := by
  obtain ⟨bytes, rest, hb, hr, rfl⟩ := packAll_cons h
  have hlen := (encodes_of_pack hb).length
  by_cases hlt : data.length < 12 + m.body.length
  · exact .inl hlt
  · have hpre : bytes <+: data ++ tail := by rw [hd]; exact List.prefix_append _ _
    obtain ⟨data', rfl⟩ :=
      List.prefix_of_prefix_length_le hpre (List.prefix_append _ _) (by omega)
    rw [List.append_assoc] at hd
    refine .inr ⟨bytes, data', rest, hb, hr, rfl, List.append_cancel_left hd, ?_⟩
    have hsub : (bytes ++ data').length - (12 + m.body.length) = data'.length := by
      simp only [List.length_append]; omega
    simp only [InsideBody, hlt, ↓reduceIte, hsub]

theorem returns_outside {ms : List Msg} {stream data tail : List UInt8}
    (h : packAll ms = some stream) (hd : data ++ tail = stream) (hout : ¬InsideBody ms data.length)
    (acc : List MsgTuple) :
    ∃ done rest bytes left, ms = done ++ rest ∧ packAll done = some bytes ∧
      packAll rest = some (left ++ tail) ∧ data = bytes ++ left ∧ left.length < 12 ∧
      Iteration.Returns unpackBody (data, acc) (some (acc ++ done.map Msg.tuple, ⟨left⟩)) := by
  induction ms generalizing stream data acc with
  | nil =>
    obtain rfl : [] = stream := Option.some.inj h
    obtain ⟨rfl, rfl⟩ := List.append_eq_nil_iff.mp hd
    exact ⟨[], [], [], [], rfl, rfl, rfl, rfl, by simp,
      (Iteration.returns_inr (unpackBody_short (by simp) acc) _).mpr (by simp)⟩
  | cons m ms ih =>
    rcases buffer_cases h hd with hlt | ⟨bytes, data', rest, hb, hr, rfl, hd', hiff⟩
    · -- the buffer ends in the header of `m`: nothing is returned, all of it is carried over
      simp only [InsideBody, hlt, ↓reduceIte, Nat.not_le] at hout
      exact ⟨[], m :: ms, [], data, rfl, rfl, by rw [h, hd], rfl, hout,
        (Iteration.returns_inr (unpackBody_short hout acc) _).mpr (by simp)⟩
    · obtain ⟨done, rest', b, left, rfl, hdone, hrest, rfl, hl, hret⟩ :=
        ih hr hd' (mt hiff.mpr hout) (acc ++ [m.tuple])
      refine ⟨m :: done, rest', bytes ++ b, left, rfl, by simp [packAll, hb, hdone], hrest,
        by simp, hl, ?_⟩
      rw [Iteration.returns_inl (unpackBody_whole (encodes_of_pack hb) _ acc)]
      simpa using hret

theorem returns_inside {ms : List Msg} {stream data tail : List UInt8}
    (h : packAll ms = some stream) (hd : data ++ tail = stream) (hin : InsideBody ms data.length)
    (acc : List MsgTuple) :
    ∃ done m rest part, ms = done ++ m :: rest ∧ part ≠ m.body ∧
      Iteration.Returns unpackBody (data, acc)
        (some (acc ++ done.map Msg.tuple ++ [⟨m.tuple.head, part⟩], ⟨[]⟩)) := by
  induction ms generalizing stream data acc with
  | nil => exact False.elim hin
  | cons m ms ih =>
    rcases buffer_cases h hd with hlt | ⟨bytes, data', rest, hb, hr, rfl, hd', hiff⟩
    · simp only [InsideBody, hlt, ↓reduceIte] at hin
      obtain ⟨bytes, rest, hb, -, rfl⟩ := packAll_cons h
      obtain ⟨head, hl, hu, rfl⟩ := encodes_of_pack hb
      have hpre : head <+: data ++ tail := by
        rw [hd, List.append_assoc]; exact List.prefix_append _ _
      obtain ⟨part, rfl⟩ :=
        List.prefix_of_prefix_length_le hpre (List.prefix_append _ _) (by omega)
      have hp : part.length < m.body.length := by simp only [List.length_append] at hlt; omega
      refine ⟨[], m, ms, part, rfl, fun hc => by rw [hc] at hp; omega, ?_⟩
      rw [Iteration.returns_inl (unpackBody_cut hl hu hp acc)]
      exact (Iteration.returns_inr (unpackBody_short (by simp) _) _).mpr (by simp)
    · obtain ⟨done, m', rest', part, rfl, hpart, hret⟩ :=
        ih hr hd' (hiff.mp hin) (acc ++ [m.tuple])
      refine ⟨m :: done, m', rest', part, rfl, hpart, ?_⟩
      rw [Iteration.returns_inl (unpackBody_whole (encodes_of_pack hb) _ acc)]
      simpa using hret

theorem packAll_short {ms : List Msg} {stream : List UInt8} (h : packAll ms = some stream)
    (hs : stream.length < 12) : ms = [] ∧ stream = [] := by
  cases ms with
  | nil => exact ⟨rfl, (Option.some.inj h).symm⟩
  | cons m ms =>
    obtain ⟨bytes, rest, hb, -, rfl⟩ := packAll_cons h
    have hlen := (encodes_of_pack hb).length
    simp only [List.length_append] at hs
    omega

theorem unpacks_stream {ms : List Msg} {stream : List UInt8} (h : packAll ms = some stream) :
    Unpacks .fresh stream (ms.map Msg.tuple) ⟨[]⟩ := by
  have hout : ¬InsideBody ms stream.length := by
    have hi := insideBody_append h [] 0
    simp only [List.append_nil, Nat.add_zero] at hi
    exact hi.not.mpr id
  obtain ⟨done, rest, bytes, left, rfl, -, hrest, rfl, hl, hret⟩ :=
    returns_outside h (List.append_nil stream) hout []
  obtain ⟨rfl, hnil⟩ := packAll_short hrest (by simpa using hl)
  rw [List.append_nil] at hnil
  subst hnil
  simpa [unpacks_iff, TTMsgParser.fresh] using hret

theorem unpackTtMsg_undoes_packTtMsg (ms : List Msg) (hms : ∀ m ∈ ms, m.InRange) :
    ∃ stream, packAll ms = some stream ∧
      ∃ fuel, unpackTtMsg fuel .fresh stream = some (ms.map Msg.tuple, ⟨[]⟩) := by
  obtain ⟨stream, hs⟩ := packAll_inRange ms hms
  exact ⟨stream, hs, unpacks_stream hs⟩

-- the second body looks like a header
theorem unpackTtMsg_undoes_packTtMsg_nested :
    ∃ stream, packAll [⟨1, 1, []⟩, ⟨1, 3, [0, 0, 0, 12, 0, 1, 0, 1, 0, 1, 0, 0]⟩] = some stream ∧
      ∃ fuel, unpackTtMsg fuel .fresh stream =
        some ([⟨1, 1, []⟩, ⟨1, 3, [0, 0, 0, 12, 0, 1, 0, 1, 0, 1, 0, 0]⟩].map Msg.tuple, ⟨[]⟩) :=
  unpackTtMsg_undoes_packTtMsg _ (by decide)

theorem feeds_tuples_iff (chunks : List (List UInt8)) (ms : List Msg) (left : List UInt8)
    (hl : left.length < 12) (h : packAll ms = some (left ++ chunks.flatten)) :
    (∃ p, Feeds ⟨left⟩ chunks (ms.map Msg.tuple) p) ↔
      ∀ k, ¬InsideBody ms (left.length + (chunks.take k).flatten.length) := by
  induction chunks generalizing ms left with
  | nil =>
    obtain ⟨rfl, hnil⟩ := packAll_short h (by simpa using hl)
    exact ⟨fun _ k => id, fun _ => ⟨⟨left⟩, 0, rfl⟩⟩
  | cons c cs ih =>
    have hd : (left ++ c) ++ cs.flatten = left ++ (c :: cs).flatten := by simp
    by_cases hin : InsideBody ms (left ++ c).length
    · obtain ⟨done, m, rest, part, rfl, hpart, hret⟩ := returns_inside h hd hin []
      constructor
      · rintro ⟨p, hp⟩
        obtain ⟨r₁, p₁, r₂, h₁, -, he⟩ := feeds_cons.mp hp
        obtain ⟨rfl, -⟩ := h₁.unique (unpacks_iff.mpr hret)
        simp [Msg.tuple] at he
        exact absurd he.1.symm hpart
      · intro hall
        exact absurd hin (by simpa using hall 1)
    · obtain ⟨done, rest, bytes, left', rfl, hdone, hrest, he, hl', hret⟩ :=
        returns_outside h hd hin []
      have hshift (k : ℕ) : left.length + ((c :: cs).take (k + 1)).flatten.length =
          bytes.length + (left'.length + (cs.take k).flatten.length) := by
        have := congrArg List.length he
        simp only [List.length_append, List.take_succ_cons, List.flatten_cons] at this ⊢
        omega
      have hrec := ih rest left' hl' hrest
      constructor
      · rintro ⟨p, hp⟩
        obtain ⟨r₁, p₁, r₂, h₁, h₂, hcat⟩ := feeds_cons.mp hp
        obtain ⟨rfl, rfl⟩ := h₁.unique (unpacks_iff.mpr hret)
        rw [List.nil_append, List.map_append] at hcat
        have hrest' := hrec.mp ⟨p, List.append_cancel_left hcat ▸ h₂⟩
        intro k
        cases k with
        | zero => exact not_insideBody_of_lt _ (by simpa using hl)
        | succ k =>
          rw [hshift, insideBody_append hdone]
          exact hrest' k
      · intro hall
        have hall' : ∀ k, ¬InsideBody rest (left'.length + (cs.take k).flatten.length) := by
          intro k
          have := hall (k + 1)
          rwa [hshift, insideBody_append hdone] at this
        obtain ⟨p, hp⟩ := hrec.mpr hall'
        exact ⟨p, feeds_cons.mpr ⟨done.map Msg.tuple, ⟨left'⟩, rest.map Msg.tuple,
          unpacks_iff.mpr (by simpa using hret), hp, by simp⟩⟩

theorem chunkingIrrelevant_iff_feeds {ms : List Msg} {chunks : List (List UInt8)}
    (h : packAll ms = some chunks.flatten) :
    ChunkingIrrelevant chunks ↔ ∃ p, Feeds .fresh chunks (ms.map Msg.tuple) p := by
  constructor
  · rintro ⟨fuel, rslt, p, p', hf, hu⟩
    obtain ⟨rfl, -⟩ := Unpacks.unique ⟨fuel, hu⟩ (unpacks_stream h)
    exact ⟨p, fuel, hf⟩
  · rintro ⟨p, n, hf⟩
    obtain ⟨m, hu⟩ := unpacks_stream h
    exact ⟨max n m, _, p, _, feed_mono hf (Nat.le_max_left n m),
      unpackTtMsg_mono hu (Nat.le_max_right n m)⟩

theorem chunkingIrrelevant_iff (ms : List Msg) (hms : ∀ m ∈ ms, m.InRange) :
    ∃ stream, packAll ms = some stream ∧ ∀ chunks, chunks.flatten = stream →
      (ChunkingIrrelevant chunks ↔ ∀ k, ¬InsideBody ms (chunks.take k).flatten.length) := by
  obtain ⟨stream, hs⟩ := packAll_inRange ms hms
  refine ⟨stream, hs, ?_⟩
  rintro chunks rfl
  rw [chunkingIrrelevant_iff_feeds hs]
  have hf := feeds_tuples_iff chunks ms [] (by simp) (by simpa using hs)
  simp only [List.length_nil, Nat.zero_add] at hf
  exact hf

theorem chunkingIrrelevant_iff_login :
    ∃ stream, packAll [⟨1, 1, []⟩, ⟨1, 3, [108, 105]⟩] = some stream ∧
      ∀ chunks, chunks.flatten = stream → (ChunkingIrrelevant chunks ↔
        ∀ k, ¬InsideBody [⟨1, 1, []⟩, ⟨1, 3, [108, 105]⟩] (chunks.take k).flatten.length) :=
  chunkingIrrelevant_iff [⟨1, 1, []⟩, ⟨1, 3, [108, 105]⟩] (by decide)

theorem header_then_body_differs :
    packTtMsg 1 3 [108] = some [[0, 0, 0, 13, 0, 1, 0, 3, 0, 1, 0, 0], [108]].flatten ∧
      ¬ChunkingIrrelevant [[0, 0, 0, 13, 0, 1, 0, 3, 0, 1, 0, 0], [108]] := by
  refine ⟨by decide, ?_⟩
  rintro ⟨fuel, rslt, p, p', hf, hu⟩
  have hf' := feed_mono hf (Nat.le_max_left fuel 3)
  have hu' := unpackTtMsg_mono hu (Nat.le_max_left fuel 3)
  have hf₃ : feed 3 .fresh [[0, 0, 0, 13, 0, 1, 0, 3, 0, 1, 0, 0], [108]] =
      some ([⟨⟨13, 1, 3, 1, 0⟩, []⟩], ⟨[108]⟩) := by decide
  have hu₃ : unpackTtMsg 3 .fresh [[0, 0, 0, 13, 0, 1, 0, 3, 0, 1, 0, 0], [108]].flatten =
      some ([⟨⟨13, 1, 3, 1, 0⟩, [108]⟩], ⟨[]⟩) := by decide
  rw [feed_mono hf₃ (Nat.le_max_right fuel 3)] at hf'
  rw [unpackTtMsg_mono hu₃ (Nat.le_max_right fuel 3)] at hu'
  simp only [Option.some.injEq, Prod.mk.injEq] at hf' hu'
  exact absurd (hf'.1.trans hu'.1.symm) (by decide)

end AnalysisPrograms.TeamTalk
