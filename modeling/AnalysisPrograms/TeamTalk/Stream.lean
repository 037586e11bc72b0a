import AnalysisPrograms.TeamTalk.Parser

namespace AnalysisPrograms.TeamTalk

open Foundations

structure Msg where
  moduleId : ℕ
  commandId : ℕ
  body : List UInt8
deriving DecidableEq, Repr

def Msg.InRange (m : Msg) : Prop :=
  m.moduleId < 2 ^ 16 ∧ m.commandId < 2 ^ 16 ∧ 12 + m.body.length < 2 ^ 32

instance (m : Msg) : Decidable m.InRange := by unfold Msg.InRange; infer_instance

def Msg.pack (m : Msg) : Option (List UInt8) := packTtMsg m.moduleId m.commandId m.body

def Msg.tuple (m : Msg) : MsgTuple := ⟨⟨12 + m.body.length, m.moduleId, m.commandId, 1, 0⟩, m.body⟩

def packAll : List Msg → Option (List UInt8)
  | [] => some []
  | m :: ms => do
    let bytes ← m.pack
    let rest ← packAll ms
    return bytes ++ rest

theorem unpackH_packed (n : ℕ) (h : n < 2 ^ 16) :
    unpackH (UInt8.ofNat (n / 2 ^ 8)) (UInt8.ofNat n) = n := by
  simp only [unpackH, UInt8.toNat_ofNat']
  omega

theorem unpackI_packed (n : ℕ) (h : n < 2 ^ 32) :
    unpackI (UInt8.ofNat (n / 2 ^ 24)) (UInt8.ofNat (n / 2 ^ 16)) (UInt8.ofNat (n / 2 ^ 8))
      (UInt8.ofNat n) = n := by
  simp only [unpackI, UInt8.toNat_ofNat']
  omega

def Encodes (m : Msg) (bytes : List UInt8) : Prop :=
  ∃ head, head.length = 12 ∧ unpackHead head = some m.tuple.head ∧ bytes = head ++ m.body

theorem pack_inRange (m : Msg) (h : m.InRange) :
    ∃ bytes, m.pack = some bytes ∧ Encodes m bytes := by
  obtain ⟨hm, hc, hl⟩ := h
  refine ⟨_, by
    simp only [Msg.pack, packTtMsg, packI, packH, hm, hc, hl, ↓reduceIte,
      show (1 : ℕ) < 2 ^ 16 by omega, show (0 : ℕ) < 2 ^ 16 by omega]
    rfl, _, ?_, ?_, rfl⟩
  · simp
  · simp only [List.cons_append, List.nil_append, unpackHead, unpackI_packed _ hl,
      unpackH_packed _ hm, unpackH_packed _ hc]
    rfl

theorem Encodes.length {m : Msg} {bytes : List UInt8} (h : Encodes m bytes) :
    bytes.length = 12 + m.body.length := by
  obtain ⟨head, hl, -, rfl⟩ := h
  simp [hl]

theorem unpackBody_whole {m : Msg} {bytes : List UInt8} (h : Encodes m bytes) (rest : List UInt8)
    (acc : List MsgTuple) : unpackBody (bytes ++ rest, acc) = .inl (rest, acc ++ [m.tuple]) := by
  have hlen := h.length
  obtain ⟨head, hl, hu, rfl⟩ := h
  have htake : (head ++ m.body ++ rest).take 12 = head := by
    rw [List.append_assoc, List.take_left' hl]
  have hpdu : m.tuple.head.pduLength = (head ++ m.body).length := hlen.symm
  have hge : 12 ≤ (head ++ m.body ++ rest).length := by simp [hl]
  simp only [unpackBody, hge, ↓reduceIte, htake, hu, hpdu, List.drop_left, List.take_left,
    List.drop_left' hl]
  rfl

theorem unpackBody_cut {m : Msg} {head part : List UInt8} (hl : head.length = 12)
    (hu : unpackHead head = some m.tuple.head) (hp : part.length < m.body.length)
    (acc : List MsgTuple) :
    unpackBody (head ++ part, acc) = .inl ([], acc ++ [⟨m.tuple.head, part⟩]) := by
  have hge : 12 ≤ (head ++ part).length := by simp [hl]
  have hle : (head ++ part).length ≤ m.tuple.head.pduLength := by
    simp only [List.length_append, hl, Msg.tuple]; omega
  simp only [unpackBody, hge, ↓reduceIte, List.take_left' hl, hu, List.drop_of_length_le hle,
    List.take_of_length_le hle, List.drop_left' hl]

theorem unpackBody_short {data : List UInt8} (h : data.length < 12) (acc : List MsgTuple) :
    unpackBody (data, acc) = .inr (some (acc, ⟨data⟩)) := by
  simp only [unpackBody, Nat.not_le.mpr h, ↓reduceIte]

theorem packAll_cons {m : Msg} {ms : List Msg} {stream : List UInt8}
    (h : packAll (m :: ms) = some stream) :
    ∃ bytes rest, m.pack = some bytes ∧ packAll ms = some rest ∧ stream = bytes ++ rest := by
  simp only [packAll, Option.bind_eq_bind, Option.bind_eq_some_iff, Option.pure_def,
    Option.some.injEq] at h
  obtain ⟨bytes, hb, rest, hr, rfl⟩ := h
  exact ⟨bytes, rest, hb, hr, rfl⟩

theorem packH_isSome {n : ℕ} {bytes : List UInt8} (h : packH n = some bytes) : n < 2 ^ 16 := by
  unfold packH at h
  split_ifs at h with hn
  exact hn

theorem packI_isSome {n : ℕ} {bytes : List UInt8} (h : packI n = some bytes) : n < 2 ^ 32 := by
  unfold packI at h
  split_ifs at h with hn
  exact hn

theorem inRange_of_pack {m : Msg} {bytes : List UInt8} (h : m.pack = some bytes) : m.InRange := by
  simp only [Msg.pack, packTtMsg, Option.bind_eq_bind, Option.bind_eq_some_iff] at h
  obtain ⟨len, hlen, mid, hmid, cid, hcid, -⟩ := h
  exact ⟨packH_isSome hmid, packH_isSome hcid, packI_isSome hlen⟩

theorem encodes_of_pack {m : Msg} {bytes : List UInt8} (h : m.pack = some bytes) :
    Encodes m bytes := by
  obtain ⟨bytes', hb, he⟩ := pack_inRange m (inRange_of_pack h)
  obtain rfl : bytes' = bytes := Option.some.inj (hb.symm.trans h)
  exact he

theorem packAll_inRange (ms : List Msg) (h : ∀ m ∈ ms, m.InRange) :
    ∃ stream, packAll ms = some stream := by
  induction ms with
  | nil => exact ⟨[], rfl⟩
  | cons m ms ih =>
    obtain ⟨bytes, hb, -⟩ := pack_inRange m (h m (by simp))
    obtain ⟨rest, hr⟩ := ih (fun m' hm' => h m' (List.mem_cons_of_mem _ hm'))
    exact ⟨bytes ++ rest, by simp [packAll, hb, hr]⟩

end AnalysisPrograms.TeamTalk
