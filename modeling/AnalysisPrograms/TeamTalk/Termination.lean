import AnalysisPrograms.TeamTalk.Parser

namespace AnalysisPrograms.TeamTalk

open Foundations

def pduLengthOf (data : List UInt8) : ℕ := (unpackHead (data.take 12)).elim 0 Head.pduLength

/-- The positions at which the loop takes the bytes of `data` for a header: the start, and from
each header its own length field further on, as long as twelve bytes are left. -/
inductive HeaderAt (data : List UInt8) : ℕ → Prop
  | first : 12 ≤ data.length → HeaderAt data 0
  | next {k : ℕ} : HeaderAt data k → 12 ≤ (data.drop (k + pduLengthOf (data.drop k))).length →
      HeaderAt data (k + pduLengthOf (data.drop k))

theorem HeaderAt.long {data : List UInt8} {k : ℕ} (h : HeaderAt data k) :
    12 ≤ (data.drop k).length := by
  cases h with
  | first h => simpa using h
  | next _ h => exact h

theorem unpackHead_isSome {bytes : List UInt8} (h : bytes.length = 12) :
    ∃ head, unpackHead bytes = some head := by
  match bytes, h with
  | [_, _, _, _, _, _, _, _, _, _, _, _], _ => exact ⟨_, rfl⟩

theorem unpackBody_long {data : List UInt8} (h : 12 ≤ data.length) (acc : List MsgTuple) :
    ∃ item, unpackBody (data, acc) = .inl (data.drop (pduLengthOf data), acc ++ [item]) := by
  have hl : (data.take 12).length = 12 := List.length_take_of_le h
  obtain ⟨head, hh⟩ := unpackHead_isSome hl
  refine ⟨⟨head, (data.take head.pduLength).drop 12⟩, ?_⟩
  simp only [unpackBody, h, ↓reduceIte, hh, pduLengthOf, Option.elim_some]

theorem unpackBody_inl {s t : List UInt8 × List MsgTuple} (h : unpackBody s = .inl t) :
    12 ≤ s.1.length ∧ t.1 = s.1.drop (pduLengthOf s.1) := by
  by_cases hl : 12 ≤ s.1.length
  · obtain ⟨item, hb⟩ := unpackBody_long hl s.2
    obtain rfl := Sum.inl.inj (hb.symm.trans h)
    exact ⟨hl, rfl⟩
  · simp [unpackBody, hl] at h

theorem headerAt_of_reaches {data : List UInt8} {s : List UInt8 × List MsgTuple}
    (h : Iteration.Reaches unpackBody (data, []) s) :
    ∃ k, s.1 = data.drop k ∧ (12 ≤ s.1.length → HeaderAt data k) := by
  induction h with
  | start => exact ⟨0, rfl, HeaderAt.first⟩
  | next _ hb ih =>
    obtain ⟨k, hk, hat⟩ := ih
    obtain ⟨hl, hd⟩ := unpackBody_inl hb
    rw [hk, List.drop_drop] at hd
    refine ⟨k + pduLengthOf (data.drop k), hd, ?_⟩
    intro hlong
    rw [hd] at hlong
    exact (hat hl).next hlong

theorem HeaderAt.reaches {data : List UInt8} {k : ℕ} (h : HeaderAt data k) :
    ∃ acc, Iteration.Reaches unpackBody (data, []) (data.drop k, acc) := by
  induction h with
  | first _ => exact ⟨[], .start⟩
  | next hk _ ih =>
    obtain ⟨acc, hr⟩ := ih
    obtain ⟨item, hb⟩ := unpackBody_long hk.long acc
    rw [List.drop_drop] at hb
    exact ⟨_, hr.next hb⟩

theorem not_returns_zero {data : List UInt8} (hl : 12 ≤ data.length) (hz : pduLengthOf data = 0)
    (acc : List MsgTuple) (r : Option (List MsgTuple × TTMsgParser)) :
    ¬Iteration.Returns unpackBody (data, acc) r := by
  apply Iteration.not_returns (fun s => s.1 = data) _ rfl
  rintro ⟨_, acc⟩ rfl
  obtain ⟨item, hb⟩ := unpackBody_long hl acc
  rw [hz, List.drop_zero] at hb
  exact ⟨_, hb, rfl⟩

theorem shorter_of_nonzero {data : List UInt8}
    (hn : ∀ k, HeaderAt data k → pduLengthOf (data.drop k) ≠ 0) (s t : List UInt8 × List MsgTuple)
    (hs : Iteration.Reaches unpackBody (data, []) s) (hb : unpackBody s = .inl t) :
    t.1.length < s.1.length := by
  obtain ⟨k, hk, hat⟩ := headerAt_of_reaches hs
  obtain ⟨hl, hd⟩ := unpackBody_inl hb
  have hne := hn k (hat hl)
  rw [← hk] at hne
  rw [hd, List.length_drop]
  omega

theorem returns_some {data : List UInt8} {r : Option (List MsgTuple × TTMsgParser)}
    (h : Iteration.Returns unpackBody (data, []) r) : ∃ r', r = some r' := by
  apply h.post (fun _ => True) (fun r => ∃ r', r = some r') _ _ trivial
  · intros; trivial
  · intro s r _ hb
    by_cases hl : 12 ≤ s.1.length
    · obtain ⟨item, hb'⟩ := unpackBody_long hl s.2
      rw [hb'] at hb
      cases hb
    · simp only [unpackBody, hl, ↓reduceIte, Sum.inr.injEq] at hb
      exact ⟨_, hb.symm⟩

theorem unpackTtMsg_terminates_iff (p : TTMsgParser) (data : List UInt8) :
    ((∃ fuel r, unpackTtMsg fuel p data = some r) ∧
      ∀ s t, Iteration.Reaches unpackBody (p.data ++ data, []) s → unpackBody s = .inl t →
        t.1.length < s.1.length) ↔
      ∀ k, HeaderAt (p.data ++ data) k → pduLengthOf ((p.data ++ data).drop k) ≠ 0 := by
  constructor
  · rintro ⟨-, hshort⟩ k hk hz
    obtain ⟨acc, hr⟩ := hk.reaches
    obtain ⟨item, hb⟩ := unpackBody_long hk.long acc
    have hlt := hshort _ _ hr hb
    rw [hz, List.drop_zero] at hlt
    exact Nat.lt_irrefl _ hlt
  · intro hn
    refine ⟨?_, shorter_of_nonzero hn⟩
    obtain ⟨r, hr⟩ :=
      Iteration.returns_of_decreasing (List.length ∘ Prod.fst) (shorter_of_nonzero hn)
    obtain ⟨r', rfl⟩ := returns_some hr
    obtain ⟨fuel, hf⟩ := hr
    exact ⟨fuel, r', by rw [unpackTtMsg, hf, Option.join_some]⟩

theorem zero_length_header_never_ends :
    ¬∃ fuel r, unpackTtMsg fuel .fresh (List.replicate 12 0) = some r := by
  rintro ⟨fuel, r, h⟩
  simp only [unpackTtMsg, TTMsgParser.fresh, List.nil_append, Option.join_eq_some_iff] at h
  exact not_returns_zero (by decide) (by decide) [] _ ⟨fuel, h⟩

end AnalysisPrograms.TeamTalk
