import AnalysisPrograms.JsonChecker.Complete

namespace AnalysisPrograms.JsonChecker

open Foundations.Execution
open Classes States Modes

variable {capacity : ℕ} {q : States} {m : Modes} {ms : List Modes} {r s : List Classes}
  {c : Classes} {cfg : Config}

def After (capacity : ℕ) : List Modes → List Classes → Prop
  | [], _ => False
  | MODE_KEY :: _, _ => False
  | MODE_DONE :: ms, r => ms = [] ∧ IsWhite r
  | MODE_ARRAY :: ms, r => ∃ w t, IsWhite w ∧ After capacity ms t ∧
    (r = w ++ C_RSQRB :: t ∨ ∃ s, Derives .elements (capacity - (ms.length + 1)) s ∧
      r = w ++ C_COMMA :: (s ++ C_RSQRB :: t))
  | MODE_OBJECT :: ms, r => ∃ w t, IsWhite w ∧ After capacity ms t ∧
    (r = w ++ C_RCURB :: t ∨ ∃ s, Derives .members (capacity - (ms.length + 1)) s ∧
      r = w ++ C_COMMA :: (s ++ C_RCURB :: t))

def AfterKey (capacity : ℕ) (ms : List Modes) (r : List Classes) : Prop :=
  ∃ x y v k, IsWhite x ∧ IsWhite y ∧ Derives .value (capacity - (ms.length + 1)) v ∧
    After capacity (MODE_OBJECT :: ms) k ∧ r = x ++ C_COLON :: (y ++ (v ++ k))

def AfterString (capacity : ℕ) : List Modes → List Classes → Prop
  | MODE_KEY :: ms, r => AfterKey capacity ms r
  | ms, r => After capacity ms r

def ValueThen (capacity : ℕ) (ms : List Modes) (r : List Classes) : Prop :=
  ∃ u v k, IsWhite u ∧ Derives .value (capacity - ms.length) v ∧ After capacity ms k ∧
    r = u ++ (v ++ k)

def MembersThen (capacity : ℕ) (ms : List Modes) (r : List Classes) : Prop :=
  ∃ s t, Derives .members (capacity - (ms.length + 1)) s ∧ After capacity ms t ∧
    r = s ++ C_RCURB :: t

def CloseThen (capacity : ℕ) (c : Classes) (ms : List Modes) (r : List Classes) : Prop :=
  ∃ w t, IsWhite w ∧ After capacity ms t ∧ r = w ++ c :: t

def StringThen (capacity : ℕ) (ms : List Modes) (r : List Classes) : Prop :=
  ∃ body k, Body body ∧ AfterString capacity ms k ∧ r = body ++ C_QUOTE :: k

def HexThen (capacity : ℕ) (ms : List Modes) (count : ℕ) (r : List Classes) : Prop :=
  ∃ hs k, hs.length = count ∧ (∀ c ∈ hs, IsHex c) ∧ StringThen capacity ms k ∧ r = hs ++ k

def LiteralThen (capacity : ℕ) (ms : List Modes) (literal r : List Classes) : Prop :=
  ∃ k, After capacity ms k ∧ r = literal ++ k

def NumberThen (capacity : ℕ) (ms : List Modes) (q : States) (r : List Classes) : Prop :=
  ∃ s k, NumberTail q s ∧ After capacity ms k ∧ r = s ++ k

def Rest (capacity : ℕ) (ms : List Modes) (r : List Classes) : States → Prop
  | GO => IsText (capacity - 1) r
  | OK => After capacity ms r
  | OB =>
    ∃ ms', ms = MODE_KEY :: ms' ∧ (CloseThen capacity C_RCURB ms' r ∨ MembersThen capacity ms' r)
  | KE => ∃ ms', ms = MODE_KEY :: ms' ∧ MembersThen capacity ms' r
  | CO => ∃ ms', ms = MODE_KEY :: ms' ∧ AfterKey capacity ms' r
  | VA => ValueThen capacity ms r
  | AR =>
    ∃ ms', ms = MODE_ARRAY :: ms' ∧ (CloseThen capacity C_RSQRB ms' r ∨ ValueThen capacity ms r)
  | .ST => StringThen capacity ms r
  | ES =>
    (∃ c k, IsEscape c ∧ StringThen capacity ms k ∧ r = c :: k) ∨
      ∃ k, HexThen capacity ms 4 k ∧ r = C_LOW_U :: k
  | U1 => HexThen capacity ms 4 r
  | U2 => HexThen capacity ms 3 r
  | U3 => HexThen capacity ms 2 r
  | U4 => HexThen capacity ms 1 r
  | MI => NumberThen capacity ms MI r
  | ZE => NumberThen capacity ms ZE r
  | IN => NumberThen capacity ms IN r
  | FR => NumberThen capacity ms FR r
  | E1 => NumberThen capacity ms E1 r
  | E2 => NumberThen capacity ms E2 r
  | E3 => NumberThen capacity ms E3 r
  | T1 => LiteralThen capacity ms [C_LOW_R, C_LOW_U, C_LOW_E] r
  | T2 => LiteralThen capacity ms [C_LOW_U, C_LOW_E] r
  | T3 => LiteralThen capacity ms [C_LOW_E] r
  | F1 => LiteralThen capacity ms [C_LOW_A, C_LOW_L, C_LOW_S, C_LOW_E] r
  | F2 => LiteralThen capacity ms [C_LOW_L, C_LOW_S, C_LOW_E] r
  | F3 => LiteralThen capacity ms [C_LOW_S, C_LOW_E] r
  | F4 => LiteralThen capacity ms [C_LOW_E] r
  | N1 => LiteralThen capacity ms [C_LOW_U, C_LOW_L, C_LOW_L] r
  | N2 => LiteralThen capacity ms [C_LOW_L, C_LOW_L] r
  | N3 => LiteralThen capacity ms [C_LOW_L] r

inductive Settled : List Modes → Prop
  | done : Settled [Modes.MODE_DONE]
  | array {ms : List Modes} : Settled ms → Settled (MODE_ARRAY :: ms)
  | object {ms : List Modes} : Settled ms → Settled (MODE_OBJECT :: ms)

def Coherent (ms : List Modes) : States → Prop
  | GO => ms = [Modes.MODE_DONE]
  | OK => Settled ms
  | OB | KE | CO => ∃ ms', ms = MODE_KEY :: ms' ∧ Settled ms'
  | AR => ∃ ms', ms = MODE_ARRAY :: ms' ∧ Settled ms'
  | .ST | ES | U1 | U2 | U3 | U4 => ∃ m ms', ms = m :: ms' ∧ m ≠ MODE_DONE ∧ Settled ms'
  | _ => ∃ m ms', ms = m :: ms' ∧ (m = MODE_ARRAY ∨ m = MODE_OBJECT) ∧ Settled ms'

def Justified (capacity : ℕ) (q : States) (ms : List Modes) (c : Classes) (cfg : Config) : Prop :=
  Coherent cfg.stack cfg.state ∧ ∀ r, Rest capacity cfg.stack r cfg.state →
    Rest capacity ms (c :: r) q

section Literals

theorem LiteralThen.cons {literal : List Classes} (h : LiteralThen capacity ms literal r)
    (c : Classes) : LiteralThen capacity ms (c :: literal) (c :: r) := by
  obtain ⟨k, hk, rfl⟩ := h
  exact ⟨k, hk, rfl⟩

theorem Settled.of_inside (h : m = MODE_ARRAY ∨ m = MODE_OBJECT) (hms : Settled ms) :
    Settled (m :: ms) := by
  rcases h with rfl | rfl
  · exact .array hms
  · exact .object hms

theorem justified_literal (hq : q ∈ [T1, T2, T3, F1, F2, F3, F4, N1, N2, N3]) (hcoh : Coherent ms q)
    (hmove : move capacity ⟨q, ms⟩ c = some cfg) : Justified capacity q ms c cfg := by
  simp only [List.mem_cons, List.not_mem_nil, or_false] at hq
  rcases hq with rfl | rfl | rfl | rfl | rfl | rfl | rfl | rfl | rfl | rfl
  all_goals cases c <;> cases hmove
  -- The last character of each word leads to the end of a value.
  all_goals first
    | exact ⟨hcoh, fun r h => LiteralThen.cons h _⟩
    | obtain ⟨m, ms', rfl, hm, hms⟩ := hcoh
      exact ⟨.of_inside hm hms, fun r h => ⟨r, h, rfl⟩⟩

end Literals

section Strings

theorem HexThen.cons {count : ℕ} (h : HexThen capacity ms count r) (hc : IsHex c) :
    HexThen capacity ms (count + 1) (c :: r) := by
  obtain ⟨hs, k, hlen, hhs, hk, rfl⟩ := h
  exact ⟨c :: hs, k, by rw [List.length_cons, hlen], List.forall_mem_cons.mpr ⟨hc, hhs⟩, hk, rfl⟩

theorem justified_hex (hq : q ∈ [U1, U2, U3, U4]) (hcoh : Coherent ms q)
    (hmove : move capacity ⟨q, ms⟩ c = some cfg) : Justified capacity q ms c cfg := by
  simp only [List.mem_cons, List.not_mem_nil, or_false] at hq
  rcases hq with rfl | rfl | rfl | rfl
  all_goals cases c <;> cases hmove
  all_goals first
    | exact ⟨hcoh, fun r h => HexThen.cons h (by decide)⟩
    | exact ⟨hcoh, fun r h => HexThen.cons ⟨[], r, rfl, nofun, h, rfl⟩ (by decide)⟩

theorem justified_escape (hcoh : Coherent ms ES) (hmove : move capacity ⟨ES, ms⟩ c = some cfg) :
    Justified capacity ES ms c cfg := by
  cases c <;> cases hmove
  all_goals first
    | exact ⟨hcoh, fun r h => .inl ⟨_, r, by decide, h, rfl⟩⟩
    | exact ⟨hcoh, fun r h => .inr ⟨r, h, rfl⟩⟩

theorem StringThen.escape (h : Rest capacity ms r ES) : StringThen capacity ms (C_BACKS :: r) := by
  rcases h with ⟨c, k, hc, ⟨body, k', hbody, hk', rfl⟩, rfl⟩ |
    ⟨k, ⟨hs, k', hlen, hhs, ⟨body, k'', hbody, hk'', rfl⟩, rfl⟩, rfl⟩
  · exact ⟨C_BACKS :: c :: body, k', .escape hc hbody, hk', rfl⟩
  · match hs, hlen with
    | [a, b, c, d], _ =>
      simp only [List.forall_mem_cons] at hhs
      exact ⟨C_BACKS :: C_LOW_U :: a :: b :: c :: d :: body, k'',
        .unicode hhs.1 hhs.2.1 hhs.2.2.1 hhs.2.2.2.1 hbody, hk'', rfl⟩

theorem justified_string (hcoh : Coherent ms States.ST)
    (hmove : move capacity ⟨States.ST, ms⟩ c = some cfg) :
    Justified capacity States.ST ms c cfg := by
  cases c with
  | C_WHITE => cases hmove
  | C_BACKS =>
    cases hmove
    exact ⟨hcoh, fun r h => StringThen.escape h⟩
  | C_QUOTE =>
    obtain ⟨m, ms', rfl, hm, hms⟩ := hcoh
    cases m with
    | MODE_DONE => exact absurd rfl hm
    | MODE_KEY =>
      cases hmove
      refine ⟨⟨ms', rfl, hms⟩, ?_⟩
      rintro r ⟨ms'', heq, h⟩
      cases heq
      exact ⟨[], r, .nil, h, rfl⟩
    | MODE_ARRAY =>
      cases hmove
      exact ⟨.array hms, fun r h => ⟨[], r, .nil, h, rfl⟩⟩
    | MODE_OBJECT =>
      cases hmove
      exact ⟨.object hms, fun r h => ⟨[], r, .nil, h, rfl⟩⟩
  | _ =>
    cases hmove
    refine ⟨hcoh, ?_⟩
    rintro r ⟨body, k, hbody, hk, rfl⟩
    exact ⟨_ :: body, k, .plain (by decide) (by decide) (by decide) hbody, hk, rfl⟩

end Strings

section Values

theorem isWhite_cons (hc : c = C_SPACE ∨ c = C_WHITE) (hw : IsWhite s) : IsWhite (c :: s) :=
  List.forall_mem_cons.mpr ⟨hc, hw⟩

theorem ValueThen.elements (h : ValueThen capacity (MODE_ARRAY :: ms) r) :
    ∃ s t, Derives .elements (capacity - (ms.length + 1)) s ∧ After capacity ms t ∧
      r = s ++ C_RSQRB :: t := by
  obtain ⟨u, v, k, hu, hv, ⟨w, t, hw, ht, rfl | ⟨s, hs, rfl⟩⟩, rfl⟩ := h
  · exact ⟨u ++ (v ++ w), t, .element hu hv hw, ht, by simp⟩
  · exact ⟨u ++ (v ++ (w ++ C_COMMA :: s)), t, .elements hu hv hw hs, ht, by simp⟩

theorem After.white (hms : Settled ms) (hc : c = C_SPACE ∨ c = C_WHITE) (h : After capacity ms r) :
    After capacity ms (c :: r) := by
  cases hms with
  | done => exact ⟨rfl, isWhite_cons hc h.2⟩
  | array _ =>
    obtain ⟨w, t, hw, ht, rfl | ⟨s, hs, rfl⟩⟩ := h
    · exact ⟨c :: w, t, isWhite_cons hc hw, ht, .inl rfl⟩
    · exact ⟨c :: w, t, isWhite_cons hc hw, ht, .inr ⟨s, hs, rfl⟩⟩
  | object _ =>
    obtain ⟨w, t, hw, ht, rfl | ⟨s, hs, rfl⟩⟩ := h
    · exact ⟨c :: w, t, isWhite_cons hc hw, ht, .inl rfl⟩
    · exact ⟨c :: w, t, isWhite_cons hc hw, ht, .inr ⟨s, hs, rfl⟩⟩

theorem justified_ok (hcoh : Coherent ms OK) (hmove : move capacity ⟨OK, ms⟩ c = some cfg) :
    Justified capacity OK ms c cfg := by
  have hwhite : c = C_SPACE ∨ c = C_WHITE → Justified capacity OK ms c ⟨OK, ms⟩ :=
    fun hc => ⟨hcoh, fun r h => After.white hcoh hc h⟩
  cases c with
  | C_SPACE =>
    cases hmove
    exact hwhite (.inl rfl)
  | C_WHITE =>
    cases hmove
    exact hwhite (.inr rfl)
  | C_RCURB =>
    cases hcoh with
    | done => cases hmove
    | array _ => cases hmove
    | object hms =>
      cases hmove
      exact ⟨hms, fun r h => ⟨[], r, nofun, h, .inl rfl⟩⟩
  | C_RSQRB =>
    cases hcoh with
    | done => cases hmove
    | object _ => cases hmove
    | array hms =>
      cases hmove
      exact ⟨hms, fun r h => ⟨[], r, nofun, h, .inl rfl⟩⟩
  | C_COMMA =>
    cases hcoh with
    | done => cases hmove
    | array hms =>
      cases hmove
      refine ⟨⟨_, _, rfl, .inl rfl, hms⟩, fun r h => ?_⟩
      obtain ⟨s, t, hs, ht, rfl⟩ := ValueThen.elements h
      exact ⟨[], t, nofun, ht, .inr ⟨s, hs, rfl⟩⟩
    | object hms =>
      cases hmove
      refine ⟨⟨_, rfl, hms⟩, ?_⟩
      rintro r ⟨ms', heq, s, t, hs, ht, rfl⟩
      cases heq
      exact ⟨[], t, nofun, ht, .inr ⟨s, hs, rfl⟩⟩
  | _ => cases hmove

def numberStates : List States := [MI, ZE, IN, FR, E1, E2, E3]

theorem rest_number (hq : q ∈ numberStates) :
    Rest capacity ms r q = NumberThen capacity ms q r := by
  simp only [numberStates, List.mem_cons, List.not_mem_nil, or_false] at hq
  rcases hq with rfl | rfl | rfl | rfl | rfl | rfl | rfl <;> rfl

theorem coherent_number (hq : q ∈ numberStates) :
    Coherent ms q = ∃ m ms', ms = m :: ms' ∧ (m = MODE_ARRAY ∨ m = MODE_OBJECT) ∧ Settled ms' := by
  simp only [numberStates, List.mem_cons, List.not_mem_nil, or_false] at hq
  rcases hq with rfl | rfl | rfl | rfl | rfl | rfl | rfl <;> rfl

theorem move_number (hq : q ∈ numberStates) (hmove : move capacity ⟨q, ms⟩ c = some cfg) :
    (∃ q' ∈ numberStates, cfg = ⟨q', ms⟩ ∧ ∀ s, NumberTail q' s → NumberTail q (c :: s)) ∨
      (NumberTail q [] ∧ move capacity ⟨OK, ms⟩ c = some cfg) := by
  simp only [numberStates, List.mem_cons, List.not_mem_nil, or_false] at hq
  rcases hq with rfl | rfl | rfl | rfl | rfl | rfl | rfl
  all_goals cases c
  all_goals first
    | cases hmove; done
    | exact .inr ⟨by constructor, hmove⟩
    | cases hmove
      refine .inl ⟨_, by decide, rfl, fun s h => ?_⟩
      first
        | exact .minusZero h
        | exact .minusDigit h
        | exact .zeroPoint h
        | exact .intPoint h
        | exact .intDigit (by simp [IsDigit]) h
        | exact .intExp (by decide) h
        | exact .fracDigit (by simp [IsDigit]) h
        | exact .fracExp (by decide) h
        | exact .sign (by decide) h
        | exact .unsigned (by simp [IsDigit]) h
        | exact .signed (by simp [IsDigit]) h
        | exact .expDigit (by simp [IsDigit]) h

theorem justified_number (hq : q ∈ numberStates) (hcoh : Coherent ms q)
    (hmove : move capacity ⟨q, ms⟩ c = some cfg) : Justified capacity q ms c cfg := by
  rcases move_number hq hmove with ⟨q', hq', rfl, hstep⟩ | ⟨hend, hmove⟩
  · rw [coherent_number hq, ← coherent_number hq'] at hcoh
    refine ⟨hcoh, fun r h => ?_⟩
    rw [rest_number hq] at *
    obtain ⟨s, k, hs, hk, rfl⟩ := (rest_number hq').mp h
    exact ⟨c :: s, k, hstep s hs, hk, rfl⟩
  · rw [coherent_number hq] at hcoh
    obtain ⟨m, ms', rfl, hm, hms⟩ := hcoh
    obtain ⟨hcoh', h⟩ := justified_ok (.of_inside hm hms) hmove
    refine ⟨hcoh', fun r hr => ?_⟩
    rw [rest_number hq]
    exact ⟨[], c :: r, hend, h r hr, rfl⟩

theorem opened {next : Config} (h : (if ms.length < capacity then some next else none) = some cfg) :
    ms.length < capacity ∧ cfg = next := by
  split_ifs at h with hroom
  exact ⟨hroom, (Option.some.inj h).symm⟩

theorem container_object (hroom : ms.length < capacity)
    (h : CloseThen capacity C_RCURB ms r ∨ MembersThen capacity ms r) :
    ∃ v k, Derives .container (capacity - ms.length) v ∧ After capacity ms k ∧
      C_LCURB :: r = v ++ k := by
  rw [show capacity - ms.length = capacity - (ms.length + 1) + 1 by omega]
  rcases h with ⟨w, t, hw, ht, rfl⟩ | ⟨s, t, hs, ht, rfl⟩
  · exact ⟨C_LCURB :: (w ++ [C_RCURB]), t, .emptyObject hw, ht, by simp⟩
  · exact ⟨C_LCURB :: (s ++ [C_RCURB]), t, .object hs, ht, by simp⟩

theorem container_array (hroom : ms.length < capacity)
    (h : CloseThen capacity C_RSQRB ms r ∨ ValueThen capacity (MODE_ARRAY :: ms) r) :
    ∃ v k, Derives .container (capacity - ms.length) v ∧ After capacity ms k ∧
      C_LSQRB :: r = v ++ k := by
  rw [show capacity - ms.length = capacity - (ms.length + 1) + 1 by omega]
  rcases h with ⟨w, t, hw, ht, rfl⟩ | h
  · exact ⟨C_LSQRB :: (w ++ [C_RSQRB]), t, .emptyArray hw, ht, by simp⟩
  · obtain ⟨s, t, hs, ht, rfl⟩ := ValueThen.elements h
    exact ⟨C_LSQRB :: (s ++ [C_RSQRB]), t, .array hs, ht, by simp⟩

def StartThen (capacity : ℕ) (ms : List Modes) (r : List Classes) : Prop :=
  ∃ v k, Derives .value (capacity - ms.length) v ∧ After capacity ms k ∧ r = v ++ k

theorem StartThen.container
    (h : ∃ v k, Derives .container (capacity - ms.length) v ∧ After capacity ms k ∧ r = v ++ k) :
    StartThen capacity ms r := by
  obtain ⟨v, k, hv, hk, heq⟩ := h
  exact ⟨v, k, .nested hv, hk, heq⟩

theorem StartThen.string (hm : m = MODE_ARRAY ∨ m = MODE_OBJECT)
    (h : StringThen capacity (m :: ms) r) : StartThen capacity (m :: ms) (C_QUOTE :: r) := by
  obtain ⟨body, k, hbody, hk, rfl⟩ := h
  refine ⟨C_QUOTE :: (body ++ [C_QUOTE]), k, .scalar (.inl ⟨body, hbody, rfl⟩), ?_, by simp⟩
  rcases hm with rfl | rfl
  · exact hk
  · exact hk

theorem StartThen.number {c : Classes} (hstart : ∀ s, NumberTail q s → IsNumber (c :: s))
    (h : NumberThen capacity ms q r) : StartThen capacity ms (c :: r) := by
  obtain ⟨s, k, hs, hk, rfl⟩ := h
  exact ⟨c :: s, k, .scalar (.inr (.inl (hstart s hs))), hk, rfl⟩

theorem StartThen.literal {literal : List Classes} (hliteral : IsScalar (c :: literal))
    (h : LiteralThen capacity ms literal r) : StartThen capacity ms (c :: r) := by
  obtain ⟨k, hk, rfl⟩ := h
  exact ⟨c :: literal, k, .scalar hliteral, hk, rfl⟩

theorem justified_first (hm : m = MODE_ARRAY ∨ m = MODE_OBJECT) (hms : Settled ms)
    (hspace : c ≠ C_SPACE) (hwhite : c ≠ C_WHITE)
    (hmove : move capacity ⟨VA, m :: ms⟩ c = some cfg) :
    Coherent cfg.stack cfg.state ∧ ∀ r, Rest capacity cfg.stack r cfg.state →
      StartThen capacity (m :: ms) (c :: r) := by
  have hin : Coherent (m :: ms) VA := ⟨m, ms, rfl, hm, hms⟩
  cases c with
  | C_SPACE => exact absurd rfl hspace
  | C_WHITE => exact absurd rfl hwhite
  | C_LCURB =>
    obtain ⟨hroom, rfl⟩ := opened hmove
    refine ⟨⟨_, rfl, .of_inside hm hms⟩, ?_⟩
    rintro r ⟨ms', heq, h⟩
    cases heq
    exact .container (container_object hroom h)
  | C_LSQRB =>
    obtain ⟨hroom, rfl⟩ := opened hmove
    refine ⟨⟨_, rfl, .of_inside hm hms⟩, ?_⟩
    rintro r ⟨ms', heq, h⟩
    cases heq
    exact .container (container_array hroom h)
  | C_QUOTE =>
    cases hmove
    refine ⟨⟨m, ms, rfl, ?_, hms⟩, fun r h => .string hm h⟩
    rcases hm with rfl | rfl <;> decide
  | C_MINUS =>
    cases hmove
    exact ⟨hin, fun r h => .number (fun s hs => isNumber_iff.mpr (.inr ⟨s, hs, rfl⟩)) h⟩
  | C_ZERO =>
    cases hmove
    exact ⟨hin, fun r h => .number (fun s hs => isNumber_iff.mpr (.inl (.inl ⟨s, hs, rfl⟩))) h⟩
  | C_DIGIT =>
    cases hmove
    exact ⟨hin, fun r h => .number (fun s hs => isNumber_iff.mpr (.inl (.inr ⟨s, hs, rfl⟩))) h⟩
  | C_LOW_T =>
    cases hmove
    exact ⟨hin, fun r h => .literal (.inr (.inr (.inl rfl))) h⟩
  | C_LOW_F =>
    cases hmove
    exact ⟨hin, fun r h => .literal (.inr (.inr (.inr (.inl rfl)))) h⟩
  | C_LOW_N =>
    cases hmove
    exact ⟨hin, fun r h => .literal (.inr (.inr (.inr (.inr rfl)))) h⟩
  | _ => cases hmove

theorem ValueThen.white (hc : c = C_SPACE ∨ c = C_WHITE) (h : ValueThen capacity ms r) :
    ValueThen capacity ms (c :: r) := by
  obtain ⟨u, v, k, hu, hv, hk, rfl⟩ := h
  exact ⟨c :: u, v, k, isWhite_cons hc hu, hv, hk, rfl⟩

theorem ValueThen.of_start (h : StartThen capacity ms r) : ValueThen capacity ms r := by
  obtain ⟨v, k, hv, hk, rfl⟩ := h
  exact ⟨[], v, k, nofun, hv, hk, rfl⟩

theorem justified_value (hcoh : Coherent ms VA) (hmove : move capacity ⟨VA, ms⟩ c = some cfg) :
    Justified capacity VA ms c cfg := by
  by_cases hc : c = C_SPACE ∨ c = C_WHITE
  · have hstay : cfg = ⟨VA, ms⟩ := by
      rcases hc with rfl | rfl <;> exact (Option.some.inj hmove).symm
    rw [hstay]
    exact ⟨hcoh, fun r h => ValueThen.white hc h⟩
  · obtain ⟨m, ms', rfl, hm, hms⟩ := hcoh
    obtain ⟨hcoh', h⟩ := justified_first hm hms (fun h => hc (.inl h)) (fun h => hc (.inr h)) hmove
    exact ⟨hcoh', fun r hr => ValueThen.of_start (h r hr)⟩

theorem move_array (hspace : c ≠ C_SPACE) (hwhite : c ≠ C_WHITE) (hclose : c ≠ C_RSQRB) :
    move capacity ⟨AR, ms⟩ c = move capacity ⟨VA, ms⟩ c := by
  cases c <;> first | rfl | contradiction

theorem CloseThen.white {close : Classes} (hc : c = C_SPACE ∨ c = C_WHITE)
    (h : CloseThen capacity close ms r) : CloseThen capacity close ms (c :: r) := by
  obtain ⟨w, t, hw, ht, rfl⟩ := h
  exact ⟨c :: w, t, isWhite_cons hc hw, ht, rfl⟩

theorem justified_array (hcoh : Coherent ms AR) (hmove : move capacity ⟨AR, ms⟩ c = some cfg) :
    Justified capacity AR ms c cfg := by
  by_cases hc : c = C_SPACE ∨ c = C_WHITE
  · have hstay : cfg = ⟨AR, ms⟩ := by
      rcases hc with rfl | rfl <;> exact (Option.some.inj hmove).symm
    rw [hstay]
    refine ⟨hcoh, ?_⟩
    rintro r ⟨ms', rfl, h⟩
    exact ⟨ms', rfl, h.imp (CloseThen.white hc) (ValueThen.white hc)⟩
  · obtain ⟨ms', rfl, hms⟩ := hcoh
    by_cases hclose : c = C_RSQRB
    · subst hclose
      cases hmove
      exact ⟨hms, fun r h => ⟨ms', rfl, .inl ⟨[], r, nofun, h, rfl⟩⟩⟩
    · have hspace : c ≠ C_SPACE := fun h => hc (.inl h)
      have hwhite : c ≠ C_WHITE := fun h => hc (.inr h)
      rw [move_array hspace hwhite hclose] at hmove
      obtain ⟨hcoh', h⟩ := justified_first (.inl rfl) hms hspace hwhite hmove
      exact ⟨hcoh', fun r hr => ⟨ms', rfl, .inr (ValueThen.of_start (h r hr))⟩⟩

theorem Derives.white_members {n : ℕ} (hc : c = C_SPACE ∨ c = C_WHITE) (h : Derives .members n s) :
    Derives .members n (c :: s) := by
  cases h with
  | member hu hk hx hy hv hw => exact .member (isWhite_cons hc hu) hk hx hy hv hw
  | members hu hk hx hy hv hw hs => exact .members (isWhite_cons hc hu) hk hx hy hv hw hs

theorem MembersThen.white (hc : c = C_SPACE ∨ c = C_WHITE) (h : MembersThen capacity ms r) :
    MembersThen capacity ms (c :: r) := by
  obtain ⟨s, t, hs, ht, rfl⟩ := h
  exact ⟨c :: s, t, hs.white_members hc, ht, rfl⟩

theorem MembersThen.key (h : StringThen capacity (MODE_KEY :: ms) r) :
    MembersThen capacity ms (C_QUOTE :: r) := by
  obtain ⟨body, _, hbody, hthen, rfl⟩ := h
  obtain ⟨x, y, v, k, hx, hy, hv, ⟨w, t, hw, ht, rfl | ⟨s, hs, rfl⟩⟩, rfl⟩ := hthen
  · exact ⟨_, t, .member (u := []) nofun ⟨body, hbody, rfl⟩ hx hy hv hw, ht, by simp⟩
  · exact ⟨_, t, .members (u := []) nofun ⟨body, hbody, rfl⟩ hx hy hv hw hs, ht, by simp⟩

theorem AfterKey.white (hc : c = C_SPACE ∨ c = C_WHITE) (h : AfterKey capacity ms r) :
    AfterKey capacity ms (c :: r) := by
  obtain ⟨x, y, v, k, hx, hy, hv, hk, rfl⟩ := h
  exact ⟨c :: x, y, v, k, isWhite_cons hc hx, hy, hv, hk, rfl⟩

theorem justified_object (hcoh : Coherent ms OB) (hmove : move capacity ⟨OB, ms⟩ c = some cfg) :
    Justified capacity OB ms c cfg := by
  obtain ⟨ms', rfl, hms⟩ := hcoh
  have hwhite (hc : c = C_SPACE ∨ c = C_WHITE) : Justified capacity OB (MODE_KEY :: ms') c
      ⟨OB, MODE_KEY :: ms'⟩ := by
    refine ⟨⟨ms', rfl, hms⟩, ?_⟩
    rintro r ⟨ms'', heq, h⟩
    exact ⟨ms'', heq, h.imp (CloseThen.white hc) (MembersThen.white hc)⟩
  cases c with
  | C_SPACE =>
    cases hmove
    exact hwhite (.inl rfl)
  | C_WHITE =>
    cases hmove
    exact hwhite (.inr rfl)
  | C_RCURB =>
    cases hmove
    exact ⟨hms, fun r h => ⟨ms', rfl, .inl ⟨[], r, nofun, h, rfl⟩⟩⟩
  | C_QUOTE =>
    cases hmove
    exact ⟨⟨_, ms', rfl, nofun, hms⟩, fun r h => ⟨ms', rfl, .inr (.key h)⟩⟩
  | _ => cases hmove

theorem justified_key (hcoh : Coherent ms KE) (hmove : move capacity ⟨KE, ms⟩ c = some cfg) :
    Justified capacity KE ms c cfg := by
  obtain ⟨ms', rfl, hms⟩ := hcoh
  have hwhite (hc : c = C_SPACE ∨ c = C_WHITE) : Justified capacity KE (MODE_KEY :: ms') c
      ⟨KE, MODE_KEY :: ms'⟩ := by
    refine ⟨⟨ms', rfl, hms⟩, ?_⟩
    rintro r ⟨ms'', heq, h⟩
    exact ⟨ms'', heq, h.white hc⟩
  cases c with
  | C_SPACE =>
    cases hmove
    exact hwhite (.inl rfl)
  | C_WHITE =>
    cases hmove
    exact hwhite (.inr rfl)
  | C_QUOTE =>
    cases hmove
    exact ⟨⟨_, ms', rfl, nofun, hms⟩, fun r h => ⟨ms', rfl, .key h⟩⟩
  | _ => cases hmove

theorem justified_colon (hcoh : Coherent ms CO) (hmove : move capacity ⟨CO, ms⟩ c = some cfg) :
    Justified capacity CO ms c cfg := by
  obtain ⟨ms', rfl, hms⟩ := hcoh
  have hwhite (hc : c = C_SPACE ∨ c = C_WHITE) : Justified capacity CO (MODE_KEY :: ms') c
      ⟨CO, MODE_KEY :: ms'⟩ := by
    refine ⟨⟨ms', rfl, hms⟩, ?_⟩
    rintro r ⟨ms'', heq, h⟩
    exact ⟨ms'', heq, h.white hc⟩
  cases c with
  | C_SPACE =>
    cases hmove
    exact hwhite (.inl rfl)
  | C_WHITE =>
    cases hmove
    exact hwhite (.inr rfl)
  | C_COLON =>
    cases hmove
    refine ⟨⟨_, ms', rfl, .inr rfl, hms⟩, ?_⟩
    rintro r ⟨y, v, k, hy, hv, hk, rfl⟩
    exact ⟨ms', rfl, [], y, v, k, nofun, hy, hv, hk, rfl⟩
  | _ => cases hmove

theorem IsText.of_container
    (h : ∃ v k, Derives .container (capacity - 1) v ∧ After capacity [Modes.MODE_DONE] k ∧
      r = v ++ k) :
    IsText (capacity - 1) r := by
  obtain ⟨v, k, hv, hk, rfl⟩ := h
  exact ⟨[], v, k, nofun, hv, hk.2, rfl⟩

theorem IsText.white (hc : c = C_SPACE ∨ c = C_WHITE) {nesting : ℕ} (h : IsText nesting s) :
    IsText nesting (c :: s) := by
  obtain ⟨u, v, w, hu, hv, hw, rfl⟩ := h
  exact ⟨c :: u, v, w, isWhite_cons hc hu, hv, hw, rfl⟩

theorem justified_start (hcoh : Coherent ms GO) (hmove : move capacity ⟨GO, ms⟩ c = some cfg) :
    Justified capacity GO ms c cfg := by
  cases hcoh
  cases c with
  | C_SPACE =>
    cases hmove
    exact ⟨rfl, fun r h => IsText.white (.inl rfl) h⟩
  | C_WHITE =>
    cases hmove
    exact ⟨rfl, fun r h => IsText.white (.inr rfl) h⟩
  | C_LCURB =>
    obtain ⟨hroom, rfl⟩ := opened hmove
    refine ⟨⟨_, rfl, .done⟩, ?_⟩
    rintro r ⟨ms', heq, h⟩
    cases heq
    exact .of_container (container_object hroom h)
  | C_LSQRB =>
    obtain ⟨hroom, rfl⟩ := opened hmove
    refine ⟨⟨_, rfl, .done⟩, ?_⟩
    rintro r ⟨ms', heq, h⟩
    cases heq
    exact .of_container (container_array hroom h)
  | _ => cases hmove

end Values

theorem justified_move (hcoh : Coherent ms q) (hmove : move capacity ⟨q, ms⟩ c = some cfg) :
    Justified capacity q ms c cfg := by
  cases q with
  | GO => exact justified_start hcoh hmove
  | OK => exact justified_ok hcoh hmove
  | OB => exact justified_object hcoh hmove
  | KE => exact justified_key hcoh hmove
  | CO => exact justified_colon hcoh hmove
  | VA => exact justified_value hcoh hmove
  | AR => exact justified_array hcoh hmove
  | ST => exact justified_string hcoh hmove
  | ES => exact justified_escape hcoh hmove
  | U1 | U2 | U3 | U4 => exact justified_hex (by decide) hcoh hmove
  | MI | ZE | IN | FR | E1 | E2 | E3 => exact justified_number (by decide) hcoh hmove
  | T1 | T2 | T3 | F1 | F2 | F3 | F4 | N1 | N2 | N3 =>
    exact justified_literal (by decide) hcoh hmove

theorem rest_of_exec {cfg : Config} (hcoh : Coherent cfg.stack cfg.state) {s : List Classes}
    (hexec : exec (move capacity) cfg s = some ⟨OK, MODE_DONE :: ms⟩) :
    Rest capacity cfg.stack s cfg.state := by
  induction s generalizing cfg with
  | nil =>
    cases hexec
    cases hcoh
    exact ⟨rfl, nofun⟩
  | cons c s ih =>
    obtain ⟨cfg', hmove, hrest⟩ := exec_cons_iff.mp hexec
    obtain ⟨hcoh', hstep⟩ := justified_move hcoh hmove
    exact hstep s (ih hcoh' hrest)

end AnalysisPrograms.JsonChecker
