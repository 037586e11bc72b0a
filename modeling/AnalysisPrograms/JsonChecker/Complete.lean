import AnalysisPrograms.JsonChecker.Numbers
import AnalysisPrograms.JsonChecker.Stack

namespace AnalysisPrograms.JsonChecker

open Foundations.Execution
open Classes States Modes

variable {capacity n : ℕ} {q q' : States} {m : Modes} {ms : List Modes} {s w : List Classes}
  {c : Classes}

theorem exec_step {cfg cfg' : Config} (hmove : move capacity cfg c = some cfg') (s : List Classes) :
    exec (move capacity) cfg (c :: s) = exec (move capacity) cfg' s := by
  rw [exec, hmove, Option.bind_some]

theorem exec_white (hspace : transition q C_SPACE = q) (hwhite : transition q C_WHITE = q)
    (hw : IsWhite w) : exec (move capacity) ⟨q, ms⟩ w = some ⟨q, ms⟩ := by
  induction w with
  | nil => rfl
  | cons c w ih =>
    have hmove : move capacity ⟨q, ms⟩ c = some ⟨q, ms⟩ := by
      rcases (List.forall_mem_cons.mp hw).1 with rfl | rfl
      · rw [move, hspace]
      · rw [move, hwhite]
    rw [exec_step hmove, ih (List.forall_mem_cons.mp hw).2]

def Ended (q : States) : Prop := q = OK ∨ q = ZE ∨ q = IN ∨ q = FR ∨ q = E3

instance : DecidablePred Ended :=
  fun q => inferInstanceAs (Decidable (q = OK ∨ q = ZE ∨ q = IN ∨ q = FR ∨ q = E3))

theorem Ended.transition_eq (h : Ended q) (hc : c = C_RCURB ∨ c = C_RSQRB ∨ c = C_COMMA) :
    transition q c = transition OK c := by
  rcases h with rfl | rfl | rfl | rfl | rfl <;> rcases hc with rfl | rfl | rfl <;> rfl

theorem Ended.move_eq (h : Ended q) (hc : c = C_RCURB ∨ c = C_RSQRB ∨ c = C_COMMA) :
    move capacity ⟨q, ms⟩ c = move capacity ⟨OK, ms⟩ c := by
  rw [move, move, h.transition_eq hc]

theorem Ended.exec_white (h : Ended q) (hw : IsWhite w) :
    ∃ q', Ended q' ∧ exec (move capacity) ⟨q, ms⟩ w = some ⟨q', ms⟩ := by
  cases w with
  | nil => exact ⟨q, h, rfl⟩
  | cons c w =>
    have hmove : move capacity ⟨q, ms⟩ c = some ⟨OK, ms⟩ := by
      rcases (List.forall_mem_cons.mp hw).1 with rfl | rfl <;>
        rcases h with rfl | rfl | rfl | rfl | rfl <;> rfl
    refine ⟨OK, .inl rfl, ?_⟩
    rw [exec_step hmove, JsonChecker.exec_white rfl rfl (List.forall_mem_cons.mp hw).2]

section Scalars

theorem transition_hex (hc : IsHex c) :
    transition U1 c = U2 ∧ transition U2 c = U3 ∧ transition U3 c = U4 ∧
      transition U4 c = States.ST := by
  simp only [IsHex, List.mem_cons, List.not_mem_nil, or_false] at hc
  rcases hc with rfl | rfl | rfl | rfl | rfl | rfl | rfl | rfl | rfl | rfl <;>
    exact ⟨rfl, rfl, rfl, rfl⟩

theorem move_state (h : transition q c = .state q') : move capacity ⟨q, ms⟩ c = some ⟨q', ms⟩ := by
  rw [move, h]

theorem transition_escape : transition States.ST C_BACKS = ES ∧ transition ES C_LOW_U = U1 :=
  ⟨rfl, rfl⟩

theorem Body.exec (h : Body s) : exec (move capacity) ⟨States.ST, ms⟩ s = some ⟨States.ST, ms⟩ := by
  induction h with
  | nil => rfl
  | @plain c s hwhite hquote hbacks _ ih =>
    have hmove : transition States.ST c = States.ST := by
      cases c <;> first | rfl | contradiction
    rw [exec_step (move_state hmove), ih]
  | @escape c s hc _ ih =>
    have hmove : transition ES c = States.ST := by
      simp only [IsEscape, List.mem_cons, List.not_mem_nil, or_false] at hc
      rcases hc with rfl | rfl | rfl | rfl | rfl | rfl | rfl | rfl <;> rfl
    rw [exec_step (move_state transition_escape.1), exec_step (move_state hmove), ih]
  | unicode ha hb hc hd _ ih =>
    rw [exec_step (move_state transition_escape.1), exec_step (move_state transition_escape.2),
      exec_step (move_state (transition_hex ha).1), exec_step (move_state (transition_hex hb).2.1),
      exec_step (move_state (transition_hex hc).2.2.1),
      exec_step (move_state (transition_hex hd).2.2.2), ih]

theorem IsString.exec (h : IsString s) (hq : transition q C_QUOTE = States.ST) {cfg : Config}
    (hend : move capacity ⟨States.ST, ms⟩ C_QUOTE = some cfg) :
    exec (move capacity) ⟨q, ms⟩ s = some cfg := by
  obtain ⟨body, hbody, rfl⟩ := h
  rw [exec_step (move_state hq)]
  exact exec_append hbody.exec (by rw [exec_step hend]; rfl)

def Reaches (capacity : ℕ) (cfg : Config) (s : List Classes) (ms : List Modes) : Prop :=
  ∃ q, Ended q ∧ exec (move capacity) cfg s = some ⟨q, ms⟩

theorem Reaches.step {cfg cfg' : Config} (hmove : move capacity cfg c = some cfg')
    (h : Reaches capacity cfg' s ms) : Reaches capacity cfg (c :: s) ms := by
  obtain ⟨q, hq, hexec⟩ := h
  exact ⟨q, hq, (exec_step hmove s).trans hexec⟩

theorem NumberTail.reaches (h : NumberTail q s) : Reaches capacity ⟨q, ms⟩ s ms := by
  induction h with
  | minusZero _ ih => exact ih.step rfl
  | minusDigit _ ih => exact ih.step rfl
  | zero => exact ⟨ZE, by decide, rfl⟩
  | zeroPoint _ ih => exact ih.step rfl
  | int => exact ⟨IN, by decide, rfl⟩
  | intDigit hc _ ih => rcases hc with rfl | rfl <;> exact ih.step rfl
  | intPoint _ ih => exact ih.step rfl
  | intExp hc _ ih => rcases hc with rfl | rfl <;> exact ih.step rfl
  | frac => exact ⟨FR, by decide, rfl⟩
  | fracDigit hc _ ih => rcases hc with rfl | rfl <;> exact ih.step rfl
  | fracExp hc _ ih => rcases hc with rfl | rfl <;> exact ih.step rfl
  | sign hc _ ih => rcases hc with rfl | rfl <;> exact ih.step rfl
  | unsigned hc _ ih => rcases hc with rfl | rfl <;> exact ih.step rfl
  | signed hc _ ih => rcases hc with rfl | rfl <;> exact ih.step rfl
  | exp => exact ⟨E3, by decide, rfl⟩
  | expDigit hc _ ih => rcases hc with rfl | rfl <;> exact ih.step rfl

theorem IsNumber.reaches (h : IsNumber s) (hq : q = VA ∨ q = AR) :
    Reaches capacity ⟨q, ms⟩ s ms := by
  rcases isNumber_iff.mp h with (⟨s', hs, rfl⟩ | ⟨s', hs, rfl⟩) | ⟨s', hs, rfl⟩
  all_goals
    rcases hq with rfl | rfl <;> exact hs.reaches.step rfl

theorem IsScalar.reaches (h : IsScalar s) (hq : q = VA ∨ q = AR)
    (hm : m = MODE_ARRAY ∨ m = MODE_OBJECT) : Reaches capacity ⟨q, m :: ms⟩ s (m :: ms) := by
  rcases h with h | h | rfl | rfl | rfl
  · refine ⟨OK, .inl rfl, h.exec ?_ ?_⟩
    · rcases hq with rfl | rfl <;> rfl
    · rcases hm with rfl | rfl <;> rfl
  · exact h.reaches hq
  all_goals
    refine ⟨OK, .inl rfl, ?_⟩
    rcases hq with rfl | rfl <;> rfl

end Scalars

section Nesting

def Run (capacity : ℕ) : Kind → ℕ → List Classes → Prop
  | .value, n, s =>
    ∀ q m ms, q = VA ∨ q = AR → m = MODE_ARRAY ∨ m = MODE_OBJECT → (m :: ms).length + n ≤ capacity →
      Reaches capacity ⟨q, m :: ms⟩ s (m :: ms)
  | .container, n, s => ∀ q ms, q = GO ∨ q = VA ∨ q = AR → ms.length + n ≤ capacity →
      exec (move capacity) ⟨q, ms⟩ s = some ⟨OK, ms⟩
  | .elements, n, s => ∀ q ms, q = VA ∨ q = AR → (MODE_ARRAY :: ms).length + n ≤ capacity →
      Reaches capacity ⟨q, MODE_ARRAY :: ms⟩ s (MODE_ARRAY :: ms)
  | .members, n, s => ∀ q ms, q = OB ∨ q = KE → (MODE_KEY :: ms).length + n ≤ capacity →
      Reaches capacity ⟨q, MODE_KEY :: ms⟩ s (MODE_OBJECT :: ms)

theorem Reaches.append {cfg : Config} {ms' : List Modes} {t : List Classes}
    (h : Reaches capacity cfg s ms) (ht : ∀ q, Ended q → Reaches capacity ⟨q, ms⟩ t ms') :
    Reaches capacity cfg (s ++ t) ms' := by
  obtain ⟨q, hq, hexec⟩ := h
  obtain ⟨q', hq', hexec'⟩ := ht q hq
  exact ⟨q', hq', exec_append hexec hexec'⟩

theorem Reaches.after {cfg cfg' : Config} {t : List Classes}
    (h : exec (move capacity) cfg s = some cfg') (ht : Reaches capacity cfg' t ms) :
    Reaches capacity cfg (s ++ t) ms := by
  obtain ⟨q, hq, hexec⟩ := ht
  exact ⟨q, hq, exec_append h hexec⟩

theorem Reaches.close {cfg : Config} (h : Reaches capacity cfg s (m :: ms))
    (hc : c = C_RCURB ∨ c = C_RSQRB ∨ c = C_COMMA) {cfg' : Config}
    (hmove : move capacity ⟨OK, m :: ms⟩ c = some cfg') :
    exec (move capacity) cfg (s ++ [c]) = some cfg' := by
  obtain ⟨q, hq, hexec⟩ := h
  refine exec_append hexec ?_
  rw [exec_step ((hq.move_eq hc).trans hmove)]
  rfl

theorem move_open (hq : q = GO ∨ q = VA ∨ q = AR) (hroom : ms.length < capacity) :
    move capacity ⟨q, ms⟩ C_LSQRB = some ⟨AR, MODE_ARRAY :: ms⟩ ∧
      move capacity ⟨q, ms⟩ C_LCURB = some ⟨OB, MODE_KEY :: ms⟩ := by
  rcases hq with rfl | rfl | rfl <;> exact ⟨if_pos hroom, if_pos hroom⟩

theorem exec_white_value (hq : q = VA ∨ q = AR) (hw : IsWhite w) :
    exec (move capacity) ⟨q, ms⟩ w = some ⟨q, ms⟩ := by
  rcases hq with rfl | rfl <;> exact exec_white rfl rfl hw

theorem Reaches.member {u k x y t : List Classes} {ms' : List Modes} (hq : q = OB ∨ q = KE)
    (hu : IsWhite u) (hk : IsString k) (hx : IsWhite x) (hy : IsWhite y)
    (ht : Reaches capacity ⟨VA, MODE_OBJECT :: ms⟩ t ms') :
    Reaches capacity ⟨q, MODE_KEY :: ms⟩ (u ++ (k ++ (x ++ C_COLON :: (y ++ t)))) ms' := by
  have hwhite : exec (move capacity) ⟨q, MODE_KEY :: ms⟩ u = some ⟨q, MODE_KEY :: ms⟩ := by
    rcases hq with rfl | rfl <;> exact exec_white rfl rfl hu
  have hkey : exec (move capacity) ⟨q, MODE_KEY :: ms⟩ k = some ⟨CO, MODE_KEY :: ms⟩ := by
    refine hk.exec ?_ rfl
    rcases hq with rfl | rfl <;> rfl
  have hvalue : Reaches capacity ⟨VA, MODE_OBJECT :: ms⟩ (y ++ t) ms' :=
    .after (exec_white rfl rfl hy) ht
  exact .after hwhite (.after hkey (.after (exec_white rfl rfl hx) (hvalue.step rfl)))

theorem Derives.run {k : Kind} (h : Derives k n s) : Run capacity k n s := by
  induction h with
  | scalar hs => exact fun q m ms hq hm _ => hs.reaches hq hm
  | nested _ ih => exact fun q m ms hq hm hroom => ⟨OK, .inl rfl, ih q (m :: ms) (.inr hq) hroom⟩
  | emptyArray hw =>
    intro q ms hq hroom
    rw [exec_step (move_open hq (by omega)).1]
    exact exec_append (exec_white rfl rfl hw) rfl
  | array _ ih =>
    intro q ms hq hroom
    rw [exec_step (move_open hq (by omega)).1]
    exact (ih AR ms (.inr rfl) (by rw [List.length_cons]; omega)).close (.inr (.inl rfl)) rfl
  | emptyObject hw =>
    intro q ms hq hroom
    rw [exec_step (move_open hq (by omega)).2]
    exact exec_append (exec_white rfl rfl hw) rfl
  | object _ ih =>
    intro q ms hq hroom
    rw [exec_step (move_open hq (by omega)).2]
    exact (ih OB ms (.inl rfl) (by rw [List.length_cons]; omega)).close (.inl rfl) rfl
  | element hu _ hw ih =>
    intro q ms hq hroom
    exact .after (exec_white_value hq hu)
      ((ih q MODE_ARRAY ms hq (.inl rfl) hroom).append fun q' hq' => hq'.exec_white hw)
  | elements hu _ hw _ ihv ihs =>
    intro q ms hq hroom
    refine .after (exec_white_value hq hu)
      ((ihv q MODE_ARRAY ms hq (.inl rfl) hroom).append fun q' hq' => ?_)
    exact Reaches.append (hq'.exec_white hw) fun q'' hq'' =>
      (ihs VA ms (.inl rfl) hroom).step ((hq''.move_eq (.inr (.inr rfl))).trans rfl)
  | member hu hk hx hy _ hw ih =>
    intro q ms hq hroom
    refine .member hq hu hk hx hy ?_
    exact (ih VA MODE_OBJECT ms (.inl rfl) (.inr rfl) hroom).append fun q' hq' => hq'.exec_white hw
  | members hu hk hx hy _ hw _ ihv ihs =>
    intro q ms hq hroom
    refine .member hq hu hk hx hy ((ihv VA MODE_OBJECT ms (.inl rfl) (.inr rfl) hroom).append
      fun q' hq' => ?_)
    exact Reaches.append (hq'.exec_white hw) fun q'' hq'' =>
      (ihs KE ms (.inr rfl) hroom).step ((hq''.move_eq (.inr (.inr rfl))).trans rfl)

theorem IsText.exec {nesting : ℕ} (h : IsText nesting s) (hroom : nesting + 1 ≤ capacity) :
    exec (move capacity) startConfig s = some ⟨OK, [Modes.MODE_DONE]⟩ := by
  obtain ⟨u, v, w, hu, hv, hw, rfl⟩ := h
  have hrun : exec (move capacity) ⟨GO, [Modes.MODE_DONE]⟩ v = some ⟨OK, [Modes.MODE_DONE]⟩ :=
    hv.run GO [Modes.MODE_DONE] (.inl rfl) (by rw [List.length_singleton]; omega)
  exact exec_append (exec_white rfl rfl hu) (exec_append hrun (exec_white rfl rfl hw))

end Nesting

end AnalysisPrograms.JsonChecker
