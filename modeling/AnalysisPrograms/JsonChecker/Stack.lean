import Mathlib.Data.List.Basic
import AnalysisPrograms.Foundations.Execution
import AnalysisPrograms.JsonChecker.Automaton

namespace AnalysisPrograms.JsonChecker

open Foundations.Execution
open Classes States Modes

structure Config where
  state : States
  stack : List Modes
deriving DecidableEq

def react (capacity : ℕ) (action : ℤ) (modes : List Modes) : Option Config :=
  match action, modes with
  | -9, MODE_KEY :: ms => some ⟨OK, ms⟩
  | -8, MODE_OBJECT :: ms => some ⟨OK, ms⟩
  | -7, MODE_ARRAY :: ms => some ⟨OK, ms⟩
  | -6, ms => if ms.length < capacity then some ⟨OB, MODE_KEY :: ms⟩ else none
  | -5, ms => if ms.length < capacity then some ⟨AR, MODE_ARRAY :: ms⟩ else none
  | -4, MODE_KEY :: ms => some ⟨CO, MODE_KEY :: ms⟩
  | -4, MODE_ARRAY :: ms => some ⟨OK, MODE_ARRAY :: ms⟩
  | -4, MODE_OBJECT :: ms => some ⟨OK, MODE_OBJECT :: ms⟩
  | -3, MODE_OBJECT :: ms => some ⟨KE, MODE_KEY :: ms⟩
  | -3, MODE_ARRAY :: ms => some ⟨VA, MODE_ARRAY :: ms⟩
  | -2, MODE_KEY :: ms => some ⟨VA, MODE_OBJECT :: ms⟩
  | _, _ => none

def move (capacity : ℕ) (cfg : Config) (c : Classes) : Option Config :=
  match transition cfg.state c with
  | .state s => some ⟨s, cfg.stack⟩
  | .action a => react capacity a cfg.stack

structure Represents (jc : Checker) (cfg : Config) : Prop where
  state : jc.state = cfg.state
  top : jc.top = cfg.stack.length - 1
  size : jc.stack.length = jc.depth.toNat
  cells : jc.stack.take cfg.stack.length = cfg.stack.reverse
  nonempty : cfg.stack ≠ []

variable {jc : Checker} {s : States} {m mode : Modes} {ms : List Modes}

theorem Represents.length_le {cfg : Config} (h : Represents jc cfg) :
    cfg.stack.length ≤ jc.depth.toNat := by
  have hlen := congrArg List.length h.cells
  rw [List.length_take, List.length_reverse, h.size] at hlen
  omega

theorem Represents.current (h : Represents jc ⟨s, m :: ms⟩) : jc.current = .ok m := by
  have hle := h.length_le
  have htop := h.top
  have hcells := h.cells
  simp only [List.length_cons, List.reverse_cons] at hle htop hcells
  have hget : jc.stack[jc.top.toNat]? = some m := by
    rw [show jc.top.toNat =
      ms.length by omega, ← List.getElem?_take_of_lt (Nat.lt_succ_self ms.length), hcells]
    simp
  rw [Checker.current, if_pos (by omega), hget]

theorem Represents.withState (h : Represents jc ⟨s, ms⟩) (s' : States) :
    Represents { jc with state := s' } ⟨s', ms⟩ :=
  ⟨rfl, h.top, h.size, h.cells, h.nonempty⟩

theorem Represents.pop (h : Represents jc ⟨s, m :: ms⟩) (hms : ms ≠ []) :
    ∃ jc', popOrReject jc m = .ok jc' ∧ jc'.depth = jc.depth ∧ Represents jc' ⟨s, ms⟩ := by
  have htop := h.top
  have hcells := h.cells
  simp only [List.length_cons, List.reverse_cons] at htop hcells
  refine ⟨{ jc with top := jc.top - 1 }, ?_, rfl, h.state, ?_, h.size, ?_, hms⟩
  · rw [popOrReject, JsonChecker.pop, if_neg (by omega), h.current]
    simp [bind, Except.bind]
  · dsimp only
    omega
  · have hview : jc.stack.take ms.length = (jc.stack.take (ms.length + 1)).take ms.length := by
      rw [List.take_take, Nat.min_eq_left (Nat.le_succ _)]
    exact hview.trans (hcells ▸ List.take_left' List.length_reverse)

theorem Represents.pop_ne (h : Represents jc ⟨s, m :: ms⟩) (mode : Modes) (hne : m ≠ mode) :
    popOrReject jc mode = .error .reject := by
  have htop := h.top
  simp only [List.length_cons] at htop
  rw [popOrReject, JsonChecker.pop, if_neg (by omega), h.current]
  simp [bind, Except.bind, hne]

theorem Represents.push (h : Represents jc ⟨s, ms⟩) (hroom : ms.length < jc.depth.toNat)
    (mode : Modes) :
    ∃ jc', pushOrReject jc mode = .ok jc' ∧ jc'.depth = jc.depth ∧
      Represents jc' ⟨s, mode :: ms⟩ := by
  have htop : jc.top + 1 = ms.length := by
    have := h.top
    dsimp only at this
    omega
  have hsize := h.size
  refine ⟨{ jc with top := jc.top + 1, stack := jc.stack.set ms.length mode }, ?_, rfl, h.state, ?_,
    ?_, ?_, nofun⟩
  · rw [pushOrReject, JsonChecker.push, htop, if_neg (by omega), if_pos (by omega)]
    simp [bind, Except.bind]
  · simp [htop]
  · simp [hsize]
  · show (jc.stack.set ms.length mode).take (ms.length + 1) = (mode :: ms).reverse
    have hcells : jc.stack.take ms.length = ms.reverse := h.cells
    rw [List.take_add_one, List.take_set_of_le (Nat.le_refl _), hcells,
      List.getElem?_set_self (by omega), List.reverse_cons]
    rfl

theorem Represents.push_full (h : Represents jc ⟨s, ms⟩) (hfull : ¬ms.length < jc.depth.toNat)
    (mode : Modes) : pushOrReject jc mode = .error .reject := by
  have htop : jc.top + 1 = ms.length := by
    have := h.top
    dsimp only at this
    omega
  rw [pushOrReject, JsonChecker.push, if_pos (by omega)]
  simp [bind, Except.bind]

def Follows (jc : Checker) (result : Except Stop Checker) : Option Config → Prop
  | none => result = .error .reject
  | some cfg => ∃ jc', result = .ok jc' ∧ jc'.depth = jc.depth ∧ Represents jc' cfg

theorem Represents.popTo (h : Represents jc ⟨s, m :: ms⟩) (hms : ms ≠ []) (s' : States) :
    Follows jc (popOrReject jc m >>= fun jc => .ok { jc with state := s' }) (some ⟨s', ms⟩) := by
  obtain ⟨jc', hpop, hdepth, h'⟩ := h.pop hms
  exact ⟨{ jc' with state := s' }, by rw [hpop]; rfl, hdepth, h'.withState s'⟩

theorem Represents.pushTo (h : Represents jc ⟨s, ms⟩) (s' : States) (mode : Modes) :
    Follows jc (pushOrReject jc mode >>= fun jc => .ok { jc with state := s' })
      (if ms.length < jc.depth.toNat then some ⟨s', mode :: ms⟩ else none) := by
  by_cases hroom : ms.length < jc.depth.toNat
  · rw [if_pos hroom]
    obtain ⟨jc', hpush, hdepth, h'⟩ := h.push hroom mode
    exact ⟨{ jc' with state := s' }, by rw [hpush]; rfl, hdepth, h'.withState s'⟩
  · rw [if_neg hroom, h.push_full hroom mode]
    rfl

theorem Represents.flipTo (h : Represents jc ⟨s, m :: ms⟩) (hms : ms ≠ []) (s' : States)
    (mode : Modes) :
    Follows jc
      (popOrReject jc m >>= fun jc => pushOrReject jc mode >>= fun jc =>
        .ok { jc with state := s' })
      (some ⟨s', mode :: ms⟩) := by
  obtain ⟨jc', hpop, hdepth, h'⟩ := h.pop hms
  have hroom : ms.length < jc'.depth.toNat := by
    rw [hdepth]
    exact h.length_le
  obtain ⟨jc'', hpush, hdepth', h''⟩ := h'.push hroom mode
  refine ⟨{ jc'' with state := s' }, ?_, hdepth'.trans hdepth, h''.withState s'⟩
  rw [hpop]
  show (pushOrReject jc' mode >>= fun jc => Except.ok { jc with state := s' }) = _
  rw [hpush]
  rfl

def Grounded (ms : List Modes) : Prop := ms.getLast? = some MODE_DONE

theorem Grounded.tail (h : Grounded (m :: ms)) (hm : m ≠ MODE_DONE) : Grounded ms ∧ ms ≠ [] := by
  cases ms with
  | nil => exact absurd (Option.some.inj h) hm
  | cons m' ms =>
    rw [Grounded, List.getLast?_cons_cons] at h
    exact ⟨h, nofun⟩

theorem Represents.perform (h : Represents jc ⟨s, ms⟩) (hground : Grounded ms) (a : ℤ) :
    Follows jc (JsonChecker.perform jc a) (react jc.depth.toNat a ms) := by
  cases ms with
  | nil => cases hground
  | cons m ms =>
    have hms : m ≠ MODE_DONE → ms ≠ [] := fun hm => (hground.tail hm).2
    unfold JsonChecker.perform
    split
    · cases m with
      | MODE_KEY => exact h.popTo (hms nofun) OK
      | _ => rw [h.pop_ne MODE_KEY (by decide)]; rfl
    · cases m with
      | MODE_OBJECT => exact h.popTo (hms nofun) OK
      | _ => rw [h.pop_ne MODE_OBJECT (by decide)]; rfl
    · cases m with
      | MODE_ARRAY => exact h.popTo (hms nofun) OK
      | _ => rw [h.pop_ne MODE_ARRAY (by decide)]; rfl
    · cases m <;> exact h.pushTo OB MODE_KEY
    · cases m <;> exact h.pushTo AR MODE_ARRAY
    · rw [h.current]
      cases m with
      | MODE_DONE => rfl
      | MODE_KEY => exact ⟨_, rfl, rfl, h.withState CO⟩
      | MODE_ARRAY => exact ⟨_, rfl, rfl, h.withState OK⟩
      | MODE_OBJECT => exact ⟨_, rfl, rfl, h.withState OK⟩
    · rw [h.current]
      cases m with
      | MODE_OBJECT => exact h.flipTo (hms nofun) KE MODE_KEY
      | MODE_ARRAY => exact ⟨_, rfl, rfl, h.withState VA⟩
      | _ => rfl
    · cases m with
      | MODE_KEY => exact h.flipTo (hms nofun) VA MODE_OBJECT
      | _ => rw [h.pop_ne MODE_KEY (by decide)]; rfl
    · have hnone : react jc.depth.toNat a (m :: ms) = none := by
        unfold react
        split <;> first | rfl | exact absurd rfl (by assumption)
      rw [hnone]
      rfl

theorem Represents.char {cfg : Config} (h : Represents jc cfg) (hground : Grounded cfg.stack)
    (nextChar : ℤ) :
    Follows jc (jsonCheckerChar jc nextChar)
      ((charClass nextChar).bind (move jc.depth.toNat cfg)) := by
  unfold jsonCheckerChar
  cases charClass nextChar with
  | none => rfl
  | some c =>
    simp only [Option.bind_some, move, h.state]
    cases transition cfg.state c with
    | state s' => exact ⟨_, rfl, rfl, h.withState s'⟩
    | action a => exact h.perform hground a

theorem Grounded.push (h : Grounded ms) (m : Modes) : Grounded (m :: ms) := by
  cases ms with
  | nil => cases h
  | cons m' ms =>
    rw [Grounded, List.getLast?_cons_cons]
    exact h

theorem Grounded.react {capacity : ℕ} {a : ℤ} {cfg : Config} (h : Grounded ms)
    (hreact : react capacity a ms = some cfg) : Grounded cfg.stack := by
  unfold JsonChecker.react at hreact
  split at hreact
  case h_4 => 
    split at hreact <;> cases hreact
    exact h.push _
  case h_5 =>
    split at hreact <;> cases hreact
    exact h.push _
  all_goals cases hreact
  all_goals first | exact h | exact (h.tail nofun).1 | exact (h.tail nofun).1.push _

theorem Grounded.move {capacity : ℕ} {cfg cfg' : Config} {c : Classes} (h : Grounded cfg.stack)
    (hmove : move capacity cfg c = some cfg') : Grounded cfg'.stack := by
  unfold JsonChecker.move at hmove
  split at hmove
  · cases hmove
    exact h
  · exact h.react hmove

def readChar (capacity : ℕ) (cfg : Config) (nextChar : ℤ) : Option Config :=
  (charClass nextChar).bind (move capacity cfg)

theorem Represents.run {cfg : Config} (h : Represents jc cfg) (hground : Grounded cfg.stack)
    (text : List ℤ) :
    Follows jc (text.foldlM jsonCheckerChar jc) (exec (readChar jc.depth.toNat) cfg text) := by
  induction text generalizing jc cfg with
  | nil => exact ⟨jc, rfl, rfl, h⟩
  | cons ch text ih =>
    have hchar : Follows jc (jsonCheckerChar jc ch) (readChar jc.depth.toNat cfg ch) :=
      h.char hground ch
    rw [List.foldlM_cons, exec]
    cases hread : readChar jc.depth.toNat cfg ch with
    | none =>
      rw [hread] at hchar
      rw [show jsonCheckerChar jc ch = .error .reject from hchar]
      rfl
    | some cfg' =>
      rw [hread] at hchar
      obtain ⟨jc', hrun, hdepth, h'⟩ := hchar
      obtain ⟨c, -, hstep⟩ := Option.bind_eq_some_iff.mp hread
      have hrest := ih h' (hground.move hstep)
      rw [hrun, Option.bind_some, ← hdepth]
      cases hres : exec (readChar jc'.depth.toNat) cfg' text with
      | none =>
        rw [hres] at hrest
        exact hrest
      | some cfg'' =>
        rw [hres] at hrest
        obtain ⟨jc'', hlast, hdepth', h''⟩ := hrest
        exact ⟨jc'', hlast, hdepth'.trans hdepth, h''⟩

theorem exec_readChar {capacity : ℕ} {cfg cfg' : Config} {text : List ℤ} :
    exec (readChar capacity) cfg text = some cfg' ↔
      ∃ cs, text.mapM charClass = some cs ∧ exec (move capacity) cfg cs = some cfg' := by
  induction text generalizing cfg with
  | nil => simp [exec]
  | cons ch text ih =>
    simp only [exec_cons_iff, ih, readChar, Option.bind_eq_some_iff, List.mapM_cons]
    constructor
    · rintro ⟨mid, ⟨c, hc, hmove⟩, cs, hcs, hrun⟩
      exact ⟨c :: cs, by simp [hc, hcs], exec_cons_iff.mpr ⟨mid, hmove, hrun⟩⟩
    · rintro ⟨_, hclasses, hrun⟩
      obtain ⟨c, hc, hclasses⟩ := Option.bind_eq_some_iff.mp hclasses
      obtain ⟨cs, hcs, heq⟩ := Option.bind_eq_some_iff.mp hclasses
      cases heq
      obtain ⟨mid, hmove, hrest⟩ := exec_cons_iff.mp hrun
      exact ⟨mid, ⟨c, hc, hmove⟩, cs, hcs, hrest⟩

def startConfig : Config := ⟨GO, [Modes.MODE_DONE]⟩

theorem newJsonChecker_represents {depth : ℤ} (hdepth : 0 < depth) :
    ∃ jc, newJsonChecker depth = .ok jc ∧ jc.depth = depth ∧ Represents jc startConfig := by
  obtain ⟨n, rfl⟩ : ∃ n : ℕ, depth = n + 1 := ⟨(depth - 1).toNat, by omega⟩
  have hpush : push ⟨GO, n + 1, -1, List.replicate (n + 1) MODE_ARRAY⟩ MODE_DONE =
      .ok (true, ⟨GO, n + 1, 0, MODE_DONE :: List.replicate n MODE_ARRAY⟩) := by
    rw [push, if_neg (by dsimp only; omega), if_pos (by simp)]
    rfl
  refine ⟨⟨GO, n + 1, 0, MODE_DONE :: List.replicate n MODE_ARRAY⟩, ?_, rfl, rfl, rfl,
    ?_, rfl, nofun⟩
  · rw [newJsonChecker, show ((n : ℤ) + 1).toNat = n + 1 by omega, hpush]
    rfl
  · simp

theorem Represents.done {cfg : Config} (h : Represents jc cfg) :
    jsonCheckerDone jc = .ok (decide (cfg.state = OK ∧ cfg.stack.head? = some MODE_DONE)) := by
  obtain ⟨s, ms⟩ := cfg
  cases ms with
  | nil => exact absurd rfl h.nonempty
  | cons m ms =>
    have htop := h.top
    simp only [List.length_cons] at htop
    have hstate : jc.state = s := h.state
    rw [jsonCheckerDone, hstate]
    by_cases hs : s = OK
    · rw [if_pos hs, JsonChecker.pop, if_neg (by omega), h.current]
      cases m <;> simp [hs, bind, Except.bind]
    · rw [if_neg hs]
      simp [hs]

theorem readText_follows {depth : ℤ} (hdepth : 0 < depth) (text : List ℤ) :
    ∃ jc, jc.depth = depth ∧
      Follows jc (readText depth text) (exec (readChar depth.toNat) startConfig text) := by
  obtain ⟨jc, hnew, rfl, h⟩ := newJsonChecker_represents hdepth
  refine ⟨jc, rfl, ?_⟩
  rw [readText, hnew]
  exact h.run rfl text

theorem check_eq {depth : ℤ} (hdepth : 0 < depth) (text : List ℤ) :
    check depth text = match exec (readChar depth.toNat) startConfig text with
      | none => .error .reject
      | some cfg => .ok (decide (cfg.state = OK ∧ cfg.stack.head? = some MODE_DONE)) := by
  obtain ⟨jc, rfl, hrun⟩ := readText_follows hdepth text
  rw [check]
  cases hres : exec (readChar jc.depth.toNat) startConfig text with
  | none =>
    rw [hres] at hrun
    rw [show readText jc.depth text = .error .reject from hrun]
    rfl
  | some cfg =>
    rw [hres] at hrun
    obtain ⟨jc', hlast, -, h'⟩ := hrun
    rw [hlast]
    exact h'.done

section NoRoom

variable {depth : ℤ}

theorem pushOrReject_full (hfull : jc.depth ≤ jc.top + 1) (mode : Modes) :
    pushOrReject jc mode = .error .reject := by
  rw [pushOrReject, push, if_pos hfull]
  rfl

theorem jsonCheckerChar_full (hstate : jc.state = GO) (hfull : jc.depth ≤ jc.top + 1) (ch : ℤ) :
    jsonCheckerChar jc ch = .error .reject ∨ jsonCheckerChar jc ch = .ok jc := by
  obtain ⟨s, depth, top, stack⟩ := jc
  obtain rfl : s = GO := hstate
  unfold jsonCheckerChar
  cases charClass ch with
  | none => exact .inl rfl
  | some c =>
    cases c with
    | C_SPACE => exact .inr rfl
    | C_WHITE => exact .inr rfl
    | C_LCURB =>
      left
      show perform _ (-6) = _
      rw [perform, pushOrReject_full hfull]
      rfl
    | C_LSQRB =>
      left
      show perform _ (-5) = _
      rw [perform, pushOrReject_full hfull]
      rfl
    | _ => exact .inl rfl

theorem check_of_depth_nonpos (hdepth : depth ≤ 0) (text : List ℤ) :
    check depth text = .error .reject ∨ check depth text = .ok false := by
  have hrun : ∀ jc, jc.state = GO → jc.depth ≤ jc.top + 1 →
      text.foldlM jsonCheckerChar jc = .error .reject ∨
      text.foldlM jsonCheckerChar jc = .ok jc := by
    intro jc hstate hfull
    induction text with
    | nil => exact .inr rfl
    | cons ch text ih =>
      rw [List.foldlM_cons]
      rcases jsonCheckerChar_full hstate hfull ch with h | h
      · rw [h]
        exact .inl rfl
      · rw [h]
        exact ih
  have hnew : newJsonChecker depth = .ok ⟨GO, depth, 0, List.replicate depth.toNat MODE_ARRAY⟩ := by
    rw [newJsonChecker, push, if_pos (by dsimp only; omega)]
    rfl
  have hread : readText depth text = text.foldlM jsonCheckerChar
      ⟨GO, depth, 0, List.replicate depth.toNat MODE_ARRAY⟩ := by
    rw [readText, hnew]
    rfl
  rw [check, hread]
  have htop : depth ≤ (0 : ℤ) + 1 := by omega
  rcases hrun ⟨GO, depth, 0, List.replicate depth.toNat MODE_ARRAY⟩ rfl htop with h | h
  · rw [h]
    exact .inl rfl
  · rw [h]
    exact .inr rfl

end NoRoom

end AnalysisPrograms.JsonChecker
