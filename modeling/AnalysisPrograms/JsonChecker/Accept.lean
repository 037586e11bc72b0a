import Mathlib.Data.Int.Basic
import AnalysisPrograms.JsonChecker.Sound

namespace AnalysisPrograms.JsonChecker

open Foundations.Execution
open Classes States Modes

variable {capacity : ℕ} {depth : ℤ} {q : States} {m : Modes} {ms : List Modes} {s : List Classes}
  {c : Classes} {cfg : Config}
variable {text : List ℤ}

/-- The characters have classes that are a text of the grammar. -/
def FitsGrammar (nesting : ℕ) (text : List ℤ) : Prop :=
  ∃ cs, text.mapM charClass = some cs ∧ IsText nesting cs

theorem IsText.nesting_pos {nesting : ℕ} (h : IsText nesting s) : 0 < nesting := by
  obtain ⟨u, v, w, -, hv, -, -⟩ := h
  cases hv with
  | emptyArray _ => exact Nat.succ_pos _
  | array _ => exact Nat.succ_pos _
  | emptyObject _ => exact Nat.succ_pos _
  | object _ => exact Nat.succ_pos _

theorem startConfig_coherent : Coherent startConfig.stack startConfig.state := rfl

def Accepting (cfg : Config) : Prop := cfg.state = OK ∧ cfg.stack.head? = some MODE_DONE

instance : DecidablePred Accepting :=
  fun cfg => inferInstanceAs (Decidable (cfg.state = OK ∧ cfg.stack.head? = some MODE_DONE))

theorem accepting_iff : Accepting cfg ↔ ∃ ms, cfg = ⟨OK, MODE_DONE :: ms⟩ := by
  constructor
  · obtain ⟨q, ms⟩ := cfg
    rintro ⟨rfl, hhead⟩
    cases ms with
    | nil => cases hhead
    | cons m ms =>
      cases hhead
      exact ⟨ms, rfl⟩
  · rintro ⟨ms, rfl⟩
    exact ⟨rfl, rfl⟩

theorem fitsGrammar_iff_exec (hcapacity : 0 < capacity) :
    FitsGrammar (capacity - 1) text ↔
      ∃ cfg, exec (readChar capacity) startConfig text = some cfg ∧ Accepting cfg := by
  constructor
  · rintro ⟨cs, hcs, htext⟩
    exact ⟨_, exec_readChar.mpr ⟨cs, hcs, htext.exec (by omega)⟩, rfl, rfl⟩
  · rintro ⟨cfg, hrun, hcfg⟩
    obtain ⟨ms, rfl⟩ := accepting_iff.mp hcfg
    obtain ⟨cs, hcs, hrun⟩ := exec_readChar.mp hrun
    exact ⟨cs, hcs, rest_of_exec startConfig_coherent hrun⟩

theorem check_ok_true (hdepth : 0 < depth) :
    check depth text = .ok true ↔ FitsGrammar (depth.toNat - 1) text := by
  rw [fitsGrammar_iff_exec (by omega), check_eq hdepth]
  cases exec (readChar depth.toNat) startConfig text with
  | none => simp
  | some cfg => simp [Accepting]

theorem check_accepts_iff (depth : ℤ) (text : List ℤ) :
    check depth text ≠ .error .fault ∧
      (check depth text = .ok true ↔ FitsGrammar (depth - 1).toNat text) := by
  by_cases hdepth : 0 < depth
  · rw [show (depth - 1).toNat = depth.toNat - 1 by omega]
    refine ⟨?_, check_ok_true hdepth⟩
    rw [check_eq hdepth]
    split <;> simp
  · have hnone : ¬FitsGrammar (depth - 1).toNat text := by
      rintro ⟨cs, -, htext⟩
      have := htext.nesting_pos
      omega
    rcases check_of_depth_nonpos (Int.not_lt.mp hdepth) text with h | h <;>
      simp only [h, hnone] <;> decide

-- The two differences from JSON: `[1.]` is accepted and `[0e1]` is not.
example : check 2 [91, 49, 46, 93] = .ok true := by decide

example : check 2 [91, 48, 101, 49, 93] = .error .reject := by decide

section Prefixes

def Completes (capacity : ℕ) (cfg : Config) : Prop :=
  ∃ s, exec (move capacity) cfg s = some ⟨OK, [Modes.MODE_DONE]⟩

theorem Completes.step {cfg' : Config} (c : Classes) (hmove : move capacity cfg c = some cfg')
    (h : Completes capacity cfg') : Completes capacity cfg := by
  obtain ⟨s, hs⟩ := h
  exact ⟨c :: s, exec_cons_iff.mpr ⟨cfg', hmove, hs⟩⟩

theorem completes_ended (hq : Ended q) (hms : Settled ms) : Completes capacity ⟨q, ms⟩ := by
  induction hms generalizing q with
  | done => exact ⟨[C_SPACE], by rcases hq with rfl | rfl | rfl | rfl | rfl <;> rfl⟩
  | array _ ih => exact .step C_RSQRB ((hq.move_eq (.inr (.inl rfl))).trans rfl) (ih (.inl rfl))
  | object _ ih => exact .step C_RCURB ((hq.move_eq (.inl rfl)).trans rfl) (ih (.inl rfl))

theorem completes_inside (hq : Ended q) (hcoh : Coherent ms VA) : Completes capacity ⟨q, ms⟩ := by
  obtain ⟨m, ms', rfl, hm, hms⟩ := hcoh
  exact completes_ended hq (.of_inside hm hms)

theorem completes_colon (hcoh : Coherent ms CO) : Completes capacity ⟨CO, ms⟩ := by
  obtain ⟨ms', rfl, hms⟩ := hcoh
  exact .step C_COLON rfl (.step C_ZERO rfl (completes_ended (by decide) (.object hms)))

theorem completes_string (hcoh : Coherent ms States.ST) : Completes capacity ⟨States.ST, ms⟩ := by
  obtain ⟨m, ms', rfl, hm, hms⟩ := hcoh
  cases m with
  | MODE_DONE => exact absurd rfl hm
  | MODE_KEY => exact .step C_QUOTE rfl (completes_colon ⟨ms', rfl, hms⟩)
  | MODE_ARRAY => exact .step C_QUOTE rfl (completes_ended (.inl rfl) (.array hms))
  | MODE_OBJECT => exact .step C_QUOTE rfl (completes_ended (.inl rfl) (.object hms))

theorem completes_key (hcoh : Coherent ms KE) : Completes capacity ⟨KE, ms⟩ := by
  obtain ⟨ms', rfl, hms⟩ := hcoh
  exact .step C_QUOTE rfl (completes_string ⟨_, ms', rfl, nofun, hms⟩)

theorem completes (hroom : 2 ≤ capacity) (hcoh : Coherent ms q) : Completes capacity ⟨q, ms⟩ := by
  cases q with
  | GO =>
    obtain rfl : ms = [Modes.MODE_DONE] := hcoh
    exact .step C_LSQRB (if_pos hroom) (.step C_RSQRB rfl ⟨[], rfl⟩)
  | OK => exact completes_ended (.inl rfl) hcoh
  | OB =>
    obtain ⟨ms', rfl, hms⟩ := hcoh
    exact .step C_RCURB rfl (completes_ended (.inl rfl) hms)
  | AR =>
    obtain ⟨ms', rfl, hms⟩ := hcoh
    exact .step C_RSQRB rfl (completes_ended (.inl rfl) hms)
  | KE => exact completes_key hcoh
  | CO => exact completes_colon hcoh
  | ST => exact completes_string hcoh
  | ES => exact .step C_QUOTE rfl (completes_string hcoh)
  | U1 =>
    exact .step C_ZERO rfl
      (.step C_ZERO rfl (.step C_ZERO rfl (.step C_ZERO rfl (completes_string hcoh))))
  | U2 => exact .step C_ZERO rfl (.step C_ZERO rfl (.step C_ZERO rfl (completes_string hcoh)))
  | U3 => exact .step C_ZERO rfl (.step C_ZERO rfl (completes_string hcoh))
  | U4 => exact .step C_ZERO rfl (completes_string hcoh)
  | ZE | IN | FR | E3 => exact completes_inside (by decide) hcoh
  | VA | MI | E1 | E2 => exact .step C_ZERO rfl (completes_inside (by decide) hcoh)
  | T1 =>
    exact .step C_LOW_R rfl
      (.step C_LOW_U rfl (.step C_LOW_E rfl (completes_inside (.inl rfl) hcoh)))
  | T2 => exact .step C_LOW_U rfl (.step C_LOW_E rfl (completes_inside (.inl rfl) hcoh))
  | T3 | F4 => exact .step C_LOW_E rfl (completes_inside (.inl rfl) hcoh)
  | F1 =>
    exact .step C_LOW_A rfl
      (.step C_LOW_L rfl (.step C_LOW_S rfl (.step C_LOW_E rfl (completes_inside (.inl rfl) hcoh))))
  | F2 =>
    exact .step C_LOW_L rfl
      (.step C_LOW_S rfl (.step C_LOW_E rfl (completes_inside (.inl rfl) hcoh)))
  | F3 => exact .step C_LOW_S rfl (.step C_LOW_E rfl (completes_inside (.inl rfl) hcoh))
  | N1 =>
    exact .step C_LOW_U rfl
      (.step C_LOW_L rfl (.step C_LOW_L rfl (completes_inside (.inl rfl) hcoh)))
  | N2 => exact .step C_LOW_L rfl (.step C_LOW_L rfl (completes_inside (.inl rfl) hcoh))
  | N3 => exact .step C_LOW_L rfl (completes_inside (.inl rfl) hcoh)

theorem coherent_exec {cfg' : Config} (hcoh : Coherent cfg.stack cfg.state)
    (hexec : exec (move capacity) cfg s = some cfg') : Coherent cfg'.stack cfg'.state := by
  induction s generalizing cfg with
  | nil =>
    cases hexec
    exact hcoh
  | cons c s ih =>
    obtain ⟨mid, hmove, hrest⟩ := exec_cons_iff.mp hexec
    exact ih (justified_move hcoh hmove).1 hrest

theorem mem_asciiClass (c : Classes) : some c ∈ asciiClass := by
  cases c <;> decide

theorem charClass_surjective (c : Classes) : ∃ ch, charClass ch = some c := by
  obtain ⟨i, hi⟩ := List.mem_iff_getElem?.mp (mem_asciiClass c)
  have hlt : i < 128 := (List.getElem?_eq_some_iff.mp hi).1
  refine ⟨i, ?_⟩
  rw [charClass, if_neg (by omega), if_neg (by omega), Int.toNat_natCast, hi]
  rfl

theorem mapM_charClass (cs : List Classes) : ∃ text : List ℤ, text.mapM charClass = some cs := by
  induction cs with
  | nil => exact ⟨[], rfl⟩
  | cons c cs ih =>
    obtain ⟨ch, hch⟩ := charClass_surjective c
    obtain ⟨text, htext⟩ := ih
    exact ⟨ch :: text, by rw [List.mapM_cons, hch, htext]; rfl⟩

theorem exec_some_iff (hcapacity : 2 ≤ capacity) :
    (∃ cfg, exec (readChar capacity) startConfig text = some cfg) ↔
      ∃ rest, FitsGrammar (capacity - 1) (text ++ rest) := by
  constructor
  · rintro ⟨cfg, hrun⟩
    obtain ⟨cs, hcs, hexec⟩ := exec_readChar.mp hrun
    obtain ⟨s, hs⟩ := completes hcapacity (coherent_exec startConfig_coherent hexec)
    obtain ⟨rest, hrest⟩ := mapM_charClass s
    have hall := exec_append hrun (exec_readChar.mpr ⟨s, hrest, hs⟩)
    exact ⟨rest, (fitsGrammar_iff_exec (by omega)).mpr ⟨_, hall, rfl, rfl⟩⟩
  · rintro ⟨rest, hjson⟩
    obtain ⟨_, hrun, -⟩ := (fitsGrammar_iff_exec (by omega)).mp hjson
    obtain ⟨cfg, hcfg, -⟩ := exec_of_append hrun
    exact ⟨cfg, hcfg⟩

theorem readText_ok_iff_exec (hdepth : 0 < depth) :
    (∃ jc, readText depth text = .ok jc) ↔
      ∃ cfg, exec (readChar depth.toNat) startConfig text = some cfg := by
  obtain ⟨jc, -, hrun⟩ := readText_follows hdepth text
  cases hres : exec (readChar depth.toNat) startConfig text with
  | none =>
    rw [hres] at hrun
    simp [show readText depth text = .error .reject from hrun]
  | some cfg =>
    rw [hres] at hrun
    obtain ⟨jc', hread, -⟩ := hrun
    simp [hread]

theorem readText_ok_iff (hdepth : 2 ≤ depth) (text : List ℤ) :
    (∃ jc, readText depth text = .ok jc) ↔ ∃ rest, check depth (text ++ rest) = .ok true := by
  rw [readText_ok_iff_exec (by omega), exec_some_iff (by omega)]
  exact exists_congr fun rest => (check_ok_true (by omega)).symm

theorem readText_ok_iff_bracket :
    (∃ jc, readText 2 [91] = .ok jc) ∧ ∃ rest, check 2 ([91] ++ rest) = .ok true := by
  have hread : ∃ jc, readText 2 [91] = .ok jc := ⟨_, rfl⟩
  exact ⟨hread, (readText_ok_iff (by decide) [91]).mp hread⟩

end Prefixes

section Program

/-- The input of the program up to its end or its first zero byte. -/
def beforeZero (input : List UInt8) : List ℤ := (input.takeWhile (· ≠ 0)).map fun b => b.toNat

theorem readInput_eq (jc : Checker) (input : List UInt8) :
    readInput jc input = (beforeZero input).foldlM jsonCheckerChar jc := by
  induction input generalizing jc with
  | nil => rfl
  | cons b input ih =>
    by_cases hb : b = 0
    · subst hb
      rfl
    · have hpos : ¬b.toNat ≤ 0 := fun h => hb (UInt8.toNat.inj (Nat.le_zero.mp h))
      have hbefore : beforeZero (b :: input) = (b.toNat : ℤ) :: beforeZero input := by
        rw [beforeZero, List.takeWhile_cons_of_pos (by simpa using hb)]
        rfl
      rw [readInput, if_neg hpos, hbefore, List.foldlM_cons]
      exact bind_congr fun jc' => ih jc'

theorem testMain_eq (input : List UInt8) : testMain input =
    match exec (readChar 20) startConfig (beforeZero input) with
    | none => .ok ⟨1, "json_checker_char: syntax error\n"⟩
    | some cfg =>
      if Accepting cfg then .ok ⟨0, ""⟩ else .ok ⟨1, "json_checker_end: syntax error\n"⟩ := by
  obtain ⟨jc, hnew, hdepth, h⟩ := newJsonChecker_represents (show (0 : ℤ) < 20 by decide)
  have hrun : Follows jc (readInput jc input)
      (exec (readChar 20) startConfig (beforeZero input)) := by
    have hrun := h.run rfl (beforeZero input)
    rw [hdepth, ← readInput_eq] at hrun
    exact hrun
  rw [testMain, hnew]
  simp only [bind, Except.bind]
  cases hres : exec (readChar 20) startConfig (beforeZero input) with
  | none =>
    rw [hres] at hrun
    rw [show readInput jc input = .error .reject from hrun]
  | some cfg =>
    rw [hres] at hrun
    obtain ⟨jc', hread, -, h'⟩ := hrun
    simp only [hread, h'.done, decide_eq_true_eq]
    rfl

theorem testMain_reports (input : List UInt8) :
    ∃ exit, testMain input = .ok exit ∧
      (exit = ⟨0, ""⟩ ↔ FitsGrammar 19 (beforeZero input)) ∧
      (exit = ⟨1, "json_checker_end: syntax error\n"⟩ ↔
        ¬FitsGrammar 19 (beforeZero input) ∧ ∃ rest, FitsGrammar 19 (beforeZero input ++ rest)) ∧
      (exit = ⟨1, "json_checker_char: syntax error\n"⟩ ↔
        ∀ rest, ¬FitsGrammar 19 (beforeZero input ++ rest)) := by
  have hjson : FitsGrammar 19 (beforeZero input) ↔ _ := fitsGrammar_iff_exec (show 0 < 20 by decide)
  have hread : _ ↔ ∃ rest, FitsGrammar 19 (beforeZero input ++ rest) :=
    exec_some_iff (show 2 ≤ 20 by decide)
  rw [testMain_eq, hjson, ← not_exists, ← hread]
  cases exec (readChar 20) startConfig (beforeZero input) with
  | none => exact ⟨_, rfl, by simp⟩
  | some cfg =>
    by_cases hcfg : Accepting cfg
    · exact ⟨⟨0, ""⟩, if_pos hcfg, by simp [hcfg]⟩
    · exact ⟨⟨1, "json_checker_end: syntax error\n"⟩, if_neg hcfg, by simp [hcfg]⟩

end Program

end AnalysisPrograms.JsonChecker
