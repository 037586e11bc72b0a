import AnalysisPrograms.Join.Program

namespace AnalysisPrograms.Join

open Foundations Decimal

structure NumberFile (greatest : ℕ) where
  lines : List ℕ
  last : ℕ
  newline : Bool
  lines_le : ∀ n ∈ lines, n ≤ greatest
  last_le : last ≤ greatest

namespace NumberFile

variable {greatest : ℕ} (f : NumberFile greatest)

def numbers : List ℕ := f.lines ++ [f.last]

def ending : List UInt8 := if f.newline then [NEWLINE] else []

def text : List UInt8 :=
  f.lines.flatMap (fun n => numeral n ++ [NEWLINE]) ++ (numeral f.last ++ f.ending)

/-- What the loop of `handle_bitmap` handles: a last line with its newline twice. -/
def handled : List ℕ := f.lines ++ if f.newline then [f.last, f.last] else [f.last]

theorem mem_handled {x : ℕ} : x ∈ f.handled ↔ x ∈ f.numbers := by
  unfold handled numbers
  cases f.newline with
  | false => rfl
  | true => simp

theorem le_of_mem {x : ℕ} (h : x ∈ f.numbers) : x ≤ greatest := by
  rcases List.mem_append.mp h with h | h
  · exact f.lines_le x h
  · rw [List.mem_singleton.mp h]
    exact f.last_le

end NumberFile

section Lines

variable {n : ℕ} {rest : List UInt8}

theorem not_newline_of_isDigit {b : UInt8} (h : isDigit b = true) : b ≠ NEWLINE := by
  rintro rfl
  exact absurd h (by decide)

theorem not_sign_of_isDigit {b : UInt8} (h : isDigit b = true) :
    isSpace b = false ∧ b ≠ 45 ∧ b ≠ 43 := by
  rw [isDigit, decide_eq_true_iff] at h
  refine ⟨?_, ?_, ?_⟩
  · have hne : b ≠ 32 := by
      rintro rfl
      exact absurd h (by decide)
    simp only [isSpace, hne, decide_false, Bool.false_or, decide_eq_false_iff_not]
    omega
  · rintro rfl
    exact absurd h (by decide)
  · rintro rfl
    exact absurd h (by decide)

theorem lineOf_append {ds : List UInt8} (hds : ∀ b ∈ ds, b ≠ NEWLINE) {room : ℕ}
    (hroom : ds.length < room) : lineOf room (ds ++ NEWLINE :: rest) = ds ++ [NEWLINE] := by
  induction ds generalizing room with
  | nil =>
    obtain ⟨room, rfl⟩ := Nat.exists_eq_add_one_of_ne_zero (Nat.ne_of_gt hroom)
    rfl
  | cons d ds ih =>
    obtain ⟨room, rfl⟩ := Nat.exists_eq_add_one_of_ne_zero (n := room) (by omega)
    have hlt : ds.length < room := Nat.lt_of_succ_lt_succ hroom
    rw [List.cons_append, lineOf, if_neg (hds d List.mem_cons_self),
      ih (fun b hb => hds b (List.mem_cons_of_mem d hb)) hlt, List.cons_append]

theorem lineOf_last {ds : List UInt8} (hds : ∀ b ∈ ds, b ≠ NEWLINE) {room : ℕ}
    (hroom : ds.length ≤ room) : lineOf room ds = ds := by
  induction ds generalizing room with
  | nil =>
    cases room with
    | zero => rfl
    | succ room => rfl
  | cons d ds ih =>
    obtain ⟨room, rfl⟩ := Nat.exists_eq_add_one_of_ne_zero (n := room) (by simp at hroom; omega)
    rw [lineOf, if_neg (hds d List.mem_cons_self),
      ih (fun b hb => hds b (List.mem_cons_of_mem d hb)) (Nat.le_of_succ_le_succ hroom)]

theorem numeral_line (n : ℕ) : ∀ b ∈ numeral n, b ≠ NEWLINE :=
  fun _ hb => not_newline_of_isDigit (isDigit_of_mem_numeral hb)

theorem length_numeral_int (h : n < 2 ^ 31) : (numeral n).length ≤ 10 :=
  length_numeral_le (by omega)

theorem fgets_line (h : n < 2 ^ 31) (row : List UInt8) :
    fgets 32 ⟨numeral n ++ NEWLINE :: rest, false⟩ row =
      (⟨rest, false⟩, numeral n ++ [NEWLINE]) := by
  have hlen := length_numeral_int h
  have hline : lineOf 31 (numeral n ++ NEWLINE :: rest) = numeral n ++ [NEWLINE] :=
    lineOf_append (numeral_line n) (by omega)
  have hdrop : (numeral n ++ NEWLINE :: rest).drop (numeral n ++ [NEWLINE]).length = rest := by
    rw [show numeral n ++ NEWLINE :: rest = (numeral n ++ [NEWLINE]) ++
      rest by simp, List.drop_left]
  have hne : numeral n ++ NEWLINE :: rest ≠ [] := by simp
  simp only [fgets, hne, hline, hdrop, Nat.reduceSub, ↓reduceIte]
  simp

theorem fgets_last (h : n < 2 ^ 31) (row : List UInt8) :
    fgets 32 ⟨numeral n, false⟩ row = (⟨[], true⟩, numeral n) := by
  have hlen := length_numeral_int h
  have hline := lineOf_last (numeral_line n) (show (numeral n).length ≤ 31 by omega)
  have hend : (numeral n).getLast? ≠ some NEWLINE := by
    intro heq
    exact numeral_line n NEWLINE (List.mem_of_getLast? heq) rfl
  simp only [fgets, numeral_ne_nil n, hline, Nat.reduceSub, List.drop_length, ↓reduceIte]
  simp only [hend, List.isEmpty_nil, ne_eq, not_false_eq_true, decide_true, Bool.and_true,
    Bool.false_or, show (numeral n).length < 31 by omega]

theorem fgets_end (row : List UInt8) : fgets 32 ⟨[], false⟩ row = (⟨[], true⟩, row) := rfl

theorem atoi_numeral (h : n < 2 ^ 31) (hrest : ∀ b ∈ rest.head?, isDigit b = false) :
    atoi (numeral n ++ rest) = some (n : ℤ) := by
  have htake : (numeral n ++ rest).takeWhile isDigit = numeral n := by
    rw [List.takeWhile_append_of_pos fun b hb => isDigit_of_mem_numeral hb]
    cases rest with
    | nil => simp
    | cons b rest => simp [hrest b rfl]
  obtain ⟨d, ds, hds⟩ := List.exists_cons_of_ne_nil (numeral_ne_nil n)
  have hd : isDigit d = true :=
    isDigit_of_mem_numeral (n := n) (by rw [hds]; exact List.mem_cons_self)
  obtain ⟨hspace, hminus, hplus⟩ := not_sign_of_isDigit hd
  have hvalue := value_numeral n
  rw [← htake, hds, List.cons_append] at hvalue
  unfold atoi
  rw [hds, List.cons_append, List.dropWhile_cons_of_neg (by simp [hspace])]
  dsimp only
  rw [if_neg hminus, if_neg hplus, hvalue, if_pos (by omega)]

theorem atoi_line (h : n < 2 ^ 31) : atoi (numeral n ++ [NEWLINE]) = some (n : ℤ) := by
  apply atoi_numeral h
  intro b hb
  rw [← Option.some.inj hb]
  decide

theorem atoi_last (h : n < 2 ^ 31) : atoi (numeral n) = some (n : ℤ) := by
  rw [← List.append_nil (numeral n)]
  apply atoi_numeral h
  intro b hb
  cases hb

end Lines

def handleElements (opt : Opt) : ℕ → List ℕ → Run → Option Run
  | _, [], r => some r
  | line, n :: ns, r => do
    let r ← handleElement opt ((line + 1) % 2 ^ 32) n r
    handleElements opt ((line + 1) % 2 ^ 32) ns r

section Loop

variable {opt : Opt} {fuel line n : ℕ} {f g : File} {row row' : List UInt8} {r : Run}

theorem readLoop_step (hn : n < 2 ^ 31) (heof : f.eof = false) (hget : fgets 32 f row = (g, row'))
    (hnum : atoi row' = some (n : ℤ)) :
    readLoop opt (fuel + 1) f row line r =
      (handleElement opt ((line + 1) % 2 ^ 32) n r).bind
        (readLoop opt fuel g row' ((line + 1) % 2 ^ 32)) := by
  have hmod : ((n : ℤ) % 2 ^ 32).toNat = n := by omega
  rw [readLoop, if_neg (by rw [heof]; decide), hget]
  simp only [hnum, hmod, Option.bind_eq_bind, Option.bind_some]

theorem readLoop_eof (heof : f.eof = true) : readLoop opt (fuel + 1) f row line r = some r := by
  rw [readLoop, if_pos heof]

theorem readLoop_ending (hn : n < 2 ^ 31) (newline : Bool) :
    readLoop opt (fuel + 3) ⟨numeral n ++ (if newline then [NEWLINE] else []), false⟩ row line r =
      handleElements opt line (if newline then [n, n] else [n]) r := by
  cases newline with
  | false =>
    rw [if_neg Bool.false_ne_true, if_neg Bool.false_ne_true, List.append_nil,
      readLoop_step hn rfl (fgets_last hn row) (atoi_last hn)]
    apply Option.bind_congr
    intro r' _
    exact readLoop_eof rfl
  | true =>
    rw [if_pos rfl, if_pos rfl, readLoop_step hn rfl (fgets_line hn row) (atoi_line hn)]
    apply Option.bind_congr
    intro r₁ _
    rw [readLoop_step hn rfl (fgets_end _) (atoi_line hn)]
    apply Option.bind_congr
    intro r₂ _
    exact readLoop_eof rfl

theorem readLoop_lines {lines : List ℕ} {last : ℕ} (hlines : ∀ n ∈ lines, n < 2 ^ 31)
    (hlast : last < 2 ^ 31) (newline : Bool) (hfuel : lines.length + 3 ≤ fuel) :
    readLoop opt fuel ⟨lines.flatMap (fun n => numeral n ++ [NEWLINE]) ++
        (numeral last ++ if newline then [NEWLINE] else []), false⟩ row line r =
      handleElements opt line (lines ++ if newline then [last, last] else [last]) r := by
  induction lines generalizing fuel row line r with
  | nil =>
    obtain ⟨fuel, rfl⟩ := Nat.exists_eq_add_of_le' hfuel
    exact readLoop_ending hlast newline
  | cons n lines ih =>
    obtain ⟨fuel, rfl⟩ := Nat.exists_eq_add_one_of_ne_zero (n := fuel) (by omega)
    have hn := hlines n List.mem_cons_self
    rw [List.length_cons] at hfuel
    rw [List.flatMap_cons, List.append_assoc, List.append_assoc, List.singleton_append,
      readLoop_step hn rfl (fgets_line hn row) (atoi_line hn), List.cons_append, handleElements]
    apply Option.bind_congr
    intro r' _
    exact ih (fun m hm => hlines m (List.mem_cons_of_mem n hm)) (by omega)

theorem length_lines_le (lines : List ℕ) :
    lines.length ≤ (lines.flatMap fun n => numeral n ++ [NEWLINE]).length := by
  induction lines with
  | nil => exact Nat.le_refl 0
  | cons n lines ih =>
    rw [List.flatMap_cons, List.length_append, List.length_append, List.length_cons,
      List.length_singleton]
    omega

theorem readLoop_text {greatest : ℕ} (file : NumberFile greatest) (hgreatest : greatest < 2 ^ 31) :
    readLoop opt (file.text.length + 2) ⟨file.text, false⟩ row line r =
      handleElements opt line file.handled r := by
  have hlen := length_lines_le file.lines
  have hlast := List.length_pos_iff.mpr (numeral_ne_nil file.last)
  apply readLoop_lines
  · intro n hn
    exact Nat.lt_of_le_of_lt (file.lines_le n hn) hgreatest
  · exact Nat.lt_of_le_of_lt file.last_le hgreatest
  · rw [NumberFile.text, List.length_append, List.length_append]
    omega

end Loop

end AnalysisPrograms.Join
