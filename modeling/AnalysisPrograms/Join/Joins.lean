import AnalysisPrograms.Join.Sets

namespace AnalysisPrograms.Join

open Foundations Decimal

theorem iterate_set (k : ℕ) (b : Bool) : Opt.BITMAP_SET.act^[k] b = (b || decide (k ≠ 0)) := by
  cases k with
  | zero => simp
  | succ k =>
    rw [Function.iterate_succ_apply']
    simp [Opt.act]

theorem iterate_clr (k : ℕ) (b : Bool) : Opt.BITMAP_CLR.act^[k] b = (b && decide (k = 0)) := by
  cases k with
  | zero => simp
  | succ k =>
    rw [Function.iterate_succ_apply']
    simp [Opt.act]

theorem iterate_reverse (k : ℕ) (b : Bool) :
    Opt.BITMAP_REVERSE.act^[k] b = (b ^^ decide (k % 2 = 1)) := by
  induction k with
  | zero => simp
  | succ k ih =>
    rw [Function.iterate_succ_apply', ih, Opt.act]
    rcases Nat.mod_two_eq_zero_or_one k with hk | hk
    · have hsucc : (k + 1) % 2 = 1 := by omega
      simp [hk, hsucc]
    · have hsucc : (k + 1) % 2 = 0 := by omega
      simp [hk, hsucc]

section Files

variable {greatest : ℕ} (f : NumberFile greatest)

theorem NumberFile.count_eq_zero {x : ℕ} :
    (counted f.handled).count x = 0 ↔ ¬(x ∈ f.numbers ∧ x ≤ MAX_ELEMENT) := by
  rw [List.count_eq_zero, counted, List.mem_filter, f.mem_handled, decide_eq_true_iff]

def NumberFile.widen (h : greatest ≤ 2 ^ 31 - 1) : NumberFile (2 ^ 31 - 1) where
  lines := f.lines
  last := f.last
  newline := f.newline
  lines_le n hn := Nat.le_trans (f.lines_le n hn) h
  last_le := Nat.le_trans f.last_le h

end Files

theorem lt_bits_of_le {x : ℕ} (h : x ≤ MAX_ELEMENT) : x < 8 * MIN_BITMAP_SIZE := by
  rw [MAX_ELEMENT] at h
  rw [MIN_BITMAP_SIZE]
  omega

section Two

variable {fs : FileSystem} {left right : List UInt8}

theorem main_left (argv₀ : List UInt8) :
    main fs [argv₀, JOIN_TYPE_LEFT, left, right] =
      join fs [(left, .BITMAP_SET), (right, .BITMAP_CLR)] := by
  have hinner : juStrncmp JOIN_TYPE_INNER JOIN_TYPE_LEFT = false := by decide
  have hleft : juStrncmp JOIN_TYPE_LEFT JOIN_TYPE_LEFT = true := by decide
  simp only [main, hinner, hleft, Bool.false_eq_true, ↓reduceIte]

theorem main_right (argv₀ : List UInt8) :
    main fs [argv₀, JOIN_TYPE_RIGHT, left, right] =
      join fs [(right, .BITMAP_SET), (left, .BITMAP_CLR)] := by
  have hinner : juStrncmp JOIN_TYPE_INNER JOIN_TYPE_RIGHT = false := by decide
  have hleft : juStrncmp JOIN_TYPE_LEFT JOIN_TYPE_RIGHT = false := by decide
  have hright : juStrncmp JOIN_TYPE_RIGHT JOIN_TYPE_RIGHT = true := by decide
  simp only [main, hinner, hleft, hright, Bool.false_eq_true, ↓reduceIte]

theorem main_outer (argv₀ : List UInt8) :
    main fs [argv₀, JOIN_TYPE_OUTER, left, right] =
      join fs [(left, .BITMAP_SET), (right, .BITMAP_SET)] := by
  have hinner : juStrncmp JOIN_TYPE_INNER JOIN_TYPE_OUTER = false := by decide
  have hleft : juStrncmp JOIN_TYPE_LEFT JOIN_TYPE_OUTER = false := by decide
  have hright : juStrncmp JOIN_TYPE_RIGHT JOIN_TYPE_OUTER = false := by decide
  have houter : juStrncmp JOIN_TYPE_OUTER JOIN_TYPE_OUTER = true := by decide
  simp only [main, hinner, hleft, hright, houter, Bool.false_eq_true, ↓reduceIte]

theorem join_difference {keep drop : List UInt8} {k d : NumberFile (2 ^ 31 - 1)}
    (hk : fs keep = some k.text) (hd : fs drop = some d.text) :
    ∃ result, join fs [(keep, .BITMAP_SET), (drop, .BITMAP_CLR)] = some result ∧
      Prints result.stdout fun x => x ≤ MAX_ELEMENT ∧ x ∈ k.numbers ∧ x ∉ d.numbers := by
  have hjobs : ∀ job ∈ [Job.mk keep .BITMAP_SET k, ⟨drop, .BITMAP_CLR, d⟩], fs job.filename =
      some job.file.text := by
    simp [hk, hd]
  obtain ⟨result, hrun, hprints⟩ := join_eq hjobs
  refine ⟨result, hrun, hprints.congr fun x => ?_⟩
  simp only [bitAfter, iterate_set, iterate_clr, Bool.false_or, Bool.and_eq_true,
    decide_eq_true_iff, ne_eq, NumberFile.count_eq_zero, not_not]
  constructor
  · rintro ⟨-, ⟨hmem, hle⟩, hnot⟩
    exact ⟨hle, hmem, fun h => hnot ⟨h, hle⟩⟩
  · rintro ⟨hle, hmem, hnot⟩
    exact ⟨lt_bits_of_le hle, ⟨hmem, hle⟩, fun h => hnot h.1⟩

theorem join_union {l r : NumberFile (2 ^ 31 - 1)} (hl : fs left = some l.text)
    (hr : fs right = some r.text) :
    ∃ result, join fs [(left, .BITMAP_SET), (right, .BITMAP_SET)] = some result ∧
      Prints result.stdout fun x => x ≤ MAX_ELEMENT ∧ (x ∈ l.numbers ∨ x ∈ r.numbers) := by
  have hjobs : ∀ job ∈ [Job.mk left .BITMAP_SET l, ⟨right, .BITMAP_SET, r⟩], fs job.filename =
      some job.file.text := by
    simp [hl, hr]
  obtain ⟨result, hrun, hprints⟩ := join_eq hjobs
  refine ⟨result, hrun, hprints.congr fun x => ?_⟩
  simp only [bitAfter, iterate_set, Bool.false_or, Bool.or_eq_true, decide_eq_true_iff, ne_eq,
    NumberFile.count_eq_zero, not_not]
  constructor
  · rintro ⟨-, ⟨hmem, hle⟩ | ⟨hmem, hle⟩⟩
    · exact ⟨hle, .inl hmem⟩
    · exact ⟨hle, .inr hmem⟩
  · rintro ⟨hle, hmem | hmem⟩
    · exact ⟨lt_bits_of_le hle, .inl ⟨hmem, hle⟩⟩
    · exact ⟨lt_bits_of_le hle, .inr ⟨hmem, hle⟩⟩

theorem join_reversed {l r : NumberFile (2 ^ 31 - 1)} (hl : fs left = some l.text)
    (hr : fs right = some r.text) :
    ∃ result, join fs [(left, .BITMAP_SET), (right, .BITMAP_CLR), (left, .BITMAP_REVERSE)] =
      some result ∧
      Prints result.stdout fun x => x ≤ MAX_ELEMENT ∧ x ∈ l.numbers ∧
        (x ∈ r.numbers ↔ (counted l.handled).count x % 2 = 1) := by
  have hjobs :
      ∀ job ∈ [Job.mk left .BITMAP_SET l, ⟨right, .BITMAP_CLR, r⟩, ⟨left, .BITMAP_REVERSE, l⟩],
        fs job.filename = some job.file.text := by
    simp [hl, hr]
  obtain ⟨result, hrun, hprints⟩ := join_eq hjobs
  refine ⟨result, hrun, hprints.congr fun x => ?_⟩
  simp only [bitAfter, iterate_set, iterate_clr, iterate_reverse, Bool.false_or]
  by_cases hmem : x ∈ l.numbers ∧ x ≤ MAX_ELEMENT
  · have hset : (counted l.handled).count x ≠ 0 := mt l.count_eq_zero.mp (not_not.mpr hmem)
    have hclr : (counted r.handled).count x = 0 ↔ x ∉ r.numbers := by
      rw [r.count_eq_zero]
      simp [hmem.2]
    by_cases hin : x ∈ r.numbers
    · simp [hset, hclr, hmem, lt_bits_of_le hmem.2, hin]
    · simp [hset, hclr, hmem, lt_bits_of_le hmem.2, hin]
  · rw [l.count_eq_zero.mpr hmem]
    constructor
    · rintro ⟨-, hbit⟩
      simp at hbit
    · rintro ⟨hle, hin, -⟩
      exact absurd ⟨hin, hle⟩ hmem

theorem main_inner (argv₀ : List UInt8) :
    main fs [argv₀, JOIN_TYPE_INNER, left, right] =
      join fs [(left, .BITMAP_SET), (right, .BITMAP_CLR), (left, .BITMAP_REVERSE)] := by
  have hinner : juStrncmp JOIN_TYPE_INNER JOIN_TYPE_INNER = true := by decide
  simp only [main, hinner, ↓reduceIte]

end Two

theorem MAX_ELEMENT_le : MAX_ELEMENT ≤ 2 ^ 31 - 1 := by
  rw [MAX_ELEMENT]
  omega

def open2 : NumberFile MAX_ELEMENT := ⟨[1], 2, false, by decide, by decide⟩

def terminated1 : NumberFile MAX_ELEMENT := ⟨[], 1, true, by decide, by decide⟩

theorem text_terminated1 : terminated1.text = ascii "1\n" := by
  rw [NumberFile.text, numeral]
  rfl

def twoFiles : FileSystem :=
  fun name => some (if name = ascii "a" then open2.text else terminated1.text)

theorem joins_print {fs : FileSystem} {left right : List UInt8} {l r : NumberFile (2 ^ 31 - 1)}
    (hl : fs left = some l.text) (hr : fs right = some r.text) (argv₀ : List UInt8) :
    (∃ result, main fs [argv₀, JOIN_TYPE_LEFT, left, right] = some result ∧
      Prints result.stdout fun x => x ≤ MAX_ELEMENT ∧ x ∈ l.numbers ∧ x ∉ r.numbers) ∧
    (∃ result, main fs [argv₀, JOIN_TYPE_RIGHT, left, right] = some result ∧
      Prints result.stdout fun x => x ≤ MAX_ELEMENT ∧ x ∈ r.numbers ∧ x ∉ l.numbers) ∧
    ∃ result, main fs [argv₀, JOIN_TYPE_OUTER, left, right] = some result ∧
      Prints result.stdout fun x => x ≤ MAX_ELEMENT ∧ (x ∈ l.numbers ∨ x ∈ r.numbers) := by
  rw [main_left, main_right, main_outer]
  exact ⟨join_difference hl hr, join_difference hr hl, join_union hl hr⟩

theorem joins_open2 :
    ∃ result, main twoFiles [ascii "join", JOIN_TYPE_LEFT, ascii "a", ascii "b"] = some result ∧
      Prints result.stdout fun x => x ≤ MAX_ELEMENT ∧ x ∈ open2.numbers ∧
      x ∉ terminated1.numbers := by
  have ha : twoFiles (ascii "a") = some (open2.widen MAX_ELEMENT_le).text := rfl
  have hb : twoFiles (ascii "b") = some (terminated1.widen MAX_ELEMENT_le).text := rfl
  exact (joins_print ha hb (ascii "join")).1

theorem NumberFile.counted_handled (f : NumberFile MAX_ELEMENT) :
    counted f.handled = f.handled := by
  apply List.filter_eq_self.mpr
  intro x hx
  exact decide_eq_true (f.le_of_mem (f.mem_handled.mp hx))

theorem inner_join_prints_iff {fs : FileSystem} {left right : List UInt8}
    {l r : NumberFile MAX_ELEMENT} (hl : fs left = some l.text) (hr : fs right = some r.text)
    (argv₀ : List UInt8) :
    ∃ result, main fs [argv₀, JOIN_TYPE_INNER, left, right] = some result ∧
      (Prints result.stdout (fun x => x ∈ l.numbers ∧ x ∈ r.numbers) ↔
        ∀ x ∈ l.numbers, l.handled.count x % 2 = 1) := by
  have hl' : fs left = some (l.widen MAX_ELEMENT_le).text := hl
  have hr' : fs right = some (r.widen MAX_ELEMENT_le).text := hr
  obtain ⟨result, hrun, hprints⟩ := join_reversed hl' hr'
  have hodd : ∀ x, x ∈ result.stdout ↔
      x ≤ MAX_ELEMENT ∧ x ∈ l.numbers ∧ (x ∈ r.numbers ↔ l.handled.count x % 2 = 1) := by
    intro x
    have h := hprints.exact x
    rwa [show (l.widen MAX_ELEMENT_le).handled = l.handled from rfl, l.counted_handled] at h
  refine ⟨result, by rw [main_inner, hrun], ?_⟩
  constructor
  · intro hinter x hx
    have hle := l.le_of_mem hx
    have hsame := (hodd x).symm.trans (hinter.exact x)
    by_cases hxr : x ∈ r.numbers
    · exact (hsame.mpr ⟨hx, hxr⟩).2.2.mp hxr
    · by_contra heven
      exact hxr (hsame.mp ⟨hle, hx, iff_of_false hxr heven⟩).2
  · intro hall
    refine ⟨hprints.ascending, fun x => (hodd x).trans ?_⟩
    constructor
    · rintro ⟨-, hx, hiff⟩
      exact ⟨hx, hiff.mpr (hall x hx)⟩
    · rintro ⟨hx, hxr⟩
      exact ⟨l.le_of_mem hx, hx, iff_of_true hxr (hall x hx)⟩

theorem inner_join_open2 :
    ∃ result, main twoFiles [ascii "join", JOIN_TYPE_INNER, ascii "a", ascii "b"] = some result ∧
      Prints result.stdout fun x => x ∈ open2.numbers ∧ x ∈ terminated1.numbers := by
  have ha : twoFiles (ascii "a") = some open2.text := rfl
  have hb : twoFiles (ascii "b") = some terminated1.text := rfl
  obtain ⟨result, hrun, hiff⟩ := inner_join_prints_iff ha hb (ascii "join")
  exact ⟨result, hrun, hiff.mpr (by decide)⟩

theorem inner_join_loses_last :
    ∃ result, main (fun _ => some (ascii "1\n")) [ascii "join", JOIN_TYPE_INNER, ascii "a",
      ascii "b"] = some result ∧
      1 ∉ result.stdout := by
  have hfile : (fun _ => some (ascii "1\n") : FileSystem) (ascii "a") =
      some (terminated1.widen MAX_ELEMENT_le).text := congrArg some text_terminated1.symm
  obtain ⟨result, hrun, hprints⟩ := join_reversed hfile hfile
  refine ⟨result, by rw [main_inner]; exact hrun, ?_⟩
  rw [hprints.exact]
  rintro ⟨-, -, hiff⟩
  exact absurd (hiff.mp (by decide)) (by decide)

end AnalysisPrograms.Join
