import Mathlib.Data.List.Forall2
import AnalysisPrograms.Foundations.Codes
import AnalysisPrograms.Foundations.Segments

namespace AnalysisPrograms.Cathex

open Foundations Codes Segments

def BUF_SIZE : ℕ := 4096

def printOffset (n : UInt32) : List Char := digits (fun d => (Nat.digitChar d).toUpper) 16 8 n.toNat

def printByte (b : UInt8) : List Char := ' ' :: digits Nat.digitChar 16 2 b.toNat

def printBytes (p : List UInt8) (seg16 : ℤ) : ℕ → ℤ → Option (List Char)
  | 0, _ => some []
  | room + 1, i => do
    let b ← readAt p (seg16 + i)
    let text ← printBytes p seg16 room (i + 1)
    some (printByte b ++ text)

def dumpLoop (p : List UInt8) : ℕ → ℤ → ℤ → Option (List Char)
  | 0, _, _ => none
  | fuel + 1, seg16, segsize =>
    if segsize > 0 then do
      let max := if segsize > 16 then 16 else segsize
      let bytes ← printBytes p seg16 max.toNat 0
      let text ← dumpLoop p fuel (seg16 + 16) (segsize - 16)
      some (printOffset (UInt32.ofInt seg16) ++ ':' :: bytes ++ ['\n'] ++ text)
    else some []

def dumpMem (p : List UInt8) (size : ℤ) : Option (List Char) := dumpLoop p (size.toNat + 1) 0 size

def read (delivered : Option (List UInt8)) (buf : List UInt8) : ℤ × List UInt8 :=
  match delivered with
  | none => (-1, buf)
  | some piece => (piece.length, piece ++ buf.drop piece.length)

/-- After the reads that are given the file is at its end. -/
def readLoop : List (Option (List UInt8)) → List UInt8 → Option (List Char)
  | [], _ => some []
  | delivered :: reads, buf =>
    let (current_read_size, buf) := read delivered buf
    if current_read_size ≤ 0 then some []
    else do
      let dump ← dumpMem buf current_read_size
      let text ← readLoop reads buf
      some (dump ++ text)

structure Result where
  rslt : ℤ
  stdout : List Char
  stderr : List Char

def fakeMain (filename : String) (fd : ℤ) (buf : List UInt8) (reads : List (Option (List UInt8))) :
    Option Result :=
  if -1 = fd then some ⟨-1, [], "open file ".toList ++ filename.toList ++ " failed\n".toList⟩
  else do
    let text ← readLoop reads buf
    some ⟨0, text, []⟩

structure Row where
  offset : UInt32
  bytes : List UInt8

def rowLine (r : Row) : List Char := printOffset r.offset ++ ':' :: r.bytes.flatMap printByte

def rowText (r : Row) : List Char := rowLine r ++ ['\n']

section Reading

theorem toUpper_digitChar_inj :
    ∀ d e, d < 16 → e < 16 → (Nat.digitChar d).toUpper = (Nat.digitChar e).toUpper → d = e := by
  have hall : ∀ d, d < 16 → ∀ e, e < 16 → (Nat.digitChar d).toUpper = (Nat.digitChar e).toUpper →
    d = e := by decide
  exact fun d e hd he => hall d hd e he

theorem digitChar_inj : ∀ d e, d < 16 → e < 16 → Nat.digitChar d = Nat.digitChar e → d = e :=
  fun d e hd he h => toUpper_digitChar_inj d e hd he (congrArg Char.toUpper h)

theorem newline_ne_digitChar :
    ∀ d, d < 16 → '\n' ≠ (Nat.digitChar d).toUpper ∧ '\n' ≠ Nat.digitChar d := by decide

theorem printOffset_injective : Function.Injective printOffset := by
  intro n k h
  exact UInt32.toNat_inj.mp (digits_inj toUpper_digitChar_inj (by decide) n.toNat_lt k.toNat_lt h)

theorem selfDelimiting_printByte : SelfDelimiting printByte := by
  have hlen : ∀ b, (printByte b).length = 3 := by
    intro b
    rw [printByte, List.length_cons, length_digits]
  apply selfDelimiting_of_length hlen
  intro b c h
  exact UInt8.toNat_inj.mp
    (digits_inj digitChar_inj (by decide) b.toNat_lt c.toNat_lt (List.cons.inj h).2)

theorem rowLine_injective : Function.Injective rowLine := by
  intro r q h
  obtain ⟨hoffset, hbytes⟩ :=
    List.append_inj h (by rw [printOffset, printOffset, length_digits, length_digits])
  have hr := printOffset_injective hoffset
  have hq := selfDelimiting_printByte.flatMap_injective (fun b => List.cons_ne_nil _ _)
    (List.cons.inj hbytes).2
  cases r
  cases q
  cases hr
  cases hq
  rfl

theorem newline_notMem_rowLine (r : Row) : '\n' ∉ rowLine r := by
  intro h
  rcases List.mem_append.mp h with h | h
  · obtain ⟨d, hd, heq⟩ := exists_of_mem_digits (by decide) h
    exact (newline_ne_digitChar d hd).1 heq
  · rcases List.mem_cons.mp h with h | h
    · exact absurd h (by decide)
    · obtain ⟨b, -, hb⟩ := List.mem_flatMap.mp h
      rcases List.mem_cons.mp hb with hb | hb
      · exact absurd hb (by decide)
      · obtain ⟨d, hd, heq⟩ := exists_of_mem_digits (by decide) hb
        exact (newline_ne_digitChar d hd).2 heq

theorem rows_injective : Function.Injective fun rows : List Row => rows.flatMap rowText :=
  (selfDelimiting_of_stop newline_notMem_rowLine rowLine_injective).flatMap_injective
    fun _ => List.append_ne_nil_of_right_ne_nil _ (List.cons_ne_nil _ _)

end Reading

def LabelledFrom : ℕ → List Row → Prop
  | _, [] => True
  | start, r :: rows =>
    r.bytes ≠ [] ∧ r.offset.toNat = start ∧ LabelledFrom (start + r.bytes.length) rows

def LabelsFrom (start : ℕ) (bytes : List UInt8) (text : List Char) : Prop :=
  ∃ rows : List Row, text = rows.flatMap rowText ∧ rows.flatMap Row.bytes = bytes ∧
    LabelledFrom start rows

/-- The text shows every byte of the file once and in order, in rows labelled with their
positions. -/
def Labels (file : List UInt8) (text : List Char) : Prop := LabelsFrom 0 file text

theorem labelledFrom_append {start : ℕ} {rows rest : List Row} :
    LabelledFrom start (rows ++ rest) ↔
      LabelledFrom start rows ∧ LabelledFrom (start + (rows.flatMap Row.bytes).length) rest := by
  induction rows generalizing start with
  | nil => exact ⟨fun h => ⟨trivial, h⟩, fun h => h.2⟩
  | cons r rows ih =>
    rw [List.cons_append, LabelledFrom, LabelledFrom, ih, List.flatMap_cons, List.length_append,
      Nat.add_assoc, and_assoc, and_assoc]

theorem labelsFrom_nil (start : ℕ) : LabelsFrom start [] [] := ⟨[], rfl, rfl, trivial⟩

theorem LabelsFrom.cons {start : ℕ} {r : Row} {bytes : List UInt8} {text : List Char}
    (hne : r.bytes ≠ []) (hoffset : r.offset.toNat = start)
    (h : LabelsFrom (start + r.bytes.length) bytes text) :
    LabelsFrom start (r.bytes ++ bytes) (rowText r ++ text) := by
  obtain ⟨rows, rfl, rfl, hrows⟩ := h
  exact ⟨r :: rows, rfl, rfl, hne, hoffset, hrows⟩

section Dump

variable {p : List UInt8}

theorem printBytes_eq {seg16 i : ℕ} (room : ℕ) (hfit : seg16 + i + room ≤ p.length) :
    printBytes p seg16 room i = some (((p.drop (seg16 + i)).take room).flatMap printByte) := by
  induction room generalizing i with
  | zero => rfl
  | succ room ih =>
    have hlt : seg16 + i < p.length := by omega
    have hb : readAt p ((seg16 : ℤ) + i) = some p[seg16 + i] :=
      readAt_eq (List.getElem?_eq_getElem hlt)
    have hrest : printBytes p seg16 room ((i : ℤ) + 1) = _ :=
      ih (show seg16 + (i + 1) + room ≤ p.length by omega)
    rw [printBytes, hb, hrest, List.drop_eq_getElem_cons hlt, List.take_succ_cons,
      List.flatMap_cons]
    rfl

theorem dumpLoop_done (p : List UInt8) (fuel : ℕ) (seg16 : ℤ) {segsize : ℤ} (h : segsize ≤ 0) :
    dumpLoop p (fuel + 1) seg16 segsize = some [] := by
  rw [dumpLoop, if_neg (by omega)]

theorem dumpLoop_row {seg16 segsize width fuel : ℕ} (hpos : 0 < segsize)
    (hwidth : width = min 16 segsize) (hfit : seg16 + segsize ≤ p.length) {text : List Char}
    (hrest : dumpLoop p fuel (seg16 + 16) (segsize - 16) = some text) :
    dumpLoop p (fuel + 1) seg16 segsize =
      some (rowText ⟨UInt32.ofInt seg16, (p.drop seg16).take width⟩ ++ text) := by
  have hmax : (if (segsize : ℤ) > 16 then 16 else (segsize : ℤ)).toNat = width := by
    split
    · omega
    · omega
  have hbytes : printBytes p seg16 width 0 = _ := printBytes_eq (i := 0) width (by omega)
  rw [dumpLoop, if_pos (by omega)]
  dsimp only
  rw [hmax, hbytes, hrest]
  rfl

theorem toNat_ofInt_natCast {n : ℕ} (hn : n < 2 ^ 32) : (UInt32.ofInt n).toNat = n := by
  rw [UInt32.ofInt, UInt32.toNat_ofNat_of_lt' (show _ < 2 ^ 32 by omega)]
  omega

theorem dumpLoop_labels (hp : p.length < 2 ^ 32) {fuel seg16 segsize : ℕ} (hfuel : segsize < fuel)
    (hfit : seg16 + segsize ≤ p.length) :
    ∃ text, dumpLoop p fuel seg16 segsize = some text ∧
      LabelsFrom seg16 ((p.drop seg16).take segsize) text := by
  induction fuel generalizing seg16 segsize with
  | zero => omega
  | succ fuel ih =>
    by_cases hzero : segsize = 0
    · subst hzero
      exact ⟨[], dumpLoop_done p fuel seg16 (Int.le_refl 0), labelsFrom_nil seg16⟩
    have hoffset := toNat_ofInt_natCast (show seg16 < 2 ^ 32 by omega)
    have hlen : ∀ width, width ≤ segsize → ((p.drop seg16).take width).length = width := by
      intro width hle
      rw [List.length_take, List.length_drop]
      omega
    by_cases hlast : segsize ≤ 16
    · obtain ⟨fuel, rfl⟩ := Nat.exists_eq_add_one_of_ne_zero (show fuel ≠ 0 by omega)
      have hwidth : segsize = min 16 segsize := by omega
      refine ⟨_, dumpLoop_row (by omega) hwidth hfit (dumpLoop_done p fuel _ (by omega)), ?_⟩
      have hne : (p.drop seg16).take segsize ≠ [] :=
        List.ne_nil_of_length_pos (by rw [hlen segsize (Nat.le_refl _)]; omega)
      have hrow : LabelsFrom seg16 ((p.drop seg16).take segsize ++ []) _ :=
        .cons (r := ⟨_, _⟩) hne hoffset (labelsFrom_nil _)
      rw [List.append_nil] at hrow
      exact hrow
    · obtain ⟨text, hrest, hlabels⟩ :=
        ih (show segsize - 16 < fuel by omega)
          (show seg16 + 16 + (segsize - 16) ≤ p.length by omega)
      have hsplit : (p.drop seg16).take segsize =
          (p.drop seg16).take 16 ++ (p.drop (seg16 + 16)).take (segsize - 16) := by
        rw [← List.drop_drop, ← List.take_add, Nat.add_sub_cancel' (by omega)]
      have hne : (p.drop seg16).take 16 ≠ [] :=
        List.ne_nil_of_length_pos (by rw [hlen 16 (by omega)]; omega)
      rw [Int.natCast_add, Int.natCast_sub (by omega)] at hrest
      have hwidth : 16 = min 16 segsize := by omega
      refine ⟨_, dumpLoop_row (by omega) hwidth hfit hrest, ?_⟩
      rw [hsplit]
      apply LabelsFrom.cons (r := ⟨_, _⟩) hne hoffset
      rwa [hlen 16 (by omega)]

theorem dumpMem_labels (hp : p.length < 2 ^ 32) {size : ℕ} (hfit : size ≤ p.length) :
    ∃ text, dumpMem p size = some text ∧ Labels (p.take size) text := by
  have hloop : ∃ text, dumpLoop p (size + 1) (0 : ℕ) size = some text ∧
      LabelsFrom 0 ((p.drop 0).take size) text :=
    dumpLoop_labels hp (Nat.lt_succ_self size) (by omega)
  exact hloop

end Dump

theorem readLoop_labels {pieces : List (List UInt8)} (hne : ∀ piece ∈ pieces, piece ≠ [])
    (hfits : ∀ piece ∈ pieces, piece.length ≤ BUF_SIZE) {buf : List UInt8}
    (hbuf : buf.length = BUF_SIZE) :
    ∃ texts, readLoop (pieces.map some) buf = some texts.flatten ∧
      List.Forall₂ Labels pieces texts := by
  induction pieces generalizing buf with
  | nil => exact ⟨[], rfl, .nil⟩
  | cons piece pieces ih =>
    have hle := hfits piece List.mem_cons_self
    have hpos := List.length_pos_iff.mpr (hne piece List.mem_cons_self)
    have hlen : (piece ++ buf.drop piece.length).length = BUF_SIZE := by
      rw [List.length_append, List.length_drop, hbuf, Nat.add_sub_cancel' hle]
    obtain ⟨text, hdump, hlabels⟩ :=
      dumpMem_labels (p := piece ++ buf.drop piece.length) (by rw [hlen]; decide)
        (show piece.length ≤ _ by rwa [hlen])
    obtain ⟨texts, hrest, hall⟩ := ih (fun q hq => hne q (List.mem_cons_of_mem piece hq))
      (fun q hq => hfits q (List.mem_cons_of_mem piece hq)) hlen
    rw [List.take_left] at hlabels
    refine ⟨text :: texts, ?_, .cons hlabels hall⟩
    rw [List.map_cons, readLoop, read]
    dsimp only
    rw [if_neg (by omega), hdump, hrest]
    rfl

section Pieces

variable {file : List UInt8} {pieces : List (List UInt8)} {texts : List (List Char)}

theorem exists_rows (h : List.Forall₂ Labels pieces texts) :
    ∃ rows : List Row, texts.flatten = rows.flatMap rowText ∧
      rows.flatMap Row.bytes = pieces.flatten := by
  induction h with
  | nil => exact ⟨[], rfl, rfl⟩
  | cons hlabels _ ih =>
    obtain ⟨rows, htext, hbytes, -⟩ := hlabels
    obtain ⟨rest, htexts, hpieces⟩ := ih
    refine ⟨rows ++ rest, ?_, ?_⟩
    · rw [List.flatten_cons, htext, htexts, List.flatMap_append]
    · rw [List.flatMap_append, hbytes, hpieces, List.flatten_cons]

theorem Labels.first_row {piece : List UInt8} {text : List Char} (h : Labels piece text)
    (hne : piece ≠ []) :
    ∃ (r : Row) (rows : List Row), text = (r :: rows).flatMap rowText ∧ r.offset.toNat = 0 := by
  obtain ⟨rows, htext, hbytes, hlabelled⟩ := h
  cases rows with
  | nil => exact absurd hbytes.symm hne
  | cons r rows => exact ⟨r, rows, htext, hlabelled.2.1⟩

theorem labels_flatten_iff (hne : ∀ piece ∈ pieces, piece ≠ [])
    (h : List.Forall₂ Labels pieces texts) :
    Labels pieces.flatten texts.flatten ↔ pieces.length ≤ 1 := by
  cases h with
  | nil => exact iff_of_true (labelsFrom_nil 0) (Nat.zero_le 1)
  | cons hfirst h =>
    rename_i first text₁ pieces texts
    cases h with
    | nil =>
      rw [List.flatten_singleton, List.flatten_singleton]
      exact iff_of_true hfirst (Nat.le_refl 1)
    | cons hsecond hrest =>
      rename_i second text₂ pieces texts
      refine iff_of_false ?_ ?_
      · rintro ⟨rows, htext, -, hlabelled⟩
        obtain ⟨rows₁, htext₁, hbytes₁, -⟩ := hfirst
        obtain ⟨r, rows₂, htext₂, hzero⟩ :=
          hsecond.first_row (hne second (List.mem_cons_of_mem _ List.mem_cons_self))
        obtain ⟨rows₃, htext₃, -⟩ := exists_rows hrest
        obtain rfl : rows₁ ++ (r :: rows₂ ++ rows₃) = rows := by
          apply rows_injective
          change (rows₁ ++ (r :: rows₂ ++ rows₃)).flatMap rowText = rows.flatMap rowText
          rw [← htext, List.flatMap_append, List.flatMap_append, ← htext₁, ← htext₂, ← htext₃]
          rfl
        have hoffset := (labelledFrom_append.mp hlabelled).2.2.1
        rw [hbytes₁, hzero, Nat.zero_add] at hoffset
        exact hne first List.mem_cons_self (List.length_eq_zero_iff.mp hoffset.symm)
      · intro hle
        rw [List.length_cons, List.length_cons] at hle
        omega

structure Delivered (file : List UInt8) (pieces : List (List UInt8)) : Prop where
  flatten : pieces.flatten = file
  nonempty : ∀ piece ∈ pieces, piece ≠ []
  fits : ∀ piece ∈ pieces, piece.length ≤ BUF_SIZE
  full : ∀ piece ∈ pieces.dropLast, piece.length = BUF_SIZE

theorem Delivered.length_le_one_iff (h : Delivered file pieces) :
    pieces.length ≤ 1 ↔ file.length ≤ BUF_SIZE := by
  obtain ⟨rfl, hne, hfits, hfull⟩ := h
  match pieces with
  | [] => exact iff_of_true (Nat.zero_le 1) (Nat.zero_le BUF_SIZE)
  | [piece] =>
    rw [List.flatten_singleton]
    exact iff_of_true (Nat.le_refl 1) (hfits piece List.mem_cons_self)
  | first :: second :: pieces =>
    have hlen := hfull first List.mem_cons_self
    have hpos := List.length_pos_iff.mpr (hne second (List.mem_cons_of_mem _ List.mem_cons_self))
    refine iff_of_false ?_ ?_
    · rw [List.length_cons, List.length_cons]
      omega
    · rw [List.flatten_cons, List.flatten_cons, List.length_append, List.length_append]
      omega

theorem delivered_pair {first second : List UInt8} (hfirst : first.length = BUF_SIZE)
    (hne : second ≠ []) (hfits : second.length ≤ BUF_SIZE) :
    Delivered (first ++ second) [first, second] := by
  have hfirst_ne : first ≠ [] := List.ne_nil_of_length_pos (by rw [hfirst]; decide)
  refine ⟨?_, ?_, ?_, ?_⟩
  · rw [List.flatten_cons, List.flatten_singleton]
  · exact List.forall_mem_cons.mpr ⟨hfirst_ne, List.forall_mem_singleton.mpr hne⟩
  · exact List.forall_mem_cons.mpr ⟨Nat.le_of_eq hfirst, List.forall_mem_singleton.mpr hfits⟩
  · exact List.forall_mem_singleton.mpr hfirst

theorem fakeMain_texts (filename : String) {fd : ℤ} (hfd : fd ≠ -1) {buf : List UInt8}
    (hbuf : buf.length = BUF_SIZE) (h : Delivered file pieces) :
    ∃ texts, fakeMain filename fd buf (pieces.map some) = some ⟨0, texts.flatten, []⟩ ∧
      List.Forall₂ Labels pieces texts := by
  obtain ⟨texts, hrun, hall⟩ := readLoop_labels h.nonempty h.fits hbuf
  refine ⟨texts, ?_, hall⟩
  rw [fakeMain, if_neg hfd.symm, hrun]
  rfl

theorem fakeMain_bytes (filename : String) {fd : ℤ} (hfd : fd ≠ -1) {buf : List UInt8}
    (hbuf : buf.length = BUF_SIZE) (h : Delivered file pieces) :
    ∃ rows : List Row, fakeMain filename fd buf (pieces.map some) =
      some ⟨0, rows.flatMap rowText, []⟩ ∧
      rows.flatMap Row.bytes = file := by
  obtain ⟨texts, hrun, hall⟩ := fakeMain_texts filename hfd hbuf h
  obtain ⟨rows, htext, hbytes⟩ := exists_rows hall
  exact ⟨rows, htext ▸ hrun, hbytes.trans h.flatten⟩

end Pieces

theorem fakeMain_labels_iff (filename : String) (fd : ℤ) (hfd : fd ≠ -1) (buf : List UInt8)
    (hbuf : buf.length = BUF_SIZE) (file : List UInt8) (pieces : List (List UInt8))
    (h : Delivered file pieces) :
    (∃ out, fakeMain filename fd buf (pieces.map some) = some out ∧ Labels file out.stdout) ↔
      file.length ≤ BUF_SIZE := by
  obtain ⟨texts, hrun, hall⟩ := fakeMain_texts filename hfd hbuf h
  rw [← h.length_le_one_iff, ← labels_flatten_iff h.nonempty hall, h.flatten]
  constructor
  · rintro ⟨out, hout, hlabels⟩
    obtain rfl := Option.some.inj (hrun.symm.trans hout)
    exact hlabels
  · intro hlabels
    exact ⟨_, hrun, hlabels⟩

theorem short_file_labelled :
    ∃ out, fakeMain "notes" 3 (List.replicate BUF_SIZE 0) [some [104, 105, 10]] = some out ∧
      Labels [104, 105, 10] out.stdout :=
  (fakeMain_labels_iff "notes" 3 (by decide) (List.replicate BUF_SIZE 0)
    List.length_replicate [104, 105, 10] [[104, 105, 10]]
    ⟨rfl, by decide, by decide, by decide⟩).mpr (by decide)

theorem second_buffer_mislabelled :
    ∃ out, fakeMain "notes" 3 (List.replicate BUF_SIZE 0)
      [some (List.replicate BUF_SIZE 0), some [0]] = some out ∧
      ¬Labels (List.replicate BUF_SIZE 0 ++ [0]) out.stdout := by
  have hdelivered : Delivered (List.replicate BUF_SIZE 0 ++ [0]) [List.replicate BUF_SIZE 0, [0]] :=
    delivered_pair List.length_replicate (List.cons_ne_nil 0 []) (by decide)
  obtain ⟨texts, hrun, hall⟩ :=
    fakeMain_texts "notes" (show (3 : ℤ) ≠ -1 by decide) List.length_replicate hdelivered
  refine ⟨_, hrun, ?_⟩
  rw [← hdelivered.flatten, labels_flatten_iff hdelivered.nonempty hall]
  decide

end AnalysisPrograms.Cathex
