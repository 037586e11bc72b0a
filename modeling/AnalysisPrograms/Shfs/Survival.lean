import AnalysisPrograms.Shfs.CheckedParsing
import AnalysisPrograms.Shfs.Method
import AnalysisPrograms.Shfs.SmallServer

namespace AnalysisPrograms.Shfs

open Foundations Bytes

variable {data : ℕ → UInt8} {bytes : List UInt8} {limit : ℕ}

theorem Terminated.byte (h : Terminated data bytes) {k : ℕ} (hk : k < bytes.length) :
    data k = bytes[k] := by
  have hget := congrArg (fun l => l[k]?) h.received
  simp only [Bytes.slice, List.getElem?_map, List.getElem?_range hk, Option.map_some, Nat.zero_add,
    List.getElem?_eq_getElem hk, Option.some.injEq] at hget
  exact hget

def FileNameEnds (bytes : List UInt8) : Prop :=
  ∃ front b rest, bytes = front ++ b :: rest ∧ (∀ c ∈ front, c ≠ CR ∧ c ≠ SLASH) ∧
    (b = CR ∨ (b = SLASH ∧ ∃ c ∈ rest, c = CR ∨ c = SPACE))

theorem fileNameEnds_of_parseFile (h : Terminated data bytes) {found : Option (ℕ × ℕ)}
    (hfound : parseFile data (bytes.length + 1) = some found) : FileNameEnds bytes := by
  -- the NUL at the end stops neither loop
  have inside {stop : UInt8 → Bool} {room i j : ℕ} (hs : scan stop data room i = some j)
      (hroom : i + room = bytes.length + 1) (hnul : stop 0 = false) : j < bytes.length := by
    have hlt := scan_lt hs
    have hne : j ≠ bytes.length := by
      rintro rfl
      have hstop := (scan_spec hs).2.1
      rw [h.nul, hnul] at hstop
      cases hstop
    omega
  obtain ⟨start, hstart, -⟩ := Option.bind_eq_some_iff.mp hfound
  obtain ⟨slash, hslash, -⟩ := Option.bind_eq_some_iff.mp hstart
  obtain ⟨-, hstop, hbefore⟩ := scan_spec hslash
  have hs : slash < bytes.length := inside hslash (by omega) rfl
  refine ⟨bytes.take slash, bytes[slash], bytes.drop (slash + 1), ?_, ?_, ?_⟩
  · rw [← List.drop_eq_getElem_cons hs, List.take_append_drop]
  · intro c hc
    obtain ⟨x, hx, rfl⟩ := List.mem_take_iff_getElem.mp hc
    have hno := hbefore x (Nat.zero_le x) (by omega)
    rw [h.byte (by omega)] at hno
    simpa using hno
  · rw [← h.byte hs]
    by_cases hd : data slash = SLASH
    · rw [parseFile_slash hslash hd] at hfound
      obtain ⟨stop, hscan, -⟩ := Option.bind_eq_some_iff.mp hfound
      obtain ⟨hle, hend, -⟩ := scan_spec hscan
      have hlt : stop < bytes.length := inside hscan (by omega) rfl
      have hne : stop ≠ slash := by
        rintro rfl
        rw [hd] at hend
        cases hend
      refine .inr ⟨hd, data stop, ?_, by simpa using hend⟩
      rw [h.byte hlt]
      exact List.mem_drop_iff_getElem.mpr ⟨stop - (slash + 1), by omega, by congr 1; omega⟩
    · have hcr : data slash = CR ∨ data slash = SLASH := by simpa using hstop
      exact .inl (hcr.resolve_right hd)

theorem parseFile_of_fileNameEnds (h : Terminated data bytes) (hends : FileNameEnds bytes) :
    ∃ found, parseFile data (bytes.length + 1) = some found := by
  obtain ⟨front, b, rest, rfl, hfront, hb⟩ := hends
  have hlen : (front ++ b :: rest).length = front.length + 1 + rest.length := by
    rw [List.length_append, List.length_cons]
    omega
  have hat : data front.length = b := by
    rw [h.byte (by omega), List.getElem_append_right le_rfl]
    simp
  have hstop : (decide (data front.length = CR) || decide (data front.length = SLASH)) = true := by
    rw [hat]
    rcases hb with rfl | ⟨rfl, -⟩
    · rfl
    · rfl
  obtain ⟨slash, hslash, hle⟩ :=
    scan_reaches (fun b => b = CR || b = SLASH) (Nat.zero_le front.length)
      (show front.length < 0 + ((front ++ b :: rest).length + 1) by omega) hstop
  obtain rfl : slash = front.length := by
    by_contra hne
    obtain ⟨-, hfound, -⟩ := scan_spec hslash
    have hlt : slash < front.length := by omega
    rw [h.byte (by omega), List.getElem_append_left hlt] at hfound
    obtain ⟨hcr, hsl⟩ := hfront _ (List.getElem_mem hlt)
    simp [hcr, hsl] at hfound
  rcases hb with hcr | ⟨hsl, c, hc, hce⟩
  · refine ⟨none, parseFile_other hslash ?_⟩
    rw [hat, hcr]
    decide
  · rw [parseFile_slash hslash (hat.trans hsl)]
    obtain ⟨y, hy, rfl⟩ := List.getElem_of_mem hc
    have hget : data (front.length + 1 + y) = rest[y] := by
      rw [h.byte (by omega), List.getElem_append_right (by omega)]
      simp [show front.length + 1 + y - front.length = y + 1 by omega]
    obtain ⟨stop, hscan, -⟩ := scan_reaches (fun b => b = CR || b = SPACE)
      (show front.length ≤ front.length + 1 + y by omega)
      (show front.length + 1 + y < front.length +
        ((front ++ b :: rest).length + 1 - front.length) by omega)
      (show (decide (data (front.length + 1 + y) = CR) ||
        decide (data (front.length + 1 + y) = SPACE)) = true by
        rw [hget]
        simpa using hce)
    rw [hscan, Option.bind_some]
    split_ifs <;> exact ⟨_, rfl⟩

theorem head?_of_empty_token (htoken : token bytes = []) (hline : requestLine bytes ≠ []) :
    bytes.head? = some SPACE := by
  cases bytes with
  | nil => exact absurd rfl hline
  | cons b rest =>
    rw [token, List.takeWhile_cons] at htoken
    rw [requestLine, List.takeWhile_cons] at hline
    split_ifs at htoken hline with hstop hfirst
    · simp only [Bool.not_eq_true', Bool.or_eq_false_iff, decide_eq_false_iff_not, not_and,
        not_not] at hstop hfirst
      exact congrArg some (hstop ⟨hfirst.2, hfirst.1⟩)
    · exact absurd rfl hline

theorem parseMethod_cases (h : Terminated data bytes) (hcap : bytes.length < limit)
    (requ : HttpRequ) :
    (bytes.head? = some SPACE ∧ parseMethod data limit requ = none) ∨
      (bytes.head? ≠ some SPACE ∧ strHash (token bytes) ≠ some RM_HTTP_GET ∧
        parseMethod data limit requ = some none) ∨
      (bytes.head? ≠ some SPACE ∧ strHash (token bytes) = some RM_HTTP_GET ∧
        parseMethod data limit requ =
          some (some ((requestLine bytes).length, { requ with mRequMethod := RM_HTTP_GET }))) := by
  by_cases htoken : token bytes = []
  · have hhash : strHash (token bytes) = none := by rw [htoken]; rfl
    have hline := h.scan hcap (fun b => b = 0 || b = CR) rfl
    have hitem := h.scan hcap (fun b => b = CR || b = 0 || b = SPACE) rfl
    rw [← requestLine] at hline
    rw [← token, htoken] at hitem
    by_cases hempty : requestLine bytes = []
    · right
      left
      refine ⟨?_, by rw [hhash]; exact (Option.some_ne_none _).symm, ?_⟩
      · intro hhead
        obtain ⟨rest, rfl⟩ := List.head?_eq_some_iff.mp hhead
        cases hempty
      · simp only [parseMethod, hline, hempty, List.length_nil, Option.bind_eq_bind,
          Option.bind_some, ↓reduceIte]
    · -- the line is not empty and its token is
      left
      refine ⟨head?_of_empty_token htoken hempty, ?_⟩
      have hpos : ¬(requestLine bytes).length = 0 := mt List.length_eq_zero_iff.mp hempty
      simp only [parseMethod, hline, hitem, hpos, Option.bind_eq_bind, Option.bind_some, ↓reduceIte,
        List.length_nil, slice_zero]
      rfl
  · right
    have hspace : bytes.head? ≠ some SPACE := by
      intro hhead
      obtain ⟨rest, rfl⟩ := List.head?_eq_some_iff.mp hhead
      exact htoken rfl
    have hplain : 0 ∉ token bytes := fun hmem => (mem_token hmem).2.1 rfl
    rw [parseMethod_eq h hcap htoken, strHash_eq htoken hplain]
    by_cases hget : MachineInt.toInt32 (baseValue (token bytes)) = RM_HTTP_GET
    · exact .inr ⟨hspace, congrArg some hget, by rw [if_pos hget]⟩
    · exact .inl ⟨hspace, mt Option.some.inj hget, by rw [if_neg hget]⟩

def Survivable (bytes : List UInt8) : Prop :=
  bytes.head? ≠ some SPACE ∧ (strHash (token bytes) = some RM_HTTP_GET → FileNameEnds bytes)

def Survives (srv : Server) (data : ℕ → UInt8) (mSize : ℕ) (requ : HttpRequ) : Prop :=
  ∃ requ' found, parseRequIn srv data (mSize + 1) requ = some (requ', found) ∧
    ∀ item, found = some item → item.head? = some SLASH ∧ 1 ≤ item.length ∧ item.length ≤ 128

theorem handle_http_requ_survives_iff (srv : Server) (bytes : List UInt8) (data : ℕ → UInt8)
    (requ : HttpRequ) (h : Terminated data bytes) :
    Survives srv data bytes.length requ ↔ Survivable bytes := by
  unfold Survives Survivable
  rcases parseMethod_cases h (Nat.lt_succ_self _) requ
    with ⟨hhead, hm⟩ | ⟨hhead, hhash, hm⟩ | ⟨hhead, hhash, hm⟩
  · refine iff_of_false ?_ fun hs => hs.1 hhead
    rintro ⟨requ', found, hp, -⟩
    rw [parseRequIn, hm] at hp
    cases hp
  · refine iff_of_true ⟨requ, none, ?_, nofun⟩ ⟨hhead, fun hg => absurd hg hhash⟩
    rw [parseRequIn, hm]
    rfl
  · constructor
    · rintro ⟨requ', found, hp, -⟩
      refine ⟨hhead, fun _ => ?_⟩
      rw [parseRequIn, hm, Option.bind_eq_bind, Option.bind_some] at hp
      obtain ⟨file, hfile, -⟩ := Option.bind_eq_some_iff.mp hp
      exact fileNameEnds_of_parseFile h hfile
    · rintro ⟨-, hends⟩
      obtain ⟨file, hfile⟩ := parseFile_of_fileNameEnds h (hends hhash)
      have hline : (requestLine bytes).length ≤ bytes.length := (List.takeWhile_prefix _).length_le
      obtain ⟨range, hrange⟩ := parseRangeIn_isSome srv h hline
      rw [parseRequIn, hm, Option.bind_eq_bind, Option.bind_some]
      dsimp only
      rw [hfile, Option.bind_eq_bind, Option.bind_some]
      rcases file with _ | ⟨item, itemLen⟩
      · exact ⟨_, none, rfl, nofun⟩
      · dsimp only
        rw [hrange, Option.bind_eq_bind, Option.bind_some]
        obtain ⟨-, hslash, -, hpos, hmax⟩ := parseFile_found hfile
        rcases range with _ | rangeB
        · exact ⟨_, none, rfl, nofun⟩
        · refine ⟨_, _, rfl, ?_⟩
          intro _ hitem
          obtain rfl := Option.some.inj hitem
          obtain ⟨n, rfl⟩ : ∃ n, itemLen = n + 1 := ⟨itemLen - 1, by omega⟩
          rw [length_slice, slice_succ, hslash]
          exact ⟨rfl, hpos, hmax⟩

theorem handle_http_requ_survives_index :
    Survives (oneFile hello) (memoryOf (text "GET /index.html HTTP/1.1\r\n")) 26 ⟨0, 0⟩ := by
  have hends : FileNameEnds (text "GET /index.html HTTP/1.1\r\n") := by
    refine ⟨text "GET ", SLASH,
      text "index.html HTTP/1.1\r\n", by decide, ?_, .inr ⟨rfl, SPACE, by decide, .inr rfl⟩⟩
    intro c hc
    have hall : (text "GET ").all (fun c => decide (c ≠ CR ∧ c ≠ SLASH)) = true := by decide
    exact of_decide_eq_true (List.all_eq_true.mp hall c hc)
  exact (handle_http_requ_survives_iff _ _ _ _ (terminated_memoryOf _)).mpr
    ⟨by decide, fun _ => hends⟩

theorem request_cut_short_read_behind :
    ¬Survives (oneFile hello) (memoryOf (text "GET /index.html")) 15 ⟨0, 0⟩ := by
  rintro ⟨requ, found, h, -⟩
  have hnone : (parseRequIn (oneFile hello) (memoryOf (text "GET /index.html")) 16 ⟨0, 0⟩).isNone =
      true := by
    decide
  rw [h] at hnone
  cases hnone

end AnalysisPrograms.Shfs
