import AnalysisPrograms.Shfs.CheckedSearch
import AnalysisPrograms.Shfs.Parsing
import AnalysisPrograms.Shfs.Scanning

namespace AnalysisPrograms.Shfs

open Foundations Bytes

def boundedAt (data : ℕ → UInt8) (limit i : ℕ) : Option UInt8 :=
  if i < limit then some (data i) else none

def Literal.read {s : String} (l : Literal s) (j : ℤ) : Option UInt8 := some (l.view j)

def parseOffsetIn (srv : Server) (data : ℕ → UInt8) (lineLen limit : ℕ) : Option (Option ℤ) := do
  let rangeB ← findStringIn (boundedAt data limit) lineLen srv.bytes.read 5
  if rangeB < 0 then some none
  else
    let offset ← scan (fun b => isDigit b || b = 0) data (limit - rangeB.toNat) rangeB.toNat
    if data offset = 0 then some none
    else
      let stop ← scan (fun b => b ≠ 0) data (limit - offset) offset
      some (some (strToOffset (slice data offset (stop - offset))))

def parseRangeIn (srv : Server) (data : ℕ → UInt8) (lineLen limit : ℕ) : Option (Option ℤ) := do
  let rangeB ← findStringIn (boundedAt data limit) lineLen srv.upperRange.read 5
  let rangeB ←
    if rangeB = -1 then findStringIn (boundedAt data limit) lineLen srv.lowerRange.read 5
      else some rangeB
  if rangeB ≥ 0 then parseOffsetIn srv data lineLen limit else some (some 0)

/-- The parsing part of `handle_http_requ` on a buffer of which only the bytes below `limit` are
there; `none` is an access behind them, a failed assertion or a loop that goes on. -/
def parseRequIn (srv : Server) (data : ℕ → UInt8) (limit : ℕ) (requ : HttpRequ) :
    Option (HttpRequ × Option (List UInt8)) := do
  match ← parseMethod data limit requ with
  | none => some (requ, none)
  | some (lineLen, requ) =>
    match ← parseFile data limit with
    | none => some (requ, none)
    | some (item, itemLen) =>
      match ← parseRangeIn srv data lineLen limit with
      | none => some ({ requ with mRangeB := 0 }, none)
      | some rangeB => some ({ requ with mRangeB := rangeB }, some (slice data item itemLen))

section Literals

variable {s : String} {data : ℕ → UInt8} {limit lineLen turns : ℕ}

theorem Literal.view_ne_zero (l : Literal s) (hs : 0 ∉ text s) {k : ℕ} (hk : k < (text s).length) :
    l.view k ≠ 0 := by
  intro hzero
  have hmem :=
    mem_slice (fun k : ℕ => l.view k) (Nat.zero_le k) (show k < 0 + (text s).length by omega)
  rw [l.bytes, hzero] at hmem
  exact hs hmem

theorem compareIn_literal (l : Literal s) {left right : ℤ} (hright : -1 ≤ right)
    (h : right + 1 < turns) : compareIn l.read turns left right = some () := by
  induction turns generalizing left right with
  | zero => omega
  | succ turns ih =>
    rw [compareIn]
    split_ifs with hr
    · simp only [Literal.read, Option.bind_eq_bind, Option.bind_some]
      split_ifs
      · rfl
      · exact ih (by omega) (by omega)
    · rfl

theorem findMaxRepeatIn_literal (l : Literal s) (hs : 0 ∉ text s) {passLen : ℕ} (h : 1 < passLen)
    (hlt : passLen < (text s).length) : findMaxRepeatIn l.read passLen = some 0 := by
  have hall : ((List.range (passLen + 1)).all fun k => (l.read k).any (· ≠ 0)) = true := by
    rw [List.all_eq_true]
    intro k hk
    have hk' : k < passLen + 1 := List.mem_range.mp hk
    exact decide_eq_true (l.view_ne_zero hs (show k < (text s).length by omega))
  have hloop (maxLen : ℕ) : maxLenLoopIn l.read passLen maxLen = some 0 := by
    induction maxLen with
    | zero => rfl
    | succ maxLen ih =>
      rw [maxLenLoopIn, compareIn_literal l (by omega) (by omega)]
      exact ih
  rw [findMaxRepeatIn, (Option.guard_eq_some' ()).mpr ⟨h, hall⟩]
  exact hloop _

theorem kmpLoopIn_literal (l : Literal s) (hs : 0 ∉ text s) (hle : lineLen ≤ limit) {i : ℕ} {j : ℤ}
    (hj : j ≤ (text s).length) (hij : j ≤ i) (hi : i ≤ lineLen) (hturns : lineLen < turns + i) :
    ∃ r, kmpLoopIn (boundedAt data limit) lineLen l.read (text s).length turns i j = some r ∧
      (r < 0 ∨ ∃ p : ℕ, r = p ∧ p < lineLen) := by
  induction turns generalizing i j with
  | zero => omega
  | succ turns ih =>
    rw [kmpLoopIn]
    by_cases hguard : (lineLen : ℤ) - i > (text s).length - j
    swap
    · exact ⟨-1, if_neg hguard, .inl (by omega)⟩
    rw [if_pos hguard]
    by_cases hend : ((text s).length : ℤ) = j
    · exact ⟨i - j, if_pos hend, .inr ⟨(i - j).toNat, by omega, by omega⟩⟩
    rw [if_neg hend, boundedAt, if_pos (by omega)]
    simp only [Literal.read, Option.bind_eq_bind, Option.bind_some]
    split_ifs with hab hbig
    · exact ih (by omega) (by omega) (by omega) (by omega)
    · have hr := findMaxRepeatIn_literal l hs (show 1 < j.toNat by omega) (by omega)
      rw [hr, Option.bind_some]
      exact ih (by omega) (by omega) (by omega) (by omega)
    · exact ih (by omega) (by omega) (by omega) (by omega)

theorem findStringIn_literal (l : Literal s) (hs : 0 ∉ text s) (hle : lineLen ≤ limit) :
    ∃ r, findStringIn (boundedAt data limit) lineLen l.read (text s).length = some r ∧
      (r < 0 ∨ ∃ p : ℕ, r = p ∧ p < lineLen) := by
  unfold findStringIn
  split_ifs
  · exact ⟨-1, rfl, .inl (by omega)⟩
  · exact kmpLoopIn_literal l hs hle (by omega) (by omega) (Nat.zero_le _) (by omega)

end Literals

variable {srv : Server} {data : ℕ → UInt8} {bytes : List UInt8} {lineLen limit : ℕ}
  {requ : HttpRequ}

theorem parseOffsetIn_isSome (srv : Server) (h : Terminated data bytes)
    (hline : lineLen ≤ bytes.length) :
    ∃ r, parseOffsetIn srv data lineLen (bytes.length + 1) = some r := by
  obtain ⟨r, hr, hcases⟩ :
      ∃ r, findStringIn (boundedAt data (bytes.length + 1)) lineLen srv.bytes.read 5 = some r ∧ _ :=
    findStringIn_literal srv.bytes (by decide) (show lineLen ≤ bytes.length + 1 by omega)
  rw [parseOffsetIn, hr, Option.bind_eq_bind, Option.bind_some]
  rcases hcases with hneg | ⟨p, rfl, hp⟩
  · exact ⟨_, if_pos hneg⟩
  rw [if_neg (by omega), Int.toNat_natCast]
  -- both loops stop at the latest at the NUL
  obtain ⟨offset, hscan, hoff⟩ := scan_reaches (fun b => isDigit b || b = 0)
    (show p ≤ bytes.length by omega) (show bytes.length < p + (bytes.length + 1 - p) by omega)
    (show (isDigit (data bytes.length) || decide (data bytes.length = 0)) = true by rw [h.nul]; rfl)
  rw [hscan, Option.bind_eq_bind, Option.bind_some]
  by_cases hzero : data offset = 0
  · exact ⟨_, if_pos hzero⟩
  obtain ⟨stop, hstop, -⟩ := scan_reaches (fun b => decide (b ≠ 0)) (le_refl offset)
    (show offset < offset + (bytes.length + 1 - offset) by omega) (decide_eq_true hzero)
  rw [if_neg hzero, hstop]
  exact ⟨_, rfl⟩

theorem parseRangeIn_isSome (srv : Server) (h : Terminated data bytes)
    (hline : lineLen ≤ bytes.length) :
    ∃ r, parseRangeIn srv data lineLen (bytes.length + 1) = some r := by
  have hle : lineLen ≤ bytes.length + 1 := by omega
  obtain ⟨r₁, h₁, -⟩ : ∃ r, findStringIn (boundedAt data (bytes.length + 1))
    lineLen srv.upperRange.read 5 =
    some r ∧ _ := findStringIn_literal srv.upperRange (by decide) hle
  obtain ⟨r₂, h₂, -⟩ : ∃ r, findStringIn (boundedAt data (bytes.length + 1))
    lineLen srv.lowerRange.read 5 =
    some r ∧ _ := findStringIn_literal srv.lowerRange (by decide) hle
  obtain ⟨r₃, h₃⟩ := parseOffsetIn_isSome srv h hline
  simp only [parseRangeIn, h₁, h₂, h₃, Option.bind_eq_bind, Option.bind_some]
  split_ifs <;> exact ⟨_, rfl⟩

theorem parseFile_slash {slash : ℕ}
    (hs : scan (fun b => b = CR || b = SLASH) data limit 0 = some slash) (hd : data slash = SLASH) :
    parseFile data limit =
      (scan (fun b => b = CR || b = SPACE) data (limit - slash) slash).bind fun stop =>
        if stop - slash < 1 || stop - slash > 128 then some none
        else some (some (slash, stop - slash)) := by
  simp only [parseFile, itemStart, hs, hd, Option.bind_eq_bind, Option.bind_some, ↓reduceIte, ne_eq,
    not_true_eq_false]

theorem parseFile_other {slash : ℕ}
    (hs : scan (fun b => b = CR || b = SLASH) data limit 0 = some slash) (hd : data slash ≠ SLASH) :
    parseFile data limit = some none := by
  have hfirst : data 0 ≠ SLASH := by
    intro hzero
    obtain ⟨-, -, hbefore⟩ := scan_spec hs
    rcases Nat.eq_zero_or_pos slash with rfl | hpos
    · exact hd hzero
    · have hno := hbefore 0 le_rfl hpos
      rw [hzero] at hno
      cases hno
  simp only [parseFile, itemStart, hs, hd, hfirst, Option.bind_eq_bind, Option.bind_some,
    ↓reduceIte, ne_eq, not_false_eq_true]

theorem findStringKmp_literal {s : String} {l : Literal s} {r : ℤ}
    (h : findStringIn (boundedAt data limit) lineLen l.read 5 = some r) :
    findStringKmp data lineLen l.view 5 = some r := by
  apply findStringKmp_of_in _ (fun _ _ hj => Option.some.inj hj) h
  intro i a hi
  unfold boundedAt at hi
  split_ifs at hi
  exact Option.some.inj hi

section Capacity

variable {capacity : ℕ} (hlimit : limit ≤ capacity)
include hlimit

theorem parseMethod_mono {r : Option (ℕ × HttpRequ)} (h : parseMethod data limit requ = some r) :
    parseMethod data capacity requ = some r := by
  obtain ⟨lineLen, hline, h⟩ := Option.bind_eq_some_iff.mp h
  rw [parseMethod, scan_room hline hlimit, Option.bind_eq_bind, Option.bind_some]
  split_ifs at h ⊢ with hzero
  · exact h
  · obtain ⟨itemLen, hitem, h⟩ := Option.bind_eq_some_iff.mp h
    rw [scan_room hitem hlimit]
    exact h

theorem parseFile_mono {r : Option (ℕ × ℕ)} (h : parseFile data limit = some r) :
    parseFile data capacity = some r := by
  obtain ⟨_, hstart, -⟩ := Option.bind_eq_some_iff.mp h
  obtain ⟨slash, hslash, -⟩ := Option.bind_eq_some_iff.mp hstart
  have hslash' := scan_room hslash hlimit
  by_cases hd : data slash = SLASH
  · rw [parseFile_slash hslash hd] at h
    obtain ⟨stop, hstop, h⟩ := Option.bind_eq_some_iff.mp h
    rw [parseFile_slash hslash' hd, scan_room hstop (by omega)]
    exact h
  · rw [parseFile_other hslash hd] at h
    rw [parseFile_other hslash' hd]
    exact h

theorem parseOffset_of_in {r : Option ℤ} (h : parseOffsetIn srv data lineLen limit = some r) :
    parseOffset srv data lineLen capacity = some r := by
  obtain ⟨p, hp, h⟩ := Option.bind_eq_some_iff.mp h
  rw [parseOffset, findStringKmp_literal hp, Option.bind_eq_bind, Option.bind_some]
  split_ifs at h ⊢ with hneg
  · exact h
  obtain ⟨offset, hscan, h⟩ := Option.bind_eq_some_iff.mp h
  rw [scan_room hscan (by omega), Option.bind_eq_bind, Option.bind_some]
  split_ifs at h ⊢ with hzero
  · exact h
  obtain ⟨stop, hstop, h⟩ := Option.bind_eq_some_iff.mp h
  rw [scan_room hstop (by omega)]
  exact h

theorem parseRange_of_in {r : Option ℤ} (h : parseRangeIn srv data lineLen limit = some r) :
    parseRange srv data lineLen capacity = some r := by
  have htail {rangeB : ℤ}
      (ht : (if rangeB ≥ 0 then parseOffsetIn srv data lineLen limit else some (some 0)) = some r) :
        (if rangeB ≥ 0 then parseOffset srv data lineLen capacity else some (some 0)) = some r := by
    split_ifs at ht ⊢
    · exact parseOffset_of_in hlimit ht
    · exact ht
  obtain ⟨upper, hupper, h⟩ := Option.bind_eq_some_iff.mp h
  rw [parseRange_eq, findStringKmp_literal hupper, Option.bind_some]
  by_cases hu : upper = -1
  · rw [if_pos hu] at h ⊢
    obtain ⟨lower, hlower, h⟩ := Option.bind_eq_some_iff.mp h
    rw [findStringKmp_literal hlower]
    exact htail h
  · rw [if_neg hu] at h ⊢
    exact htail h

end Capacity

theorem parseRequ_of_in {clt : Client} (hdata : clt.mRecvBuf.mpData = some data)
    (hlimit : limit ≤ clt.mRecvBuf.mCapacity.toNat) {requ : HttpRequ} {found : Option (List UInt8)}
    (h : parseRequIn srv data limit clt.mRequ = some (requ, found)) :
    parseRequ srv clt = some ({ clt with mRequ := requ }, found) := by
  simp only [parseRequ, hdata, Option.bind_eq_bind, Option.bind_some]
  obtain ⟨method, hmethod, h⟩ := Option.bind_eq_some_iff.mp h
  rw [parseMethod_mono hlimit hmethod, Option.bind_some]
  rcases method with _ | ⟨lineLen, requ₁⟩
  · obtain ⟨rfl, rfl⟩ := Prod.mk.inj (Option.some.inj h)
    rfl
  obtain ⟨file, hfile, h⟩ := Option.bind_eq_some_iff.mp h
  dsimp only
  rw [parseFile_mono hlimit hfile, Option.bind_some]
  rcases file with _ | ⟨item, itemLen⟩
  · obtain ⟨rfl, rfl⟩ := Prod.mk.inj (Option.some.inj h)
    rfl
  obtain ⟨range, hrange, h⟩ := Option.bind_eq_some_iff.mp h
  dsimp only
  rw [parseRange_of_in hlimit hrange, Option.bind_some]
  rcases range with _ | rangeB
  · obtain ⟨rfl, rfl⟩ := Prod.mk.inj (Option.some.inj h)
    rfl
  · obtain ⟨rfl, rfl⟩ := Prod.mk.inj (Option.some.inj h)
    rfl

end AnalysisPrograms.Shfs
