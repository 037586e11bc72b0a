import AnalysisPrograms.Foundations.Decimal
import AnalysisPrograms.Foundations.Execution
import AnalysisPrograms.Foundations.Segments
import AnalysisPrograms.Shfs.Text

namespace AnalysisPrograms.Shfs

open Foundations Execution Segments Decimal

structure StrT where
  mpData : List UInt8
  mLen : ℤ
  deriving DecidableEq

def toChar (x : ℤ) : UInt8 := UInt8.ofNat (x % 256).toNat

def StrT.reverseLoop : ℕ → List UInt8 → ℤ → ℤ → Option (List UInt8)
  | 0, _, _, _ => none
  | turns + 1, data, i, j =>
    if i < j then do
      let tmp ← readAt data i
      let data ← storeAt data i (← readAt data j)
      let data ← storeAt data j tmp
      reverseLoop turns data (i + 1) (j - 1)
    else some data

def StrT.reverseStr (target : StrT) : Option StrT :=
  if ¬target.mLen > 0 then none
  else (StrT.reverseLoop (target.mLen.toNat + 1) target.mpData 0 (target.mLen - 1)).map fun data =>
    { target with mpData := data }

def StrT.digitsLoop (n : ℤ) : ℕ → ℤ → StrT → ℤ → Option (StrT × ℤ)
  | 0, _, _, _ => none
  | turns + 1, valueTmp, target, realLen =>
    if valueTmp ≠ 0 ∧ target.mLen < n then do
      let nextValue := valueTmp.tdiv 10
      let data ← storeAt target.mpData target.mLen (toChar (valueTmp - nextValue * 10 + 48))
      digitsLoop n turns nextValue ⟨data, target.mLen + 1⟩ (realLen + 1)
    else some (target, realLen)

def StrT.offsetToStr (value : ℤ) (target : StrT) (n : ℤ) : Option (ℤ × StrT) :=
  if value < 0 then some (-1, target)
  else if value = 0 then do
    let data ← storeAt target.mpData 0 48
    let data ← storeAt data 1 0
    some (1, ⟨data, 1⟩)
  else do
    let (target, realLen) ← StrT.digitsLoop n (n.toNat + 1) value { target with mLen := 0 } 0
    let target ← target.reverseStr
    some (realLen, { target with mLen := if n < realLen then n else realLen })

def StrT.strToOffset (num : StrT) : Option ℤ :=
  exec (fun rslt (i : ℕ) => (readAt num.mpData i).map fun b => rslt + (charValue b - 48) * 10) 0
    (List.range' 0 num.mLen.toNat)

def cString (data : List UInt8) : Option (List UInt8) :=
  if 0 ∈ data then some (data.takeWhile fun b => b ≠ 0) else none

section Writing

variable {n turns room value : ℕ} {realLen : ℤ} {before rest xs : List UInt8}

theorem get_middle (before rest : List UInt8) (b : UInt8) :
    (before ++ b :: rest)[before.length]? = some b := by simp

theorem set_middle (before rest : List UInt8) (b c : UInt8) :
    (before ++ b :: rest).set before.length c = before ++ c :: rest := by
  simp

theorem toChar_digit (value : ℕ) :
    toChar ((value : ℤ) - ((value / 10 : ℕ) : ℤ) * 10 + 48) = UInt8.ofNat
      (value - value / 10 * 10 + 48) := by
  rw [toChar]
  congr 1
  omega

theorem digitsLoop_eq (hroom : rest.length = room) (hn : before.length + room = n)
    (hturns : room < turns) :
    StrT.digitsLoop n turns value ⟨before ++ rest, before.length⟩ realLen =
      some (⟨before ++ digitLoop room value ++ rest.drop (digitLoop room value).length,
          before.length + (digitLoop room value).length⟩,
        realLen + (digitLoop room value).length) := by
  induction room generalizing before rest value realLen turns with
  | zero =>
    obtain ⟨turns, rfl⟩ : ∃ k, turns = k + 1 := ⟨turns - 1, by omega⟩
    rw [StrT.digitsLoop, if_neg (by rintro ⟨-, h⟩; change (before.length : ℤ) < n at h; omega)]
    simp [digitLoop]
  | succ room ih =>
    obtain ⟨turns, rfl⟩ : ∃ k, turns = k + 1 := ⟨turns - 1, by omega⟩
    by_cases hz : value = 0
    · subst hz
      rw [StrT.digitsLoop, if_neg (by rintro ⟨h, -⟩; exact h rfl)]
      simp [digitLoop]
    · obtain ⟨b, rest, rfl⟩ := List.exists_cons_of_length_eq_add_one hroom
      have hnext : (value : ℤ).tdiv 10 = ((value / 10 : ℕ) : ℤ) := by
        rw [Int.tdiv_eq_ediv_of_nonneg (by omega)]
        omega
      have hmiddle : before.length < (before ++ b :: rest).length := by simp
      rw [StrT.digitsLoop, if_pos ⟨by omega, by change (before.length : ℤ) < n; omega⟩]
      simp only [hnext, toChar_digit, storeAt_eq hmiddle, set_middle, Option.bind_eq_bind,
        Option.bind_some]
      generalize hc : UInt8.ofNat (value - value / 10 * 10 + 48) = c
      have hsplit : before ++ c :: rest = (before ++ [c]) ++ rest := by simp
      have hlen : (before.length : ℤ) + 1 = ((before ++ [c]).length : ℕ) := by simp
      rw [hsplit, hlen,
        ih (by simpa using hroom) (by rw [List.length_append, List.length_singleton]; omega)
        (by omega)]
      have hdigits : digitLoop (room + 1) value = c :: digitLoop room (value / 10) := by
        simp only [digitLoop, hz, ↓reduceIte, hc]
      rw [hdigits]
      simp only [List.append_assoc, List.cons_append, List.nil_append, List.length_cons,
        List.length_append, List.length_nil, List.drop_succ_cons, Option.some.injEq, Prod.mk.injEq,
        StrT.mk.injEq, true_and]
      omega

theorem reverseLoop_done {data : List UInt8} {i j : ℤ} (h : ¬i < j) :
    StrT.reverseLoop (turns + 1) data i j = some data := by
  rw [StrT.reverseLoop, if_neg h]

theorem reverseLoop_exchange (before mid rest : List UInt8) (b c : UInt8) :
    StrT.reverseLoop (turns + 1) (before ++ b :: (mid ++ c :: rest)) before.length
      (before.length + mid.length + 1 : ℕ) =
      StrT.reverseLoop turns (before ++ c :: (mid ++ b :: rest)) (before.length + 1)
      ((before.length + mid.length + 1 : ℕ) - 1) := by
  have hsplit : ∀ x y : UInt8, before ++ x :: (mid ++ y :: rest) = (before ++ x :: mid) ++ y ::
    rest := by simp
  have hj : ∀ x : UInt8, before.length + mid.length + 1 = (before ++ x :: mid).length := by
    intro x
    rw [List.length_append, List.length_cons]
    omega
  have hget : readAt (before ++ b :: (mid ++ c :: rest)) (before.length + mid.length + 1 : ℕ) =
      some c := by
    rw [hsplit b c, hj b, readAt_eq (get_middle _ _ _)]
  have hlt : before.length < (before ++ b :: (mid ++ c :: rest)).length := by simp
  have hlt' : before.length + mid.length + 1 < (before ++ c :: (mid ++ c :: rest)).length := by
    simp only [List.length_append, List.length_cons]
    omega
  have hset : (before ++ c :: (mid ++ c :: rest)).set (before.length + mid.length + 1) b =
      before ++ c :: (mid ++ b :: rest) := by
    rw [hsplit c c, hj c, set_middle, hsplit c b]
  rw [StrT.reverseLoop, if_pos (by omega), readAt_eq (get_middle _ _ _), hget]
  simp only [Option.bind_eq_bind, Option.bind_some, storeAt_eq hlt, set_middle,
    storeAt_eq hlt', hset]

theorem reverseLoop_eq (hturns : xs.length < turns) :
    StrT.reverseLoop turns (before ++ (xs ++ rest)) before.length (before.length + xs.length - 1) =
      some (before ++ (xs.reverse ++ rest)) := by
  induction turns generalizing before xs rest with
  | zero => omega
  | succ turns ih =>
    cases xs with
    | nil => exact reverseLoop_done (by simp)
    | cons b xs =>
      rcases List.eq_nil_or_concat xs with rfl | ⟨mid, c, rfl⟩
      · exact reverseLoop_done (by simp)
      · have hdata : before ++ (b :: (mid ++ [c]) ++ rest) = before ++ b :: (mid ++ c :: rest) := by
          simp
        have hj : (before.length : ℤ) + (b :: (mid ++ [c])).length - 1 =
            (before.length + mid.length + 1 : ℕ) := by
          simp only [List.length_append, List.length_cons, List.length_nil]
          omega
        have hrec : StrT.reverseLoop turns ((before ++ [c]) ++ (mid ++ b :: rest))
            (before ++ [c]).length ((before ++ [c]).length + mid.length - 1) =
              some ((before ++ [c]) ++ (mid.reverse ++ b :: rest)) := by
          apply ih
          simp only [List.concat_eq_append, List.length_append, List.length_cons,
            List.length_nil] at hturns
          omega
        have hi : (before.length : ℤ) + 1 = ((before ++ [c]).length : ℕ) := by simp
        have hj' : ((before.length + mid.length + 1 : ℕ) : ℤ) - 1 =
            ((before ++ [c]).length : ℤ) + mid.length - 1 := by
          rw [List.length_append, List.length_singleton]
          omega
        rw [List.concat_eq_append, hdata, hj, reverseLoop_exchange, hi, hj',
          show before ++ c :: (mid ++ b :: rest) = (before ++ [c]) ++ (mid ++ b :: rest) by
            simp, hrec]
        simp

theorem digitLoop_reverse (hpos : 0 < value) (h : value < 10 ^ room) :
    (digitLoop room value).reverse = numeral value := by
  induction room generalizing value with
  | zero => omega
  | succ room ih =>
    have hz : ¬value = 0 := by omega
    have hdigit : UInt8.ofNat (value - value / 10 * 10 + 48) = digit (value % 10) := by
      rw [digit]
      congr 1
      omega
    simp only [digitLoop, hz, ↓reduceIte, hdigit, List.reverse_cons]
    rw [numeral]
    by_cases hsmall : value < 10
    · have hend : digitLoop room (value / 10) = [] := by
        rw [show value / 10 = 0 by omega]
        cases room with
        | zero => rfl
        | succ room => simp [digitLoop]
      rw [if_pos hsmall, hend, List.reverse_nil, List.nil_append, Nat.mod_eq_of_lt hsmall]
    · rw [if_neg hsmall,
        ih (by omega) (Nat.div_lt_of_lt_mul (by rwa [Nat.pow_succ, Nat.mul_comm] at h))]

theorem lt_pow_room (hv : value < 10 ^ 19) (hn : 20 ≤ n) : value < 10 ^ n :=
  Nat.lt_of_lt_of_le hv (Nat.pow_le_pow_right (by omega) (by omega))

theorem digitsLoop_whole {data : List UInt8} (hlen : data.length = n) :
    StrT.digitsLoop n (n + 1) value ⟨data, 0⟩ 0 =
      some (⟨digitLoop n value ++ data.drop (digitLoop n value).length,
        ((digitLoop n value).length : ℤ)⟩,
        ((digitLoop n value).length : ℤ)) := by
  have heq : StrT.digitsLoop n (n + 1) value ⟨[] ++ data, ([] : List UInt8).length⟩ 0 = _ :=
    digitsLoop_eq hlen (Nat.zero_add n) (Nat.lt_succ_self n)
  simpa using heq

theorem reverseStr_eq (hne : xs ≠ []) :
    StrT.reverseStr ⟨xs ++ rest, xs.length⟩ = some ⟨xs.reverse ++ rest, xs.length⟩ := by
  have hpos := List.length_pos_iff.mpr hne
  have heq : StrT.reverseLoop (xs.length + 1) ([] ++ (xs ++ rest)) ([] : List UInt8).length
      (([] : List UInt8).length + xs.length - 1) = some ([] ++ (xs.reverse ++ rest)) :=
        reverseLoop_eq (Nat.lt_succ_self _)
  simp only [List.nil_append, List.length_nil, Int.ofNat_zero, Int.zero_add] at heq
  rw [StrT.reverseStr, if_neg (by change ¬¬(xs.length : ℤ) > 0; omega)]
  simp only [Int.toNat_natCast, heq, Option.map_some]

def textBehind (value : ℕ) (data : List UInt8) : List UInt8 :=
  if value = 0 then 0 :: data.drop 2 else data.drop (numeral value).length

theorem offsetToStr_writes {target : StrT} (hv : value < 10 ^ 19) (hn : 20 ≤ n)
    (hlen : target.mpData.length = n) :
    StrT.offsetToStr value target n = some (((numeral value).length : ℤ),
      ⟨numeral value ++ textBehind value target.mpData, ((numeral value).length : ℤ)⟩) := by
  by_cases hz : value = 0
  · subst hz
    obtain ⟨b, c, rest, hdata⟩ : ∃ b c rest, target.mpData = b :: c :: rest := by
      obtain ⟨b, tail, htail⟩ :=
        List.exists_cons_of_length_pos (show 0 < target.mpData.length by omega)
      rw [htail, List.length_cons] at hlen
      obtain ⟨c, rest, rfl⟩ := List.exists_cons_of_length_pos (show 0 < tail.length by omega)
      exact ⟨b, c, rest, htail⟩
    have hfirst : storeAt (b :: c :: rest) 0 48 = some (48 :: c :: rest) :=
      storeAt_eq (k := 0) (by simp) 48
    have hsecond : storeAt (48 :: c :: rest) 1 0 = some (48 :: 0 :: rest) :=
      storeAt_eq (k := 1) (by simp) 0
    have hnumeral : numeral 0 = [48] := by
      rw [numeral, if_pos (by omega)]
      rfl
    rw [StrT.offsetToStr, if_neg (by omega), if_pos Int.ofNat_zero, hdata, hfirst]
    simp only [hsecond, hnumeral, textBehind, Option.bind_eq_bind, Option.bind_some, ↓reduceIte]
    rfl
  · have hdigits := digitLoop_reverse (by omega) (lt_pow_room hv hn)
    have hcount : (digitLoop n value).length = (numeral value).length := by
      rw [← hdigits, List.length_reverse]
    have hle : (numeral value).length ≤ 19 := length_numeral_le hv
    have hne : digitLoop n value ≠ [] := by
      rw [← List.length_pos_iff, hcount, List.length_pos_iff]
      exact numeral_ne_nil value
    rw [StrT.offsetToStr, if_neg (by omega), if_neg (by omega), Int.toNat_natCast,
      digitsLoop_whole hlen]
    simp only [Option.bind_eq_bind, Option.bind_some]
    rw [reverseStr_eq hne, hdigits, hcount, Option.bind_some, if_neg (by omega),
      textBehind, if_neg hz]

end Writing

theorem cString_append {xs rest : List UInt8} (h : ∀ b ∈ xs, b ≠ 0) :
    cString (xs ++ 0 :: rest) = some xs := by
  rw [cString, if_pos (by simp), List.takeWhile_append_of_pos (by simpa using h)]
  simp

theorem numeral_ne_zero {value : ℕ} {b : UInt8} (h : b ∈ numeral value) : b ≠ 0 := by
  rintro rfl
  exact absurd (isDigit_of_mem_numeral h) (by decide)

theorem textBehind_zero {value n : ℕ} (hv : value < 10 ^ 19) (hn : 20 ≤ n) :
    ∃ rest, textBehind value (List.replicate n 0) = 0 :: rest := by
  unfold textBehind
  by_cases hz : value = 0
  · exact ⟨_, if_pos hz⟩
  · have hle : (numeral value).length ≤ 19 := length_numeral_le hv
    have hmore : n - (numeral value).length = n - (numeral value).length - 1 + 1 := by omega
    rw [if_neg hz, List.drop_replicate, hmore, List.replicate_succ]
    exact ⟨_, rfl⟩

theorem length_textBehind {value n : ℕ} {data : List UInt8} (hv : value < 10 ^ 19) (hn : 20 ≤ n)
    (hlen : data.length = n) : (numeral value ++ textBehind value data).length = n := by
  have hle : (numeral value).length ≤ 19 := length_numeral_le hv
  rw [List.length_append, textBehind]
  by_cases hz : value = 0
  · subst hz
    rw [if_pos rfl, numeral, if_pos (by omega)]
    simp only [List.length_cons, List.length_nil, List.length_drop]
    omega
  · rw [if_neg hz, List.length_drop]
    omega

theorem offset_to_str_decimal (v : ℤ) (hlo : -2 ^ 63 ≤ v) (hhi : v < 2 ^ 63) (n : ℤ) (hn : 20 ≤ n)
    (target : StrT) (hzero : target.mpData = List.replicate n.toNat 0) :
    ∃ realLen out, StrT.offsetToStr v target n = some (realLen, out) ∧ out.mpData.length = n.toNat ∧
      (0 ≤ v → realLen = (numeral v.toNat).length ∧ out.mLen = realLen ∧
        cString out.mpData = some (numeral v.toNat)) ∧
      (v < 0 → realLen = -1 ∧ out = target) := by
  have hlen : target.mpData.length = n.toNat := by rw [hzero, List.length_replicate]
  by_cases hneg : v < 0
  · refine ⟨-1, target, by rw [StrT.offsetToStr, if_pos hneg], hlen, ?_, fun _ => ⟨rfl, rfl⟩⟩
    intro hpos
    omega
  · obtain ⟨value, rfl⟩ : ∃ k : ℕ, v = k := ⟨v.toNat, by omega⟩
    obtain ⟨m, rfl⟩ : ∃ k : ℕ, n = k := ⟨n.toNat, by omega⟩
    have hv : value < 10 ^ 19 := by omega
    rw [Int.toNat_natCast] at hzero hlen ⊢
    refine ⟨_, _, offsetToStr_writes hv (by omega) hlen,
      length_textBehind hv (by omega) hlen, ?_, ?_⟩
    · intro _
      obtain ⟨rest, hrest⟩ := textBehind_zero hv (show 20 ≤ m by omega)
      refine ⟨rfl, rfl, ?_⟩
      rw [hzero, hrest]
      exact cString_append fun b => numeral_ne_zero
    · intro hneg'
      exact absurd hneg' hneg

theorem content_length_written : ∃ out,
    StrT.offsetToStr 9223372036854775807 ⟨List.replicate 20 0, 0⟩ 20 =
    some (((numeral 9223372036854775807).length : ℤ), out) ∧
      cString out.mpData = some (numeral 9223372036854775807) := by
  obtain ⟨realLen, out, hrun, -, hpos, -⟩ :=
    offset_to_str_decimal 9223372036854775807 (by decide) (by decide) 20 (by decide)
      ⟨List.replicate 20 0, 0⟩ rfl
  obtain ⟨rfl, -, hstring⟩ := hpos (by decide)
  exact ⟨out, hrun, hstring⟩

section Reading

variable {value n : ℕ} {xs rest : List UInt8}

theorem offsetToStr_refines {target : StrT} (hv : value < 10 ^ 19) (hn : 20 ≤ n)
    (hlen : target.mpData.length = n) :
    (StrT.offsetToStr value target n).map (fun r => (r.1, r.2.mpData.take r.2.mLen.toNat)) =
      some (offsetToStr value n) := by
  rw [offsetToStr_writes hv hn hlen, Option.map_some]
  simp only [Int.toNat_natCast, List.take_left, Option.some.injEq]
  have hneg : ¬(value : ℤ) < 0 := by omega
  by_cases hz : value = 0
  · subst hz
    rw [numeral, if_pos (by omega)]
    rfl
  · have hz' : ¬(value : ℤ) = 0 := by omega
    simp only [offsetToStr, hneg, hz', ↓reduceIte, Int.toNat_natCast]
    rw [← digitLoop_reverse (by omega) (lt_pow_room hv hn), List.length_reverse]

theorem strToOffset_refines (xs rest : List UInt8) :
    StrT.strToOffset ⟨xs ++ rest, xs.length⟩ = some (strToOffset xs) := by
  have hstep : ∀ i rslt, 0 ≤ i → i < 0 + xs.length → rslt = strToOffset (xs.take i) →
      ∃ rslt', (readAt (xs ++ rest) i).map (fun b => rslt + (charValue b - 48) * 10) = some rslt' ∧
        rslt' = strToOffset (xs.take (i + 1)) := by
    rintro i rslt - hi rfl
    have hget : xs[i]? = some xs[i] := List.getElem?_eq_getElem (by omega)
    have hread : readAt (xs ++ rest) i = some xs[i] :=
      readAt_eq (by rwa [List.getElem?_append_left (by omega)])
    refine ⟨_, by rw [hread, Option.map_some], ?_⟩
    rw [List.take_add_one, hget, Option.toList_some, strToOffset, strToOffset, List.foldl_append]
    rfl
  obtain ⟨rslt, hrun, rfl⟩ := exec_range (fun i rslt => rslt = strToOffset (xs.take i)) hstep
    (show (0 : ℤ) = strToOffset (xs.take 0) from rfl)
  rw [StrT.strToOffset, Int.toNat_natCast, hrun, Nat.zero_add, List.take_length]

theorem strToOffset_numeral (value : ℕ) :
    strToOffset (numeral value) = ((10 * digitSum value : ℕ) : ℤ) := by
  have hchar : ∀ d, d < 10 → charValue (digit d) = 48 + d := by
    intro d hd
    rw [charValue, toNat_digit hd, if_pos (by omega)]
    omega
  induction value using numeral.induct with
  | case1 value hsmall =>
    rw [numeral, if_pos hsmall, digitSum, if_pos hsmall, strToOffset, List.foldl_cons,
      List.foldl_nil, hchar value hsmall]
    omega
  | case2 value hlarge ih =>
    rw [strToOffset] at ih
    rw [numeral, if_neg hlarge, digitSum, if_neg hlarge, strToOffset, List.foldl_append, ih,
      List.foldl_cons, List.foldl_nil, hchar _ (Nat.mod_lt value (by omega))]
    omega

end Reading

theorem str_to_offset_undoes_iff (v : ℤ) (hlo : 0 ≤ v) (hhi : v < 2 ^ 63) (n : ℤ) (hn : 20 ≤ n)
    (target : StrT) (hlen : target.mpData.length = n.toNat) :
    (∃ realLen out, StrT.offsetToStr v target n = some (realLen, out) ∧
      StrT.strToOffset out = some v) ↔
      v % 10 = 0 ∧ v < 100 := by
  obtain ⟨value, rfl⟩ : ∃ k : ℕ, v = k := ⟨v.toNat, by omega⟩
  obtain ⟨m, rfl⟩ : ∃ k : ℕ, n = k := ⟨n.toNat, by omega⟩
  rw [Int.toNat_natCast] at hlen
  have hwrite := offsetToStr_writes (show value < 10 ^ 19 by omega) (show 20 ≤ m by omega) hlen
  have hiff : (value : ℤ) % 10 = 0 ∧ (value : ℤ) < 100 ↔ 10 * digitSum value = value := by
    rw [ten_mul_digitSum_iff]
    omega
  rw [hiff]
  constructor
  · rintro ⟨realLen, out, hrun, hread⟩
    obtain ⟨-, rfl⟩ := Prod.mk.inj (Option.some.inj (hwrite.symm.trans hrun))
    rw [strToOffset_refines, strToOffset_numeral] at hread
    exact Int.ofNat_inj.mp (Option.some.inj hread)
  · intro hsum
    refine ⟨_, _, hwrite, ?_⟩
    rw [strToOffset_refines, strToOffset_numeral, hsum]

theorem thirty_undone :
    ∃ realLen out, StrT.offsetToStr 30 ⟨List.replicate 32 0, 0⟩ 32 = some (realLen, out) ∧
      StrT.strToOffset out = some 30 :=
  (str_to_offset_undoes_iff 30 (by decide) (by decide) 32 (by decide) ⟨List.replicate 32 0, 0⟩
    rfl).mpr (by decide)

theorem one_read_as_ten :
    ∃ realLen out, StrT.offsetToStr 1 ⟨List.replicate 20 0, 0⟩ 20 = some (realLen, out) ∧
      StrT.strToOffset out = some 10 := ⟨1, ⟨49 :: List.replicate 19 0, 1⟩, by decide, by decide⟩

end AnalysisPrograms.Shfs
