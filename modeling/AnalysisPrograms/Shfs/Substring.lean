import AnalysisPrograms.Shfs.CheckedSearch

namespace AnalysisPrograms.Shfs

open Foundations Matching

variable {str sub : List UInt8}

def Occurs (str sub : List UInt8) (p : ℕ) : Prop := sub <+: str.drop p

def FirstFrom (str sub : List UInt8) (p : ℕ) (r : ℤ) : Prop :=
  (∃ q : ℕ, p ≤ q ∧ r = q ∧ Occurs str sub q ∧ ∀ x, p ≤ x → x < q → ¬Occurs str sub x) ∨
    (r = -1 ∧ ∀ x, p ≤ x → ¬Occurs str sub x)

def searchFrom (str sub : List UInt8) (turns i : ℕ) (j : ℤ) : Option ℤ :=
  kmpLoopIn (byteAt str) str.length (elementAt sub) sub.length turns i j

theorem occurs_iff {p : ℕ} : Occurs str sub p ↔ MatchAt (byteAt str) (byteAt sub) p sub.length :=
  prefix_drop_iff

theorem Occurs.inside {p : ℕ} (h : Occurs str sub p) (hsub : 0 < sub.length) :
    p + sub.length ≤ str.length := by
  have hle := h.length_le
  rw [List.length_drop] at hle
  omega

variable {p k turns : ℕ}

theorem searchFrom_short (h : str.length ≤ p + sub.length) :
    searchFrom str sub (turns + 1) (p + k) k = some (-1) := by
  rw [searchFrom, kmpLoopIn, if_neg]
  rw [Nat.cast_add]
  omega

theorem searchFrom_found (h : p + sub.length < str.length) :
    searchFrom str sub (turns + 1) (p + sub.length) sub.length = some (p : ℤ) := by
  rw [searchFrom, kmpLoopIn, if_pos, if_pos rfl]
  · congr 1
    omega
  · rw [Nat.cast_add]
    omega

theorem searchFrom_compare (h : p + sub.length < str.length) (hk : k < sub.length) :
    searchFrom str sub (turns + 1) (p + k) k =
      if byteAt str (p + k) = byteAt sub k then searchFrom str sub turns (p + k + 1) (k + 1)
      else if (k : ℤ) > 1 then
        (findMaxRepeatIn (elementAt sub) k).bind fun j => searchFrom str sub turns (p + k + 1) j
      else searchFrom str sub turns (p + k + 1) (k - 1) := by
  have ha : byteAt str (p + k) = some str[p + k] := List.getElem?_eq_getElem (by omega)
  have hb : byteAt sub k = some sub[k] := List.getElem?_eq_getElem hk
  rw [searchFrom, kmpLoopIn, if_pos (by rw [Nat.cast_add]; omega), if_neg (by omega),
    elementAt_natCast, ha, hb]
  simp only [Option.bind_eq_bind, Option.bind_some, Option.some.injEq, Int.toNat_natCast]
  rfl

theorem searchFrom_match (h : p + sub.length < str.length) (hk : k ≤ sub.length)
    (hm : MatchAt (byteAt str) (byteAt sub) p k) :
    searchFrom str sub (turns + k) p 0 = searchFrom str sub turns (p + k) k := by
  induction k generalizing turns with
  | zero => rfl
  | succ k ih =>
    obtain ⟨hm, heq⟩ := matchAt_succ.mp hm
    rw [show turns + (k + 1) = turns + 1 +
      k by omega, ih (by omega) hm, searchFrom_compare h hk, if_pos heq, Nat.cast_succ]
    rfl

theorem searchFrom_mismatch (turns : ℕ) (h : p + sub.length < str.length) (hk : k < sub.length)
    (hpos : 1 ≤ k) (hm : MatchAt (byteAt str) (byteAt sub) p k)
    (hne : byteAt str (p + k) ≠ byteAt sub k) :
    (Passes sub k ∧ searchFrom str sub (turns + k + 1) p 0 = searchFrom str sub turns
      (p + k + 1) 0) ∨
      (¬Passes sub k ∧ searchFrom str sub (turns + k + 1) p 0 = none) := by
  rw [Nat.add_right_comm turns k 1, searchFrom_match h hk.le hm, searchFrom_compare h hk,
    if_neg hne]
  by_cases hone : k = 1
  · refine .inl ⟨fun h2 => by omega, ?_⟩
    rw [if_neg (by omega), hone]
    rfl
  · rw [if_pos (by omega)]
    rcases findMaxRepeatIn_cases (show 2 ≤ k by omega) hk with ⟨hp, hr⟩ | ⟨hp, hr⟩
    · rw [hr]
      exact .inl ⟨hp, rfl⟩
    · rw [hr]
      exact .inr ⟨hp, rfl⟩

theorem searchFrom_first (h : p + sub.length < str.length) (hsub : 0 < sub.length)
    (hne : byteAt str p ≠ byteAt sub 0) :
    searchFrom str sub (turns + 2) p 0 = if p + 2 + sub.length < str.length then none
      else some (-1) := by
  have hstep : searchFrom str sub (turns + 1 + 1) (p + 0) (0 : ℕ) = _ := searchFrom_compare h hsub
  rw [if_neg (show byteAt str (p + 0) ≠ byteAt sub 0 from hne), if_neg (by omega)] at hstep
  refine hstep.trans ?_
  rw [searchFrom, kmpLoopIn]
  by_cases hlong : p + 2 + sub.length < str.length
  · rw [if_pos hlong, if_pos (by omega), if_neg (by omega), byteAt,
      List.getElem?_eq_getElem (by omega)]
    rfl
  · rw [if_neg hlong, if_neg (by omega)]

/-- How the search comes to its answer from the place `p` on, where it answers rightly: the places
at which it puts the pattern, and what has to be so there. -/
inductive Searchable (str sub : List UInt8) : ℕ → Prop
  | tooShort {p : ℕ} : str.length ≤ p + sub.length → ¬Occurs str sub p → Searchable str sub p
  | found {p : ℕ} : p + sub.length < str.length → Occurs str sub p → Searchable str sub p
  | firstDiffers {p : ℕ} : p + sub.length < str.length → str.length ≤ p + 2 + sub.length →
      byteAt str p ≠ byteAt sub 0 → (∀ x, p ≤ x → ¬Occurs str sub x) → Searchable str sub p
  | laterDiffers {p k : ℕ} : p + sub.length < str.length → 1 ≤ k → k < sub.length →
      MatchAt (byteAt str) (byteAt sub) p k → byteAt str (p + k) ≠ byteAt sub k → Passes sub k →
      ¬Occurs str sub (p + k) → Searchable str sub (p + k + 1) → Searchable str sub p

theorem none_skipped (hk : k < sub.length) (hm : MatchAt (byteAt str) (byteAt sub) p k)
    (hne : byteAt str (p + k) ≠ byteAt sub k) (hp : Passes sub k) (hat : ¬Occurs str sub (p + k))
    {x : ℕ} (hx : p ≤ x) (hlt : x < p + k + 1) : ¬Occurs str sub x := by
  intro hocc
  rcases Nat.lt_or_ge x (p + k) with hxk | hxk
  · rcases Nat.eq_or_lt_of_le hx with rfl | hpx
    · exact hne (occurs_iff.mp hocc k hk)
    · have hborder := hm.overlap (occurs_iff.mp hocc) hpx (by omega) (by omega)
      have hzero := (hp (by omega)).1 _ hborder
      omega
  · rw [show x = p + k by omega] at hocc
    exact hat hocc

theorem FirstFrom.back {p' : ℕ} {r : ℤ} (h : FirstFrom str sub p' r) (hp : p ≤ p')
    (hnone : ∀ x, p ≤ x → x < p' → ¬Occurs str sub x) : FirstFrom str sub p r := by
  have hbefore {x : ℕ} (hx : p ≤ x) (hrest : p' ≤ x → ¬Occurs str sub x) : ¬Occurs str sub x := by
    rcases Nat.lt_or_ge x p' with hlt | hge
    · exact hnone x hx hlt
    · exact hrest hge
  rcases h with ⟨q, hq, rfl, hocc, hfirst⟩ | ⟨rfl, hfirst⟩
  · exact .inl ⟨q, by omega, rfl, hocc, fun x hx hlt => hbefore hx fun hx' => hfirst x hx' hlt⟩
  · exact .inr ⟨rfl, fun x hx => hbefore hx (hfirst x)⟩

theorem Searchable.answers (hsub : 0 < sub.length) (h : Searchable str sub p) (hin : p ≤ str.length)
    (hturns : str.length < turns + p) :
    ∃ r, searchFrom str sub turns p 0 = some r ∧ FirstFrom str sub p r := by
  induction h generalizing turns with
  | @tooShort p hlen hocc =>
    obtain ⟨turns, rfl⟩ : ∃ n, turns = n + 1 := ⟨turns - 1, by omega⟩
    refine ⟨-1, searchFrom_short hlen, .inr ⟨rfl, ?_⟩⟩
    intro x hx hat
    have hfits := hat.inside hsub
    obtain rfl : x = p := by omega
    exact hocc hat
  | @found p hlen hocc =>
    obtain ⟨turns, rfl⟩ : ∃ n, turns = n + 1 + sub.length := ⟨turns - 1 - sub.length, by omega⟩
    refine ⟨p, ?_, .inl ⟨p, le_rfl, rfl, hocc, fun x hx hlt => absurd hlt (by omega)⟩⟩
    rw [searchFrom_match hlen le_rfl (occurs_iff.mp hocc)]
    exact searchFrom_found hlen
  | @firstDiffers p hlen hshort hne hnone =>
    obtain ⟨turns, rfl⟩ : ∃ n, turns = n + 2 := ⟨turns - 2, by omega⟩
    refine ⟨-1, ?_, .inr ⟨rfl, hnone⟩⟩
    rw [searchFrom_first hlen hsub hne, if_neg (by omega)]
  | @laterDiffers p k hlen hpos hk hm hne hp hat hrest ih =>
    obtain ⟨turns, rfl⟩ : ∃ n, turns = n + k + 1 := ⟨turns - 1 - k, by omega⟩
    obtain ⟨r, hr, hfirst⟩ := ih (by omega) (show str.length < turns + (p + k + 1) by omega)
    rcases searchFrom_mismatch turns hlen hk hpos hm hne with ⟨-, hs⟩ | ⟨hno, -⟩
    · refine ⟨r, hs.trans hr, hfirst.back (by omega) ?_⟩
      intro x hx hlt
      exact none_skipped hk hm hne hp hat hx hlt
    · exact absurd hp hno

theorem FirstFrom.forward {p' : ℕ} {r : ℤ} (h : FirstFrom str sub p r) (hp : p ≤ p')
    (hr : r = -1 ∨ ∃ q : ℕ, p' ≤ q ∧ r = q) :
    FirstFrom str sub p' r ∧ ∀ x, p ≤ x → x < p' → ¬Occurs str sub x := by
  rcases h with ⟨q, hq, rfl, hocc, hfirst⟩ | ⟨rfl, hfirst⟩
  · have hq' : p' ≤ q := by omega
    refine ⟨.inl ⟨q, hq', rfl, hocc, fun x hx hlt => hfirst x (by omega) hlt⟩, ?_⟩
    intro x hx hlt
    exact hfirst x hx (by omega)
  · exact ⟨.inr ⟨rfl, fun x hx => hfirst x (by omega)⟩, fun x hx _ => hfirst x hx⟩

theorem searchFrom_cases (hsub : 0 < sub.length) (hin : p ≤ str.length)
    (hturns : str.length < turns + p) :
    (str.length ≤ p + sub.length ∧ searchFrom str sub turns p 0 = some (-1)) ∨
      (p + sub.length < str.length ∧ Occurs str sub p ∧
        searchFrom str sub turns p 0 = some (p : ℤ)) ∨
      (p + sub.length < str.length ∧ byteAt str p ≠ byteAt sub 0 ∧
        searchFrom str sub turns p 0 = if p + 2 + sub.length < str.length then none
        else some (-1)) ∨
      ∃ k turns', p + sub.length < str.length ∧ 1 ≤ k ∧ k < sub.length ∧
        MatchAt (byteAt str) (byteAt sub) p k ∧ byteAt str (p + k) ≠ byteAt sub k ∧
        str.length < turns' + (p + k + 1) ∧
        ((Passes sub k ∧ searchFrom str sub turns p 0 = searchFrom str sub turns' (p + k + 1) 0) ∨
          searchFrom str sub turns p 0 = none) := by
  rcases Nat.lt_or_ge (p + sub.length) str.length with hlen | hlen
  swap
  · obtain ⟨turns, rfl⟩ : ∃ n, turns = n + 1 := ⟨turns - 1, by omega⟩
    exact .inl ⟨hlen, searchFrom_short hlen⟩
  right
  rcases exists_mismatch (byteAt str) (byteAt sub) p sub.length with hm | ⟨k, hk, hm, hne⟩
  · obtain ⟨turns, rfl⟩ : ∃ n, turns = n + 1 + sub.length := ⟨turns - 1 - sub.length, by omega⟩
    refine .inl ⟨hlen, occurs_iff.mpr hm, ?_⟩
    rw [searchFrom_match hlen le_rfl hm]
    exact searchFrom_found hlen
  right
  rcases Nat.eq_zero_or_pos k with rfl | hpos
  · obtain ⟨turns, rfl⟩ : ∃ n, turns = n + 2 := ⟨turns - 2, by omega⟩
    exact .inl ⟨hlen, hne, searchFrom_first hlen hsub hne⟩
  · obtain ⟨turns, rfl⟩ : ∃ n, turns = n + k + 1 := ⟨turns - 1 - k, by omega⟩
    refine .inr ⟨k, turns, hlen, hpos, hk, hm, hne, by omega, ?_⟩
    exact (searchFrom_mismatch turns hlen hk hpos hm hne).imp id And.right

theorem searchFrom_result (hsub : 0 < sub.length) (hin : p ≤ str.length)
    (hturns : str.length < turns + p) {r : ℤ} (h : searchFrom str sub turns p 0 = some r) :
    r = -1 ∨ ∃ q : ℕ, p ≤ q ∧ r = q := by
  induction hn : str.length - p using Nat.strongRecOn generalizing p turns with
  | ind n ih =>
    rcases searchFrom_cases hsub hin hturns with ⟨-, hs⟩ | ⟨-, -, hs⟩ | ⟨-, -, hs⟩ |
      ⟨k, turns', hlen, hpos, hk, -, -, hturns', ⟨-, hs⟩ | hs⟩
    · exact .inl (Option.some.inj (h.symm.trans hs))
    · exact .inr ⟨p, le_rfl, Option.some.inj (h.symm.trans hs)⟩
    · rw [hs] at h
      split_ifs at h
      exact .inl (Option.some.inj h).symm
    · rw [hs] at h
      rcases ih (str.length - (p + k + 1)) (by omega) (by omega) hturns' h rfl with hr | ⟨q, hq, hr⟩
      · exact .inl hr
      · exact .inr ⟨q, by omega, hr⟩
    · cases h.symm.trans hs

theorem searchable_of_answers (hsub : 0 < sub.length) (hin : p ≤ str.length)
    (hturns : str.length < turns + p) {r : ℤ} (h : searchFrom str sub turns p 0 = some r)
    (hfirst : FirstFrom str sub p r) : Searchable str sub p := by
  have hnone (hr : r = -1) {x : ℕ} (hx : p ≤ x) : ¬Occurs str sub x := by
    rcases hfirst with ⟨q, -, hq, -⟩ | ⟨-, hall⟩
    · omega
    · exact hall x hx
  induction hn : str.length - p using Nat.strongRecOn generalizing p turns with
  | ind n ih =>
    rcases searchFrom_cases hsub hin hturns with ⟨hlen, hs⟩ | ⟨hlen, hocc, -⟩ | ⟨hlen, hne, hs⟩ |
      ⟨k, turns', hlen, hpos, hk, hm, hne, hturns', ⟨hp, hs⟩ | hs⟩
    · exact .tooShort hlen (hnone (Option.some.inj (h.symm.trans hs)) le_rfl)
    · exact .found hlen hocc
    · rw [hs] at h
      split_ifs at h with hlong
      exact .firstDiffers hlen (by omega) hne fun x hx => hnone (Option.some.inj h).symm hx
    · rw [hs] at h
      obtain ⟨hrest, hskip⟩ :=
        hfirst.forward (by omega)
          (searchFrom_result hsub (show p + k + 1 ≤ str.length by omega) hturns' h)
      refine .laterDiffers hlen hpos hk hm hne hp (hskip (p + k) (by omega) (by omega)) ?_
      exact ih (str.length - (p + k + 1)) (by omega) (by omega) hturns' h hrest
        (fun hr x hx => hnone hr (by omega)) rfl
    · cases h.symm.trans hs

def SearchesRightly (str sub : List UInt8) : Prop :=
  ∃ r, findStringIn (byteAt str) str.length (elementAt sub) sub.length = some r ∧
    FirstFrom str sub 0 r

theorem find_string_kmp_searches_iff (str sub : List UInt8) (hsub : 1 ≤ sub.length) :
    SearchesRightly str sub ↔ Searchable str sub 0 := by
  have heq : findStringIn (byteAt str) str.length (elementAt sub) sub.length =
      searchFrom str sub (str.length + 1) 0 0 := if_neg (by omega)
  unfold SearchesRightly
  rw [heq]
  constructor
  · rintro ⟨r, hr, hfirst⟩
    exact searchable_of_answers hsub (Nat.zero_le _) (by omega) hr hfirst
  · intro h
    exact h.answers hsub (Nat.zero_le _) (by omega)

theorem find_string_kmp_searches_bytes : SearchesRightly (text "bytes=0-") (text "bytes") :=
  (find_string_kmp_searches_iff (text "bytes=0-") (text "bytes") (by decide)).mpr
    (.found (by decide) ⟨text "=0-", by decide⟩)

-- the guard wants a byte behind the pattern
theorem occurrence_at_end_missed : ¬SearchesRightly (text "RANGE") (text "RANGE") := by
  rintro ⟨r, hr, hfirst⟩
  have hmissed : findStringIn (byteAt (text "RANGE")) 5 (elementAt (text "RANGE")) 5 =
    some (-1) := by decide
  obtain rfl : r = -1 := Option.some.inj (hr.symm.trans hmissed)
  rcases hfirst with ⟨q, -, hq, -⟩ | ⟨-, hnone⟩
  · omega
  · exact hnone 0 le_rfl (List.prefix_refl (text "RANGE"))

end AnalysisPrograms.Shfs
