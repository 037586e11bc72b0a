import Mathlib.Data.List.TakeWhile
import Mathlib.Tactic.Ring
import AnalysisPrograms.Shfs.Parsing
import AnalysisPrograms.Shfs.Scanning

namespace AnalysisPrograms.Shfs

open Foundations Bytes MachineInt

def token (bytes : List UInt8) : List UInt8 :=
  bytes.takeWhile fun b => !(b = CR || b = 0 || b = SPACE)

def requestLine (bytes : List UInt8) : List UInt8 := bytes.takeWhile fun b => !(b = 0 || b = CR)

def baseValue (bytes : List UInt8) : ℤ := bytes.foldl (fun key b => key * 32 + charValue b) 0

theorem toInt32_step (key c : ℤ) : toInt32 (toInt32 key * 32 + c) = toInt32 (key * 32 + c) := by
  simp only [toInt32]
  rw [← Int.bmod_add_bmod, Int.bmod_mul_bmod, Int.bmod_add_bmod]

theorem hashLoop_eq (bytes : List UInt8) (h : 0 ∉ bytes) (key : ℤ) :
    hashLoop bytes (toInt32 key) =
      toInt32 (bytes.foldl (fun key b => key * 32 + charValue b) key) := by
  induction bytes generalizing key with
  | nil => rfl
  | cons b bytes ih =>
    rw [List.mem_cons, not_or] at h
    rw [hashLoop, if_neg (Ne.symm h.1), toInt32_step, ih h.2, List.foldl_cons]

theorem strHash_eq {bytes : List UInt8} (hne : bytes ≠ []) (h : 0 ∉ bytes) :
    strHash bytes = some (toInt32 (baseValue bytes)) := by
  have hloop := hashLoop_eq bytes h 0
  rw [show toInt32 0 = 0 from rfl] at hloop
  rw [strHash, (Option.guard_eq_some' ()).mpr (List.length_pos_iff.mpr hne), hloop]
  rfl

theorem mem_token {bytes : List UInt8} {b : UInt8} (h : b ∈ token bytes) :
    b ≠ CR ∧ b ≠ 0 ∧ b ≠ SPACE := by
  have hb := List.mem_takeWhile_imp h
  simpa [not_or, and_assoc] using hb

variable {data : ℕ → UInt8} {bytes : List UInt8} {capacity : ℕ} {requ : HttpRequ}

theorem takeWhile_append_nul {p : UInt8 → Bool} (hp : p 0 = false) (bytes : List UInt8) :
    (bytes ++ [0]).takeWhile p = bytes.takeWhile p := by
  induction bytes with
  | nil => rw [List.nil_append, List.takeWhile_cons, hp]; rfl
  | cons b bytes ih => rw [List.cons_append, List.takeWhile_cons, List.takeWhile_cons, ih]

theorem Terminated.scan (h : Terminated data bytes) (hcap : bytes.length < capacity)
    (stop : UInt8 → Bool) (hstop : stop 0 = true) :
    Shfs.scan stop data capacity 0 = some (bytes.takeWhile fun b => !stop b).length := by
  have hany : (bytes ++ [0]).any stop = true := by
    rw [List.any_append, List.any_cons, hstop, Bool.true_or, Bool.or_true]
  have hscan := scan_slice stop h.slice
  rw [if_pos hany, Nat.zero_add, takeWhile_append_nul (by rw [hstop]; rfl)] at hscan
  apply scan_room hscan
  rw [List.length_append]
  exact hcap

theorem Terminated.slice_prefix (h : Terminated data bytes) {head : List UInt8}
    (hp : head <+: bytes) : Bytes.slice data 0 head.length = head := by
  obtain ⟨rest, rfl⟩ := hp
  have hall := h.received
  rw [List.length_append, slice_add] at hall
  exact (List.append_inj hall (length_slice _ _ _)).1

theorem requestLine_ne_nil (htoken : token bytes ≠ []) : requestLine bytes ≠ [] := by
  cases bytes with
  | nil => exact htoken
  | cons b bytes =>
    intro hnil
    rw [requestLine, List.takeWhile_cons] at hnil
    split_ifs at hnil with hb
    apply htoken
    rw [token, List.takeWhile_cons, if_neg]
    intro ht
    apply hb
    simp only [Bool.not_eq_true', Bool.or_eq_false_iff] at ht ⊢
    exact ⟨ht.1.2, ht.1.1⟩

theorem parseMethod_eq (h : Terminated data bytes) (hcap : bytes.length < capacity)
    (htoken : token bytes ≠ []) :
    parseMethod data capacity requ =
      some (if toInt32 (baseValue (token bytes)) = RM_HTTP_GET then
        some ((requestLine bytes).length, { requ with mRequMethod := RM_HTTP_GET }) else none) := by
  have hline := h.scan hcap (fun b => b = 0 || b = CR) rfl
  have hitem := h.scan hcap (fun b => b = CR || b = 0 || b = SPACE) rfl
  have hslice : slice data 0 (token bytes).length = token bytes :=
    h.slice_prefix (List.takeWhile_prefix _)
  have hplain : 0 ∉ token bytes := fun hmem => (mem_token hmem).2.1 rfl
  have hpos : ¬(requestLine bytes).length = 0 := by
    rw [List.length_eq_zero_iff]
    exact requestLine_ne_nil htoken
  simp only [parseMethod, hline, hitem, Option.bind_eq_bind, Option.bind_some]
  rw [← requestLine, ← token, if_neg hpos, hslice, strHash_eq htoken hplain, Option.bind_some]
  by_cases hget : toInt32 (baseValue (token bytes)) = RM_HTTP_GET
  · rw [if_neg (not_not.mpr hget), if_pos hget]
  · rw [if_pos hget, if_neg hget]

def placeValue : List UInt8 → ℤ
  | [] => 0
  | b :: _ => charValue b

def endValue : List UInt8 → ℤ
  | [] => 0
  | b :: bytes => charValue b + 32 * endValue bytes

theorem endValue_eq (bytes : List UInt8) :
    endValue bytes = placeValue bytes + 32 * endValue bytes.tail := by
  cases bytes with
  | nil => rfl
  | cons b bytes => rfl

theorem baseValue_eq (bytes : List UInt8) : baseValue bytes = endValue bytes.reverse := by
  induction bytes using List.reverseRecOn with
  | nil => rfl
  | append_singleton bytes b ih =>
    rw [List.reverse_append, List.reverse_singleton, List.singleton_append, endValue,
      ← ih, baseValue, List.foldl_append, ← baseValue, List.foldl_cons, List.foldl_nil]
    ring

/-- Two words read from their ends. In each place the bytes, with the carry of the places behind,
differ by a multiple of 32; in the last one by a multiple of 4, and further places do not count. -/
def CarriesOut : ℕ → ℤ → List UInt8 → List UInt8 → Prop
  | 0, carry, bytes, word => 4 ∣ carry + placeValue bytes - placeValue word
  | n + 1, carry, bytes, word =>
    32 ∣ carry + placeValue bytes - placeValue word ∧
      CarriesOut n ((carry + placeValue bytes - placeValue word) / 32) bytes.tail word.tail

instance CarriesOut.decidable :
    ∀ n carry bytes word, Decidable (CarriesOut n carry bytes word)
  | 0, _, _, _ => inferInstanceAs (Decidable (4 ∣ _))
  | n + 1, carry, bytes, word =>
    have := CarriesOut.decidable n ((carry + placeValue bytes - placeValue word) / 32)
      bytes.tail word.tail
    inferInstanceAs (Decidable (_ ∧ _))

/-- An `int` has six places of five bits and two more bits. -/
def Collides (bytes word : List UInt8) : Prop := CarriesOut 6 0 bytes.reverse word.reverse

instance (bytes word : List UInt8) : Decidable (Collides bytes word) :=
  inferInstanceAs (Decidable (CarriesOut _ _ _ _))

theorem dvd_place_iff (n : ℕ) (x y : ℤ) :
    2 ^ (5 * (n + 1) + 2) ∣ x + 32 * y ↔ 32 ∣ x ∧ 2 ^ (5 * n + 2) ∣ x / 32 + y := by
  have hpow : (2 : ℤ) ^ (5 * (n + 1) + 2) = 32 * 2 ^ (5 * n + 2) := by ring
  rw [hpow]
  constructor
  · intro h
    have hx : (32 : ℤ) ∣ x :=
      (Int.dvd_add_left (Int.dvd_mul_right 32 y)).mp (dvd_of_mul_right_dvd h)
    obtain ⟨q, rfl⟩ := hx
    rw [← mul_add] at h
    rw [Int.mul_ediv_cancel_left _ (by decide)]
    exact ⟨Int.dvd_mul_right 32 q, Int.dvd_of_mul_dvd_mul_left (by decide) h⟩
  · rintro ⟨⟨q, rfl⟩, h⟩
    rw [Int.mul_ediv_cancel_left _ (by decide)] at h
    rw [← mul_add]
    exact mul_dvd_mul_left 32 h

theorem carriesOut_iff (n : ℕ) (carry : ℤ) (bytes word : List UInt8) :
    CarriesOut n carry bytes word ↔ 2 ^ (5 * n + 2) ∣ carry + endValue bytes - endValue word := by
  induction n generalizing carry bytes word with
  | zero =>
    rw [CarriesOut, endValue_eq bytes, endValue_eq word]
    omega
  | succ n ih =>
    have hsplit : carry + endValue bytes - endValue word =
        (carry + placeValue bytes - placeValue word) +
          32 * (endValue bytes.tail - endValue word.tail) := by
      rw [endValue_eq bytes, endValue_eq word]
      ring
    rw [CarriesOut, ih, hsplit, dvd_place_iff, add_sub_assoc _ (endValue _)]

theorem collides_iff (bytes word : List UInt8) :
    Collides bytes word ↔ toInt32 (baseValue bytes) = toInt32 (baseValue word) := by
  rw [Collides, carriesOut_iff, ← baseValue_eq, ← baseValue_eq, zero_add, toInt32_eq_iff]

def Capital (b : UInt8) : Prop := 65 ≤ b.toNat ∧ b.toNat ≤ 90

instance (b : UInt8) : Decidable (Capital b) := inferInstanceAs (Decidable (_ ∧ _))

theorem Capital.charValue_eq {b : UInt8} (h : Capital b) : charValue b = b.toNat := by
  have := h.2
  exact if_pos (by omega)

theorem CarriesOut.eq_of_capital {n : ℕ} {bytes word : List UInt8} (h : CarriesOut n 0 bytes word)
    (hbytes : ∀ b ∈ bytes, Capital b) (hword : ∀ b ∈ word, Capital b) (hn : word.length < n) :
    bytes = word := by
  induction word generalizing n bytes with
  | nil =>
    obtain ⟨n, rfl⟩ := Nat.exists_eq_succ_of_ne_zero hn.ne'
    cases bytes with
    | nil => rfl
    | cons b bytes =>
      -- no capital letter is a multiple of 32
      have hb := hbytes b List.mem_cons_self
      have hdvd := h.1
      rw [placeValue, placeValue, hb.charValue_eq] at hdvd
      obtain ⟨hlow, hhigh⟩ := hb
      omega
  | cons c word ih =>
    obtain ⟨n, rfl⟩ := Nat.exists_eq_succ_of_ne_zero (Nat.ne_zero_of_lt hn)
    have hc := hword c List.mem_cons_self
    have hdvd := h.1
    cases bytes with
    | nil =>
      rw [placeValue, placeValue, hc.charValue_eq] at hdvd
      obtain ⟨hlow, hhigh⟩ := hc
      omega
    | cons b bytes =>
      -- two capital letters are less than 32 apart, so there is no carry
      have hb := hbytes b List.mem_cons_self
      rw [placeValue, placeValue, hb.charValue_eq, hc.charValue_eq] at hdvd
      obtain rfl : b = c := by
        obtain ⟨hlow, hhigh⟩ := hb
        obtain ⟨hlow', hhigh'⟩ := hc
        rw [← UInt8.toNat_inj]
        omega
      have hrest := h.2
      rw [placeValue, placeValue, zero_add, sub_self, Int.zero_ediv, List.tail_cons,
        List.tail_cons] at hrest
      rw [ih hrest (fun x hx => hbytes x (List.mem_cons_of_mem _ hx))
        (fun x hx => hword x (List.mem_cons_of_mem _ hx)) (Nat.lt_of_succ_lt_succ hn)]

theorem Collides.eq_of_capital {bytes word : List UInt8} (h : Collides bytes word)
    (hbytes : ∀ b ∈ bytes, Capital b) (hword : ∀ b ∈ word, Capital b) (hlen : word.length < 6) :
    bytes = word := by
  apply List.reverse_injective
  apply CarriesOut.eq_of_capital h
  · intro b hb
    exact hbytes b (List.mem_reverse.mp hb)
  · intro b hb
    exact hword b (List.mem_reverse.mp hb)
  · rw [List.length_reverse]
    exact hlen

theorem toInt32_baseValue_get : toInt32 (baseValue (text "GET")) = RM_HTTP_GET := by
  decide

def PassesAsGet (data : ℕ → UInt8) (capacity : ℕ) (requ : HttpRequ) : Prop :=
  ∃ lineLen requ', parseMethod data capacity requ = some (some (lineLen, requ')) ∧
    requ'.mRequMethod = RM_HTTP_GET

theorem passes_iff (h : Terminated data bytes) (hcap : bytes.length < capacity)
    (htoken : token bytes ≠ []) :
    PassesAsGet data capacity requ ↔ Collides (token bytes) (text "GET") := by
  rw [PassesAsGet, parseMethod_eq h hcap htoken, collides_iff, toInt32_baseValue_get]
  by_cases hget : toInt32 (baseValue (token bytes)) = RM_HTTP_GET
  · rw [if_pos hget]
    exact iff_of_true ⟨_, _, rfl, rfl⟩ hget
  · rw [if_neg hget]
    refine iff_of_false ?_ hget
    rintro ⟨lineLen, requ', hpass, -⟩
    cases hpass

theorem only_get_iff (bytes : List UInt8) (data : ℕ → UInt8) (capacity : ℕ) (requ : HttpRequ)
    (h : Terminated data bytes) (hcap : bytes.length < capacity) (htoken : token bytes ≠ []) :
    ((PassesAsGet data capacity requ ↔ token bytes = text "GET") ↔
      token bytes = text "GET" ∨ ¬Collides (token bytes) (text "GET")) ∧
    ((∀ b ∈ token bytes, Capital b) →
      (PassesAsGet data capacity requ ↔ token bytes = text "GET")) := by
  have hself : token bytes = text "GET" → Collides (token bytes) (text "GET") := by
    intro htok
    rw [htok, collides_iff]
  rw [passes_iff h hcap htoken]
  constructor
  · constructor
    · intro hiff
      by_cases hc : Collides (token bytes) (text "GET")
      · exact .inl (hiff.mp hc)
      · exact .inr hc
    · rintro (htok | hc)
      · exact iff_of_true (hself htok) htok
      · exact iff_of_false hc fun htok => hc (hself htok)
  · intro hcapital
    refine ⟨fun hc => ?_, hself⟩
    exact hc.eq_of_capital hcapital (by decide +kernel) (by decide)

theorem only_get_iff_head :
    ¬Collides (token (text "HEAD /")) (text "GET") ∧ (∀ b ∈ token (text "HEAD /"), Capital b) ∧
      ¬PassesAsGet (memoryOf (text "HEAD /")) 7 ⟨0, 0⟩ := by
  have hcapital : ∀ b ∈ token (text "HEAD /"), Capital b := by decide +kernel
  have hiff := only_get_iff (text "HEAD /") _ 7 ⟨0, 0⟩ (terminated_memoryOf _)
    (by decide) (by decide)
  refine ⟨?_, hcapital, (hiff.2 hcapital).not.mpr (by decide)⟩
  exact (hiff.1.mp (hiff.2 hcapital)).resolve_left (by decide)

theorem gdt_passes_for_get :
    token (text "GDt /") = text "GDt" ∧
      parseMethod (memoryOf (text "GDt /")) 6 ⟨0, 0⟩ = some (some (5, ⟨RM_HTTP_GET, 0⟩)) := by
  refine ⟨by decide, ?_⟩
  rw [parseMethod_eq (terminated_memoryOf _) (by decide) (by decide)]
  rfl

end AnalysisPrograms.Shfs
