import AnalysisPrograms.Shfs.OffsetText
import AnalysisPrograms.Shfs.Outcome

namespace AnalysisPrograms.Shfs

open Foundations Bytes Decimal

def Outcome.status : Outcome → RespStatus
  | .notFound => .rsHttp404
  | .forbidden => .rsHttp403
  | .found _ _ => .rsHttp200

def Outcome.statusLine : Outcome → String
  | .notFound => "HTTP/1.1 404 File Not Found\r\n"
  | .forbidden => "HTTP/1.1 403 Forbidden\r\n"
  | .found _ _ => "HTTP/1.1 200 OK\r\n"

def Outcome.mime : Outcome → String
  | .notFound => "text/html"
  | .forbidden => "text/html"
  | .found _ mime => mime

def Outcome.body : Outcome → List UInt8
  | .notFound => HTTP404CONTENT
  | .forbidden => HTTP403CONTENT
  | .found contents _ => contents.bytes

def Outcome.header (o : Outcome) : List UInt8 :=
  headerText o.statusLine (numeral o.body.length) o.mime

def Outcome.response (o : Outcome) : List UInt8 := o.header ++ o.body

theorem text_append (s s' : String) : text (s ++ s') = text s ++ text s' := by
  rw [text, String.toList_append, List.map_append]
  rfl

theorem length_HTTP403CONTENT : HTTP403CONTENT.length = 197 := by
  simp only [HTTP403CONTENT, HTML32DOCTYPE, text_append, List.length_append]
  decide +kernel

theorem length_HTTP404CONTENT : HTTP404CONTENT.length = 194 := by
  simp only [HTTP404CONTENT, HTML32DOCTYPE, text_append, List.length_append]
  decide +kernel

theorem HTTP403CONTENT_ne_nil : HTTP403CONTENT ≠ [] := by
  rw [← List.length_pos_iff, length_HTTP403CONTENT]
  omega

theorem HTTP404CONTENT_ne_nil : HTTP404CONTENT ≠ [] := by
  rw [← List.length_pos_iff, length_HTTP404CONTENT]
  omega

theorem offsetToStr_eq {n : ℕ} (h : n < 10 ^ 32) :
    offsetToStr n 32 = (((numeral n).length : ℤ), numeral n) := by
  have hneg : ¬(n : ℤ) < 0 := by omega
  by_cases hz : n = 0
  · subst hz
    rw [numeral, if_pos (by omega)]
    rfl
  · have hz' : ¬(n : ℤ) = 0 := by omega
    have hdigits := digitLoop_reverse (Nat.pos_of_ne_zero hz) h
    have hlen : (digitLoop 32 n).length = (numeral n).length := by
      rw [← hdigits, List.length_reverse]
    simp only [offsetToStr, hneg, hz', ↓reduceIte, Int.toNat_natCast, hdigits, hlen]

def mimes : List String :=
  ["text/html", "image/x-icon", "image/png", "image/jpeg", "text/plain", "audio/mpeg",
    "video/flv", "video/mp4", "video/avi", "video/rmvb", "video/mkv", "application/octet-stream"]

theorem ite_mem {c : Prop} [Decidable c] {a b : String} {xs : List String} (ha : a ∈ xs)
    (hb : b ∈ xs) : (if c then a else b) ∈ xs := by
  by_cases hc : c
  · rwa [if_pos hc]
  · rwa [if_neg hc]

theorem mimeOf_mem (filetype : List UInt8) : mimeOf filetype ∈ mimes := by
  unfold mimeOf
  repeat' apply ite_mem
  all_goals simp [mimes]

theorem length_text_mimeOf (filetype : List UInt8) : (text (mimeOf filetype)).length ≤ 24 := by
  have hall : ∀ mime ∈ mimes, (text mime).length ≤ 24 := by decide +kernel
  exact hall _ (mimeOf_mem filetype)

theorem outcomeOf_mime {srv : Server} {item : List UInt8} {canOpen : Bool} {o : Outcome}
    (h : outcomeOf srv item canOpen = some o) : (text o.mime).length ≤ 24 := by
  obtain ⟨path, -, rfl⟩ := Option.map_eq_some_iff.mp h
  cases path with
  | none =>
    simp only [Outcome.ofPath]
    decide
  | some path =>
    cases hc : if canOpen then srv.fs.contents path else none with
    | none =>
      simp only [Outcome.ofPath, hc]
      decide
    | some contents =>
      simp only [Outcome.ofPath, hc]
      exact length_text_mimeOf _

theorem length_body_lt (o : Outcome) : o.body.length < 2 ^ 63 := by
  cases o with
  | notFound => simp only [Outcome.body, length_HTTP404CONTENT]; omega
  | forbidden => simp only [Outcome.body, length_HTTP403CONTENT]; omega
  | found contents mime => exact contents.fits

theorem length_statusLine_le (o : Outcome) : (text o.statusLine).length ≤ 29 := by
  cases o with
  | notFound => decide
  | forbidden => decide
  | found contents mime =>
    simp only [Outcome.statusLine]
    decide

theorem length_header_lt {o : Outcome} (hmime : (text o.mime).length ≤ 24) :
    o.header.length < 4096 := by
  have hline := length_statusLine_le o
  have hbody := length_body_lt o
  have hlen := length_numeral_le (n := o.body.length) (k := 18) (by omega)
  have h₁ : (text SERVER_NAME).length = 18 := by decide
  have h₂ : (text "Content-Length: ").length = 16 := by decide
  have h₃ : (text "Content-Transfer-Encoding: binary\r\n").length = 35 := by decide
  have h₄ : (text "Cache-Control: must-revalidate, post-check=0, pre-check=0\r\n").length = 59 := by
    decide +kernel
  have h₅ : (text "Connection: keep-alive\r\n").length = 24 := by decide
  have h₆ : (text "Pragma: public\r\n").length = 16 := by decide
  have h₇ : (text "Content-Type: ").length = 14 := by decide
  have h₈ : (text "\r\n\r\n").length = 4 := by decide
  have h₉ : (text "\r\n").length = 2 := by decide
  simp only [Outcome.header, headerText, List.length_append, h₁, h₂, h₃, h₄, h₅, h₆, h₇, h₈, h₉]
  omega

theorem version_prefix_response (o : Outcome) : text "HTTP/1.1 " <+: o.response := by
  have hline : text "HTTP/1.1 " <+: text o.statusLine := by
    cases o with
    | notFound => simp only [Outcome.statusLine]; decide
    | forbidden => simp only [Outcome.statusLine]; decide
    | found contents mime => simp only [Outcome.statusLine]; decide
  simp only [Outcome.response, Outcome.header, headerText, List.append_assoc]
  exact hline.trans (List.prefix_append _ _)

theorem header_ne_nil (o : Outcome) : o.header ≠ [] := by
  intro h
  have hlen := congrArg List.length h
  have h₁ : (text SERVER_NAME).length = 18 := by decide
  simp only [Outcome.header, headerText, List.length_append, h₁, List.length_nil] at hlen
  omega

end AnalysisPrograms.Shfs
