import AnalysisPrograms.JsonChecker.Automaton

namespace AnalysisPrograms.JsonChecker

open Classes

def IsWhite (w : List Classes) : Prop := ∀ c ∈ w, c = C_SPACE ∨ c = C_WHITE

def IsDigit (c : Classes) : Prop := c = C_ZERO ∨ c = C_DIGIT

def IsDigits (ds : List Classes) : Prop := ∀ c ∈ ds, IsDigit c

def IsHex (c : Classes) : Prop :=
  c ∈ [C_ZERO, C_DIGIT, C_LOW_A, C_LOW_B, C_LOW_C, C_LOW_D, C_LOW_E, C_LOW_F, C_ABCDF, C_E]

instance : DecidablePred IsHex := fun c =>
  inferInstanceAs
    (Decidable
      (c ∈ [C_ZERO, C_DIGIT, C_LOW_A, C_LOW_B, C_LOW_C, C_LOW_D, C_LOW_E, C_LOW_F, C_ABCDF, C_E]))

def IsEscape (c : Classes) : Prop :=
  c ∈ [C_QUOTE, C_BACKS, C_SLASH, C_LOW_B, C_LOW_F, C_LOW_N, C_LOW_R, C_LOW_T]

instance : DecidablePred IsEscape := fun c =>
  inferInstanceAs
    (Decidable (c ∈ [C_QUOTE, C_BACKS, C_SLASH, C_LOW_B, C_LOW_F, C_LOW_N, C_LOW_R, C_LOW_T]))

inductive Body : List Classes → Prop
  | nil : Body []
  | plain {c : Classes} {s : List Classes} : c ≠ C_WHITE → c ≠ C_QUOTE → c ≠ C_BACKS →
    Body s → Body (c :: s)
  | escape {c : Classes} {s : List Classes} : IsEscape c → Body s → Body (C_BACKS :: c :: s)
  | unicode {a b c d : Classes} {s : List Classes} : IsHex a → IsHex b → IsHex c →
    IsHex d → Body s →
      Body (C_BACKS :: C_LOW_U :: a :: b :: c :: d :: s)

def IsString (s : List Classes) : Prop := ∃ body, Body body ∧ s = C_QUOTE :: (body ++ [C_QUOTE])

def IsInteger (s : List Classes) : Prop := s = [C_ZERO] ∨ ∃ ds, IsDigits ds ∧ s = C_DIGIT :: ds

def IsFraction (s : List Classes) : Prop := ∃ ds, IsDigits ds ∧ ds ≠ [] ∧ s = C_POINT :: ds

def IsExponent (s : List Classes) : Prop :=
  ∃ e sign ds, (e = C_LOW_E ∨ e = C_E) ∧ (sign = [] ∨ sign = [C_PLUS] ∨ sign = [C_MINUS]) ∧
    IsDigits ds ∧ ds ≠ [] ∧ s = e :: (sign ++ ds)

def IsJsonNumber (s : List Classes) : Prop :=
  ∃ sign int frac exp, (sign = [] ∨ sign = [C_MINUS]) ∧ IsInteger int ∧
    (frac = [] ∨ IsFraction frac) ∧ (exp = [] ∨ IsExponent exp) ∧ s = sign ++ (int ++ (frac ++ exp))

/-- A number of JSON that the table has no way for, such as `0e1`: an exponent right after a
zero. -/
def ZeroExponent (s : List Classes) : Prop :=
  ∃ sign exp, (sign = [] ∨ sign = [C_MINUS]) ∧ IsExponent exp ∧ s = sign ++ C_ZERO :: exp

/-- What the table takes for a number beyond JSON, such as `1.` and `1.e1`: no digits after the
point. -/
def BarePoint (s : List Classes) : Prop :=
  ∃ sign int exp, (sign = [] ∨ sign = [C_MINUS]) ∧ IsInteger int ∧ (exp = [] ∨ IsExponent exp) ∧
    s = sign ++ (int ++ C_POINT :: exp)

def IsNumber (s : List Classes) : Prop := (IsJsonNumber s ∧ ¬ZeroExponent s) ∨ BarePoint s

def IsScalar (s : List Classes) : Prop :=
  IsString s ∨ IsNumber s ∨ s = [C_LOW_T, C_LOW_R, C_LOW_U, C_LOW_E] ∨
    s = [C_LOW_F, C_LOW_A, C_LOW_L, C_LOW_S, C_LOW_E] ∨ s = [C_LOW_N, C_LOW_U, C_LOW_L, C_LOW_L]

inductive Kind
  | value
  | container
  | elements
  | members

/-- The texts of a kind with at most this many containers one inside the other. -/
inductive Derives : Kind → ℕ → List Classes → Prop
  | scalar {n : ℕ} {s : List Classes} : IsScalar s → Derives .value n s
  | nested {n : ℕ} {s : List Classes} : Derives .container n s → Derives .value n s
  | emptyArray {n : ℕ} {w : List Classes} : IsWhite w →
    Derives .container (n + 1) (C_LSQRB :: (w ++ [C_RSQRB]))
  | array {n : ℕ} {s : List Classes} : Derives .elements n s →
    Derives .container (n + 1) (C_LSQRB :: (s ++ [C_RSQRB]))
  | emptyObject {n : ℕ} {w : List Classes} : IsWhite w →
    Derives .container (n + 1) (C_LCURB :: (w ++ [C_RCURB]))
  | object {n : ℕ} {s : List Classes} : Derives .members n s →
    Derives .container (n + 1) (C_LCURB :: (s ++ [C_RCURB]))
  | element {n : ℕ} {u v w : List Classes} : IsWhite u → Derives .value n v → IsWhite w →
    Derives .elements n (u ++ (v ++ w))
  | elements {n : ℕ} {u v w s : List Classes} : IsWhite u → Derives .value n v → IsWhite w →
    Derives .elements n s →
      Derives .elements n (u ++ (v ++ (w ++ C_COMMA :: s)))
  | member {n : ℕ} {u k x y v w : List Classes} : IsWhite u → IsString k → IsWhite x → IsWhite y →
    Derives .value n v →
      IsWhite w → Derives .members n (u ++ (k ++ (x ++ C_COLON :: (y ++ (v ++ w)))))
  | members {n : ℕ} {u k x y v w s : List Classes} : IsWhite u → IsString k → IsWhite x →
    IsWhite y → Derives .value n v →
      IsWhite w → Derives .members n s →
      Derives .members n (u ++ (k ++ (x ++ C_COLON :: (y ++ (v ++ (w ++ C_COMMA :: s))))))

def IsText (nesting : ℕ) (s : List Classes) : Prop :=
  ∃ u v w, IsWhite u ∧ Derives .container nesting v ∧ IsWhite w ∧ s = u ++ (v ++ w)

end AnalysisPrograms.JsonChecker
