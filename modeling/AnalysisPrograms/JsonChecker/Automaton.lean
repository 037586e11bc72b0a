import Mathlib.Data.Int.Notation
import Mathlib.Data.Nat.Notation

namespace AnalysisPrograms.JsonChecker

inductive Classes
  | C_SPACE | C_WHITE | C_LCURB | C_RCURB | C_LSQRB | C_RSQRB | C_COLON | C_COMMA
  | C_QUOTE | C_BACKS | C_SLASH | C_PLUS | C_MINUS | C_POINT | C_ZERO | C_DIGIT
  | C_LOW_A | C_LOW_B | C_LOW_C | C_LOW_D | C_LOW_E | C_LOW_F | C_LOW_L | C_LOW_N
  | C_LOW_R | C_LOW_S | C_LOW_T | C_LOW_U | C_ABCDF | C_E | C_ETC
deriving DecidableEq

inductive States
  | GO | OK | OB | KE | CO | VA | AR | ST | ES | U1 | U2 | U3 | U4 | MI | ZE
  | IN | FR | E1 | E2 | E3 | T1 | T2 | T3 | F1 | F2 | F3 | F4 | N1 | N2 | N3
deriving DecidableEq

inductive Modes
  | MODE_ARRAY | MODE_DONE | MODE_KEY | MODE_OBJECT
deriving DecidableEq

/-- An entry of the table: a state, or a negative number for an action. -/
inductive Entry
  | state (s : States)
  | action (n : ℤ)
deriving DecidableEq

instance : Coe States Entry := ⟨.state⟩

def err : Entry := .action (-1)

def act (n : ℤ) : Entry := .action n

open Classes States Modes

def asciiClass : List (Option Classes) := List.flatten
  [[none, none, none, none, none, none, none, none,
      none, C_WHITE, C_WHITE, none, none, C_WHITE, none, none,
      none, none, none, none, none, none, none, none,
      none, none, none, none, none, none, none, none],
    [C_SPACE, C_ETC, C_QUOTE, C_ETC, C_ETC, C_ETC, C_ETC, C_ETC,
      C_ETC, C_ETC, C_ETC, C_PLUS, C_COMMA, C_MINUS, C_POINT, C_SLASH,
      C_ZERO, C_DIGIT, C_DIGIT, C_DIGIT, C_DIGIT, C_DIGIT, C_DIGIT, C_DIGIT,
      C_DIGIT, C_DIGIT, C_COLON, C_ETC, C_ETC, C_ETC, C_ETC, C_ETC],
    [C_ETC, C_ABCDF, C_ABCDF, C_ABCDF, C_ABCDF, C_E, C_ABCDF, C_ETC,
      C_ETC, C_ETC, C_ETC, C_ETC, C_ETC, C_ETC, C_ETC, C_ETC,
      C_ETC, C_ETC, C_ETC, C_ETC, C_ETC, C_ETC, C_ETC, C_ETC,
      C_ETC, C_ETC, C_ETC, C_LSQRB, C_BACKS, C_RSQRB, C_ETC, C_ETC],
    [C_ETC, C_LOW_A, C_LOW_B, C_LOW_C, C_LOW_D, C_LOW_E, C_LOW_F, C_ETC,
      C_ETC, C_ETC, C_ETC, C_ETC, C_LOW_L, C_ETC, C_LOW_N, C_ETC,
      C_ETC, C_ETC, C_LOW_R, C_LOW_S, C_LOW_T, C_LOW_U, C_ETC, C_ETC,
      C_ETC, C_ETC, C_ETC, C_LCURB, C_ETC, C_RCURB, C_ETC, C_ETC]]

def stateTransitionTable : States → List Entry
  | GO =>
    [GO, GO, act (-6), err, act (-5), err, err, err, err, err, err, err, err, err, err, err,
      err, err, err, err, err, err, err, err, err, err, err, err, err, err, err]
  | OK =>
    [OK, OK, err, act (-8), err, act (-7), err, act (-3), err, err, err, err, err, err, err, err,
      err, err, err, err, err, err, err, err, err, err, err, err, err, err, err]
  | OB =>
    [OB, OB, err, act (-9), err, err, err, err, ST, err, err, err, err, err, err, err,
      err, err, err, err, err, err, err, err, err, err, err, err, err, err, err]
  | KE =>
    [KE, KE, err, err, err, err, err, err, ST, err, err, err, err, err, err, err,
      err, err, err, err, err, err, err, err, err, err, err, err, err, err, err]
  | CO =>
    [CO, CO, err, err, err, err, act (-2), err, err, err, err, err, err, err, err, err,
      err, err, err, err, err, err, err, err, err, err, err, err, err, err, err]
  | VA =>
    [VA, VA, act (-6), err, act (-5), err, err, err, ST, err, err, err, MI, err, ZE, IN,
      err, err, err, err, err, F1, err, N1, err, err, T1, err, err, err, err]
  | AR =>
    [AR, AR, act (-6), err, act (-5), act (-7), err, err, ST, err, err, err, MI, err, ZE, IN,
      err, err, err, err, err, F1, err, N1, err, err, T1, err, err, err, err]
  | .ST =>
    [ST, err, ST, ST, ST, ST, ST, ST, act (-4), ES, ST, ST, ST, ST, ST, ST,
      ST, ST, ST, ST, ST, ST, ST, ST, ST, ST, ST, ST, ST, ST, ST]
  | ES =>
    [err, err, err, err, err, err, err, err, ST, ST, ST, err, err, err, err, err,
      err, ST, err, err, err, ST, err, ST, ST, err, ST, U1, err, err, err]
  | U1 =>
    [err, err, err, err, err, err, err, err, err, err, err, err, err, err, U2, U2,
      U2, U2, U2, U2, U2, U2, err, err, err, err, err, err, U2, U2, err]
  | U2 =>
    [err, err, err, err, err, err, err, err, err, err, err, err, err, err, U3, U3,
      U3, U3, U3, U3, U3, U3, err, err, err, err, err, err, U3, U3, err]
  | U3 =>
    [err, err, err, err, err, err, err, err, err, err, err, err, err, err, U4, U4,
      U4, U4, U4, U4, U4, U4, err, err, err, err, err, err, U4, U4, err]
  | U4 =>
    [err, err, err, err, err, err, err, err, err, err, err, err, err, err, ST, ST,
      ST, ST, ST, ST, ST, ST, err, err, err, err, err, err, ST, ST, err]
  | MI =>
    [err, err, err, err, err, err, err, err, err, err, err, err, err, err, ZE, IN,
      err, err, err, err, err, err, err, err, err, err, err, err, err, err, err]
  | ZE =>
    [OK, OK, err, act (-8), err, act (-7), err, act (-3), err, err, err, err, err, FR, err, err,
      err, err, err, err, err, err, err, err, err, err, err, err, err, err, err]
  | IN =>
    [OK, OK, err, act (-8), err, act (-7), err, act (-3), err, err, err, err, err, FR, IN, IN,
      err, err, err, err, E1, err, err, err, err, err, err, err, err, E1, err]
  | FR =>
    [OK, OK, err, act (-8), err, act (-7), err, act (-3), err, err, err, err, err, err, FR, FR,
      err, err, err, err, E1, err, err, err, err, err, err, err, err, E1, err]
  | E1 =>
    [err, err, err, err, err, err, err, err, err, err, err, E2, E2, err, E3, E3,
      err, err, err, err, err, err, err, err, err, err, err, err, err, err, err]
  | E2 =>
    [err, err, err, err, err, err, err, err, err, err, err, err, err, err, E3, E3,
      err, err, err, err, err, err, err, err, err, err, err, err, err, err, err]
  | E3 =>
    [OK, OK, err, act (-8), err, act (-7), err, act (-3), err, err, err, err, err, err, E3, E3,
      err, err, err, err, err, err, err, err, err, err, err, err, err, err, err]
  | T1 =>
    [err, err, err, err, err, err, err, err, err, err, err, err, err, err, err, err,
      err, err, err, err, err, err, err, err, T2, err, err, err, err, err, err]
  | T2 =>
    [err, err, err, err, err, err, err, err, err, err, err, err, err, err, err, err,
      err, err, err, err, err, err, err, err, err, err, err, T3, err, err, err]
  | T3 =>
    [err, err, err, err, err, err, err, err, err, err, err, err, err, err, err, err,
      err, err, err, err, OK, err, err, err, err, err, err, err, err, err, err]
  | F1 =>
    [err, err, err, err, err, err, err, err, err, err, err, err, err, err, err, err,
      F2, err, err, err, err, err, err, err, err, err, err, err, err, err, err]
  | F2 =>
    [err, err, err, err, err, err, err, err, err, err, err, err, err, err, err, err,
      err, err, err, err, err, err, F3, err, err, err, err, err, err, err, err]
  | F3 =>
    [err, err, err, err, err, err, err, err, err, err, err, err, err, err, err, err,
      err, err, err, err, err, err, err, err, err, F4, err, err, err, err, err]
  | F4 =>
    [err, err, err, err, err, err, err, err, err, err, err, err, err, err, err, err,
      err, err, err, err, OK, err, err, err, err, err, err, err, err, err, err]
  | N1 =>
    [err, err, err, err, err, err, err, err, err, err, err, err, err, err, err, err,
      err, err, err, err, err, err, err, err, err, err, err, N2, err, err, err]
  | N2 =>
    [err, err, err, err, err, err, err, err, err, err, err, err, err, err, err, err,
      err, err, err, err, err, err, N3, err, err, err, err, err, err, err, err]
  | N3 =>
    [err, err, err, err, err, err, err, err, err, err, err, err, err, err, err, err,
      err, err, err, err, err, err, OK, err, err, err, err, err, err, err, err]

structure Checker where
  state : States
  depth : ℤ
  top : ℤ
  stack : List Modes
deriving DecidableEq

/-- Why there is no checker to go on with: it has been rejected and freed, or `stack` was accessed
out of bounds. -/
inductive Stop
  | reject
  | fault
deriving DecidableEq

def Checker.current (jc : Checker) : Except Stop Modes :=
  match if 0 ≤ jc.top then jc.stack[jc.top.toNat]? else none with
  | some mode => .ok mode
  | none => .error .fault

def push (jc : Checker) (mode : Modes) : Except Stop (Bool × Checker) :=
  if jc.depth ≤ jc.top + 1 then .ok (false, { jc with top := jc.top + 1 })
  else if 0 ≤ jc.top + 1 ∧ (jc.top + 1).toNat < jc.stack.length then
    .ok (true, { jc with top := jc.top + 1, stack := jc.stack.set (jc.top + 1).toNat mode })
  else .error .fault

def pop (jc : Checker) (mode : Modes) : Except Stop (Bool × Checker) :=
  if jc.top < 0 then .ok (false, jc)
  else do
    let current ← jc.current
    if current ≠ mode then .ok (false, jc) else .ok (true, { jc with top := jc.top - 1 })

/-- `calloc` succeeds and leaves zeros; for a negative depth the array has no length. The result of
`push` is not looked at. -/
def newJsonChecker (depth : ℤ) : Except Stop Checker := do
  let (_, jc) ← push ⟨GO, depth, -1, List.replicate depth.toNat MODE_ARRAY⟩ MODE_DONE
  .ok jc

def popOrReject (jc : Checker) (mode : Modes) : Except Stop Checker := do
  let (popped, jc) ← pop jc mode
  if popped then .ok jc else .error .reject

def pushOrReject (jc : Checker) (mode : Modes) : Except Stop Checker := do
  let (pushed, jc) ← push jc mode
  if pushed then .ok jc else .error .reject

def perform (jc : Checker) (action : ℤ) : Except Stop Checker :=
  match action with
  | -9 => do
    let jc ← popOrReject jc MODE_KEY
    .ok { jc with state := OK }
  | -8 => do
    let jc ← popOrReject jc MODE_OBJECT
    .ok { jc with state := OK }
  | -7 => do
    let jc ← popOrReject jc MODE_ARRAY
    .ok { jc with state := OK }
  | -6 => do
    let jc ← pushOrReject jc MODE_KEY
    .ok { jc with state := OB }
  | -5 => do
    let jc ← pushOrReject jc MODE_ARRAY
    .ok { jc with state := AR }
  | -4 => do
    match ← jc.current with
    | MODE_KEY => .ok { jc with state := CO }
    | MODE_ARRAY => .ok { jc with state := OK }
    | MODE_OBJECT => .ok { jc with state := OK }
    | MODE_DONE => .error .reject
  | -3 => do
    match ← jc.current with
    | MODE_OBJECT =>
      let jc ← popOrReject jc MODE_OBJECT
      let jc ← pushOrReject jc MODE_KEY
      .ok { jc with state := KE }
    | MODE_ARRAY => .ok { jc with state := VA }
    | MODE_KEY => .error .reject
    | MODE_DONE => .error .reject
  | -2 => do
    let jc ← popOrReject jc MODE_KEY
    let jc ← pushOrReject jc MODE_OBJECT
    .ok { jc with state := VA }
  | _ => .error .reject

def charClass (nextChar : ℤ) : Option Classes :=
  if nextChar < 0 then none
  else if 128 ≤ nextChar then some C_ETC
  else (asciiClass[nextChar.toNat]?).join

def transition (s : States) (c : Classes) : Entry := ((stateTransitionTable s)[c.ctorIdx]?).getD err

def jsonCheckerChar (jc : Checker) (nextChar : ℤ) : Except Stop Checker :=
  match charClass nextChar with
  | none => .error .reject
  | some nextClass =>
    match transition jc.state nextClass with
    | .state s => .ok { jc with state := s }
    | .action a => perform jc a

def jsonCheckerDone (jc : Checker) : Except Stop Bool :=
  if jc.state = OK then do
    let (popped, _) ← pop jc MODE_DONE
    .ok popped
  else .ok false

def readText (depth : ℤ) (text : List ℤ) : Except Stop Checker := do
  let jc ← newJsonChecker depth
  text.foldlM jsonCheckerChar jc

def check (depth : ℤ) (text : List ℤ) : Except Stop Bool := do
  let jc ← readText depth text
  jsonCheckerDone jc

structure Exit where
  status : ℕ
  message : String
deriving DecidableEq

def readInput (jc : Checker) : List UInt8 → Except Stop Checker
  | [] => .ok jc
  | nextChar :: input =>
    if nextChar.toNat ≤ 0 then .ok jc
    else do
      let jc ← jsonCheckerChar jc nextChar.toNat
      readInput jc input

def testMain (input : List UInt8) : Except Stop Exit := do
  let jc ← newJsonChecker 20
  match readInput jc input with
  | .error .fault => .error .fault
  | .error .reject => .ok ⟨1, "json_checker_char: syntax error\n"⟩
  | .ok jc =>
    if ← jsonCheckerDone jc then .ok ⟨0, ""⟩
    else .ok ⟨1, "json_checker_end: syntax error\n"⟩

end AnalysisPrograms.JsonChecker
