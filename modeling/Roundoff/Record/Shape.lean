import Roundoff.Binary64.Arithmetic
import Roundoff.Json.Basic
import Roundoff.Record.IntegerText
import Roundoff.Text.Pattern

/-! # Record shapes

A shape describes a record by its fields.  Conforming a value to a shape checks every field,
converts what may be converted (a whole float, a boolean or an integer text where an integer
belongs), fills in defaults and drops unknown members.  All problems are reported, each with the
path to the value it is about.
-/
namespace Roundoff

/-- What is wrong with a value. -/
inductive ProblemKind where
  | missing
  | stringType
  | stringTooShort
  | stringPatternMismatch
  | enum
  | literalError
  | listType
  | modelType
  | boolType
  | boolParsing
  | intType
  | intParsing
  | intParsingSize
  | intFromFloat
  | finiteNumber
  | greaterThan
  | greaterThanEqual
  | lessThanEqual
  deriving DecidableEq, Repr

/-- The name of a kind of problem. -/
def ProblemKind.name : ProblemKind → String
  | missing => "missing"
  | stringType => "string_type"
  | stringTooShort => "string_too_short"
  | stringPatternMismatch => "string_pattern_mismatch"
  | enum => "enum"
  | literalError => "literal_error"
  | listType => "list_type"
  | modelType => "model_type"
  | boolType => "bool_type"
  | boolParsing => "bool_parsing"
  | intType => "int_type"
  | intParsing => "int_parsing"
  | intParsingSize => "int_parsing_size"
  | intFromFloat => "int_from_float"
  | finiteNumber => "finite_number"
  | greaterThan => "greater_than"
  | greaterThanEqual => "greater_than_equal"
  | lessThanEqual => "less_than_equal"

/-- A problem with the value at a path. -/
structure Problem where
  path : List String
  kind : ProblemKind
  deriving DecidableEq, Repr

/-- The range of an integer field.  The lower end comes first when both are violated. -/
structure IntRange where
  above : Option Int := none
  atLeast : Option Int := none
  atMost : Option Int := none
  deriving DecidableEq, Repr

/-- The end of a range that an integer violates. -/
def IntRange.violation? (r : IntRange) (i : Int) : Option ProblemKind :=
  if r.above.any (i ≤ ·) then some .greaterThan
  else if r.atMost.any (· < i) then some .lessThanEqual
  else if r.atLeast.any (i < ·) then some .greaterThanEqual
  else none

/-- The shape of a value. -/
inductive Shape where
  /-- A string with a least length and possibly a form. -/
  | text (minLength : Nat) (pattern : Option Text.Pattern)
  /-- One of some strings. -/
  | choice (options : List String)
  /-- One fixed string. -/
  | constant (value : String)
  /-- An integer in a range. -/
  | integer (range : IntRange)
  /-- A boolean. -/
  | boolean
  /-- A value or null. -/
  | optional (shape : Shape)
  /-- A list of values of one shape. -/
  | list (item : Shape)
  /-- An object with named fields; a field without default is required. -/
  | record (fields : List (String × Shape × Option Json))

namespace Shape

/-- The size that whole floats have to stay below, and that sets numbers too large for a
boolean apart: one more than the largest signed word of 64 bits. -/
def wordBound : Nat := 0x8000000000000000

/-- The integer that a value may be converted to. -/
def toInteger : Json → Except ProblemKind Int
  | .int i => .ok i
  | .bool b => .ok (if b then 1 else 0)
  | .float x =>
    if !x.isFinite then .error .finiteNumber
    else if !x.isIntegral then .error .intFromFloat
    else if x.toRat.num.natAbs < wordBound then .ok x.toRat.num
    else .error .intParsingSize
  | .string s =>
    match IntegerText.read s.toList with
    | .ok i => .ok i
    | .error .malformed => .error .intParsing
    | .error .tooLong => .error .intParsingSize
  | _ => .error .intType

/-- The words that may stand for a boolean. -/
def booleanWord? (s : String) : Option Bool :=
  let word := s.toLower
  if ["1", "on", "t", "true", "y", "yes"].contains word then some true
  else if ["0", "off", "f", "false", "n", "no"].contains word then some false
  else none

/-- The boolean that a value may be converted to. -/
def toBoolean : Json → Except ProblemKind Bool
  | .bool b => .ok b
  | .int i =>
    if i = 0 then .ok false
    else if i = 1 then .ok true
    else .error (if -wordBound ≤ i ∧ i < wordBound then .boolParsing else .boolType)
  | .float x =>
    if x.isZero then .ok false
    else if x = Binary64.one then .ok true
    else .error (if x.isIntegral ∧ x.toRat.num.natAbs < wordBound then .boolParsing else .boolType)
  | .string s =>
    match booleanWord? s with
    | some b => .ok b
    | none => .error .boolParsing
  | _ => .error .boolType

/-- The problems of a part, seen from the whole. -/
def within {α : Type} (step : String) (r : Except (List Problem) α) : Except (List Problem) α :=
  r.mapError fun ps => ps.map fun p => { p with path := step :: p.path }

/-- One result and those of the rest: all problems, or all values. -/
def both {α β γ : Type} (f : α → β → γ) :
    Except (List Problem) α → Except (List Problem) β → Except (List Problem) γ
  | .ok a, .ok b => .ok (f a b)
  | .error ps, .ok _ => .error ps
  | .ok _, .error qs => .error qs
  | .error ps, .error qs => .error (ps ++ qs)

/-- The results of items, each under its index. -/
def collect : Nat → List (Except (List Problem) Json) → Except (List Problem) (List Json)
  | _, [] => .ok []
  | i, r :: rs => both List.cons (within (Numeral.text i) r) (collect (i + 1) rs)

/-- A problem with the value itself. -/
def problem {α : Type} (kind : ProblemKind) : Except (List Problem) α :=
  .error [⟨[], kind⟩]

mutual

/-- A value in its conforming form, or all problems with it. -/
def conform : Shape → Json → Except (List Problem) Json
  | text minLength pattern, v =>
    match v with
    | .string s =>
      if s.length < minLength then problem .stringTooShort
      else if pattern.any fun p => !p.fits s.toList then problem .stringPatternMismatch
      else .ok v
    | _ => problem .stringType
  | choice options, v =>
    match v with
    | .string s => if options.contains s then .ok v else problem .enum
    | _ => problem .enum
  | constant value, v =>
    match v with
    | .string s => if s = value then .ok v else problem .literalError
    | _ => problem .literalError
  | integer range, v =>
    match toInteger v with
    | .error kind => problem kind
    | .ok i =>
      match range.violation? i with
      | some kind => problem kind
      | none => .ok (.int i)
  | boolean, v =>
    match toBoolean v with
    | .error kind => problem kind
    | .ok b => .ok (.bool b)
  | optional shape, v =>
    match v with
    | .null => .ok .null
    | v => conform shape v
  | list item, v =>
    match v with
    | .array vs => (collect 0 (vs.map (conform item))).map .array
    | _ => problem .listType
  | record fields, v =>
    match v with
    | .object members => (conformFields fields members).map .object
    | _ => problem .modelType

/-- The fields of a record, each under its name. -/
def conformFields : List (String × Shape × Option Json) → List (String × Json) →
    Except (List Problem) (List (String × Json))
  | [], _ => .ok []
  | (name, shape, default) :: fields, members =>
    let value :=
      match Json.lookup? name members with
      | some v => conform shape v
      | none =>
        match default with
        | some v => .ok v
        | none => problem .missing
    both (fun v ms => (name, v) :: ms) (within name value) (conformFields fields members)

end

/-- The order in which problems are listed: by path, then by the name of their kind. -/
def listedBefore (p q : Problem) : Bool :=
  if p.path = q.path then decide (p.kind.name ≤ q.kind.name) else decide (p.path < q.path)

/-- Problems in the order in which they are listed. -/
def listed (ps : List Problem) : List Problem :=
  ps.mergeSort listedBefore

end Shape

end Roundoff
