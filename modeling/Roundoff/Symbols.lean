import Roundoff.Literal
import Roundoff.Shadow.Basic

/-! # Symbol tables

Named constants and functions.  A constant has an exact rational value and a shadow.  The exact
value of an irrational constant is itself a decimal approximation, and the constant is marked as
such.  A function has an exact and a shadow meaning on the same arguments.  Its exact meaning may
fail: by an operation that has no value, or with an error of its own, which is about whatever the
function says it is about.  A table keeps its entries in the order in which their names first came
up; a later entry of the same name takes the place of the earlier one.
-/
namespace Roundoff

/-- A constant with both of its values. -/
structure NamedConstant where
  name : String
  exact : Rat
  shadow : Shadow
  approximate : Bool
  description : String := ""
  deriving DecidableEq, Repr

namespace NamedConstant

/-- A constant whose exact value stands for an irrational number.  Its shadow carries no event:
the rounding belongs to the approximation. -/
def approximation (name : String) (exact : Rat) (description : String := "") : NamedConstant :=
  { name, exact, shadow := ⟨Binary64.ofRat exact, []⟩, approximate := true, description }

/-- A rational constant; its shadow rounds it like a literal spelled as the name. -/
def rational (name : String) (exact : Rat) (description : String := "") : NamedConstant :=
  { name, exact, shadow := Shadow.ofRat exact (some name), approximate := false, description }

end NamedConstant

/-- An error that a function raises itself.  It has a message, never an empty one, and a place of
its own, an offset in the line, if the function knows one; nothing ties that place to the call. -/
inductive RaisedError where
  /-- A character starts no token. -/
  | lex (position : Nat) (character : String)
  /-- A text is malformed.  Without a message it says what was expected and what was found. -/
  | parse (position : Nat) (expected found : String) (message : Option String)
      (spoken : message ≠ some "")
  /-- There is more to compute than the function allows. -/
  | resource (message : String) (position : Option Nat) (spoken : message ≠ "")
  /-- A name stands for nothing. -/
  | unknownName (name : String) (position : Option Nat)
  /-- The arguments are not in the domain of the function. -/
  | domain (message : String) (position : Option Nat) (spoken : message ≠ "")
  deriving DecidableEq, Repr

namespace RaisedError

/-- The message of an error. -/
def message : RaisedError → String
  | lex position character =>
    "unrecognized character " ++ Text.quote character ++ " at position " ++ Numeral.text position
  | parse position expected found message _ =>
    message.getD ("expected " ++ expected ++ ", found " ++ found ++ " at position "
      ++ Numeral.text position)
  | resource message _ _ => message
  | unknownName name _ => "unknown identifier " ++ Text.quote name
  | domain message _ _ => message

/-- The place in the line that an error claims to be about. -/
def position : RaisedError → Option Nat
  | lex position _ => some position
  | parse position _ _ _ _ => some position
  | resource _ position _ => position
  | unknownName _ position => position
  | domain _ position _ => position

/-- What was expected instead of malformed text. -/
def expected? : RaisedError → Option String
  | parse _ expected _ _ _ => some expected
  | _ => none

/-- What was found in malformed text. -/
def found? : RaisedError → Option String
  | parse _ _ found _ _ => some found
  | _ => none

end RaisedError

/-- Why a function has no exact value.  A division by zero is one however the function comes by it:
nothing else is kept of it. -/
inductive RuleError where
  /-- An exact operation of the function fails. -/
  | arithmetic (cause : ArithmeticError)
  /-- The function raises an error itself. -/
  | raised (error : RaisedError)
  deriving DecidableEq, Repr

/-- The function divides by zero. -/
def RuleError.isDivisionByZero : RuleError → Bool
  | arithmetic cause => cause.isDivisionByZero
  | raised _ => false

/-- A function with a fixed number of arguments and both of its meanings. -/
structure FunctionRule where
  name : String
  arity : Nat
  exact : (Fin arity → Rat) → Except RuleError Rat
  shadow : (Fin arity → Shadow) → Shadow
  description : String := ""

/-- A table of constants and functions. -/
structure SymbolTable where
  constants : List NamedConstant
  functions : List FunctionRule

/-- Names that stand for both a constant and a function. -/
structure NameClash where
  names : List String
  deriving DecidableEq, Repr

/-- The message about a clash of names. -/
def NameClash.message (e : NameClash) : String :=
  "names used for both a constant and a function: ["
    ++ String.intercalate ", " (e.names.map Text.quote) ++ "]"

namespace SymbolTable

/-- Put an entry into a list of named entries: in the place of one of the same name, or at the
end. -/
def put {α : Type} (nameOf : α → String) (entry : α) : List α → List α
  | [] => [entry]
  | e :: es => if nameOf e = nameOf entry then entry :: es else e :: put nameOf entry es

/-- A list of named entries in which each name occurs once. -/
def merge {α : Type} (nameOf : α → String) (entries : List α) : List α :=
  entries.foldl (fun es e => put nameOf e es) []

/-- The names of both lists, in alphabetical order. -/
def clashes (constants : List NamedConstant) (functions : List FunctionRule) : List String :=
  ((constants.map NamedConstant.name).filter fun n =>
    (functions.map FunctionRule.name).contains n).mergeSort fun a b => decide (a ≤ b)

/-- The table of some constants and functions. -/
def ofEntries (constants : List NamedConstant) (functions : List FunctionRule) :
    Except NameClash SymbolTable :=
  let constants := merge NamedConstant.name constants
  let functions := merge FunctionRule.name functions
  let both := clashes constants functions
  if both.isEmpty then .ok ⟨constants, functions⟩ else .error ⟨both⟩

/-- The table with further constants. -/
def withConstants (table : SymbolTable) (constants : List NamedConstant) :
    Except NameClash SymbolTable :=
  ofEntries (table.constants ++ constants) table.functions

/-- The constant of a name. -/
def constant? (table : SymbolTable) (name : String) : Option NamedConstant :=
  table.constants.find? fun c => c.name == name

/-- The function of a name. -/
def function? (table : SymbolTable) (name : String) : Option FunctionRule :=
  table.functions.find? fun f => f.name == name

/-- The name stands for something. -/
def contains (table : SymbolTable) (name : String) : Bool :=
  (table.constant? name).isSome || (table.function? name).isSome

/-- The constants every table starts from: fifty decimals of each. -/
def defaultConstants : List NamedConstant := [
  .approximation "pi" 3.14159265358979323846264338327950288419716939937510 "circle constant",
  .approximation "tau" 6.28318530717958647692528676655900576839433879875021 "2 * pi",
  .approximation "e" 2.71828182845904523536028747135266249775724709369995 "Euler's number",
  .approximation "phi" 1.61803398874989484820458683436563811772030917980576 "golden ratio",
  .approximation "sqrt2" 1.41421356237309504880168872420969807856967187537694
    "square root of 2",
  .approximation "ln2" 0.69314718055994530941723212145817656807550013436025
    "natural log of 2"]

/-- The absolute value. -/
def absRule : FunctionRule where
  name := "abs"
  arity := 1
  exact := fun x => .ok (Exact.abs (x 0))
  shadow := fun x => (x 0).abs
  description := "absolute value"

/-- The smaller of two arguments. -/
def minRule : FunctionRule where
  name := "min"
  arity := 2
  exact := fun x => .ok (Exact.min (x 0) (x 1))
  shadow := fun x => (x 0).minimum (x 1)
  description := "smaller argument"

/-- The larger of two arguments. -/
def maxRule : FunctionRule where
  name := "max"
  arity := 2
  exact := fun x => .ok (Exact.max (x 0) (x 1))
  shadow := fun x => (x 0).maximum (x 1)
  description := "larger argument"

/-- The table that is used unless another is given. -/
def default : SymbolTable :=
  ⟨defaultConstants, [absRule, minRule, maxRule]⟩

end SymbolTable

end Roundoff
