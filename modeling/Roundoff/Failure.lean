import Roundoff.Expr.Parser
import Roundoff.Shadow.Basic
import Roundoff.Settings
import Roundoff.Token.Lexer

/-! # Failures

Why a line has no value.  An `EvalError` is a statement about the line, with its cause; it is
reported as a `Failure`, which is what the outside sees.  A `Defect` is not about a line: the
tree or the token list handed over is not one that lexer and parser make.
-/
namespace Roundoff

/-- The kinds of failures. -/
inductive FailureKind where
  | lexError
  | parseError
  | divisionByZero
  | resourceExhausted
  | unknownIdentifier
  | domainError
  deriving DecidableEq, Repr

namespace FailureKind

/-- The name of a kind. -/
def name : FailureKind → String
  | lexError => "LexError"
  | parseError => "ParseError"
  | divisionByZero => "DivisionByZero"
  | resourceExhausted => "ResourceExhausted"
  | unknownIdentifier => "UnknownIdentifier"
  | domainError => "DomainError"

/-- All kinds. -/
def all : List FailureKind :=
  [lexError, parseError, divisionByZero, resourceExhausted, unknownIdentifier, domainError]

/-- The kind of a given name. -/
def ofName? (s : String) : Option FailureKind :=
  all.find? fun k => k.name == s

end FailureKind

/-- The kind that an error of a function is reported as. -/
def RaisedError.kind : RaisedError → FailureKind
  | lex .. => .lexError
  | parse .. => .parseError
  | resource .. => .resourceExhausted
  | unknownName .. => .unknownIdentifier
  | domain .. => .domainError

namespace RaisedError

/-- No function raises a division by zero: it divides by zero instead. -/
theorem kind_ne (e : RaisedError) : e.kind ≠ .divisionByZero := by
  cases e <;> exact nofun

theorem isSome_expected?_iff (e : RaisedError) :
    e.expected?.isSome = true ↔ e.kind = .parseError := by
  cases e <;> simp [expected?, kind]

theorem isSome_found?_iff (e : RaisedError) :
    e.found?.isSome = true ↔ e.kind = .parseError := by
  cases e <;> simp [found?, kind]

end RaisedError

/-- A failure as it is reported.  What was expected and found is known for parse errors, and a
division by zero carries the shadow of the whole expression. -/
structure Failure where
  kind : FailureKind
  message : String
  position : Option Int := none
  expected : Option String := none
  found : Option String := none
  shadow : Option Shadow := none
  deriving DecidableEq, Repr

/-- Why the evaluation of a line stops. -/
inductive EvalError where
  /-- A character starts no token. -/
  | lex (error : LexError)
  /-- The expression is malformed. -/
  | parse (error : ParseError)
  /-- The line is longer than the limit. -/
  | lineTooLong (length limit : Nat)
  /-- The expression nests deeper than the limit. -/
  | tooDeep (limit : Nat) (position : Int)
  /-- The tree has more nodes than the limit. -/
  | tooManyNodes (limit : Nat) (position : Int)
  /-- The exponent of a literal exceeds the limit. -/
  | literalExponent (exponent limit : Int) (position : Int)
  /-- An exact value has more bits than the limit. -/
  | valueTooLarge (limit : Nat) (position : Int)
  /-- The exponent of a power exceeds the limit. -/
  | exponentTooLarge (limit : Nat) (position : Int)
  /-- A power could have more bits than the limit. -/
  | powerTooLarge (limit : Nat) (position : Int)
  /-- The exponent of a power is not an integer. -/
  | fractionalExponent (position : Int)
  /-- A name stands for nothing. -/
  | unknownName (name : String) (position : Int)
  /-- A function is used without arguments. -/
  | functionAsConstant (name : String) (position : Int)
  /-- A constant is called. -/
  | constantAsFunction (name : String) (position : Int)
  /-- A function is called with the wrong number of arguments. -/
  | wrongArity (name : String) (arity given : Nat) (position : Int)
  /-- The exact side divided by zero; the shadow is that of the whole expression. -/
  | dividedByZero (position : Int) (shadow : Shadow)
  /-- A literal is a fraction over zero. -/
  | zeroDenominator
  /-- A function raised its argument to a power that is not an integer. -/
  | fractionalPower
  /-- A function raised an error of its own. -/
  | raised (error : RaisedError)
  deriving DecidableEq, Repr

namespace EvalError

/-- The kind that an error is reported as. -/
def kind : EvalError → FailureKind
  | lex _ => .lexError
  | parse _ => .parseError
  | lineTooLong .. => .resourceExhausted
  | tooDeep .. => .resourceExhausted
  | tooManyNodes .. => .resourceExhausted
  | literalExponent .. => .resourceExhausted
  | valueTooLarge .. => .resourceExhausted
  | exponentTooLarge .. => .resourceExhausted
  | powerTooLarge .. => .resourceExhausted
  | fractionalExponent _ => .domainError
  | unknownName .. => .unknownIdentifier
  | functionAsConstant .. => .domainError
  | constantAsFunction .. => .domainError
  | wrongArity .. => .domainError
  | dividedByZero .. => .divisionByZero
  | zeroDenominator => .divisionByZero
  | fractionalPower => .domainError
  | raised e => e.kind

/-- The place in the line that an error is about. -/
def position : EvalError → Option Int
  | lex e => some e.position
  | parse e => some e.position
  | lineTooLong _ limit => some limit
  | tooDeep _ p => some p
  | tooManyNodes _ p => some p
  | literalExponent _ _ p => some p
  | valueTooLarge _ p => some p
  | exponentTooLarge _ p => some p
  | powerTooLarge _ p => some p
  | fractionalExponent p => some p
  | unknownName _ p => some p
  | functionAsConstant _ p => some p
  | constantAsFunction _ p => some p
  | wrongArity _ _ _ p => some p
  | dividedByZero p _ => some p
  | zeroDenominator => none
  | fractionalPower => none
  | raised e => e.position.map Int.ofNat

/-- The message of an error. -/
def message : EvalError → String
  | lex e => e.message
  | parse e => e.message
  | lineTooLong length limit =>
    "input is " ++ Numeral.text length ++ " characters long; the limit is " ++ Numeral.text limit
  | tooDeep limit _ => "expression nested deeper than " ++ Numeral.text limit ++ " levels"
  | tooManyNodes limit _ => "expression has more than " ++ Numeral.text limit ++ " nodes"
  | literalExponent exponent limit _ => (LiteralError.exponentTooLarge exponent limit).message
  | valueTooLarge limit _ => "exact value exceeds " ++ Numeral.text limit ++ " bits"
  | exponentTooLarge limit _ => "exponent exceeds the limit of ±" ++ Numeral.text limit
  | powerTooLarge limit _ => "power would exceed " ++ Numeral.text limit ++ " bits"
  | fractionalExponent _ =>
    "exponent is not an integer; the exact result would not be rational"
  | unknownName name _ => "unknown identifier " ++ Text.quote name
  | functionAsConstant name _ =>
    Text.quote name ++ " is a function; call it as " ++ name ++ "(...)"
  | constantAsFunction name _ => Text.quote name ++ " is a constant, not a function"
  | wrongArity name arity given _ =>
    name ++ "() takes " ++ Numeral.text arity ++ " argument(s), got " ++ Numeral.text given
  | dividedByZero p _ => "division by zero at position " ++ Numeral.text p
  | zeroDenominator => ArithmeticError.zeroDenominator.message
  | fractionalPower => ArithmeticError.fractionalExponent.message
  | raised e => e.message

/-- What was expected instead of malformed text. -/
def expected? : EvalError → Option String
  | parse e => some e.expected
  | raised e => e.expected?
  | _ => none

/-- What was found in malformed text. -/
def found? : EvalError → Option String
  | parse e => some e.found
  | raised e => e.found?
  | _ => none

/-- The shadow that an error carries. -/
def shadow? : EvalError → Option Shadow
  | dividedByZero _ s => some s
  | _ => none

/-- The failure that an error is reported as. -/
def toFailure (e : EvalError) : Failure where
  kind := e.kind
  message := e.message
  position := e.position
  expected := e.expected?
  found := e.found?
  shadow := e.shadow?

end EvalError

/-- The error that the failure of a function ends the evaluation with: its own one, unchanged, or
that about its power.  A division by zero does not end it. -/
def RuleError.ending? : RuleError → Option EvalError
  | raised e => some (.raised e)
  | arithmetic .fractionalExponent => some .fractionalPower
  | arithmetic _ => none

/-- A failing function lets the evaluation go on exactly when it divides by zero. -/
theorem RuleError.ending?_eq_none_iff {e : RuleError} :
    e.ending? = none ↔ e.isDivisionByZero = true := by
  cases e with
  | raised _ => exact ⟨fun h => (nomatch h), fun h => (nomatch h)⟩
  | arithmetic cause =>
    cases cause with
    | fractionalExponent => exact ⟨fun h => (nomatch h), fun h => (nomatch h)⟩
    | _ => exact ⟨fun _ => rfl, fun _ => rfl⟩

/-- No function ends the evaluation with a division by zero. -/
theorem RuleError.kind_ne_of_ending? {e : RuleError} {x : EvalError} (h : e.ending? = some x) :
    x.kind ≠ .divisionByZero := by
  cases e with
  | raised e =>
    cases h
    exact e.kind_ne
  | arithmetic cause =>
    cases cause <;> cases h
    exact nofun

/-- What is wrong with a tree or a token list that no line gives rise to, or with a message that
cannot be written. -/
inductive Defect where
  /-- A literal of the tree is not a number literal, or cannot be quoted. -/
  | literal (error : LiteralError)
  /-- An operator has no meaning. -/
  | unknownOperator (symbol : String)
  /-- The token list does not end with an end of input. -/
  | unfinished
  /-- The parser's bound on recursion was too small. -/
  | exhausted
  /-- An operation found too few values to work on. -/
  | missingOperand
  deriving DecidableEq, Repr

/-- The message of a defect. -/
def Defect.message : Defect → String
  | literal e => e.message
  | unknownOperator symbol => "unknown operator " ++ Text.quote symbol
  | unfinished => "token list must end with END_OF_INPUT"
  | exhausted => "expression not parsed"
  | missingOperand => "missing operand"

/-- Why there is no value: an error about the line, or a defect of what was handed over. -/
inductive Stop where
  | error (error : EvalError)
  | defect (defect : Defect)
  deriving DecidableEq, Repr

namespace Stop

/-- The parser's reason as a reason to stop, under the given limits. -/
def ofParser (lim : Parser.Limits) : Parser.Stop → Stop
  | .malformed e => .error (.parse e)
  | .tooDeep p => .error (.tooDeep lim.maxDepth p)
  | .tooManyNodes p => .error (.tooManyNodes lim.maxNodes p)
  | .unknownOperator s => .defect (.unknownOperator s)
  | .unfinished => .defect .unfinished
  | .exhausted => .defect .exhausted

end Stop

end Roundoff
