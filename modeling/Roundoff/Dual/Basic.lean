import Roundoff.Failure

/-! # Dual values

A sub-expression is evaluated twice in step: exactly, and in binary64.  A division by zero on the
exact side does not end the evaluation; the exact value is then replaced by the position of the
first such division, and the shadow goes on.  This module says what each kind of node does to the
values of its operands.
-/
namespace Roundoff

/-- The values of a sub-expression: exact, or the position of the first division by zero; the
shadow; and the names of the approximate constants in it, in order of first occurrence. -/
structure DualValue where
  exact : Except Int Rat
  shadow : Shadow
  approximations : List String

/-- The values of a whole expression. -/
structure Evaluation where
  exact : Rat
  shadow : Shadow
  approximations : List String := []
  deriving DecidableEq, Repr

namespace DualValue

variable (s : Settings)

/-- Refuse an exact value that is too large. -/
def checkSize (position : Int) (r : Rat) : Except Stop Rat :=
  if s.maxRationalBits < Exact.bitLength r then
    .error (.error (.valueTooLarge s.maxRationalBits position))
  else .ok r

/-- The values of a literal. -/
def ofLiteral (text : String) (position : Int) : Except Stop DualValue :=
  match Literal.parse text (some s.maxLiteralExponent) with
  | .error (.exponentTooLarge exponent limit) =>
    .error (.error (.literalExponent exponent limit position))
  | .error .zeroDenominator => .error (.error .zeroDenominator)
  | .error e => .error (.defect (.literal e))
  | .ok r => do
    let r ← checkSize s position r
    return ⟨.ok r, Shadow.ofRat r (some text), []⟩

/-- The values of a name. -/
def ofName (name : String) (position : Int) : Except Stop DualValue :=
  match s.symbols.constant? name with
  | some c => .ok ⟨.ok c.exact, c.shadow, if c.approximate then [name] else []⟩
  | none =>
    match s.symbols.function? name with
    | some _ => .error (.error (.functionAsConstant name position))
    | none => .error (.error (.unknownName name position))

/-- The approximations of several values together, each name once. -/
def mergeApproximations (vs : List DualValue) : List String :=
  (vs.flatMap DualValue.approximations).eraseDups

/-- The exact side of an operation: its value if it is not too large, or a division by zero at a
position.  Every other error ends the evaluation as it is. -/
def settle (position : Int) : Except RuleError Rat → Except Stop (Except Int Rat)
  | .ok r => (checkSize s position r).map .ok
  | .error e =>
    match e.ending? with
    | some x => .error (.error x)
    | none => .ok (.error position)

/-- Refuse a power whose exponent is not an integer or too large, or that could grow too
large. -/
def checkPower (position : Int) (base exponent : Except Int Rat) : Except Stop Unit :=
  match exponent with
  | .error _ => .ok ()
  | .ok e =>
    let n := e.num.natAbs
    if e.den ≠ 1 then .error (.error (.fractionalExponent position))
    else if s.maxExponent < n then
      .error (.error (.exponentTooLarge s.maxExponent position))
    else
      match base with
      | .error _ => .ok ()
      | .ok b =>
        if s.maxRationalBits < Exact.bitLength b * n then
          .error (.error (.powerTooLarge s.maxRationalBits position))
        else .ok ()

/-- The values of a binary operation. -/
def binary (symbol : String) (position : Int) (x y : DualValue) : Except Stop DualValue :=
  match Operation.ofSymbol? symbol with
  | none => .error (.defect (.unknownOperator symbol))
  | some op => do
    if op = .pow then checkPower s position x.exact y.exact
    let exact ←
      match x.exact, y.exact with
      | .error p, _ => .ok (.error p)
      | .ok _, .error p => .ok (.error p)
      | .ok a, .ok b => settle s position ((op.exact a b).mapError .arithmetic)
    return ⟨exact, Shadow.apply op x.shadow y.shadow, mergeApproximations [x, y]⟩

/-- The values of a signed operand.  Every sign but the plus sign negates. -/
def unary (symbol : String) (x : DualValue) : DualValue :=
  if symbol = "+" then x
  else { x with exact := x.exact.map (- ·), shadow := x.shadow.neg }

/-- The function that a call of a name with some number of arguments stands for. -/
def resolve (name : String) (given : Nat) (position : Int) :
    Except Stop { f : FunctionRule // f.arity = given } :=
  match s.symbols.function? name with
  | some f =>
    if h : f.arity = given then .ok ⟨f, h⟩
    else .error (.error (.wrongArity name f.arity given position))
  | none =>
    match s.symbols.constant? name with
    | some _ => .error (.error (.constantAsFunction name position))
    | none => .error (.error (.unknownName name position))

/-- The exact values of all operands, or the first division by zero among them. -/
def exactAll : List DualValue → Except Int (List Rat)
  | [] => .ok []
  | v :: vs => do
    let r ← v.exact
    let rs ← exactAll vs
    return r :: rs

/-- The values of a function applied to its operands. -/
def applyRule (f : FunctionRule) (position : Int) (operands : List DualValue)
    (h : f.arity = operands.length) : Except Stop DualValue := do
  let exact ←
    match exactAll operands with
    | .error p => .ok (.error p)
    | .ok rs => settle s position (f.exact fun i => rs.getD i 0)
  return ⟨exact, f.shadow fun i => (operands.get (i.cast h)).shadow, mergeApproximations operands⟩

/-- The values of a call. -/
def call (name : String) (position : Int) (operands : List DualValue) :
    Except Stop DualValue := do
  let ⟨f, h⟩ ← resolve s name operands.length position
  applyRule s f position operands h

/-- The values of a whole expression, unless its exact side divided by zero. -/
def toEvaluation (v : DualValue) : Except Stop Evaluation :=
  match v.exact with
  | .ok r => .ok ⟨r, v.shadow, v.approximations⟩
  | .error p => .error (.error (.dividedByZero p v.shadow))

end DualValue

end Roundoff
