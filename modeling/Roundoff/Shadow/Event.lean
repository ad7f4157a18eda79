import Roundoff.Operation
import Roundoff.Binary64.Text

/-! # Rounding events

An event records one step of a binary64 computation whose result is not the exact one: where it
happened, the operands and the result as they were, and the exception flag that the standard
raises there.
-/
namespace Roundoff

/-- The exception flag of a step. -/
inductive RoundingFlag where
  | inexact
  | underflow
  | overflow
  | divideByZero
  | invalid
  deriving DecidableEq, Repr

/-- The name of a flag. -/
def RoundingFlag.name : RoundingFlag → String
  | inexact => "inexact"
  | underflow => "underflow"
  | overflow => "overflow"
  | divideByZero => "divide-by-zero"
  | invalid => "invalid"

/-- The step that an event records. -/
inductive RoundingStep where
  /-- A rational number entered the computation, possibly spelled in some text. -/
  | literal (source : Option String)
  /-- An operation was applied to two values. -/
  | operation (op : Operation) (x y : Binary64)
  deriving DecidableEq, Repr

namespace RoundingStep

/-- What a trail calls the step. -/
def label : RoundingStep → String
  | literal none => "literal"
  | literal (some source) => "literal " ++ source
  | operation op _ _ => op.name

/-- The values the step started from. -/
def operands : RoundingStep → List Binary64
  | literal _ => []
  | operation _ x y => [x, y]

end RoundingStep

/-- One step whose result is not exact. -/
structure RoundingEvent where
  step : RoundingStep
  result : Binary64
  flag : RoundingFlag
  deriving DecidableEq, Repr

/-- An event as a trail shows it. -/
def RoundingEvent.describe (e : RoundingEvent) : String :=
  e.step.label ++ "(" ++ String.intercalate ", " (e.step.operands.map Binary64.text) ++ ") -> "
    ++ e.result.text ++ " [" ++ e.flag.name ++ "]"

namespace RoundingFlag

/-- The flag of a finite result that differs from the exact one. -/
def ofInexact (result : Binary64) : RoundingFlag :=
  if result.isTiny then underflow else inexact

/-- The flag for a finite result against the exact value it stands for. -/
def ofDifference? (exact : Rat) (result : Binary64) : Option RoundingFlag :=
  if result.toRat = exact then none else some (ofInexact result)

/-- The flag of rounding a rational to a value. -/
def ofRounding? (exact : Rat) (result : Binary64) : Option RoundingFlag :=
  if result.isInfinite then some overflow else ofDifference? exact result

/-- The largest exponent for which a power is compared with the exact one. -/
def exactPowerLimit : Nat := 4096

/-- The exact redo of an operation on finite operands with a finite result.  It has a value
whenever the operation gave a finite result, except for powers with a fractional exponent, which
`ofOperation?` settles before. -/
def ofRedo? (op : Operation) (x y result : Binary64) : Option RoundingFlag :=
  match op.exact x.toRat y.toRat with
  | .ok exact => ofDifference? exact result
  | .error _ => none

/-- The flag of a power of finite values with a finite result.  A fractional exponent is never
compared, and beyond the limit only a base of one or minus one counts as exact. -/
def ofPower? (x y result : Binary64) : Option RoundingFlag :=
  if !y.isIntegral then some inexact
  else if exactPowerLimit < y.toRat.num.natAbs then
    if x.magnitude = Binary64.one.magnitude then none else some (ofInexact result)
  else ofRedo? .pow x y result

/-- The flag of an operation with a given result, if the step is not exact. -/
def ofOperation? (op : Operation) (x y result : Binary64) : Option RoundingFlag :=
  let finite := x.isFinite && y.isFinite
  if result.isNaN then
    if x.isNaN || y.isNaN then none else some invalid
  else if !finite then none
  else if result.isInfinite then
    if (op == .div && y.isZero) || (op == .pow && x.isZero) then some divideByZero
    else some overflow
  else if op = .pow then ofPower? x y result
  else ofRedo? op x y result

end RoundingFlag

end Roundoff
