import Roundoff.Binary64.Text
import Roundoff.Expansion.Basic
import Roundoff.Line
import Roundoff.Record.Shapes

/-! # Records of outcomes

The JSON form of an outcome.  Rationals are written as texts because they are unbounded, and
binary64 values both in decimal and in hexadecimal, so that every bit survives.
-/
namespace Roundoff.Record

/-- The digits after the point that a record shows. -/
def decimalDigits : Nat := 64

/-- The members of the record of an exact value. -/
def ofRational (x : Rat) : Json := .object [
  ("numerator", .string (Numeral.text x.num)),
  ("denominator", .string (Numeral.text x.den)),
  ("text", .string (Exact.text x)),
  ("decimal", .string (Expansion.ofRat x decimalDigits).text)]

/-- The members of the record of a binary64 value. -/
def ofFloat (x : Binary64) : Json := .object [
  ("text", .string x.text),
  ("hex", .string x.hexText),
  ("float_class", .string x.classify.name)]

/-- The members of the record of a rounding event. -/
def ofEvent (e : RoundingEvent) : Json := .object [
  ("operation", .string e.step.label),
  ("operands", .strings (e.step.operands.map Binary64.text)),
  ("result", .string e.result.text),
  ("flag", .string e.flag.name)]

/-- The text of a rational, or null. -/
def ofRatio (x : Option Rat) : Json :=
  .ofOption (fun r => .string (Exact.text r)) x

/-- The members of the record of error metrics. -/
def ofMetrics (m : Metrics) : Json := .object [
  ("classification", .string m.accuracy.name),
  ("absolute_error", ofRatio m.absoluteError),
  ("relative_error", ofRatio m.relativeError),
  ("ulp_distance", .ofOption .nat m.ulpDistance),
  ("ulp_error", ofRatio m.ulpError),
  ("correctly_rounded", .ofOption .bool m.correctlyRounded)]

/-- The members of the record of a success. -/
def ofSuccess (result : Evaluation) (metrics : Metrics) : Json := .object [
  ("exact", ofRational result.exact),
  ("shadow", ofFloat result.shadow.value),
  ("approximations", .strings result.approximations),
  ("rounding_events", .array (result.shadow.events.map ofEvent)),
  ("metrics", ofMetrics metrics)]

/-- The members of the record of a failure. -/
def ofFailure (f : Failure) : Json := .object [
  ("kind", .string f.kind.name),
  ("message", .string f.message),
  ("position", .ofOption .int f.position),
  ("expected", .ofOption .string f.expected),
  ("found", .ofOption .string f.found),
  ("shadow", .ofOption (fun s => ofFloat s.value) f.shadow)]

/-- The record of an outcome, or the problems that keep it from having one. -/
def ofOutcome : Outcome → Except (List Problem) Json
  | .success result metrics => successShape.conform (ofSuccess result metrics)
  | .failure f => failureShape.conform (ofFailure f)

end Roundoff.Record
