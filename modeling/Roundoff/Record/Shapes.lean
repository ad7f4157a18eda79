import Roundoff.Failure
import Roundoff.Metrics
import Roundoff.Record.Shape

/-! # The shapes of outcome records

What the records of rationals, binary64 values, rounding events, metrics and outcomes look like,
and what settings may be given.
-/
namespace Roundoff.Record

/-- The names of all classes of binary64 values. -/
def floatClassNames : List String :=
  [FloatClass.zero, .subnormal, .normal, .infinite, .nan].map FloatClass.name

/-- The names of all rounding flags. -/
def flagNames : List String :=
  [RoundingFlag.inexact, .underflow, .overflow, .divideByZero, .invalid].map RoundingFlag.name

/-- The names of all accuracy classes. -/
def accuracyNames : List String :=
  [Accuracy.exact, .inexact, .infinite, .nan].map Accuracy.name

/-- The names of all kinds of failures. -/
def failureKindNames : List String :=
  FailureKind.all.map FailureKind.name

/-- Any text. -/
def anyText : Shape := .text 0 none

/-- A text that is not empty. -/
def someText : Shape := .text 1 none

/-- A field that must be present. -/
def required (name : String) (shape : Shape) : String × Shape × Option Json :=
  (name, shape, none)

/-- A field that is null unless given. -/
def nullable (name : String) (shape : Shape) : String × Shape × Option Json :=
  (name, .optional shape, some .null)

/-- A field that is an empty list unless given. -/
def listed (name : String) (item : Shape) : String × Shape × Option Json :=
  (name, .list item, some (.array []))

/-- A field with a fixed value. -/
def fixed (name value : String) : String × Shape × Option Json :=
  (name, .constant value, some (.string value))

/-- The record of an exact value. -/
def rationalShape : Shape := .record [
  required "numerator" (.text 0 (some .integer)),
  required "denominator" (.text 0 (some .positive)),
  required "text" anyText,
  required "decimal" someText]

/-- The record of a binary64 value. -/
def floatShape : Shape := .record [
  required "text" someText,
  required "hex" someText,
  required "float_class" (.choice floatClassNames)]

/-- The record of a rounding event. -/
def eventShape : Shape := .record [
  required "operation" someText,
  listed "operands" anyText,
  required "result" anyText,
  required "flag" (.choice flagNames)]

/-- An integer that is not negative. -/
def countShape : Shape := .integer { atLeast := some 0 }

/-- The record of error metrics. -/
def metricsShape : Shape := .record [
  required "classification" (.choice accuracyNames),
  nullable "absolute_error" anyText,
  nullable "relative_error" anyText,
  nullable "ulp_distance" countShape,
  nullable "ulp_error" anyText,
  nullable "correctly_rounded" .boolean]

/-- The record of a success. -/
def successShape : Shape := .record [
  fixed "status" "success",
  fixed "float_format" Settings.floatFormat,
  required "exact" rationalShape,
  required "shadow" floatShape,
  listed "approximations" anyText,
  listed "rounding_events" eventShape,
  required "metrics" metricsShape]

/-- The record of a failure. -/
def failureShape : Shape := .record [
  fixed "status" "failure",
  required "kind" (.choice failureKindNames),
  required "message" someText,
  nullable "position" countShape,
  nullable "expected" anyText,
  nullable "found" anyText,
  nullable "shadow" floatShape]

end Roundoff.Record
