import Roundoff.Contract.Schema

/-! # The contract on outcome records

What a record of an outcome promises its readers: it is the record of a success or of a failure,
and has exactly the members of that record.
-/
namespace Roundoff.Contract

open Schema (exactObject orNull)

/-- Any string. -/
def text : Schema := .type [.string]

/-- A string that is not empty. -/
def someText : Schema := .all [.type [.string], .minLength 1]

/-- A string of a given form. -/
def formed (form : Text.Pattern) : Schema := .all [.type [.string], .pattern form]

/-- One of some strings. -/
def choice (options : List String) : Schema := .all [.type [.string], .enum options]

/-- An array of values that meet a schema. -/
def arrayOf (item : Schema) : Schema := .all [.type [.array], .items item]

/-- A string or null. -/
def textOrNull : Schema := .type [.string, .null]

/-- An integer that is not negative, or null. -/
def countOrNull : Schema := .all [.type [.integer, .null], .minimum 0]

/-- The text of a rational, or null. -/
def ratioOrNull : Schema := orNull (formed .rational)

/-- An exact value. -/
def rational : Schema := exactObject [
  ("numerator", formed .integer),
  ("denominator", formed .positive),
  ("text", formed .rational),
  ("decimal", someText)]

/-- A binary64 value. -/
def float : Schema := exactObject [
  ("text", someText),
  ("hex", someText),
  ("float_class", choice ["zero", "subnormal", "normal", "infinite", "nan"])]

/-- A rounding event. -/
def roundingEvent : Schema := exactObject [
  ("operation", someText),
  ("operands", arrayOf text),
  ("result", text),
  ("flag", choice ["inexact", "underflow", "overflow", "divide-by-zero", "invalid"])]

/-- Error metrics. -/
def metrics : Schema := exactObject [
  ("classification", choice ["EXACT", "INEXACT", "INFINITE", "NAN"]),
  ("absolute_error", ratioOrNull),
  ("relative_error", ratioOrNull),
  ("ulp_distance", countOrNull),
  ("ulp_error", ratioOrNull),
  ("correctly_rounded", .type [.boolean, .null])]

/-- A success. -/
def success : Schema := exactObject [
  ("status", .const "success"),
  ("float_format", .const "binary64"),
  ("exact", rational),
  ("shadow", float),
  ("approximations", arrayOf text),
  ("rounding_events", arrayOf roundingEvent),
  ("metrics", metrics)]

/-- A failure. -/
def failure : Schema := exactObject [
  ("status", .const "failure"),
  ("kind", choice ["LexError", "ParseError", "DivisionByZero", "ResourceExhausted",
    "UnknownIdentifier", "DomainError"]),
  ("message", someText),
  ("position", countOrNull),
  ("expected", textOrNull),
  ("found", textOrNull),
  ("shadow", orNull float)]

/-- The two alternatives of an outcome record. -/
def alternatives : List Schema := [success, failure]

/-- An outcome record meets exactly one of the alternatives. -/
def outcome : Schema := .oneOf alternatives

/-- A violation of one of the alternatives. -/
structure Finding where
  path : String
  alternative : Nat
  keyword : String
  deriving DecidableEq, Repr

/-- The order in which findings are listed. -/
def Finding.before (a b : Finding) : Bool :=
  if a.path ≠ b.path then decide (a.path < b.path)
  else if a.alternative ≠ b.alternative then decide (a.alternative < b.alternative)
  else decide (a.keyword ≤ b.keyword)

/-- The findings of one alternative. -/
def findingsOf (alternative : Nat) (s : Schema) (v : Json) : List Finding :=
  (s.violations v).map fun w => ⟨String.intercalate "/" w.path, alternative, w.keyword.name⟩

/-- Why a value is no outcome record: all violations of each alternative, in order and each once.
There are none for an outcome record. -/
def findings (v : Json) : List Finding :=
  if outcome.isMet v then []
  else
    ((alternatives.zipIdx.flatMap fun (s, i) => findingsOf i s v).eraseDups).mergeSort
      Finding.before

end Roundoff.Contract
