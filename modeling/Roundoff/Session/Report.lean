import Roundoff.Expansion.Agreement
import Roundoff.Json.Printer
import Roundoff.Record.Outcome
import Roundoff.Session.Ratio
import Roundoff.Session.Styled

/-! # Reports

What a session prints about an outcome.  A success is shown as a table: the exact value, the
binary64 value with the digits that are right set off from the rest, and the error; then a note
on approximate constants and, if asked for, the trail.  A failure is shown under its line with a
caret at the position.  Either can be shown as its record in JSON instead.
-/
namespace Roundoff.Session

/-- The width of the labels. -/
def labelWidth : Nat := 9

/-- A text filled up with blanks to the width of the labels. -/
def padLabel (s : String) : String :=
  s ++ String.ofList (List.replicate (labelWidth - s.length) ' ')

/-- A row of the table. -/
def row (label : String) (body : List Run) : Printed :=
  .row (⟨padLabel label, some .boldCyan⟩ :: body)

/-- The look of an accuracy class. -/
def accuracyStyle : Accuracy → Style
  | .exact => .boldGreen
  | .inexact => .yellow
  | .infinite => .boldRed
  | .nan => .boldMagenta

/-- A caret in a column. -/
def caretLine (position : Int) : String :=
  String.ofList (List.replicate position.toNat ' ') ++ "^"

/-- The expansion of the shortest decimal of a finite value. -/
def shadowExpansion (x : Binary64) (digits : Int) : Except ExpansionError (Option Expansion) :=
  if !x.isFinite then .ok none
  else
    match Literal.parse x.text with
    | .error e => .error (.literal e)
    | .ok r => (Expansion.ofRatWithin r digits).map some

/-- A binary64 value against the true expansion: the digits that are right, and the rest. -/
def shadowRuns (x : Binary64) (truth : Expansion) (digits : Int) :
    Except ExpansionError (List Run) :=
  (shadowExpansion x digits).map fun
    | none => [⟨x.text, some .boldRed⟩]
    | some approx =>
      let (correct, rest) := approx.splitCorrect truth
      [⟨correct, some .bold⟩, ⟨rest, some .dim⟩]

/-- The rows of a trail. -/
def trail (s : Shadow) : List Printed :=
  match s.events with
  | [] => [row "events" [⟨"none", some .dim⟩]]
  | e :: es => row "events" [⟨e.describe, none⟩] :: es.map fun e => row "" [⟨e.describe, none⟩]

/-- The metrics of an inexact result on one line. -/
def metricsText (m : Metrics) : String :=
  "  abs " ++ ratioText m.absoluteError ++ "  rel " ++ ratioText m.relativeError ++ "  ulps "
    ++ (m.ulpDistance.elim "undefined" fun n => Numeral.text n)
    ++ "  ulp error " ++ ratioText m.ulpError

/-- The error of a result. -/
def accuracyRuns (m : Metrics) : List Run :=
  let style := accuracyStyle m.accuracy
  if m.accuracy = .inexact then
    ⟨m.accuracy.name ++ metricsText m, some style⟩
      :: if m.correctlyRounded = some true then [⟨"  correctly rounded", some .green⟩] else []
  else [⟨m.accuracy.name, some style⟩]

/-- The report of a success. -/
def success (result : Evaluation) (m : Metrics) (digits : Int) (trace : Bool) :
    Except ExpansionError (List Printed) := do
  let truth ← Expansion.ofRatWithin result.exact digits
  let shadow ← shadowRuns result.shadow.value truth digits
  let exact := row "exact" [⟨exactText result.exact, none⟩]
    :: if result.exact.den = 1 then [] else [row "" [⟨truth.text, none⟩]]
  let note :=
    if result.approximations.isEmpty then []
    else
      let names := String.intercalate ", " result.approximations
      [row "note" [⟨"exact side uses rational approximations of " ++ names, some .yellow⟩]]
  return exact ++ [row "float64" shadow, row "error" (accuracyRuns m)] ++ note
    ++ if trace then trail result.shadow else []

/-- A line with a caret under a position of it, unless the position is beyond its end. -/
def pointer (line : String) : Option Int → List Printed
  | none => []
  | some p =>
    if p ≤ line.length then
      [.message (padLabel "" ++ line) none,
        .message (padLabel "" ++ caretLine p) (some .boldRed)]
    else []

/-- The report of a failure. -/
def failure (line : String) (f : Failure) (trace : Bool) : List Printed :=
  pointer line f.position
    ++ [.row [⟨f.kind.name ++ ": ", some .boldRed⟩, ⟨f.message, none⟩]]
    ++ match f.shadow with
      | none => []
      | some s =>
        row "float64" [⟨s.value.text, some .boldRed⟩] :: if trace then trail s else []

/-- The rows of the constants and functions. -/
def symbols (table : SymbolTable) : List Printed :=
  (table.constants.map fun c =>
    let kind := if c.approximate then "approximation" else "exact"
    row c.name [⟨c.shadow.value.text ++ "  ", none⟩,
      ⟨"(" ++ kind ++ ") " ++ c.description, some .dim⟩])
  ++ table.functions.map fun f =>
    row f.name [⟨Numeral.text f.arity ++ " argument(s)  ", none⟩, ⟨f.description, some .dim⟩]

/-- How outcomes are shown. -/
structure Options where
  trace : Bool := false
  digits : Int := 60
  json : Bool := false
  deriving DecidableEq, Repr

/-- Why an outcome cannot be shown. -/
inductive ReportError where
  | expansion (error : ExpansionError)
  | record (problems : List Problem)
  deriving DecidableEq, Repr

/-- The report of the outcome of a line. -/
def report (o : Options) (line : String) (outcome : Outcome) :
    Except ReportError (List Printed) :=
  if o.json then
    match Record.ofOutcome outcome with
    | .ok record => .ok [.message (record.indented 0) none]
    | .error problems => .error (.record (Shape.listed problems))
  else
    match outcome with
    | .success result m => (success result m o.digits o.trace).mapError .expansion
    | .failure f => .ok (failure line f o.trace)

end Roundoff.Session
