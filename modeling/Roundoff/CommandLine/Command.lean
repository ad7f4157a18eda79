import Roundoff.CommandLine.Arguments
import Roundoff.Record.Settings
import Roundoff.Session.Loop

/-! # The command line

What a call does: show the help, evaluate the expressions given, or hold a session on the input.
The exit status is zero when all is well, one when a given expression failed, and two when the
arguments are not usable.  A call can also break off without a status: where a line has no report,
or where an option that takes a value was given without one.
-/
namespace Roundoff.CommandLine

/-- The status of a call that went well. -/
def statusOk : Nat := 0

/-- The status of a call with an expression that failed. -/
def statusFailed : Nat := 1

/-- The status of a call with unusable arguments. -/
def statusMisuse : Nat := 2

/-- Why a call breaks off without a status. -/
inductive Fault where
  /-- A line has no report. -/
  | line (error : Session.LineError)
  /-- The number of digits was given without a value. -/
  | noDigits
  /-- An expression was given without a value. -/
  | noExpression
  deriving DecidableEq, Repr

/-- The message of a fault. -/
def Fault.message : Fault → String
  | line (.defect d) => d.message
  | line (.report (.expansion e)) => e.message
  | line (.report (.record _)) => "the outcome has no valid record"
  | noDigits => "no number of digits"
  | noExpression => "no expression"

/-- What a call is to do. -/
inductive Job where
  /-- Leave at once with a status. -/
  | leave (status : Nat)
  /-- Break off at once. -/
  | fail (fault : Fault)
  /-- Evaluate expressions, until one is missing. -/
  | evaluate (settings : Settings) (state : Session.State) (expressions : List (Option String))
  /-- Hold a session. -/
  | converse (settings : Settings) (state : Session.State)

/-- The settings of a request. -/
def Request.settings? (r : Request) : Option Settings :=
  let members := r.maxDepth.toList.map fun n => ("max_depth", n.elim .null .int)
  (Record.settingsOf SymbolTable.default (.object members)).toOption

/-- The job that a request makes. -/
def Request.job (r : Request) : Job :=
  match r.digits with
  | none => .fail .noDigits
  | some digits =>
    if !Session.digitsInRange digits then .leave statusMisuse
    else
      match r.settings? with
      | none => .leave statusMisuse
      | some settings =>
        let state : Session.State := {
          options := { trace := r.trace, digits := digits, json := r.json } }
        if r.expressions.isEmpty then .converse settings state
        else .evaluate settings state r.expressions

/-- The job of a call with some arguments. -/
def job (arguments : List String) : Job :=
  match parse arguments with
  | .help => .leave statusOk
  | .misuse => .leave statusMisuse
  | .request r => r.job

/-- The lines of an input text; the last one need not end with a line break. -/
def inputLines (text : String) : List String :=
  let lines := Session.Styled.lines text.toList
  (if lines.getLast? = some [] then lines.dropLast else lines).map String.ofList

/-- How a call ends: what it printed, and its status unless it broke off. -/
structure Ending where
  printed : List Session.Printed := []
  result : Except Fault Nat

/-- Evaluate expressions one after the other.  The call breaks off at one that is missing, unless
the session was left before. -/
def evaluateAll (settings : Settings) (state : Session.State) (expressions : List (Option String)) :
    Ending :=
  let given := (expressions.takeWhile Option.isSome).filterMap id
  let course := state.runLines settings given
  match course.error with
  | some e => { printed := course.printed, result := .error (.line e) }
  | none =>
    if !course.left && given.length < expressions.length then
      { printed := course.printed, result := .error .noExpression }
    else
      let status := if course.state.failures = 0 then statusOk else statusFailed
      { printed := course.printed, result := .ok status }

/-- Do a job on an input. -/
def Job.run (input : String) : Job → Ending
  | .leave status => { result := .ok status }
  | .fail fault => { result := .error fault }
  | .evaluate settings state expressions => evaluateAll settings state expressions
  | .converse settings state =>
    let course := state.run settings ((inputLines input).map .line)
    match course.error with
    | some e => { printed := course.printed, result := .error (.line e) }
    | none => { printed := course.printed, result := .ok statusOk }

end Roundoff.CommandLine
