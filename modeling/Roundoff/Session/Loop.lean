import Roundoff.Session.Report

/-! # Sessions

A session takes lines one after the other.  A line that starts with a colon is a command and
changes only how outcomes are shown; every other line that is not blank is evaluated.  The
session counts the lines that failed.
-/
namespace Roundoff.Session

/-- The prompt of an interactive session. -/
def prompt : String := ">> "

/-- The largest number of digits that can be asked for. -/
def maxDigits : Nat := Expansion.defaultBudget

/-- The text of the help command. -/
def helpText : String :=
  String.intercalate "\n" [
    "Enter an arithmetic expression, e.g. 0.1 + 0.2, 1/3, 2^-10, 0.(3) * 3, pi.",
    "Each line is evaluated exactly (rationals) and in IEEE binary64.",
    "",
    "  :help              this text",
    "  :constants         named constants and functions",
    "  :trace on|off      show rounding events",
    "  :digits N          decimal digits shown (1-" ++ Numeral.text maxDigits ++ ")",
    "  :json on|off       JSON output",
    "  :quit              exit (Ctrl-D)"]

/-- What a session keeps from line to line. -/
structure State where
  options : Options := {}
  failures : Nat := 0
  deriving DecidableEq, Repr

/-- Why a line leaves a session without a report. -/
inductive LineError where
  | defect (defect : Defect)
  | report (error : ReportError)
  deriving DecidableEq, Repr

/-- What comes of a line: the new state, what is printed, and whether the session goes on. -/
structure Reply where
  state : State
  printed : List Printed
  result : Except LineError Bool

/-- A switch that a command sets. -/
inductive Switch where
  | trace
  | json
  deriving DecidableEq, Repr

/-- A session command. -/
inductive Command where
  | quit
  | help
  | constants
  | set (switch : Switch) (argument : String)
  | digits (argument : String)
  | unknown (name : String)
  deriving DecidableEq, Repr

namespace Command

/-- The command that a text without its colon gives: a name, and after the first blank its
argument. -/
def parse (text : String) : Command :=
  let cs := Text.trim text.toList
  let name := String.ofList (cs.takeWhile (· != ' '))
  let argument := String.ofList (Text.trim (cs.dropWhile (· != ' ')))
  if ["quit", "q", "exit"].contains name then quit
  else if name = "help" then help
  else if name = "constants" then constants
  else if name = "trace" then set .trace argument
  else if name = "json" then set .json argument
  else if name = "digits" then digits argument
  else unknown name

end Command

/-- The name of a switch. -/
def Switch.name : Switch → String
  | trace => "trace"
  | json => "json"

/-- A number of digits that can be shown. -/
def digitsInRange (n : Int) : Bool :=
  decide (1 ≤ n) && decide (n ≤ maxDigits)

/-- The options after setting the number of digits, or the complaint about the argument. -/
def Options.withDigits (o : Options) (argument : String) : Except String Options :=
  match Numeral.readPiece? argument.toList with
  | none => .error (":digits expects a number, got " ++ Text.quote argument)
  | some n =>
    if digitsInRange n then .ok { o with digits := n }
    else .error (":digits must be between 1 and " ++ Numeral.text maxDigits)

/-- The options after turning a switch on or off, or the complaint about the argument. -/
def Options.withSwitch (o : Options) (s : Switch) (argument : String) : Except String Options :=
  let set (b : Bool) : Options :=
    match s with
    | .trace => { o with trace := b }
    | .json => { o with json := b }
  if argument = "on" then .ok (set true)
  else if argument = "off" then .ok (set false)
  else .error (":" ++ s.name ++ " expects on or off, got " ++ Text.quote argument)

/-- The reply that changes options, or complains. -/
def State.reoption (st : State) : Except String Options → Reply
  | .ok o => ⟨{ st with options := o }, [], .ok true⟩
  | .error complaint => ⟨st, [.message complaint (some .boldRed)], .ok true⟩

/-- Carry out a command. -/
def State.command (s : Settings) (st : State) : Command → Reply
  | .quit => ⟨st, [], .ok false⟩
  | .help => ⟨st, [.message helpText none], .ok true⟩
  | .constants => ⟨st, symbols s.symbols, .ok true⟩
  | .set switch argument => st.reoption (st.options.withSwitch switch argument)
  | .digits argument => st.reoption (st.options.withDigits argument)
  | .unknown name =>
    ⟨st, [.message ("unknown command :" ++ name ++ " (try :help)") (some .boldRed)], .ok true⟩

/-- Evaluate a line and report the outcome. -/
def State.evaluate (s : Settings) (st : State) (line : String) : Reply :=
  match Line.evaluate s line with
  | .error d => ⟨st, [], .error (.defect d)⟩
  | .ok outcome =>
    let st := if outcome.isSuccess then st else { st with failures := st.failures + 1 }
    match report st.options line outcome with
    | .ok printed => ⟨st, printed, .ok true⟩
    | .error e => ⟨st, [], .error (.report e)⟩

/-- Take a line. -/
def State.handle (s : Settings) (st : State) (line : String) : Reply :=
  match Text.trim line.toList with
  | [] => ⟨st, [], .ok true⟩
  | ':' :: text => st.command s (Command.parse (String.ofList text))
  | _ => st.evaluate s line

/-- What comes of many lines: the last state and all that was printed, whether a command left the
session, and what stopped it if it was an error. -/
structure Course where
  state : State
  printed : List Printed := []
  reads : Nat := 0
  left : Bool := false
  error : Option LineError := none

/-- Take lines until they are used up or the session is left. -/
def State.runLines (s : Settings) (st : State) : List String → Course
  | [] => { state := st }
  | line :: lines =>
    let reply := st.handle s line
    match reply.result with
    | .error e => { state := reply.state, printed := reply.printed, error := some e }
    | .ok false => { state := reply.state, printed := reply.printed, left := true }
    | .ok true =>
      let course := reply.state.runLines s lines
      { course with printed := reply.printed ++ course.printed }

/-- What the reader of an interactive session gives: a line, or a signal in its place. -/
inductive Input where
  | line (text : String)
  | interrupt
  | endOfInput
  deriving DecidableEq, Repr

/-- Read until the input ends or the session is left.  An interrupt discards the line being
typed. -/
def State.run (s : Settings) (st : State) : List Input → Course
  | [] => { state := st, printed := [.message "^D" none], reads := 1 }
  | .endOfInput :: _ => { state := st, printed := [.message "^D" none], reads := 1 }
  | .interrupt :: inputs =>
    let course := st.run s inputs
    { course with printed := .message "^C" none :: course.printed, reads := course.reads + 1 }
  | .line text :: inputs =>
    let reply := st.handle s text
    match reply.result with
    | .error e => { state := reply.state, printed := reply.printed, reads := 1, error := some e }
    | .ok false => { state := reply.state, printed := reply.printed, reads := 1, left := true }
    | .ok true =>
      let course := reply.state.run s inputs
      { course with
        printed := reply.printed ++ course.printed
        reads := course.reads + 1 }

end Roundoff.Session
