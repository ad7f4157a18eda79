import Roundoff.CommandLine.Command

/-! # The program

Evaluates arithmetic exactly and in binary64, side by side: the expressions given as arguments,
or line by line in a session on standard input.
-/
namespace Roundoff

/-- Write what was printed, and what went wrong if anything did. -/
def write (printed : List Session.Printed) (fault : Option CommandLine.Fault) : IO Unit := do
  IO.print (Session.Styled.renderAll false printed)
  match fault with
  | some f => IO.eprintln f.message
  | none => pure ()

/-- Hold a session on standard input. -/
partial def converse (settings : Settings) (state : Session.State) : IO Unit := do
  IO.print Session.prompt
  (← IO.getStdout).flush
  let line ← (← IO.getStdin).getLine
  if line.isEmpty then
    write (state.run settings []).printed none
  else
    let text := if line.endsWith "\n" then String.ofList line.toList.dropLast else line
    let reply := state.handle settings text
    match reply.result with
    | .ok true =>
      write reply.printed none
      converse settings reply.state
    | .ok false => write reply.printed none
    | .error e => write reply.printed (some (.line e))

/-- The help on the command line. -/
def usage : String :=
  "usage: roundoff [-h] [-e EXPR] [--json] [--trace] [--digits DIGITS]\n"
    ++ "                [--max-depth MAX_DEPTH] [-v]\n\n" ++ Session.helpText

end Roundoff

open Roundoff in
/-- Do what the arguments ask for. -/
def main (arguments : List String) : IO UInt32 := do
  match CommandLine.job arguments with
  | .leave status =>
    if status = CommandLine.statusOk then IO.println usage else IO.eprintln usage
    return status.toUInt32
  | .converse settings state =>
    converse settings state
    return CommandLine.statusOk.toUInt32
  | other =>
    let ending := other.run ""
    match ending.result with
    | .ok status =>
      write ending.printed none
      return status.toUInt32
    | .error fault =>
      write ending.printed (some fault)
      return CommandLine.statusFailed.toUInt32
