import Roundoff.Text.Width

/-! # Styled text

What a session prints: rows made of runs, each with an optional style, and messages in one style.
A terminal does not get the text as it is.  Bell, backspace and the controls that would move the
cursor are dropped, a tab becomes blanks up to the next multiple of eight columns, and on a
terminal with colours styled text is wrapped in its control sequence, separately on every output
line.  A run is also wrapped anew after every tab, but a message is not.
-/
namespace Roundoff.Session

/-- The looks of a run. -/
inductive Style where
  | boldCyan
  | bold
  | dim
  | boldRed
  | boldGreen
  | yellow
  | boldMagenta
  | green
  deriving DecidableEq, Repr

/-- The parameters of the control sequence that switches a look on. -/
def Style.code : Style → String
  | boldCyan => "1;36"
  | bold => "1"
  | dim => "2"
  | boldRed => "1;31"
  | boldGreen => "1;32"
  | yellow => "33"
  | boldMagenta => "1;35"
  | green => "32"

/-- A piece of text with one look. -/
structure Run where
  text : String
  style : Option Style := none
  deriving DecidableEq, Repr

/-- What is printed at once; a line break follows it. -/
inductive Printed where
  /-- Runs side by side. -/
  | row (runs : List Run)
  /-- A text in one look. -/
  | message (text : String) (style : Option Style)
  deriving DecidableEq, Repr

namespace Styled

/-- The columns between two tab stops. -/
def tabWidth : Nat := 8

/-- A control that a terminal must not get. -/
def isDropped (c : Char) : Bool :=
  c == '\x07' || c == '\x08' || c == '\x0b' || c == '\x0c' || c == '\r'

/-- A character put before the first of some pieces. -/
def extend (c : Char) : List (List Char) → List (List Char)
  | [] => [[c]]
  | piece :: pieces => (c :: piece) :: pieces

/-- The characters of a text written from a pen on, with tabs written out, in pieces of which all
but the last end with a tab; and the pen after them. -/
def layOut : Text.Pen → List Char → List (List Char) × Text.Pen
  | pen, [] => ([[]], pen)
  | pen, c :: cs =>
    if isDropped c then layOut pen cs
    else if c = '\t' then
      let (blanks, pen) := pen.tab tabWidth
      let (pieces, stop) := layOut pen cs
      (List.replicate blanks ' ' :: pieces, stop)
    else
      let (pieces, stop) := layOut (if c = '\n' then {} else pen.write c) cs
      (extend c pieces, stop)

/-- The pieces between line breaks. -/
def lines : List Char → List (List Char)
  | [] => [[]]
  | c :: cs =>
    match lines cs with
    | [] => [[c]]
    | l :: ls => if c = '\n' then [] :: l :: ls else (c :: l) :: ls

/-- A piece of one output line in a look; an empty piece prints nothing. -/
def wrap (style : Style) (cs : List Char) : List Char :=
  if cs.isEmpty then []
  else "\x1b[".toList ++ style.code.toList ++ 'm' :: cs ++ "\x1b[0m".toList

/-- A piece as a terminal gets it, with or without control sequences. -/
def emit (ansi : Bool) (style : Option Style) (piece : List Char) : List Char :=
  match style with
  | none => piece
  | some style =>
    if ansi then List.intercalate ['\n'] ((lines piece).map (wrap style)) else piece

/-- Runs as a terminal gets them, written from a pen on. -/
def emitRuns (ansi : Bool) : Text.Pen → List Run → List Char
  | _, [] => []
  | pen, r :: rs =>
    let (pieces, pen) := layOut pen r.text.toList
    pieces.flatMap (emit ansi r.style) ++ emitRuns ansi pen rs

/-- What a terminal gets, without the line break at the end. -/
def characters (ansi : Bool) : Printed → List Char
  | .row runs => emitRuns ansi {} runs
  | .message text style => emit ansi style (layOut {} text.toList).1.flatten

/-- The text that printing produces. -/
def render (ansi : Bool) (p : Printed) : String :=
  String.ofList (characters ansi p ++ ['\n'])

/-- The text of several printings. -/
def renderAll (ansi : Bool) (ps : List Printed) : String :=
  String.join (ps.map (render ansi))

end Styled

end Roundoff.Session
