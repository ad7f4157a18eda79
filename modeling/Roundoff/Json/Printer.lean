import Roundoff.Binary64.Text
import Roundoff.Json.Basic
import Roundoff.Text.Quoted

/-! # Writing JSON

Two layouts: on one line, and indented by two blanks a level with one item a line.  Characters
beyond ASCII are written as they are.
-/
namespace Roundoff.Json

/-- One character inside a string. -/
def escape (c : Char) : List Char :=
  if c = '"' then ['\\', '"']
  else if c = '\\' then ['\\', '\\']
  else if c = '\n' then ['\\', 'n']
  else if c = '\r' then ['\\', 'r']
  else if c = '\t' then ['\\', 't']
  else if c = '\x08' then ['\\', 'b']
  else if c = '\x0c' then ['\\', 'f']
  else if c.toNat < 0x20 then ['\\', 'u'] ++ Text.hexDigits 4 c.toNat
  else [c]

/-- A string in quotes. -/
def quoted (s : String) : String :=
  "\"" ++ String.ofList (s.toList.flatMap escape) ++ "\""

/-- A binary64 value as a number or a number name. -/
def floatText (x : Binary64) : String :=
  if x.isNaN then "NaN"
  else if x.isInfinite then if x.negative then "-Infinity" else "Infinity"
  else x.text

mutual

/-- A value on one line. -/
def compact : Json → String
  | null => "null"
  | bool b => if b then "true" else "false"
  | int i => Numeral.text i
  | float x => floatText x
  | string s => quoted s
  | array items => "[" ++ String.intercalate ", " (compactItems items) ++ "]"
  | object members => "\x7b" ++ String.intercalate ", " (compactMembers members) ++ "\x7d"

/-- The items of an array, each on one line. -/
def compactItems : List Json → List String
  | [] => []
  | v :: vs => compact v :: compactItems vs

/-- The members of an object, each on one line. -/
def compactMembers : List (String × Json) → List String
  | [] => []
  | m :: ms => (quoted m.1 ++ ": " ++ compact m.2) :: compactMembers ms

end

/-- A line break and the indentation of a level. -/
def newline (level : Nat) : String :=
  "\n" ++ String.ofList (List.replicate (2 * level) ' ')

mutual

/-- A value in the indented layout, at a given level. -/
def indented (level : Nat) : Json → String
  | array (v :: vs) =>
    "[" ++ newline (level + 1)
      ++ String.intercalate ("," ++ newline (level + 1)) (indentedItems (level + 1) (v :: vs))
      ++ newline level ++ "]"
  | object (m :: ms) =>
    "\x7b" ++ newline (level + 1)
      ++ String.intercalate ("," ++ newline (level + 1)) (indentedMembers (level + 1) (m :: ms))
      ++ newline level ++ "\x7d"
  | array [] => "[]"
  | object [] => "\x7b\x7d"
  | null => "null"
  | bool b => if b then "true" else "false"
  | int i => Numeral.text i
  | float x => floatText x
  | string s => quoted s

/-- The items of an array in the indented layout. -/
def indentedItems (level : Nat) : List Json → List String
  | [] => []
  | v :: vs => indented level v :: indentedItems level vs

/-- The members of an object in the indented layout. -/
def indentedMembers (level : Nat) : List (String × Json) → List String
  | [] => []
  | m :: ms => (quoted m.1 ++ ": " ++ indented level m.2) :: indentedMembers level ms

end

end Roundoff.Json
