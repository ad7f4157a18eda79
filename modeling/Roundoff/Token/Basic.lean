import Roundoff.Text.Quoted

/-! # Tokens

The words of an expression.  A token knows its kind, its text (an operator is normalised, so
that `**` reads `^`), and where its first character stands in the line.
-/
namespace Roundoff

/-- The kinds of tokens. -/
inductive TokenKind where
  | number
  | operator
  | leftParen
  | rightParen
  | identifier
  | comma
  | endOfInput
  deriving DecidableEq, Repr

namespace TokenKind

/-- The name of a kind. -/
def name : TokenKind → String
  | number => "number"
  | operator => "operator"
  | leftParen => "("
  | rightParen => ")"
  | identifier => "identifier"
  | comma => ","
  | endOfInput => "end of input"

/-- All kinds. -/
def all : List TokenKind :=
  [number, operator, leftParen, rightParen, identifier, comma, endOfInput]

/-- The kind of a given name. -/
def ofName? (s : String) : Option TokenKind :=
  all.find? fun k => k.name == s

/-- The message about a name that is no kind. -/
def unknownMessage (s : String) : String :=
  Text.quote s ++ " is not a valid TokenKind"

end TokenKind

/-- One token.  The position counts characters from the start of the line. -/
structure Token where
  kind : TokenKind
  text : String
  position : Int
  deriving DecidableEq, Repr

namespace Token

/-- The token after the last word. -/
def finish (position : Int) : Token := ⟨.endOfInput, "", position⟩

/-- A token as a message names it. -/
def describe (t : Token) : String :=
  match t.kind with
  | .endOfInput => TokenKind.endOfInput.name
  | .number => "number " ++ t.text
  | .identifier => "identifier " ++ Text.quote t.text
  | _ => Text.quote t.text

end Token

end Roundoff
