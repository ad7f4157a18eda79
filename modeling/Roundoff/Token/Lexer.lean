import Roundoff.Literal
import Roundoff.Token.Basic

/-! # Lexing

A line is cut into tokens from left to right.  Blanks separate tokens and are skipped; at every
other place the longest number, identifier or operator is taken.  A number is a decimal literal
without a sign, whose repeating group needs a decimal point before it.  The first character that
starts no token stops the lexer.
-/
namespace Roundoff

/-- A character that starts no token. -/
structure LexError where
  position : Int
  character : Char
  deriving DecidableEq, Repr

/-- The message of a lexing error. -/
def LexError.message (e : LexError) : String :=
  "unrecognized character " ++ Text.quote e.character.toString ++ " at position "
    ++ Numeral.text e.position

namespace Lexer

/-- A letter or an underscore. -/
def isNameStart (c : Char) : Bool :=
  (decide ('a' ≤ c) && decide (c ≤ 'z')) || (decide ('A' ≤ c) && decide (c ≤ 'Z')) || c == '_'

/-- A letter, a digit or an underscore. -/
def isNameRest (c : Char) : Bool :=
  isNameStart c || Text.isAsciiDigit c

/-- What follows the longest number at the start of a text, if there is one. -/
def afterNumber? (cs : List Char) : Option (List Char) := do
  let (_, fraction, rest) ← Literal.mantissa? cs
  let rest := if fraction.isSome then ((Literal.group? rest).map (·.2)).getD rest else rest
  return ((Literal.scale? rest).map (·.2)).getD rest

/-- What follows the longest identifier at the start of a text, if there is one. -/
def afterName? : List Char → Option (List Char)
  | c :: cs => if isNameStart c then some (cs.dropWhile isNameRest) else none
  | [] => none

/-- A token without its position, and the number of characters it takes. -/
structure Lexeme where
  kind : TokenKind
  text : String
  width : Nat
  deriving DecidableEq, Repr

/-- The lexeme of the characters up to a given rest. -/
def Lexeme.upTo (kind : TokenKind) (cs rest : List Char) : Lexeme :=
  let width := cs.length - rest.length
  ⟨kind, String.ofList (cs.take width), width⟩

/-- The operator or punctuation mark at the start of a text, the longest spelling first. -/
def symbol? : List Char → Option Lexeme
  | '*' :: '*' :: _ => some ⟨.operator, "^", 2⟩
  | '^' :: _ => some ⟨.operator, "^", 1⟩
  | '+' :: _ => some ⟨.operator, "+", 1⟩
  | '-' :: _ => some ⟨.operator, "-", 1⟩
  | '*' :: _ => some ⟨.operator, "*", 1⟩
  | '/' :: _ => some ⟨.operator, "/", 1⟩
  | '(' :: _ => some ⟨.leftParen, "(", 1⟩
  | ')' :: _ => some ⟨.rightParen, ")", 1⟩
  | ',' :: _ => some ⟨.comma, ",", 1⟩
  | _ => none

/-- The token at the start of a text. -/
def lexeme? (cs : List Char) : Option Lexeme :=
  match afterNumber? cs with
  | some rest => some (.upTo .number cs rest)
  | none =>
    match afterName? cs with
    | some rest => some (.upTo .identifier cs rest)
    | none => symbol? cs

/-- The tokens of a text whose first character stands at a given position.  They end with an
end-of-input token unless the lexer was stopped. -/
def scan (position : Nat) : List Char → List Token × Option LexError
  | [] => ([.finish position], none)
  | c :: rest =>
    if Text.isBlank c then scan (position + 1) rest
    else
      match lexeme? (c :: rest) with
      | none => ([], some ⟨position, c⟩)
      | some l =>
        let (tokens, stop) := scan (position + l.width) (rest.drop (l.width - 1))
        (⟨l.kind, l.text, position⟩ :: tokens, stop)
termination_by cs => cs.length
decreasing_by
  · simp
  · simp only [List.length_cons, List.length_drop]
    omega

/-- All tokens of a line, or the character that stopped the lexer. -/
def tokenize (line : String) : Except LexError (List Token) :=
  match scan 0 line.toList with
  | (tokens, none) => .ok tokens
  | (_, some e) => .error e

end Lexer

end Roundoff
