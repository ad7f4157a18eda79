import Roundoff.Text.Digit

/-! # Text patterns

The three forms that numbers take in records: a signed integer, a positive integer, and a
rational, which is a signed integer optionally followed by a slash and more digits.
-/
namespace Roundoff.Text

/-- The form of a number in a record. -/
inductive Pattern where
  | integer
  | positive
  | rational
  deriving DecidableEq, Repr

namespace Pattern

/-- One or more digits. -/
def isDigits (cs : List Char) : Bool :=
  !cs.isEmpty && cs.all isAsciiDigit

/-- A text without the minus sign at its start. -/
def unsigned : List Char → List Char
  | '-' :: cs => cs
  | cs => cs

/-- A whole text has the form. -/
def fits : Pattern → List Char → Bool
  | integer, cs => isDigits (unsigned cs)
  | positive, cs => isDigits cs && cs.head? != some '0'
  | rational, cs =>
    let body := unsigned cs
    match body.dropWhile isAsciiDigit with
    | [] => isDigits body
    | '/' :: den => isDigits (body.takeWhile isAsciiDigit) && isDigits den
    | _ => false

/-- A text has the form, apart from one line break that may follow. -/
def fitsLine (p : Pattern) (cs : List Char) : Bool :=
  p.fits cs || (cs.getLast? == some '\n' && p.fits cs.dropLast)

end Pattern

end Roundoff.Text
