import Roundoff.Text.Digit
import Roundoff.Text.Printable

/-! # Quoted text

How a message quotes a piece of input: between apostrophes, or between double quotes when the
text holds an apostrophe and no double quote.  Characters that would be misread (the quote in
use, the backslash) or not be seen at all are written as escapes.
-/
namespace Roundoff.Text

/-- The quotation mark for a text. -/
def quoteMark (cs : List Char) : Char :=
  if cs.contains '\'' && !cs.contains '"' then '"' else '\''

/-- One character inside a quotation delimited by `mark`. -/
def escapeChar (mark c : Char) : List Char :=
  if c = mark ∨ c = '\\' then ['\\', c]
  else if c = '\n' then ['\\', 'n']
  else if c = '\r' then ['\\', 'r']
  else if c = '\t' then ['\\', 't']
  else if isPrintable c then [c]
  else if c.toNat < 0x100 then ['\\', 'x'] ++ hexDigits 2 c.toNat
  else if c.toNat < 0x10000 then ['\\', 'u'] ++ hexDigits 4 c.toNat
  else ['\\', 'U'] ++ hexDigits 8 c.toNat

/-- A text in quotation marks. -/
def quoteChars (cs : List Char) : List Char :=
  let mark := quoteMark cs
  mark :: (cs.flatMap (escapeChar mark) ++ [mark])

/-- A text in quotation marks. -/
def quote (s : String) : String :=
  String.ofList (quoteChars s.toList)

example : quoteChars ['a', '\'', 'b'] = ['"', 'a', '\'', 'b', '"'] := by decide +kernel

example : quoteChars ['\'', '"'] = ['\'', '\\', '\'', '"', '\''] := by decide +kernel

end Roundoff.Text
