import Roundoff.Exact
import Roundoff.Numeral.Read

/-! # Number literals

A decimal literal has an optional sign, digits before and after an optional point, an optional
group of repeating digits in parentheses (`0.(3)`, `1.2(34...)`), and an optional power of ten
(`2e-3`).  Its value is exact: with integer digits `I`, fixed digits `F` and repeating digits
`R` it is `I.F` plus `R` over `10 ^ |F| * (10 ^ |R| - 1)`, scaled by the power of ten.  A
literal text may also be a fraction of two digit strings, `-3/4`.
-/
namespace Roundoff

-- A power with a natural exponent is the core library's, whatever else is in scope.
attribute [local instance (2000)] instPowNat

/-- A decimal literal taken apart: sign, digit groups and power-of-ten exponent. -/
structure Literal where
  negative : Bool
  integer : List Char
  fixed : List Char
  repeating : List Char
  exponent : Int
  deriving DecidableEq, Repr

/-- Why a text is not a number literal, or not an accepted one. -/
inductive LiteralError where
  /-- The text does not have the form of a decimal literal. -/
  | notDecimal (text : String)
  /-- A repeating group follows a number that has no decimal point. -/
  | groupWithoutPoint (text : String)
  /-- A digit group is not a digit string. -/
  | unreadable (cause : Numeral.ReadError)
  /-- A fraction has denominator zero. -/
  | zeroDenominator
  /-- The power-of-ten exponent is larger than the limit allows. -/
  | exponentTooLarge (exponent limit : Int)
  /-- The exponent is too large, and it has too many digits to be quoted. -/
  | exponentUnquotable
  deriving DecidableEq, Repr

/-- The message of a literal error. -/
def LiteralError.message : LiteralError → String
  | notDecimal text => "not a decimal literal: " ++ Text.quote text
  | groupWithoutPoint text => "repeating digits need a decimal point: " ++ Text.quote text
  | unreadable cause => cause.message
  | zeroDenominator => ArithmeticError.zeroDenominator.message
  | exponentTooLarge exponent limit =>
    "literal exponent " ++ Numeral.text exponent ++ " exceeds the limit of ±" ++ Numeral.text limit
  | exponentUnquotable => Numeral.unquotableMessage

namespace Literal

open Text (isAsciiDigit isBlank trim)

/-- A group of repeating digits, `(digits)` or `(digits...)`, and what follows it. -/
def group? : List Char → Option (List Char × List Char)
  | '(' :: cs =>
    let ds := cs.takeWhile isAsciiDigit
    if ds.isEmpty then none
    else
      match cs.dropWhile isAsciiDigit with
      | ')' :: rest => some (ds, rest)
      | '.' :: '.' :: '.' :: ')' :: rest => some (ds, rest)
      | _ => none
  | _ => none

/-- An optional sign: its characters and what follows them. -/
def sign : List Char → List Char × List Char
  | '+' :: cs => (['+'], cs)
  | '-' :: cs => (['-'], cs)
  | cs => ([], cs)

/-- A power of ten, `e` or `E` with an optionally signed digit string: the signed digits and
what follows them. -/
def scale? : List Char → Option (List Char × List Char)
  | c :: cs =>
    if c = 'e' ∨ c = 'E' then
      let (sgn, cs) := sign cs
      let ds := cs.takeWhile isAsciiDigit
      if ds.isEmpty then none else some (sgn ++ ds, cs.dropWhile isAsciiDigit)
    else none
  | [] => none

/-- The digits before and after the decimal point, and what follows them.  Without a point the
second part is `none`; one of the two sides must have a digit. -/
def mantissa? (cs : List Char) : Option (List Char × Option (List Char) × List Char) :=
  let int := cs.takeWhile isAsciiDigit
  match cs.dropWhile isAsciiDigit with
  | '.' :: rest =>
    let frac := rest.takeWhile isAsciiDigit
    if int.isEmpty && frac.isEmpty then none
    else some (int, some frac, rest.dropWhile isAsciiDigit)
  | rest => if int.isEmpty then none else some (int, none, rest)

/-- Take a decimal literal apart. -/
def split (text : String) : Except LiteralError Literal :=
  let (sgn, cs) := sign (trim text.toList)
  match mantissa? cs with
  | none => .error (.notDecimal text)
  | some (int, frac, rest) =>
    let (repeating, rest) := match group? rest with
      | some (ds, rest) => (ds, rest)
      | none => ([], rest)
    let (scale, rest) := match scale? rest with
      | some (ds, rest) => (some ds, rest)
      | none => (none, rest)
    if !rest.isEmpty then .error (.notDecimal text)
    else if !repeating.isEmpty && frac.isNone then .error (.groupWithoutPoint text)
    else
      match scale.mapM Numeral.read with
      | .error e => .error (.unreadable e)
      | .ok exponent =>
        .ok {
          negative := sgn == ['-']
          integer := if int.isEmpty then ['0'] else int
          fixed := frac.getD []
          repeating
          exponent := exponent.getD 0 }

/-- Two integers whose quotient is the value of a literal. -/
def ratio (l : Literal) : Except Numeral.ReadError (Int × Nat) := do
  let whole ← Numeral.read (l.integer ++ l.fixed)
  let shift := 10 ^ l.fixed.length
  let (n, d) ←
    if l.repeating.isEmpty then pure (whole, shift)
    else do
      let cycle : Nat := 10 ^ l.repeating.length - 1
      let period ← Numeral.read l.repeating
      pure (whole * cycle + period, shift * cycle)
  let (n, d) :=
    if 0 ≤ l.exponent then (n * 10 ^ l.exponent.toNat, d)
    else (n, d * 10 ^ (-l.exponent).toNat)
  return (if l.negative then -n else n, d)

/-- The value of a literal. -/
def value (l : Literal) : Except Numeral.ReadError Rat := do
  let (n, d) ← l.ratio
  return mkRat n d

/-- The two digit strings of a fraction text, with its sign. -/
def fraction? (cs : List Char) : Option (List Char × List Char × List Char) :=
  let (sgn, cs) := sign cs
  let num := cs.takeWhile isAsciiDigit
  match (cs.dropWhile isAsciiDigit).dropWhile isBlank with
  | '/' :: rest =>
    let den := rest.dropWhile isBlank
    if num.isEmpty || den.isEmpty || !den.all isAsciiDigit then none else some (sgn, num, den)
  | _ => none

/-- The exact value of a literal text, decimal or fraction.  A decimal literal whose exponent
exceeds `maxExponent` in size is refused. -/
def parse (text : String) (maxExponent : Option Int := none) : Except LiteralError Rat :=
  match fraction? (trim text.toList) with
  | some (sgn, num, den) =>
    match Numeral.read num, Numeral.read den with
    | .ok n, .ok d =>
      match Exact.ratio (if sgn = ['-'] then -n else n) d with
      | .ok r => .ok r
      | .error _ => .error .zeroDenominator
    | .error e, _ => .error (.unreadable e)
    | .ok _, .error e => .error (.unreadable e)
  | none => do
    let l ← split text
    match maxExponent with
    | some limit =>
      if limit < l.exponent.natAbs then
        throw (if Numeral.isQuotable l.exponent then .exponentTooLarge l.exponent limit
          else .exponentUnquotable)
    | none => pure ()
    match l.value with
    | .ok r => return r
    | .error e => throw (.unreadable e)

end Literal

end Roundoff
