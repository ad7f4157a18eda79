import Roundoff.Binary64.Shortest
import Roundoff.Text.Digit

/-! # Texts of binary64 values

Two written forms.  The decimal form is the shortest decimal that reads back, written
positionally when its first digit counts a power of ten from `10 ^ (-4)` up to `10 ^ 15`, and in
scientific notation otherwise.  The hexadecimal form shows the significand bit by bit: one digit
before the point, thirteen after it, and the binary exponent.
-/
namespace Roundoff.Binary64

-- A power with a natural exponent is the core library's, whatever else is in scope.
attribute [local instance (2000)] instPowNat

/-- Digits written out positionally; the first counts `10 ^ p`. -/
def positional (ds : List Char) (p : Int) : List Char :=
  if p < 0 then '0' :: '.' :: (List.replicate (-p - 1).toNat '0' ++ ds)
  else
    let width := p.toNat + 1
    let whole := ds.take width ++ List.replicate (width - ds.length) '0'
    let fraction := ds.drop width
    whole ++ '.' :: (if fraction.isEmpty then ['0'] else fraction)

/-- Digits in scientific notation; the first counts `10 ^ p`. -/
def scientific (ds : List Char) (p : Int) : List Char :=
  Decimal.scientificMantissa ds ++ 'e' :: Decimal.exponentText p

/-- The exponents of ten that are written positionally. -/
def isPositional (p : Int) : Bool :=
  decide (-4 ≤ p) && decide (p < 16)

/-- The text of a finite magnitude. -/
def magnitudeText (m : Nat) : List Char :=
  if m = 0 then ['0', '.', '0']
  else
    let x := shortest m
    let ds := x.significantDigits
    let p := x.firstExponent
    if isPositional p then positional ds p else scientific ds p

/-- The minus sign of a negative value. -/
def signText (negative : Bool) : List Char :=
  if negative then ['-'] else []

/-- The decimal text of a value. -/
def text (x : Binary64) : String :=
  if x.isNaN then "nan"
  else if x.isInfinite then if x.negative then "-inf" else "inf"
  else String.ofList (signText x.negative ++ magnitudeText x.magnitude)

/-- The message about a value that is not finite. -/
def NotFinite.message (e : NotFinite) : String :=
  e.value.text ++ " has no rational value"

/-- A binary exponent with its sign. -/
def binaryExponentText (e : Int) : List Char :=
  (if e < 0 then '-' else '+') :: Numeral.natural e.natAbs

/-- The hexadecimal text of a value. -/
def hexText (x : Binary64) : String :=
  if x.isNaN then "nan"
  else if x.isInfinite then if x.negative then "-inf" else "inf"
  else
    let body :=
      if x.magnitude = 0 then "0.0p+0".toList
      else
        let digits := Text.hexDigits 13 (fraction x.magnitude)
        let e := biasedExponent x.magnitude
        if e = 0 then "0.".toList ++ digits ++ "p-1022".toList
        else "1.".toList ++ digits ++ 'p' :: binaryExponentText (e - 1023)
    String.ofList (signText x.negative ++ '0' :: 'x' :: body)

end Roundoff.Binary64
