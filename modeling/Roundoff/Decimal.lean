import Roundoff.Numeral.Basic

/-! # Decimal floating-point numbers

A natural number times a power of ten, the form in which shortened numbers are written, and the
decimal exponent of a positive fraction: the power of ten that its first digit counts.
-/
namespace Roundoff

-- A power with a natural exponent is the core library's, whatever else is in scope.
attribute [local instance (2000)] instPowNat

/-- The number `coefficient * 10 ^ exponent`. -/
structure Decimal where
  coefficient : Nat
  exponent : Int
  deriving DecidableEq, Repr

namespace Decimal

/-- The number of decimal digits of a natural number; zero has none. -/
def digitCount (n : Nat) : Nat :=
  if n = 0 then 0 else (Numeral.natural n).length

/-- The exponent `k` with `10 ^ k ≤ a / d < 10 ^ (k + 1)`, for positive `a` and `d`.  For
`a / d < 1` the least `k` with `1 ≤ a / d * 10 ^ k` is the number of digits of
`(d - 1) / a`. -/
def leadingExponent (a d : Nat) : Int :=
  if d ≤ a then digitCount (a / d) - 1 else -digitCount ((d - 1) / a)

/-- The whole part of `a / d` in units of `10 ^ e`. -/
def floorToUnit (a d : Nat) (e : Int) : Nat :=
  if 0 ≤ e then a / (d * 10 ^ e.toNat) else a * 10 ^ (-e).toNat / d

/-- The rational value. -/
def toRat (x : Decimal) : Rat :=
  x.coefficient * 10 ^ x.exponent

/-- The value as a fraction of natural numbers. -/
def numerator (x : Decimal) : Nat := x.coefficient * 10 ^ x.exponent.toNat

/-- The denominator that belongs to `numerator`. -/
def denominator (x : Decimal) : Nat := 10 ^ (-x.exponent).toNat

/-- The digits of the coefficient without trailing zeros. -/
def significantDigits (x : Decimal) : List Char :=
  ((Numeral.natural x.coefficient).reverse.dropWhile (· == '0')).reverse

/-- The power of ten that the first digit counts. -/
def firstExponent (x : Decimal) : Int :=
  (Numeral.natural x.coefficient).length - 1 + x.exponent

/-- A power-of-ten exponent as it follows an `e`: a sign and at least two digits. -/
def exponentText (e : Int) : List Char :=
  (if e < 0 then '-' else '+') :: Numeral.padZeros 2 (Numeral.natural e.natAbs)

/-- A digit, the point, and more digits; no point if there are none. -/
def scientificMantissa : List Char → List Char
  | d :: e :: ds => d :: '.' :: e :: ds
  | ds => ds

end Decimal

end Roundoff
