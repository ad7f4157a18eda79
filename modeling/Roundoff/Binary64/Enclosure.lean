import Roundoff.Binary64.Rounding
import Roundoff.Numeral.Basic

/-! # Enclosures of positive reals

A point is a natural number times a power of two, and an enclosure is a pair of points with a
real number between them.  Products, square roots and reciprocals of enclosures are cut down to
a working precision, the lower end towards zero and the upper end away from it.  A result that
fits into the working precision is kept exactly, so that both ends stay equal as long as nothing
has to be cut off.
-/
namespace Roundoff.Binary64

-- A power with a natural exponent is the core library's, whatever else is in scope.
attribute [local instance (2000)] instPowNat

/-- The non-negative number `mantissa * 2 ^ exponent`. -/
structure Point where
  mantissa : Nat
  exponent : Int
  deriving DecidableEq, Repr

namespace Point

/-- The number a point stands for. -/
def toRat (x : Point) : Rat :=
  x.mantissa * 2 ^ x.exponent

/-- The number of mantissa bits beyond a precision. -/
def excess (precision : Nat) (x : Point) : Nat :=
  Numeral.bitLength x.mantissa - precision

/-- A point cut down to a precision, towards zero. -/
def down (precision : Nat) (x : Point) : Point :=
  let s := x.excess precision
  ⟨x.mantissa / 2 ^ s, x.exponent + s⟩

/-- A point cut down to a precision, away from zero. -/
def up (precision : Nat) (x : Point) : Point :=
  let s := x.excess precision
  ⟨x.mantissa / 2 ^ s + if x.mantissa % 2 ^ s = 0 then 0 else 1, x.exponent + s⟩

/-- The product of two points. -/
def mul (x y : Point) : Point :=
  ⟨x.mantissa * y.mantissa, x.exponent + y.exponent⟩

/-- The integer square root: the largest number whose square is at most `n`. -/
def natSqrt (n : Nat) : Nat :=
  if n = 0 then 0
  else
    let r := 2 * natSqrt (n / 4)
    if (r + 1) * (r + 1) ≤ n then r + 1 else r
termination_by n
decreasing_by omega

/-- A point with an even exponent and at least twice `precision` mantissa bits, of equal
value. -/
def spread (precision : Nat) (x : Point) : Point :=
  let s := 2 * precision - Numeral.bitLength x.mantissa
  let s := if (x.exponent - s) % 2 = 0 then s else s + 1
  ⟨x.mantissa * 2 ^ s, x.exponent - s⟩

/-- The square root cut down to a precision, towards zero. -/
def sqrtDown (precision : Nat) (x : Point) : Point :=
  let y := x.spread precision
  ⟨natSqrt y.mantissa, y.exponent / 2⟩

/-- The square root cut down to a precision, away from zero. -/
def sqrtUp (precision : Nat) (x : Point) : Point :=
  let y := x.spread precision
  let r := natSqrt y.mantissa
  ⟨if r * r = y.mantissa then r else r + 1, y.exponent / 2⟩

/-- The reciprocal cut down to a precision, towards zero. -/
def reciprocalDown (precision : Nat) (x : Point) : Point :=
  let s := precision + Numeral.bitLength x.mantissa
  ⟨2 ^ s / x.mantissa, -x.exponent - s⟩

/-- The reciprocal cut down to a precision, away from zero. -/
def reciprocalUp (precision : Nat) (x : Point) : Point :=
  let s := precision + Numeral.bitLength x.mantissa
  ⟨2 ^ s / x.mantissa + if 2 ^ s % x.mantissa = 0 then 0 else 1, -x.exponent - s⟩

/-- The binary64 magnitude nearest to a point.  Points far outside the range are decided by
their leading bit alone. -/
def round (x : Point) : Nat :=
  let top := Numeral.bitLength x.mantissa + x.exponent
  if x.mantissa = 0 ∨ top < -1100 then 0
  else if 1100 < top then infinityMagnitude
  else if 0 ≤ x.exponent then roundMagnitude (x.mantissa * 2 ^ x.exponent.toNat) 1
  else roundMagnitude x.mantissa (2 ^ (-x.exponent).toNat)

theorem round_le (x : Point) : x.round ≤ infinityMagnitude := by
  unfold round
  dsimp only
  split
  · exact Nat.zero_le _
  · split
    · exact Nat.le_refl _
    · split <;> exact roundMagnitude_le ..

end Point

/-- Two points with a real number between them. -/
structure Enclosure where
  low : Point
  high : Point
  deriving DecidableEq, Repr

namespace Enclosure

/-- The enclosure of a point by itself. -/
def exactly (x : Point) : Enclosure := ⟨x, x⟩

/-- The product of two enclosures. -/
def mul (precision : Nat) (x y : Enclosure) : Enclosure :=
  ⟨(x.low.mul y.low).down precision, (x.high.mul y.high).up precision⟩

/-- The square root of an enclosure. -/
def sqrt (precision : Nat) (x : Enclosure) : Enclosure :=
  ⟨x.low.sqrtDown precision, x.high.sqrtUp precision⟩

/-- The reciprocal of an enclosure of a positive number. -/
def reciprocal (precision : Nat) (x : Enclosure) : Enclosure :=
  ⟨x.high.reciprocalDown precision, x.low.reciprocalUp precision⟩

/-- A power of an enclosure, by repeated squaring. -/
def pow (precision : Nat) (x : Enclosure) (n : Nat) : Enclosure :=
  if n = 0 then exactly ⟨1, 0⟩
  else
    let half := pow precision x (n / 2)
    let square := mul precision half half
    if n % 2 = 0 then square else mul precision square x
termination_by n
decreasing_by omega

/-- The root of an enclosure whose degree is a power of two. -/
def root (precision : Nat) (x : Enclosure) : Nat → Enclosure
  | 0 => x
  | k + 1 => root precision (sqrt precision x) k

/-- The binary64 magnitude nearest to the enclosed number, if both ends agree on it. -/
def round? (x : Enclosure) : Option Nat :=
  if x.low.round = x.high.round then some x.low.round else none

end Enclosure

end Roundoff.Binary64
