import Roundoff.Binary64.Rounding

/-! # Binary64 arithmetic

Each operation on finite values is the exact operation on the rationals they denote, rounded
once.  The rules for infinities, NaNs, the sign of a zero result and division by zero are those
of the standard: a division by zero gives a signed infinity, and an operation without a
meaningful result gives a NaN.
-/
namespace Roundoff.Binary64

/-- The sum. -/
def add (x y : Binary64) : Binary64 :=
  if x.isNaN || y.isNaN then nan
  else if x.isInfinite then
    if y.isInfinite && x.negative != y.negative then nan else x
  else if y.isInfinite then y
  else
    let s := x.toRat + y.toRat
    if s = 0 then zero (x.negative && y.negative) else ofRat s

/-- The difference. -/
def sub (x y : Binary64) : Binary64 :=
  add x y.neg

/-- The product. -/
def mul (x y : Binary64) : Binary64 :=
  let negative := x.negative != y.negative
  if x.isNaN || y.isNaN then nan
  else if x.isInfinite || y.isInfinite then
    if x.isZero || y.isZero then nan else infinity negative
  else ofMagnitude negative (x.toRat * y.toRat)

/-- The quotient. -/
def div (x y : Binary64) : Binary64 :=
  let negative := x.negative != y.negative
  if x.isNaN || y.isNaN then nan
  else if x.isInfinite then
    if y.isInfinite then nan else infinity negative
  else if y.isInfinite then zero negative
  else if y.isZero then
    if x.isZero then nan else infinity negative
  else ofMagnitude negative (x.toRat / y.toRat)

/-- The smaller value; a NaN wins, and the negative zero is below the positive one. -/
def minimum (x y : Binary64) : Binary64 :=
  match x.compare? y with
  | none => nan
  | some .eq => if x.negative then x else y
  | some .lt => x
  | some .gt => y

/-- The larger value; a NaN wins, and the positive zero is above the negative one. -/
def maximum (x y : Binary64) : Binary64 :=
  match x.compare? y with
  | none => nan
  | some .eq => if x.negative then y else x
  | some .lt => y
  | some .gt => x

/-- The gap between the absolute value and the next larger one, as for the largest finite
value if that would be infinity.  The gap at infinity is infinite. -/
def ulp (x : Binary64) : Binary64 :=
  if x.isNaN then x
  else if x.isInfinite then infinity false
  else ofRat (mkRat ((scaled (x.magnitude + 1) : Int) - scaled x.magnitude) unitDenominator)

/-- The value is finite and an integer. -/
def isIntegral (x : Binary64) : Bool :=
  x.isFinite && x.toRat.den == 1

/-- The value is an odd integer. -/
def isOddIntegral (x : Binary64) : Bool :=
  x.isIntegral && x.toRat.num % 2 == 1

example : div one (zero true) = infinity true := by decide +kernel

end Roundoff.Binary64
