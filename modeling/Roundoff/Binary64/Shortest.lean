import Roundoff.Binary64.Rounding
import Roundoff.Decimal

/-! # Shortest decimals

The shortest decimal that reads back as a given finite value: of the decimals with the least
number of digits that round to the value, the one nearest to it, and the even one of two that
are equally near.  On the grid of decimals with a given number of digits only the two neighbours
of the value have to be tried, since all numbers between the value and a decimal that reads back
read back as well.
-/
namespace Roundoff.Binary64

-- A power with a natural exponent is the core library's, whatever else is in scope.
attribute [local instance (2000)] instPowNat

/-- A decimal reads back as the value of a magnitude. -/
def readsBack (m : Nat) (x : Decimal) : Bool :=
  roundMagnitude x.numerator x.denominator == m

/-- Of the two decimals around the value of a magnitude with last digit at `10 ^ e`, the nearer
one that reads back. -/
def neighbour? (m : Nat) (e : Int) : Option Decimal :=
  let below := Decimal.floorToUnit (scaled m) unitDenominator e
  let twice := Decimal.floorToUnit (2 * scaled m) unitDenominator e
  let exactHalf := (Decimal.mk (2 * below + 1) e).numerator * unitDenominator
    == 2 * scaled m * (Decimal.mk below e).denominator
  let aboveIsNearer := twice != 2 * below && !(exactHalf && below % 2 == 0)
  let low := Decimal.mk below e
  let high := Decimal.mk (below + 1) e
  let (near, far) := if aboveIsNearer then (high, low) else (low, high)
  if readsBack m near then some near
  else if readsBack m far then some far
  else none

/-- The value of a magnitude as an exact decimal. -/
def exactDecimal (m : Nat) : Decimal :=
  ⟨scaled m * 5 ^ (1074 : Nat), -1074⟩

/-- The shortest decimal that reads back as a positive finite magnitude.  Seventeen digits are
always enough. -/
def shortest (m : Nat) : Decimal :=
  let first := Decimal.leadingExponent (scaled m) unitDenominator
  ((List.range 17).findSome? fun (k : Nat) => neighbour? m (first - k)).getD (exactDecimal m)

example : shortest 0x3FB999999999999A = ⟨1, -1⟩ := by decide +kernel

example : shortest 1 = ⟨5, -324⟩ := by decide +kernel

end Roundoff.Binary64
