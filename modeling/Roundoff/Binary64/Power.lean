import Roundoff.Binary64.Arithmetic
import Roundoff.Binary64.Enclosure

/-! # Powers in binary64

The power of two finite values is the exact real power, rounded once.  A small integer power is
computed exactly.  Otherwise the power is enclosed at growing precisions until both ends of the
enclosure round to the same value: the exponent is a fraction over a power of two, so that the
power is an integer power of an iterated square root.  An exact result, and one half way between
two values, has few enough bits to be found exactly at the first precision already.

Zeros, infinities, NaNs and negative bases follow the standard's `pow`: an overflow and a zero
base with a negative exponent give infinities, and a negative base with a fractional exponent
gives a NaN.
-/
namespace Roundoff.Binary64

-- A power with a natural exponent is the core library's, whatever else is in scope.
attribute [local instance (2000)] instPowNat

/-- The working precisions for enclosures of powers. -/
def powerPrecisions : List Nat := [128, 256, 512, 1024, 2048, 4096, 8192]

/-- A base of at most this many bits times the exponent is raised exactly. -/
def exactPowerBits : Nat := 4096

/-- The absolute value of a finite value as a point. -/
def toPoint (x : Binary64) : Point :=
  if biasedExponent x.magnitude = 0 then ⟨x.magnitude, -1074⟩
  else ⟨2 ^ (52 : Nat) + fraction x.magnitude, biasedExponent x.magnitude - 1075⟩

/-- An enclosure of `x ^ (n / 2 ^ k)`. -/
def powerEnclosure (x : Point) (n : Int) (k precision : Nat) : Enclosure :=
  let e := ((Enclosure.exactly x).root precision k).pow precision n.natAbs
  if n < 0 then e.reciprocal precision else e

/-- The magnitude of a power with an integer exponent: that of the exact power, rounded. -/
def integerPowerMagnitude (x : Binary64) (n : Int) : Nat :=
  let exact (_ : Unit) : Nat :=
    let r := x.abs.toRat ^ n
    roundMagnitude r.num.natAbs r.den
  if Numeral.bitLength x.toPoint.mantissa * n.natAbs ≤ exactPowerBits then exact ()
  else
    match powerPrecisions.findSome? fun p => (powerEnclosure x.toPoint n 0 p).round? with
    | some m => Nat.min m infinityMagnitude
    | none => exact ()

/-- The magnitude of a power with exponent `n / 2 ^ k`.  If no precision decides, the lower end
of the finest enclosure does. -/
def rootPowerMagnitude (x : Binary64) (n : Int) (k : Nat) : Nat :=
  match powerPrecisions.findSome? fun p => (powerEnclosure x.toPoint n k p).round? with
  | some m => Nat.min m infinityMagnitude
  | none => (powerEnclosure x.toPoint n k 16384).low.round

theorem integerPowerMagnitude_le (x : Binary64) (n : Int) :
    integerPowerMagnitude x n ≤ infinityMagnitude := by
  unfold integerPowerMagnitude
  dsimp only
  split
  · exact roundMagnitude_le ..
  · split
    · exact Nat.min_le_right ..
    · exact roundMagnitude_le ..

theorem rootPowerMagnitude_le (x : Binary64) (n : Int) (k : Nat) :
    rootPowerMagnitude x n k ≤ infinityMagnitude := by
  unfold rootPowerMagnitude
  split
  · exact Nat.min_le_right ..
  · exact Point.round_le _

/-- The power of the absolute value of a finite nonzero base and a finite exponent. -/
def finitePower (negative : Bool) (x y : Binary64) : Binary64 :=
  let e := y.toRat
  if e.den = 1 then
    ⟨negative, integerPowerMagnitude x e.num,
      Nat.lt_of_le_of_lt (integerPowerMagnitude_le ..) (by decide)⟩
  else
    ⟨negative, rootPowerMagnitude x e.num e.den.log2,
      Nat.lt_of_le_of_lt (rootPowerMagnitude_le ..) (by decide)⟩

/-- The power `x ^ y`. -/
def pow (x y : Binary64) : Binary64 :=
  let negative := x.negative && y.isOddIntegral
  if y.isZero || x = one then one
  else if x.isNaN || y.isNaN then nan
  else if y.isInfinite then
    if x.magnitude = one.magnitude then one
    else if decide (one.magnitude < x.magnitude) != y.negative then infinity false
    else zero false
  else if x.isZero then
    if y.negative then infinity negative else zero negative
  else if x.isInfinite then
    if y.negative then zero negative else infinity negative
  else if x.negative && !y.isIntegral then nan
  else finitePower negative x y

end Roundoff.Binary64
