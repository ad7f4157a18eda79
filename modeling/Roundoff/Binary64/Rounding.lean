import Roundoff.Binary64.Basic

/-! # Rounding to binary64

A rational is rounded to the nearest binary64 value, and to the one with an even significand
when it lies half way between two.  The weight of the last bit follows from the binary exponent
of the number and never falls below that of the subnormals; the number is divided by this weight
and the quotient rounded to an integer.  Reading exponent and fraction as one number makes a
carry out of the fraction step into the next binade, and finally to infinity, by itself.
-/
namespace Roundoff.Binary64

-- A power with a natural exponent is the core library's, whatever else is in scope.
attribute [local instance (2000)] instPowNat

/-- The integer nearest to `n / d`, the even one of two that are equally near. -/
def roundHalfEven (n d : Nat) : Nat :=
  let q := n / d
  let r := n % d
  if d < 2 * r ∨ (2 * r = d ∧ q % 2 = 1) then q + 1 else q

/-- `a / d < 2 ^ e`, in integers. -/
def ltTwoPow (a d : Nat) (e : Int) : Bool :=
  if 0 ≤ e then decide (a < d * 2 ^ e.toNat) else decide (a * 2 ^ (-e).toNat < d)

/-- The exponent `e` with `2 ^ e ≤ a / d < 2 ^ (e + 1)`, for positive `a` and `d`. -/
def floorLog2 (a d : Nat) : Int :=
  let e : Int := a.log2 - d.log2
  if ltTwoPow a d e then e - 1 else e

/-- The exponent of the last bit of the significand of `a / d`: 53 bits for normal results, and
the fixed weight `2 ^ (-1074)` below them. -/
def lastBitExponent (a d : Nat) : Int :=
  max (floorLog2 a d - 52) (-1074)

/-- `a / d` in units of `2 ^ e`, rounded to an integer. -/
def roundToUnit (a d : Nat) (e : Int) : Nat :=
  if 0 ≤ e then roundHalfEven a (d * 2 ^ e.toNat) else roundHalfEven (a * 2 ^ (-e).toNat) d

/-- The magnitude of the binary64 value nearest to `a / d`. -/
def roundMagnitude (a d : Nat) : Nat :=
  if a = 0 then 0
  else
    let e := lastBitExponent a d
    Nat.min (roundToUnit a d e + (e + 1074).toNat * 2 ^ (52 : Nat)) infinityMagnitude

theorem roundMagnitude_le (a d : Nat) : roundMagnitude a d ≤ infinityMagnitude := by
  unfold roundMagnitude
  split
  · exact Nat.zero_le _
  · exact Nat.min_le_right ..

/-- The value of a given sign whose magnitude is that of a rational, rounded. -/
def ofMagnitude (negative : Bool) (r : Rat) : Binary64 :=
  ⟨negative, roundMagnitude r.num.natAbs r.den,
    Nat.lt_of_le_of_lt (roundMagnitude_le ..) (by decide)⟩

/-- The binary64 value nearest to a rational.  A negative number keeps its sign also when it is
rounded to zero; zero itself becomes the positive zero. -/
def ofRat (r : Rat) : Binary64 :=
  ofMagnitude (decide (r < 0)) r

theorem isNaN_ofMagnitude (negative : Bool) (r : Rat) : (ofMagnitude negative r).isNaN = false :=
  decide_eq_false (Nat.not_lt.2 (roundMagnitude_le ..))

@[simp] theorem isNaN_ofRat (r : Rat) : (ofRat r).isNaN = false :=
  isNaN_ofMagnitude ..

example : ofRat 0 = zero false := by decide +kernel

example : ofRat (1 / 10) = ofBits 0x3FB999999999999A := by decide +kernel

end Roundoff.Binary64
