import Roundoff.Numeral.Basic

/-! # Exact arithmetic

Values are rational numbers, kept in lowest terms over a positive denominator by their type.
Addition, subtraction, multiplication, negation and absolute value are those of the field; this
module adds the operations that have no value everywhere, with the reason when there is none,
and the text of a rational.
-/
namespace Roundoff

/-- Why an exact operation has no value. -/
inductive ArithmeticError where
  /-- A fraction was written over zero. -/
  | zeroDenominator
  /-- The divisor is zero. -/
  | zeroDivisor
  /-- The reciprocal of zero was asked for. -/
  | zeroReciprocal
  /-- Zero was raised to a negative power. -/
  | zeroToNegativePower
  /-- The exponent is not an integer, so the power is in general irrational. -/
  | fractionalExponent
  deriving DecidableEq, Repr

namespace ArithmeticError

/-- The message of an arithmetic error. -/
def message : ArithmeticError → String
  | zeroDenominator => "rational with zero denominator"
  | zeroDivisor => "division by zero"
  | zeroReciprocal => "reciprocal of zero"
  | zeroToNegativePower => "zero raised to a negative power"
  | fractionalExponent => "exponent is not an integer"

/-- The error is a division by zero in one of its forms. -/
def isDivisionByZero : ArithmeticError → Bool
  | fractionalExponent => false
  | _ => true

end ArithmeticError

namespace Exact

/-- The fraction of two integers. -/
def ratio (n d : Int) : Except ArithmeticError Rat :=
  if d = 0 then .error .zeroDenominator else .ok (Rat.divInt n d)

/-- The quotient of two rationals. -/
def div (x y : Rat) : Except ArithmeticError Rat :=
  if y = 0 then .error .zeroDivisor else .ok (x / y)

/-- The reciprocal of a rational. -/
def reciprocal (x : Rat) : Except ArithmeticError Rat :=
  if x = 0 then .error .zeroReciprocal else .ok x⁻¹

/-- A rational to an integer power; the exponent is given as a rational. -/
def pow (x y : Rat) : Except ArithmeticError Rat :=
  if y.den ≠ 1 then .error .fractionalExponent
  else if y.num < 0 ∧ x = 0 then .error .zeroToNegativePower
  else .ok (x ^ y.num)

/-- The smaller of two rationals, the first when they are equal. -/
def min (x y : Rat) : Rat :=
  if x ≤ y then x else y

/-- The larger of two rationals, the first when they are equal. -/
def max (x y : Rat) : Rat :=
  if y ≤ x then x else y

/-- A rational without its sign. -/
def abs (x : Rat) : Rat :=
  if x < 0 then -x else x

/-- How two rationals are ordered. -/
def compare (x y : Rat) : Ordering :=
  if x < y then .lt else if y < x then .gt else .eq

/-- The number of binary digits of the numerator or the denominator, whichever has more. -/
def bitLength (x : Rat) : Nat :=
  Nat.max (Numeral.bitLength x.num.natAbs) (Numeral.bitLength x.den)

/-- The text of a rational: its numerator, and its denominator unless that is one. -/
def text (x : Rat) : String :=
  if x.den = 1 then Numeral.text x.num
  else Numeral.text x.num ++ "/" ++ Numeral.text x.den

theorem div_eq_ok_iff {x y z : Rat} : div x y = .ok z ↔ y ≠ 0 ∧ z = x / y := by
  unfold div
  split <;> simp_all [eq_comm]

theorem reciprocal_eq_ok_iff {x z : Rat} : reciprocal x = .ok z ↔ x ≠ 0 ∧ z = x⁻¹ := by
  unfold reciprocal
  split <;> simp_all [eq_comm]

theorem ratio_eq_ok_iff {n d : Int} {z : Rat} :
    ratio n d = .ok z ↔ d ≠ 0 ∧ z = Rat.divInt n d := by
  unfold ratio
  split <;> simp_all [eq_comm]

theorem pow_eq_ok_iff {x y z : Rat} :
    pow x y = .ok z ↔ y.den = 1 ∧ (y.num < 0 → x ≠ 0) ∧ z = x ^ y.num := by
  unfold pow
  split
  · simp_all
  · split <;> grind

end Exact

end Roundoff
