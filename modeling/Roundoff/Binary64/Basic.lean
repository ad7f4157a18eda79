/-! # Binary64 values

The interchange format of double precision: a sign and 63 bits of magnitude, of which the upper
eleven are the biased exponent and the lower 52 the fraction.  Magnitudes are ordered as the
values they stand for: zero, the subnormals, the normals, infinity, and above it the NaNs.  A
finite magnitude is a multiple of `2 ^ (-1074)`, and `scaled` is that multiple.
-/
namespace Roundoff

-- A power with a natural exponent is the core library's, whatever else is in scope.
attribute [local instance (2000)] instPowNat

/-- A binary64 value as it is stored: its sign, and the 63 bits below the sign as a number. -/
structure Binary64 where
  negative : Bool
  magnitude : Nat
  magnitude_lt : magnitude < 2 ^ (63 : Nat) := by decide
  deriving DecidableEq, Repr

/-- The classes of binary64 values. -/
inductive FloatClass where
  | zero
  | subnormal
  | normal
  | infinite
  | nan
  deriving DecidableEq, Repr

/-- The name of a class. -/
def FloatClass.name : FloatClass → String
  | zero => "zero"
  | subnormal => "subnormal"
  | normal => "normal"
  | infinite => "infinite"
  | nan => "nan"

namespace Binary64

/-- The magnitude of the infinities: exponent bits all ones, fraction zero. -/
def infinityMagnitude : Nat := 0x7FF0000000000000

/-- The magnitude of the smallest normal value, `2 ^ (-1022)`. -/
def normalMagnitude : Nat := 2 ^ (52 : Nat)

/-- The infinity of a sign. -/
def infinity (negative : Bool) : Binary64 := ⟨negative, infinityMagnitude, by decide⟩

/-- The zero of a sign. -/
def zero (negative : Bool) : Binary64 := ⟨negative, 0, by decide⟩

/-- The NaN that operations produce. -/
def nan : Binary64 := ⟨false, 0x7FF8000000000000, by decide⟩

/-- The value one. -/
def one : Binary64 := ⟨false, 0x3FF0000000000000, by decide⟩

/-- The value with a given 64-bit pattern; higher bits are ignored. -/
def ofBits (b : Nat) : Binary64 :=
  ⟨b / 2 ^ (63 : Nat) % 2 == 1, b % 2 ^ (63 : Nat), Nat.mod_lt _ (by decide)⟩

/-- The 64-bit pattern of a value. -/
def bits (x : Binary64) : Nat :=
  x.magnitude + if x.negative then 2 ^ (63 : Nat) else 0

@[simp] theorem ofBits_bits (x : Binary64) : ofBits x.bits = x := by
  obtain ⟨s, m, h⟩ := x
  have low : (m + 0) / 2 ^ (63 : Nat) % 2 = 0 ∧ (m + 0) % 2 ^ (63 : Nat) = m := by omega
  have high : (m + 2 ^ (63 : Nat)) / 2 ^ (63 : Nat) % 2 = 1
      ∧ (m + 2 ^ (63 : Nat)) % 2 ^ (63 : Nat) = m := by omega
  cases s
  · simp only [bits, ofBits, Bool.false_eq_true, if_false, low]
    rfl
  · simp only [bits, ofBits, if_true, high]
    rfl

/-- The value is not a number. -/
def isNaN (x : Binary64) : Bool := decide (infinityMagnitude < x.magnitude)

/-- The value is an infinity. -/
def isInfinite (x : Binary64) : Bool := decide (x.magnitude = infinityMagnitude)

/-- The value is a number and not an infinity. -/
def isFinite (x : Binary64) : Bool := decide (x.magnitude < infinityMagnitude)

/-- The value is a zero of either sign. -/
def isZero (x : Binary64) : Bool := decide (x.magnitude = 0)

/-- The value lies strictly between the smallest normal value and its negative. -/
def isTiny (x : Binary64) : Bool := decide (x.magnitude < normalMagnitude)

/-- The class of a value. -/
def classify (x : Binary64) : FloatClass :=
  if x.isNaN then .nan
  else if x.isInfinite then .infinite
  else if x.isZero then .zero
  else if x.isTiny then .subnormal
  else .normal

/-- The value with its sign flipped. -/
def neg (x : Binary64) : Binary64 := { x with negative := !x.negative }

/-- The value with its sign cleared. -/
def abs (x : Binary64) : Binary64 := { x with negative := false }

@[simp] theorem neg_neg (x : Binary64) : x.neg.neg = x := by
  simp [neg]

/-- The upper eleven bits of a magnitude; the subnormals and zero have none of them set. -/
def biasedExponent (m : Nat) : Nat := m / 2 ^ (52 : Nat)

/-- The lower 52 bits of a magnitude. -/
def fraction (m : Nat) : Nat := m % 2 ^ (52 : Nat)

/-- A finite magnitude as a multiple of `2 ^ (-1074)`.  At the magnitude of infinity the same
formula gives `2 ^ 1024`. -/
def scaled (m : Nat) : Nat :=
  if biasedExponent m = 0 then m
  else (2 ^ (52 : Nat) + fraction m) * 2 ^ (biasedExponent m - 1)

/-- The denominator over which every finite value has a natural numerator. -/
def unitDenominator : Nat := 2 ^ (1074 : Nat)

/-- The rational number that a finite value denotes. -/
def toRat (x : Binary64) : Rat :=
  mkRat (if x.negative then -(scaled x.magnitude) else scaled x.magnitude) unitDenominator

/-- An infinity or a NaN was taken for a rational number. -/
structure NotFinite where
  value : Binary64
  deriving DecidableEq, Repr

/-- The rational number that a value denotes; infinities and NaNs denote none. -/
def rational (x : Binary64) : Except NotFinite Rat :=
  if x.isFinite then .ok x.toRat else .error ⟨x⟩

/-! ## The number line -/

/-- The place of a value on the line of binary64 values: neighbours differ by one, both zeros
are at zero, and infinity follows the largest finite value. -/
def ordinal (x : Binary64) : Int :=
  if x.negative then -x.magnitude else x.magnitude

/-- A NaN was asked for its place on the line. -/
structure NotANumber where
  value : Binary64
  deriving DecidableEq, Repr

/-- The message about a value without a place on the line. -/
def NotANumber.message (_ : NotANumber) : String :=
  "NaN has no position on the float number line"

/-- The place of a value on the line; a NaN has none. -/
def place (x : Binary64) : Except NotANumber Int :=
  if x.isNaN then .error ⟨x⟩ else .ok x.ordinal

/-- The number of steps between two values; a NaN is at no distance. -/
def ulpDistance (x y : Binary64) : Except NotANumber Nat := do
  let a ← x.place
  let b ← y.place
  return (a - b).natAbs

/-- How two values are ordered; a NaN is not ordered with anything. -/
def compare? (x y : Binary64) : Option Ordering :=
  if x.isNaN || y.isNaN then none else some (Ord.compare x.ordinal y.ordinal)

/-- Equality of numbers: the zeros are equal, and a NaN differs from everything. -/
def numEq (x y : Binary64) : Bool := x.compare? y == some .eq

@[simp] theorem isNaN_neg (x : Binary64) : x.neg.isNaN = x.isNaN := rfl

@[simp] theorem ordinal_neg (x : Binary64) : x.neg.ordinal = -x.ordinal := by
  cases h : x.negative <;> simp [ordinal, neg, h]

example : classify (ofBits 1) = .subnormal ∧ classify (ofBits 0xFFF0000000000000) = .infinite := by
  decide

end Binary64

end Roundoff
