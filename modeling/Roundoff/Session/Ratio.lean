import Roundoff.Decimal
import Roundoff.Exact

/-! # Short forms of exact numbers

How a session shows exact numbers that may be very long.  A metric is rounded to four digits in
scientific notation, directly from the rational, so that its size shows however large or small
it is.  Its decimal exponent is guessed from the numbers of binary digits and corrected step by
step.  A numerator or denominator with many digits is shown by its two ends and its length.
-/
namespace Roundoff.Session

-- A power with a natural exponent is the core library's, whatever else is in scope.
attribute [local instance (2000)] instPowNat

/-- The digits of a metric. -/
def ratioDigits : Nat := 4

/-- `a / d < 10 ^ e`, in integers. -/
def ltTenPow (a d : Nat) (e : Int) : Bool :=
  if 0 ≤ e then decide (a < d * 10 ^ e.toNat) else decide (a * 10 ^ (-e).toNat < d)

/-- Only powers of ten with an exponent above `-d` exceed a positive fraction over `d`. -/
theorem neg_lt_of_ltTenPow {a d : Nat} {e : Int} (ha : 0 < a) (h : ltTenPow a d e = true) :
    -d < e := by
  unfold ltTenPow at h
  split at h
  · have hlt : a < d * 10 ^ e.toNat := of_decide_eq_true h
    have hd : 0 < d := Nat.pos_of_mul_pos_right (Nat.lt_of_le_of_lt (Nat.zero_le a) hlt)
    omega
  · have hlt : a * 10 ^ (-e).toNat < d := of_decide_eq_true h
    have hpow : (-e).toNat < 10 ^ (-e).toNat := Nat.lt_pow_self (by decide)
    have hle : 10 ^ (-e).toNat ≤ a * 10 ^ (-e).toNat := Nat.le_mul_of_pos_left _ ha
    omega

/-- All powers of ten with an exponent above `a` exceed a fraction of `a`. -/
theorem le_of_not_ltTenPow {a d : Nat} {e : Int} (hd : 0 < d) (h : ¬ ltTenPow a d e = true) :
    e ≤ a := by
  unfold ltTenPow at h
  split at h
  · have hge : ¬ a < d * 10 ^ e.toNat := fun hlt => h (decide_eq_true hlt)
    have hpow : e.toNat < 10 ^ e.toNat := Nat.lt_pow_self (by decide)
    have hle : 10 ^ e.toNat ≤ d * 10 ^ e.toNat := Nat.le_mul_of_pos_left _ hd
    omega
  · omega

/-- A guess of the decimal exponent of `a / d`: a binary digit is worth `log₁₀ 2` of a decimal
one. -/
def estimatedExponent (a d : Nat) : Int :=
  ((Numeral.bitLength a : Int) - Numeral.bitLength d) * 30103 / 100000

/-- An exponent, lowered while its power of ten exceeds `a / d`. -/
def lowerExponent (a d : Nat) (ha : 0 < a) (e : Int) : Int :=
  if h : ltTenPow a d e then
    have := neg_lt_of_ltTenPow ha h
    lowerExponent a d ha (e - 1)
  else e
termination_by (e + d).toNat
decreasing_by omega

/-- An exponent, raised while the next power of ten does not exceed `a / d`. -/
def raiseExponent (a d : Nat) (hd : 0 < d) (e : Int) : Int :=
  if h : ltTenPow a d (e + 1) then e
  else
    have := le_of_not_ltTenPow hd h
    raiseExponent a d hd (e + 1)
termination_by (a - e).toNat
decreasing_by omega

/-- The exponent `k` with `10 ^ k ≤ |x| < 10 ^ (k + 1)`. -/
def decimalExponent (x : Rat) (hx : x ≠ 0) : Int :=
  let a := x.num.natAbs
  have ha : 0 < a := Int.natAbs_pos.2 (mt Rat.num_eq_zero.1 hx)
  raiseExponent a x.den x.den_pos (lowerExponent a x.den ha (estimatedExponent a x.den))

/-- `a / d` in units of `10 ^ e`, rounded to an integer, halves upwards. -/
def roundHalfUp (a d : Nat) (e : Int) : Nat :=
  let n := if 0 ≤ e then a else a * 10 ^ (-e).toNat
  let d := if 0 ≤ e then d * 10 ^ e.toNat else d
  (2 * n + d) / (2 * d)

/-- A nonzero rational in scientific notation. -/
def ratioChars (x : Rat) (hx : x ≠ 0) : List Char :=
  let e := decimalExponent x hx
  let n := roundHalfUp x.num.natAbs x.den (e - (ratioDigits - 1 : Nat))
  let (n, e) := if n = 10 ^ ratioDigits then (n / 10, e + 1) else (n, e)
  (if x < 0 then ['-'] else []) ++ Decimal.scientificMantissa (Numeral.natural n)
    ++ 'e' :: Decimal.exponentText e

/-- The text of a metric. -/
def ratioText : Option Rat → String
  | none => "undefined"
  | some x => if hx : x = 0 then "0" else String.ofList (ratioChars x hx)

/-- Numbers up to this many digits are shown in full. -/
def shownDigits : Nat := 80

/-- The characters shown of either end of a longer number. -/
def edgeLength : Nat := 20

/-- A numeral, shortened if it is long. -/
def elide (cs : List Char) : List Char :=
  let count := (cs.dropWhile (· == '-')).length
  if count ≤ shownDigits then cs
  else
    cs.take edgeLength ++ "...".toList ++ cs.drop (cs.length - edgeLength)
      ++ " [".toList ++ Numeral.natural count ++ " digits]".toList

/-- The text of an exact value with long parts shortened. -/
def exactText (x : Rat) : String :=
  let num := elide (Numeral.integer x.num)
  String.ofList (if x.den = 1 then num else num ++ '/' :: elide (Numeral.natural x.den))

end Roundoff.Session
