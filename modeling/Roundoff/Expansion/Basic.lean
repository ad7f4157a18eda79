import Roundoff.Literal

/-! # Decimal expansions

Every rational has a decimal expansion that ends or becomes periodic, `879/104 =
8.451(923076...)`.  The expansion is found by long division, which is periodic from the first
remainder that comes back.  The search stops after a given number of digits; an expansion whose
end or period was not found by then is marked as truncated.
-/
namespace Roundoff

/-- A decimal expansion: sign, whole part, the fixed digits after the point, and the repeating
ones.  The fixed digits of a truncated expansion are only the first of more. -/
structure Expansion where
  negative : Bool
  whole : Int
  fixed : List Nat := []
  repeating : List Nat := []
  truncated : Bool := false
  deriving DecidableEq, Repr

/-- Why there is no expansion, or no value of one. -/
inductive ExpansionError where
  /-- The number of digits asked for is negative. -/
  | negativeBudget (budget : Int)
  /-- A text has a power-of-ten exponent. -/
  | exponent (text : String)
  /-- A text is not a decimal literal. -/
  | literal (cause : LiteralError)
  /-- A truncated expansion has no exact value. -/
  | truncated
  deriving DecidableEq, Repr

/-- The message of an expansion error. -/
def ExpansionError.message : ExpansionError → String
  | negativeBudget budget => "max_digits must be non-negative, got " ++ Numeral.text budget
  | exponent text => "exponent not allowed in a decimal expansion: " ++ Text.quote text
  | literal cause => cause.message
  | truncated => "truncated expansion has no exact value"

namespace Expansion

/-- The default number of digits.  The longest expansion of a binary64 value has 1074. -/
def defaultBudget : Nat := 1100

/-- Where a long division stands: the digits found and the remainders they were found at, both
with the latest first, and the present remainder. -/
structure Division where
  digits : List Nat
  seen : List Nat
  remainder : Nat
  deriving DecidableEq, Repr

namespace Division

/-- The division has come to an end or into a period. -/
def settled (s : Division) : Bool :=
  s.remainder == 0 || s.seen.contains s.remainder

/-- The next digit of a division by `d`. -/
def step (d : Nat) (s : Division) : Division :=
  ⟨s.remainder * 10 / d :: s.digits, s.remainder :: s.seen, s.remainder * 10 % d⟩

/-- Divide by `d` until settled, for at most `budget` digits. -/
def run (d : Nat) : Nat → Division → Division
  | 0, s => s
  | budget + 1, s => if s.settled then s else run d budget (s.step d)

/-- The expansion with the digits of a division. -/
def expansion (negative : Bool) (whole : Int) (s : Division) : Expansion :=
  let digits := s.digits.reverse
  if s.remainder = 0 then { negative, whole, fixed := digits }
  else
    match s.seen.reverse.idxOf? s.remainder with
    | some start =>
      { negative, whole, fixed := digits.take start, repeating := digits.drop start }
    | none => { negative, whole, fixed := digits, truncated := true }

end Division

/-- The expansion of a rational with at most `budget` digits after the point. -/
def ofRat (x : Rat) (budget : Nat := defaultBudget) : Expansion :=
  let n := x.num.natAbs
  (Division.run x.den budget ⟨[], [], n % x.den⟩).expansion (decide (x < 0)) (n / x.den : Nat)

/-- The expansion of a rational; the number of digits may be asked for as an integer. -/
def ofRatWithin (x : Rat) (budget : Int) : Except ExpansionError Expansion :=
  if budget < 0 then .error (.negativeBudget budget) else .ok (ofRat x budget.toNat)

/-- The expansion that a text without exponent denotes, in its canonical form. -/
def parse (text : String) : Except ExpansionError Expansion :=
  match Literal.split text with
  | .error e => .error (.literal e)
  | .ok l =>
    if l.exponent ≠ 0 then .error (.exponent text)
    else
      match l.value with
      | .error e => .error (.literal (.unreadable e))
      | .ok x => .ok (ofRat x)

/-- Digits as characters. -/
def digitChars (ds : List Nat) : List Char :=
  ds.flatMap Numeral.natural

/-- The exact value of an expansion that is not truncated. -/
def value (e : Expansion) : Except ExpansionError Rat :=
  if e.truncated then .error .truncated
  else
    let l : Literal := {
      negative := e.negative
      integer := Numeral.integer e.whole
      fixed := digitChars e.fixed
      repeating := digitChars e.repeating
      exponent := 0 }
    match l.value with
    | .error c => .error (.literal (.unreadable c))
    | .ok x => .ok x

/-- The expansion has no digits after the point. -/
def isInteger (e : Expansion) : Bool :=
  e.fixed.isEmpty && e.repeating.isEmpty && !e.truncated

/-- The expansion has a period. -/
def isRepeating (e : Expansion) : Bool :=
  !e.repeating.isEmpty

/-- The characters after the point. -/
def fractionChars (e : Expansion) : List Char :=
  digitChars e.fixed
    ++ if e.isRepeating then '(' :: digitChars e.repeating ++ "...)".toList
      else if e.truncated then "...".toList
      else []

/-- The characters of an expansion's text: `-0.25`, `8.451(923076...)`, `0.33...`. -/
def chars (e : Expansion) : List Char :=
  let fraction := e.fractionChars
  (if e.negative then ['-'] else []) ++ Numeral.integer e.whole
    ++ if fraction.isEmpty then [] else '.' :: fraction

/-- The text of an expansion. -/
def text (e : Expansion) : String :=
  String.ofList e.chars

end Expansion

end Roundoff
