import Roundoff.Expr.Basic
import Roundoff.Symbols
import Roundoff.Proofs.Literal.Value

/-! # Two meanings of a tree

A tree with the functions `abs`, `min` and `max` has an exact meaning, the number it stands for in
the rationals, and a rounded one, the binary64 value that a program computes which knows nothing
but binary64: one operation for each node, and a conversion for each literal and constant.  Each
meaning is a recursion of its own over the tree.  The exact meaning is undefined where the tree
divides by zero; the rounded one is undefined only where a text is no number or a name stands for
nothing.
-/
namespace Roundoff

/-! ## Operations and functions -/

/-- The operations of the rational field.  A quotient needs a divisor other than zero, and a power
an integer exponent, which is not negative if the base is zero. -/
def exactBinary? : String → ℚ → ℚ → Option ℚ
  | "+", x, y => some (x + y)
  | "-", x, y => some (x - y)
  | "*", x, y => some (x * y)
  | "/", x, y => if y = 0 then none else some (x / y)
  | "^", x, y => if y.den = 1 ∧ ¬ (y < 0 ∧ x = 0) then some (x ^ y.num) else none
  | _, _, _ => none

/-- The functions on rationals. -/
def exactFunction? : String → List ℚ → Option ℚ
  | "abs", [x] => some |x|
  | "min", [x, y] => some (min x y)
  | "max", [x, y] => some (max x y)
  | _, _ => none

/-- The operations of binary64. -/
def roundedBinary? : String → Binary64 → Binary64 → Option Binary64
  | "+", x, y => some (x.add y)
  | "-", x, y => some (x.sub y)
  | "*", x, y => some (x.mul y)
  | "/", x, y => some (x.div y)
  | "^", x, y => some (x.pow y)
  | _, _, _ => none

/-- The functions on binary64 values. -/
def roundedFunction? : String → List Binary64 → Option Binary64
  | "abs", [x] => some x.abs
  | "min", [x, y] => some (x.minimum y)
  | "max", [x, y] => some (x.maximum y)
  | _, _ => none

/-! ## Trees -/

namespace Expr

variable (table : SymbolTable)

mutual

/-- **The number a tree stands for.**  Every sign but the plus sign negates. -/
noncomputable def exactValue? : Expr → Option ℚ
  | .number text _ => Literal.number? text
  | .name n _ => (table.constant? n).map NamedConstant.exact
  | .unary op e _ => (exactValue? e).map fun x => if op = "+" then x else -x
  | .binary op l r _ =>
    (exactValue? l).bind fun x => (exactValue? r).bind fun y => exactBinary? op x y
  | .call n args _ => (exactValues? args).bind fun xs => exactFunction? n xs

/-- The numbers that trees stand for, if all of them stand for one. -/
noncomputable def exactValues? : List Expr → Option (List ℚ)
  | [] => some []
  | e :: es => (exactValue? e).bind fun x => (exactValues? es).map fun xs => x :: xs

end

mutual

/-- **The value of a tree in binary64 alone.** -/
noncomputable def roundedValue? : Expr → Option Binary64
  | .number text _ => (Literal.number? text).map Binary64.ofRat
  | .name n _ => (table.constant? n).map fun c => Binary64.ofRat c.exact
  | .unary op e _ => (roundedValue? e).map fun x => if op = "+" then x else x.neg
  | .binary op l r _ =>
    (roundedValue? l).bind fun x => (roundedValue? r).bind fun y => roundedBinary? op x y
  | .call n args _ => (roundedValues? args).bind fun xs => roundedFunction? n xs

/-- The values of trees in binary64 alone. -/
noncomputable def roundedValues? : List Expr → Option (List Binary64)
  | [] => some []
  | e :: es => (roundedValue? e).bind fun x => (roundedValues? es).map fun xs => x :: xs

end

end Expr

end Roundoff
