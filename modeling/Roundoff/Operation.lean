import Roundoff.Exact
import Roundoff.Binary64.Power

/-! # Arithmetic operations

The five binary operations, each with its symbol in expressions, its name in trails, its exact
meaning on rationals and its rounded meaning on binary64 values.
-/
namespace Roundoff

/-- A binary operation. -/
inductive Operation where
  | add
  | sub
  | mul
  | div
  | pow
  deriving DecidableEq, Repr

namespace Operation

/-- The name of an operation. -/
def name : Operation → String
  | add => "add"
  | sub => "sub"
  | mul => "mul"
  | div => "div"
  | pow => "pow"

/-- The symbol of an operation in expressions. -/
def symbol : Operation → String
  | add => "+"
  | sub => "-"
  | mul => "*"
  | div => "/"
  | pow => "^"

/-- All operations. -/
def all : List Operation := [add, sub, mul, div, pow]

/-- The operation with a given symbol. -/
def ofSymbol? (s : String) : Option Operation :=
  all.find? fun op => op.symbol == s

@[simp] theorem ofSymbol?_symbol (op : Operation) : ofSymbol? op.symbol = some op := by
  cases op <;> decide

/-- The exact result on rationals. -/
def exact : Operation → Rat → Rat → Except ArithmeticError Rat
  | add, x, y => .ok (x + y)
  | sub, x, y => .ok (x - y)
  | mul, x, y => .ok (x * y)
  | div, x, y => Exact.div x y
  | pow, x, y => Exact.pow x y

/-- The rounded result on binary64 values. -/
def rounded : Operation → Binary64 → Binary64 → Binary64
  | add => Binary64.add
  | sub => Binary64.sub
  | mul => Binary64.mul
  | div => Binary64.div
  | pow => Binary64.pow

end Operation

end Roundoff
