import Roundoff.Dual.Basic

/-! # Recursive evaluation

The values of a tree by recursion on it: the function of a call is looked up first, then the
operands are evaluated from left to right, then the node is applied to their values.
-/
namespace Roundoff.DualValue

variable (s : Settings)

mutual

/-- The values of a tree. -/
def ofExpr : Expr → Except Stop DualValue
  | .number text p => ofLiteral s text p
  | .name n p => ofName s n p
  | .unary op e _ => do
    let v ← ofExpr e
    return unary op v
  | .binary op l r p => do
    let x ← ofExpr l
    let y ← ofExpr r
    binary s op p x y
  | .call n args p => do
    let _ ← resolve s n args.length p
    let vs ← ofExprs args
    call s n p vs

/-- The values of trees, from left to right. -/
def ofExprs : List Expr → Except Stop (List DualValue)
  | [] => .ok []
  | e :: es => do
    let v ← ofExpr e
    let vs ← ofExprs es
    return v :: vs

end

end Roundoff.DualValue
