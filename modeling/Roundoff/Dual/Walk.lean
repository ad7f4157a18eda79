import Roundoff.Dual.Basic

/-! # Evaluation by a stack

The values of a tree by one walk over it with an explicit stack of tasks and a stack of values,
so that a long chain of operators needs no deep recursion.  A tree is either still to be entered,
or all of its operands have been evaluated and wait on the value stack.
-/
namespace Roundoff

/-- A node that waits for the values of its operands. -/
inductive Pending where
  | unary (op : String)
  | binary (op : String) (position : Int)
  | call (name : String) (count : Nat) (position : Int)
  deriving DecidableEq, Repr

/-- One step of a walk. -/
inductive Task where
  | enter (e : Expr)
  | apply (p : Pending)

namespace Task

/-- A bound on the number of steps that a task leads to. -/
def weight : Task → Nat
  | enter e => 2 * e.size
  | apply _ => 1

/-- A bound on the number of steps that some tasks lead to. -/
def totalWeight : List Task → Nat
  | [] => 0
  | t :: ts => t.weight + totalWeight ts

@[simp] theorem totalWeight_cons (t : Task) (ts : List Task) :
    totalWeight (t :: ts) = t.weight + totalWeight ts := rfl

@[simp] theorem totalWeight_append (ts us : List Task) :
    totalWeight (ts ++ us) = totalWeight ts + totalWeight us := by
  induction ts with
  | nil => simp [totalWeight]
  | cons t ts ih => simp [ih, Nat.add_assoc]

@[simp] theorem totalWeight_map_enter (es : List Expr) :
    totalWeight (es.map enter) = 2 * Expr.sizeList es := by
  induction es with
  | nil => rfl
  | cons e es ih =>
    rw [List.map_cons, totalWeight_cons, ih, Expr.sizeList, weight]
    omega

end Task

namespace Walk

variable (s : Settings)

/-- Apply a node to the values on top of the stack, the last operand uppermost. -/
def apply : Pending → List DualValue → Except Stop (List DualValue)
  | .unary op, x :: vs => .ok (DualValue.unary op x :: vs)
  | .binary op p, y :: x :: vs => do
    let v ← DualValue.binary s op p x y
    return v :: vs
  | .call n count p, vs =>
    if vs.length < count then .error (.defect .missingOperand)
    else do
      let v ← DualValue.call s n p (vs.take count).reverse
      return v :: vs.drop count
  | _, _ => .error (.defect .missingOperand)

/-- Work off the tasks; the result is the stack of values that remain. -/
def run : List Task → List DualValue → Except Stop (List DualValue)
  | [], vs => .ok vs
  | .enter (.number text p) :: ts, vs =>
    match DualValue.ofLiteral s text p with
    | .error e => .error e
    | .ok v => run ts (v :: vs)
  | .enter (.name n p) :: ts, vs =>
    match DualValue.ofName s n p with
    | .error e => .error e
    | .ok v => run ts (v :: vs)
  | .enter (.unary op e _) :: ts, vs => run (.enter e :: .apply (.unary op) :: ts) vs
  | .enter (.binary op l r p) :: ts, vs =>
    run (.enter l :: .enter r :: .apply (.binary op p) :: ts) vs
  | .enter (.call n args p) :: ts, vs =>
    match DualValue.resolve s n args.length p with
    | .error e => .error e
    | .ok _ => run (args.map .enter ++ .apply (.call n args.length p) :: ts) vs
  | .apply f :: ts, vs =>
    match apply s f vs with
    | .error e => .error e
    | .ok vs => run ts vs
termination_by ts => Task.totalWeight ts
decreasing_by
  all_goals simp [Task.weight, Expr.size]
  all_goals omega

/-- The values of a tree. -/
def values (e : Expr) : Except Stop DualValue := do
  match ← run s [.enter e] [] with
  | [v] => return v
  | _ => throw (.defect .missingOperand)

end Walk

/-- Evaluate a tree on both sides. -/
def evaluate (s : Settings) (e : Expr) : Except Stop Evaluation := do
  let v ← Walk.values s e
  v.toEvaluation

end Roundoff
