import Roundoff.Operation

/-! # Expression trees

A tree keeps what the line says: literals, names and operators as they are spelled, and where
each node came from, so that later messages can point there.  What an operator means is decided
when the tree is evaluated.
-/
namespace Roundoff

/-- An expression tree.  The position of a binary operator is that of its symbol, and the
position of a call that of the name. -/
inductive Expr where
  | number (text : String) (position : Int)
  | name (name : String) (position : Int)
  | unary (op : String) (operand : Expr) (position : Int)
  | binary (op : String) (left right : Expr) (position : Int)
  | call (name : String) (arguments : List Expr) (position : Int)
  deriving Repr, Inhabited

namespace Expr

/-- The place of a node in the line. -/
def position : Expr → Int
  | number _ p => p
  | name _ p => p
  | unary _ _ p => p
  | binary _ _ _ p => p
  | call _ _ p => p

/-- The literal, name or operator of a node. -/
def label : Expr → String
  | number t _ => t
  | name n _ => n
  | unary op _ _ => op
  | binary op _ _ _ => op
  | call n _ _ => n

/-- The operands of a node, from left to right. -/
def children : Expr → List Expr
  | number _ _ => []
  | name _ _ => []
  | unary _ e _ => [e]
  | binary _ l r _ => [l, r]
  | call _ args _ => args

mutual

/-- The number of nodes. -/
def size : Expr → Nat
  | number _ _ => 1
  | name _ _ => 1
  | unary _ e _ => e.size + 1
  | binary _ l r _ => l.size + r.size + 1
  | call _ args _ => sizeList args + 1

/-- The number of nodes of all trees of a list. -/
def sizeList : List Expr → Nat
  | [] => 0
  | e :: es => e.size + sizeList es

end

mutual

/-- The nodes of a tree, each before its operands. -/
def preorder : Expr → List Expr
  | number t p => [number t p]
  | name n p => [name n p]
  | unary op e p => unary op e p :: e.preorder
  | binary op l r p => binary op l r p :: (l.preorder ++ r.preorder)
  | call n args p => call n args p :: preorderList args

/-- The nodes of all trees of a list. -/
def preorderList : List Expr → List Expr
  | [] => []
  | e :: es => e.preorder ++ preorderList es

end

mutual

/-- The tree written with a pair of parentheses around every operator. -/
def source : Expr → String
  | number t _ => t
  | name n _ => n
  | unary op e _ => "(" ++ op ++ e.source ++ ")"
  | binary op l r _ => "(" ++ l.source ++ " " ++ op ++ " " ++ r.source ++ ")"
  | call n args _ => n ++ "(" ++ String.intercalate ", " (sourceList args) ++ ")"

/-- The written forms of all trees of a list. -/
def sourceList : List Expr → List String
  | [] => []
  | e :: es => e.source :: sourceList es

end

@[simp] theorem sizeList_append (es fs : List Expr) :
    sizeList (es ++ fs) = sizeList es + sizeList fs := by
  induction es with
  | nil => simp [sizeList]
  | cons e es ih => simp [sizeList, ih, Nat.add_assoc]

@[simp] theorem sizeList_reverse (es : List Expr) : sizeList es.reverse = sizeList es := by
  induction es with
  | nil => rfl
  | cons e es ih => simp [sizeList, ih, Nat.add_comm]

theorem sizeList_children (e : Expr) : sizeList e.children + 1 = e.size := by
  cases e <;> simp [children, sizeList, size]

/-- Add the number of nodes of some trees to a total.  A node is counted when it is taken from the
pending ones; its operands then come before the others, the last one first. -/
def countFrom : List Expr → Nat → Nat
  | [], total => total
  | e :: pending, total => countFrom (e.children.reverse ++ pending) (total + 1)
termination_by pending => sizeList pending
decreasing_by
  simp only [sizeList_append, sizeList_reverse, sizeList]
  have := sizeList_children e
  omega

/-- The number of nodes, counted without a recursion that is as deep as the tree. -/
def count (e : Expr) : Nat :=
  countFrom [e] 0

theorem countFrom_eq (pending : List Expr) (total : Nat) :
    countFrom pending total = total + sizeList pending := by
  fun_induction countFrom pending total with
  | case1 total => rfl
  | case2 e pending total ih =>
    rw [ih, sizeList_append, sizeList_reverse, sizeList, ← sizeList_children e]
    omega

theorem count_eq_size (e : Expr) : e.count = e.size := by
  rw [count, countFrom_eq, sizeList, sizeList, Nat.zero_add, Nat.add_zero]

end Expr

end Roundoff
