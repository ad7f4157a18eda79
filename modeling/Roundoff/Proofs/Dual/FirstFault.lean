import Roundoff.Proofs.Dual.Meaning
import Roundoff.Proofs.Dual.Operands
import Roundoff.Proofs.Exact.Calculation

/-! # The first division by zero

A tree whose walk comes to its end divides by zero exactly when one of its nodes does, both operands
having values, and the position reported is that of the first such node in post-order.  The exact
side of a value is here also kept in two fields, the value and the position of a fault, that no type
ties together (`ExactSide`): each node merges the faults of its operands and sets its own.  The walk
computes the same, and so one field is filled exactly when the other is not.
-/
namespace Roundoff

open DualValue (exactAll checkPower checkSize resolve)

/-! ## Nodes that divide by zero -/

namespace Expr

mutual

/-- The nodes of a tree, each after its operands. -/
def postorder : Expr → List Expr
  | number t p => [number t p]
  | name n p => [name n p]
  | unary op e p => e.postorder ++ [unary op e p]
  | binary op l r p => l.postorder ++ (r.postorder ++ [binary op l r p])
  | call n args p => postorderList args ++ [call n args p]

/-- The nodes of all trees of a list. -/
def postorderList : List Expr → List Expr
  | [] => []
  | e :: es => e.postorder ++ postorderList es

end

/-- **The node divides by zero**: both of its operands stand for numbers, and its operation divides
by zero on these. -/
def DividesByZero (table : SymbolTable) : Expr → Prop
  | binary symbol l r _ => ∃ op x y, Operation.ofSymbol? symbol = some op ∧
      l.exactValue? table = some x ∧ r.exactValue? table = some y ∧ op.DividesByZero x y
  | _ => False

open Classical in
/-- The position of the first of some nodes that divides by zero. -/
noncomputable def firstFault? (table : SymbolTable) (nodes : List Expr) : Option ℤ :=
  (nodes.find? fun n => decide (n.DividesByZero table)).map position

variable {table : SymbolTable}

@[simp] theorem firstFault?_append (xs ys : List Expr) :
    firstFault? table (xs ++ ys) = (firstFault? table xs).or (firstFault? table ys) := by
  rw [firstFault?, firstFault?, firstFault?, List.find?_append, Option.map_or]

theorem firstFault?_of_dividesByZero {n : Expr} (h : n.DividesByZero table) :
    firstFault? table [n] = some n.position := by
  rw [firstFault?, List.find?_cons_of_pos (by simpa using h)]
  rfl

theorem firstFault?_of_not {n : Expr} (h : ¬ n.DividesByZero table) :
    firstFault? table [n] = none := by
  rw [firstFault?, List.find?_cons_of_neg (by simpa using h)]
  rfl

theorem firstFault?_isSome_iff {nodes : List Expr} :
    (firstFault? table nodes).isSome = true ↔ ∃ n ∈ nodes, n.DividesByZero table := by
  simp [firstFault?]

end Expr

namespace DualValue

variable {s : Settings}

/-- The position of a division by zero in place of an exact value. -/
def fault? : Except ℤ ℚ → Option ℤ
  | .ok _ => none
  | .error p => some p

/-- **The exact side of a value is that of a tree**: the number that the tree stands for, or the
position of the first node that divides by zero. -/
structure Reports (table : SymbolTable) (e : Expr) (v : DualValue) : Prop where
  exact : e.exactValue? table = v.exact.toOption
  fault : fault? v.exact = Expr.firstFault? table e.postorder

theorem fault?_unary (op : String) (v : DualValue) :
    fault? (unary op v).exact = fault? v.exact := by
  rw [unary]
  split
  · rfl
  · cases v.exact <;> rfl

/-- An operation on two values settles in a fault when it divides by zero. -/
theorem fault?_settled {symbol : String} {op : Operation} {l r : Expr} {p : ℤ} {a b : ℚ}
    {z : Except ℤ ℚ} {table : SymbolTable} (hop : Operation.ofSymbol? symbol = some op)
    (hl : l.exactValue? table = some a) (hr : r.exactValue? table = some b)
    (h : Settled s p ((op.exact a b).mapError .arithmetic) z) :
    fault? z = Expr.firstFault? table [.binary symbol l r p] := by
  have hfails := (Operation.exact_fails_iff op a b).1
  generalize hexact : (op.exact a b).mapError RuleError.arithmetic = c at h
  cases h with
  | value _ =>
    refine (Expr.firstFault?_of_not ?_).symm
    rintro ⟨op', x, y, hop', hx, hy, hzero⟩
    cases hop.symm.trans hop'
    cases hl.symm.trans hx
    cases hr.symm.trans hy
    obtain ⟨e, he, -⟩ := hfails.2 hzero
    rw [he] at hexact
    cases hexact
  | fault hzero =>
    obtain ⟨cause, hcause, rfl⟩ := mapError_eq_error.1 hexact
    have hdivides : (Expr.binary symbol l r p).DividesByZero table :=
      ⟨op, a, b, hop, hl, hr, hfails.1 ⟨cause, hcause, hzero⟩⟩
    exact (Expr.firstFault?_of_dividesByZero hdivides).symm

theorem reports_binary {table : SymbolTable} {symbol : String} {l r : Expr} {p : ℤ}
    {x y v : DualValue} (hl : Reports table l x) (hr : Reports table r y)
    (h : binary s symbol p x y = .ok v) : Reports table (.binary symbol l r p) v := by
  refine ⟨exactValue?_binary hl.exact hr.exact h, ?_⟩
  obtain ⟨op, exact, hop, -, hexact, rfl⟩ := binary_eq_ok h
  obtain ⟨hlexact, hlfault⟩ := hl
  obtain ⟨hrexact, hrfault⟩ := hr
  rw [Expr.postorder, Expr.firstFault?_append, Expr.firstFault?_append, ← hlfault, ← hrfault]
  generalize x.exact = a at hexact hlexact
  generalize y.exact = b at hexact hrexact
  cases hexact with
  | left => rfl
  | right => rfl
  | settled hz => exact fault?_settled hop hlexact hrexact hz

theorem firstFault?_all {table : SymbolTable} {args : List Expr} {vs : List DualValue}
    (h : List.Forall₂ (Reports table) args vs) :
    Expr.firstFault? table (Expr.postorderList args) = vs.findSome? fun v => fault? v.exact := by
  induction h with
  | nil => rfl
  | @cons e v es us he _ ih =>
    rw [Expr.postorderList, Expr.firstFault?_append, ← he.fault, ih, List.findSome?_cons]
    cases fault? v.exact <;> rfl

theorem reports_call (htable : s.symbols.functions = SymbolTable.default.functions)
    {table : SymbolTable} {n : String} {args : List Expr} {p : ℤ} {vs : List DualValue}
    {v : DualValue} (hargs : List.Forall₂ (Reports table) args vs) (h : call s n p vs = .ok v) :
    Reports table (.call n args p) v := by
  refine ⟨exactValue?_call htable (hargs.imp fun _ _ hreports => hreports.exact) h, ?_⟩
  rw [Expr.postorder, Expr.firstFault?_append, Expr.firstFault?_of_not id, Option.or_none,
    firstFault?_all hargs]
  -- The functions have a value wherever their arguments have.
  cases call_default htable h with
  | @abs x => cases hx : x.exact <;> simp [hx, fault?, Except.map]
  | @min x y =>
    cases hx : x.exact <;> cases hy : y.exact <;> simp [hx, hy, fault?, Except.map, Except.bind]
  | @max x y =>
    cases hx : x.exact <;> cases hy : y.exact <;> simp [hx, hy, fault?, Except.map, Except.bind]

/-- **With the default functions every value reports the first fault of its tree.** -/
theorem reports_of_ofExpr (htable : s.symbols.functions = SymbolTable.default.functions)
    {e : Expr} {v : DualValue} (h : ofExpr s e = .ok v) : Reports s.symbols e v := by
  refine Hereditary.ofExpr ?_ e v h
  refine ⟨?_, ?_, ?_, fun _ _ _ _ _ _ _ => reports_binary, fun _ _ _ _ _ => reports_call htable⟩
  · intro text p v h
    refine ⟨exactValue?_literal h, ?_⟩
    obtain ⟨r, -, -, rfl⟩ := ofLiteral_eq_ok h
    exact (Expr.firstFault?_of_not id).symm
  · intro n p v h
    refine ⟨exactValue?_name h, ?_⟩
    obtain ⟨c, -, rfl⟩ := ofName_eq_ok h
    exact (Expr.firstFault?_of_not id).symm
  · intro op e p v h
    refine ⟨exactValue?_unary h.exact, ?_⟩
    rw [fault?_unary, h.fault, Expr.postorder, Expr.firstFault?_append, Expr.firstFault?_of_not id,
      Option.or_none]

end DualValue

/-! ## Value and fault in two fields -/

/-- An exact side in two fields: the value, if there is one, and the position of a division by
zero. -/
structure ExactSide where
  value : Option ℚ
  fault : Option ℤ
  deriving DecidableEq

namespace ExactSide

variable (s : Settings)

/-- The two fields of an exact side that is a value or a fault. -/
def ofExcept (a : Except ℤ ℚ) : ExactSide := ⟨a.toOption, DualValue.fault? a⟩

/-- An operation on values, with the fault of its operands: its own division by zero takes the place
of the fault, and any other error of it ends the evaluation. -/
def settle (p : ℤ) (fault : Option ℤ) : Except RuleError ℚ → Except Stop ExactSide
  | .ok r => do
    let r ← checkSize s p r
    return ⟨some r, fault⟩
  | .error e =>
    match e.ending? with
    | some x => .error (.error x)
    | none => .ok ⟨none, some p⟩

/-- A binary operation.  The fault of the left operand goes before that of the right one, and the
operation is carried out only on two values. -/
def binary (symbol : String) (p : ℤ) (x y : ExactSide) : Except Stop ExactSide :=
  match Operation.ofSymbol? symbol with
  | none => .error (.defect (.unknownOperator symbol))
  | some op => do
    if op = .pow then checkPower s p (x.value.elim (.error p) .ok) (y.value.elim (.error p) .ok)
    match x.value, y.value with
    | some a, some b => settle s p (x.fault.or y.fault) ((op.exact a b).mapError .arithmetic)
    | _, _ => return ⟨none, x.fault.or y.fault⟩

/-- A sign. -/
def unary (symbol : String) (x : ExactSide) : ExactSide :=
  if symbol = "+" then x else { x with value := x.value.map (- ·) }

/-- A call.  The first fault of an operand is kept. -/
def call (name : String) (p : ℤ) (operands : List ExactSide) : Except Stop ExactSide := do
  let f ← resolve s name operands.length p
  match operands.mapM ExactSide.value with
  | some rs => settle s p (operands.findSome? ExactSide.fault) (f.1.exact fun i => rs.getD i 0)
  | none => return ⟨none, operands.findSome? ExactSide.fault⟩

mutual

/-- The exact side of a tree, computed in two fields. -/
def ofExpr : Expr → Except Stop ExactSide
  | .number text p => do
    let v ← DualValue.ofLiteral s text p
    return ⟨v.exact.toOption, none⟩
  | .name n p => do
    let v ← DualValue.ofName s n p
    return ⟨v.exact.toOption, none⟩
  | .unary op e _ => do
    let x ← ofExpr e
    return unary op x
  | .binary op l r p => do
    let x ← ofExpr l
    let y ← ofExpr r
    binary s op p x y
  | .call n args p => do
    let _ ← resolve s n args.length p
    let xs ← ofExprs args
    call s n p xs

/-- The exact sides of trees. -/
def ofExprs : List Expr → Except Stop (List ExactSide)
  | [] => .ok []
  | e :: es => do
    let x ← ofExpr e
    let xs ← ofExprs es
    return x :: xs

end

variable {s}

/-- **One field is filled exactly when the other is not.** -/
theorem value_ofExcept_eq_none_iff (a : Except ℤ ℚ) :
    (ofExcept a).value = none ↔ (ofExcept a).fault ≠ none := by
  cases a with
  | ok r => exact ⟨fun h => (nomatch h), fun h => absurd rfl h⟩
  | error p => exact ⟨fun _ => nofun, fun _ => rfl⟩

/-- Without a fault before it, an operation settles in the two fields of what it settles in. -/
theorem settle_none {g : Except ℤ ℚ → DualValue} (hg : ∀ z, (g z).exact = z) (p : ℤ)
    (a : Except RuleError ℚ) : settle s p none a =
      (DualValue.settle s p a >>= fun z => .ok (g z)).map fun u => ofExcept u.exact := by
  cases a with
  | ok r =>
    rw [settle, DualValue.settle]
    cases checkSize s p r with
    | error x => rfl
    | ok q => exact congrArg Except.ok (congrArg ofExcept (hg (.ok q))).symm
  | error e =>
    rw [settle, DualValue.settle]
    cases e.ending? with
    | some x => rfl
    | none => exact congrArg Except.ok (congrArg ofExcept (hg (.error p))).symm

/-- The guard of a power looks at the values only. -/
theorem checkPower_elim (p : ℤ) (a b : Except ℤ ℚ) :
    checkPower s p (a.toOption.elim (.error p) .ok) (b.toOption.elim (.error p) .ok) =
      checkPower s p a b := by
  cases a <;> cases b <;> rfl

theorem binary_ofExcept (symbol : String) (p : ℤ) (v w : DualValue) :
    binary s symbol p (ofExcept v.exact) (ofExcept w.exact) =
      (DualValue.binary s symbol p v w).map fun u => ofExcept u.exact := by
  have hsides : ∀ op : Operation,
      (match v.exact.toOption, w.exact.toOption with
        | some a, some b => settle s p ((DualValue.fault? v.exact).or (DualValue.fault? w.exact))
            ((op.exact a b).mapError .arithmetic)
        | _, _ => (return ⟨none, (DualValue.fault? v.exact).or (DualValue.fault? w.exact)⟩ :
            Except Stop ExactSide)) =
        (DualValue.combine s op p v w).map fun u => ofExcept u.exact := by
    intro op
    unfold DualValue.combine
    cases v.exact with
    | error q => rfl
    | ok a =>
      cases w.exact with
      | error q => rfl
      | ok b =>
        exact settle_none (fun _ => rfl) p ((op.exact a b).mapError .arithmetic)
  cases hop : Operation.ofSymbol? symbol with
  | none =>
    rw [binary, DualValue.binary, hop]
    rfl
  | some op =>
    rw [binary, DualValue.binary_eq hop, hop]
    dsimp only [ofExcept]
    rw [checkPower_elim]
    split
    · cases checkPower s p v.exact w.exact with
      | error x => rfl
      | ok _ => exact hsides op
    · exact hsides op

theorem unary_ofExcept (symbol : String) (v : DualValue) :
    unary symbol (ofExcept v.exact) = ofExcept (DualValue.unary symbol v).exact := by
  rw [unary, DualValue.unary]
  split
  · rfl
  · cases v.exact <;> rfl

/-- The values of all operands, if none of them has a fault. -/
theorem operands_ofExcept (vs : List DualValue) :
    (vs.map fun v => ofExcept v.exact).mapM ExactSide.value = (exactAll vs).toOption ∧
      (vs.map fun v => ofExcept v.exact).findSome? ExactSide.fault =
        DualValue.fault? ((exactAll vs).map fun _ => 0) := by
  induction vs with
  | nil => exact ⟨rfl, rfl⟩
  | cons v vs ih =>
    obtain ⟨hvalues, hfaults⟩ := ih
    rw [List.map_cons, List.mapM_cons, List.findSome?_cons, hvalues, hfaults, exactAll]
    cases v.exact with
    | error q => exact ⟨rfl, rfl⟩
    | ok r => cases exactAll vs <;> exact ⟨rfl, rfl⟩

theorem call_ofExcept (n : String) (p : ℤ) (vs : List DualValue) :
    call s n p (vs.map fun v => ofExcept v.exact) =
      (DualValue.call s n p vs).map fun u => ofExcept u.exact := by
  obtain ⟨hvalues, hfaults⟩ := operands_ofExcept vs
  unfold call DualValue.call
  rw [List.length_map, hvalues, hfaults]
  cases resolve s n vs.length p with
  | error x => rfl
  | ok f =>
    obtain ⟨f, hf⟩ := f
    simp only [ok_bind, DualValue.applyRule]
    cases exactAll vs with
    | error q => rfl
    | ok rs => exact settle_none (fun _ => rfl) p (f.exact fun i => rs.getD i 0)

mutual

/-- **Keeping value and fault in two fields computes the same exact sides**, and stops for the same
reasons. -/
theorem ofExpr_eq : ∀ e : Expr,
    ofExpr s e = (DualValue.ofExpr s e).map fun v => ofExcept v.exact
  | .number text p => by
    rw [ofExpr, DualValue.ofExpr]
    cases h : DualValue.ofLiteral s text p with
    | error x => rfl
    | ok v =>
      obtain ⟨r, -, -, rfl⟩ := DualValue.ofLiteral_eq_ok h
      rfl
  | .name n p => by
    rw [ofExpr, DualValue.ofExpr]
    cases h : DualValue.ofName s n p with
    | error x => rfl
    | ok v =>
      obtain ⟨c, -, rfl⟩ := DualValue.ofName_eq_ok h
      rfl
  | .unary op e p => by
    rw [ofExpr, DualValue.ofExpr, ofExpr_eq e]
    cases DualValue.ofExpr s e with
    | error x => rfl
    | ok v => exact congrArg Except.ok (unary_ofExcept op v)
  | .binary op l r p => by
    rw [ofExpr, DualValue.ofExpr, ofExpr_eq l, ofExpr_eq r]
    cases DualValue.ofExpr s l with
    | error x => rfl
    | ok v =>
      cases DualValue.ofExpr s r with
      | error x => rfl
      | ok w => exact binary_ofExcept op p v w
  | .call n args p => by
    rw [ofExpr, DualValue.ofExpr, ofExprs_eq args]
    cases resolve s n args.length p with
    | error x => rfl
    | ok f =>
      cases DualValue.ofExprs s args with
      | error x => rfl
      | ok vs => exact call_ofExcept n p vs

theorem ofExprs_eq : ∀ es : List Expr,
    ofExprs s es = (DualValue.ofExprs s es).map (List.map fun v => ofExcept v.exact)
  | [] => rfl
  | e :: es => by
    rw [ofExprs, DualValue.ofExprs, ofExpr_eq e, ofExprs_eq es]
    cases DualValue.ofExpr s e with
    | error x => rfl
    | ok v => cases DualValue.ofExprs s es <;> rfl

end

end ExactSide

/-! ## Evaluations -/

/-- **The first division by zero is reported**, with the default functions and any constants.  If
the walk over the tree comes to its end, the evaluation divides by zero exactly when a node of the
tree does, and then at the position of the first such node in post-order.  Every value on the stack,
in the course of any walk, is that of a node: its exact side is missing exactly when the node has a
fault, which is the first one among the nodes below and including it. -/
theorem evaluate_firstFault (s : Settings)
    (htable : s.symbols.functions = SymbolTable.default.functions) (e : Expr) :
    (∀ v, Walk.values s e = .ok v →
      ((∃ x, evaluate s e = .error (.error x) ∧ x.kind = .divisionByZero) ↔
        ∃ n ∈ e.postorder, n.DividesByZero s.symbols) ∧
      ∀ x, evaluate s e = .error (.error x) →
        x.kind = .divisionByZero ∧ x.position = Expr.firstFault? s.symbols e.postorder) ∧
    ∀ ts vs, Walk.Reaches s e ts vs → ∀ v ∈ vs, ∃ n ∈ e.preorder, ∃ side : ExactSide,
      ExactSide.ofExpr s n = .ok side ∧ side = .ofExcept v.exact ∧
        (side.value = none ↔ side.fault ≠ none) ∧ side.value = n.exactValue? s.symbols ∧
        side.fault = Expr.firstFault? s.symbols n.postorder := by
  refine ⟨?_, ?_⟩
  · intro v hv
    rw [Walk.values_eq] at hv
    obtain ⟨-, hfault⟩ := DualValue.reports_of_ofExpr htable hv
    have heval : evaluate s e = v.toEvaluation := by
      rw [evaluate_eq, hv]
      rfl
    rw [heval, ← Expr.firstFault?_isSome_iff, ← hfault, DualValue.toEvaluation]
    cases v.exact with
    | ok r =>
      refine ⟨⟨?_, fun h => absurd h Bool.false_ne_true⟩, ?_⟩
      · rintro ⟨x, h, -⟩
        cases h
      · intro x h
        cases h
    | error p =>
      refine ⟨⟨fun _ => rfl, fun _ => ⟨_, rfl, rfl⟩⟩, ?_⟩
      intro x h
      cases h
      exact ⟨rfl, rfl⟩
  · intro ts vs hreaches v hv
    obtain ⟨n, hn, hvalue⟩ := hreaches.exists_node v hv
    obtain ⟨hexact, hfault⟩ := DualValue.reports_of_ofExpr htable hvalue
    refine ⟨n, hn, .ofExcept v.exact, ?_, rfl, ExactSide.value_ofExcept_eq_none_iff v.exact,
      hexact.symm, hfault⟩
    rw [ExactSide.ofExpr_eq, hvalue]
    rfl

/-- `min(0 ^ -1, 2) / (1 / 0)`, which divides by zero in both operands of the outer division. -/
def twoFaults : Expr :=
  .binary "/"
    (.call "min" [.binary "^" (.number "0" 4) (.unary "-" (.number "1" 9) 8) 6, .number "2" 12] 0)
    (.binary "/" (.number "1" 18) (.number "0" 22) 20) 15

/-- The evaluation of `min(0 ^ -1, 2) / (1 / 0)` reports the power, which comes first. -/
theorem evaluate_twoFaults : ∃ v, Walk.values {} twoFaults = .ok v ∧
    SymbolTable.default.functions = SymbolTable.default.functions ∧
    Expr.firstFault? SymbolTable.default twoFaults.postorder = some 6 ∧
    ∃ n ∈ twoFaults.postorder, n.DividesByZero SymbolTable.default := by
  have hends : (Walk.values {} twoFaults).isOk = true := by decide +kernel
  have hstops : (match evaluate {} twoFaults with
      | .error (.error x) => decide (x.kind = .divisionByZero ∧ x.position = some 6)
      | _ => false) = true := by decide +kernel
  obtain ⟨x, heval, hkind, hx⟩ : ∃ x, evaluate {} twoFaults = .error (.error x) ∧
      x.kind = .divisionByZero ∧ x.position = some 6 := by
    split at hstops
    case h_1 x h => exact ⟨x, h, of_decide_eq_true hstops⟩
    case h_2 => cases hstops
  cases hv : Walk.values {} twoFaults with
  | error y =>
    rw [hv] at hends
    cases hends
  | ok v =>
    obtain ⟨hiff, hposition⟩ := (evaluate_firstFault {} rfl twoFaults).1 v hv
    exact ⟨v, rfl, rfl, (hposition x heval).2.symm.trans hx, hiff.1 ⟨x, heval, hkind⟩⟩

end Roundoff
