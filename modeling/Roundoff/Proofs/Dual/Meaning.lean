import Roundoff.Proofs.Dual.Recursion
import Roundoff.Proofs.Dual.Steps
import Roundoff.Proofs.Expr.Meaning
import Roundoff.Proofs.Operation

/-! # The two sides of an evaluation are the two meanings

The exact side of a value is the number its tree stands for, missing exactly where the tree stands
for none, and the shadow's value is that of the tree in binary64 alone (`DualValue.Means`).  Neither
side looks at the other, nor at the trail: a division by zero on the exact side and the rounding
events on the way leave the shadow as it is.
-/
namespace Roundoff

namespace Operation

/-- The exact result of an operation is that of the rational field. -/
theorem exactBinary?_symbol (op : Operation) (x y : ℚ) :
    exactBinary? op.symbol x y = (op.exact x y).toOption := by
  cases op with
  | add => rfl
  | sub => rfl
  | mul => rfl
  | div =>
    show (if y = 0 then none else some (x / y)) = (Exact.div x y).toOption
    rw [Exact.div]
    split <;> rfl
  | pow =>
    show (if y.den = 1 ∧ ¬ (y < 0 ∧ x = 0) then some (x ^ y.num) else none) =
      (Exact.pow x y).toOption
    have hneg : (y.num < 0 ∧ x = 0) ↔ (y < 0 ∧ x = 0) := and_congr_left' Rat.num_neg
    rw [Exact.pow]
    by_cases hden : y.den = 1
    · by_cases hzero : y < 0 ∧ x = 0
      · rw [if_neg (fun h => h.2 hzero), if_neg (not_not.2 hden), if_pos (hneg.2 hzero)]
        rfl
      · rw [if_pos ⟨hden, hzero⟩, if_neg (not_not.2 hden), if_neg (fun h => hzero (hneg.1 h))]
        rfl
    · rw [if_neg (fun h => hden h.1), if_pos hden]
      rfl

theorem roundedBinary?_symbol (op : Operation) (x y : Binary64) :
    roundedBinary? op.symbol x y = some (op.rounded x y) := by
  cases op <;> rfl

end Operation

namespace DualValue

variable {s : Settings}

/-- **A value holds both meanings of a tree.** -/
structure Means (table : SymbolTable) (e : Expr) (v : DualValue) : Prop where
  exact : e.exactValue? table = v.exact.toOption
  rounded : e.roundedValue? table = some v.shadow.value

/-! ### The exact side

It depends on the exact values of constants alone, whatever their shadows are. -/

theorem exactValue?_literal {table : SymbolTable} {text : String} {p : Int} {v : DualValue}
    (h : ofLiteral s text p = .ok v) :
    (Expr.number text p).exactValue? table = v.exact.toOption := by
  obtain ⟨r, hr, -, rfl⟩ := ofLiteral_eq_ok h
  exact Literal.number?_eq_some_iff.2 (Literal.parse_eq_ok_iff.1 (Literal.parse_of_limited hr))

theorem exactValue?_name {n : String} {p : Int} {v : DualValue} (h : ofName s n p = .ok v) :
    (Expr.name n p).exactValue? s.symbols = v.exact.toOption := by
  obtain ⟨c, hc, rfl⟩ := ofName_eq_ok h
  rw [Expr.exactValue?, hc]
  rfl

theorem exactValue?_unary {table : SymbolTable} {op : String} {e : Expr} {p : Int} {v : DualValue}
    (h : e.exactValue? table = v.exact.toOption) :
    (Expr.unary op e p).exactValue? table = (unary op v).exact.toOption := by
  rw [Expr.exactValue?, h, unary]
  by_cases hop : op = "+"
  · cases hx : v.exact <;> simp [hop, hx, Except.toOption]
  · cases v.exact <;> simp [hop, Except.toOption, Except.map]

theorem Settled.toOption_eq {p : Int} {x : Except RuleError Rat} {z : Except Int Rat}
    (h : Settled s p x z) : z.toOption = x.toOption := by
  cases h <;> rfl

theorem exactValue?_binary {table : SymbolTable} {symbol : String} {l r : Expr} {p : Int}
    {x y v : DualValue} (hl : l.exactValue? table = x.exact.toOption)
    (hr : r.exactValue? table = y.exact.toOption) (h : binary s symbol p x y = .ok v) :
    (Expr.binary symbol l r p).exactValue? table = v.exact.toOption := by
  obtain ⟨op, exact, hop, -, hexact, rfl⟩ := binary_eq_ok h
  rw [Operation.ofSymbol?_eq_some_iff.1 hop, Expr.exactValue?, hl, hr]
  generalize x.exact = a at hexact
  generalize y.exact = b at hexact
  cases hexact with
  | left => rfl
  | right => rfl
  | settled hz =>
    show exactBinary? op.symbol _ _ = exact.toOption
    rw [hz.toOption_eq, mapError_toOption, Operation.exactBinary?_symbol]

theorem exactValues?_all {table : SymbolTable} {args : List Expr} {vs : List DualValue}
    (h : List.Forall₂ (fun e v => e.exactValue? table = v.exact.toOption) args vs) :
    Expr.exactValues? table args = (exactAll vs).toOption := by
  induction h with
  | nil => rfl
  | @cons e v es us he _ ih =>
    rw [Expr.exactValues?, he, ih, exactAll]
    cases v.exact with
    | error p => rfl
    | ok r => cases exactAll us <;> rfl

theorem exactValue?_call (htable : s.symbols.functions = SymbolTable.default.functions)
    {table : SymbolTable} {n : String} {args : List Expr} {p : Int} {vs : List DualValue}
    {v : DualValue}
    (hargs : List.Forall₂ (fun e v => e.exactValue? table = v.exact.toOption) args vs)
    (h : call s n p vs = .ok v) :
    (Expr.call n args p).exactValue? table = v.exact.toOption := by
  rw [Expr.exactValue?, exactValues?_all hargs]
  cases call_default htable h with
  | @abs x => cases hx : x.exact <;> simp [exactAll, hx] <;> rfl
  | @min x y => cases hx : x.exact <;> cases hy : y.exact <;> simp [exactAll, hx, hy] <;> rfl
  | @max x y => cases hx : x.exact <;> cases hy : y.exact <;> simp [exactAll, hx, hy] <;> rfl

/-! ### Both sides -/

theorem means_literal {text : String} {p : Int} {v : DualValue} (h : ofLiteral s text p = .ok v) :
    Means s.symbols (.number text p) v := by
  have hexact : (Expr.number text p).exactValue? s.symbols = v.exact.toOption :=
    exactValue?_literal h
  obtain ⟨r, -, -, rfl⟩ := ofLiteral_eq_ok h
  refine ⟨hexact, ?_⟩
  rw [Expr.roundedValue?, show Literal.number? text = some r from hexact]
  rfl

theorem means_unary {op : String} {e : Expr} {p : Int} {v : DualValue}
    (h : Means s.symbols e v) : Means s.symbols (.unary op e p) (unary op v) := by
  refine ⟨exactValue?_unary h.exact, ?_⟩
  rw [Expr.roundedValue?, h.rounded, unary]
  by_cases hop : op = "+" <;> simp [hop]

theorem means_binary {symbol : String} {l r : Expr} {p : Int} {x y v : DualValue}
    (hl : Means s.symbols l x) (hr : Means s.symbols r y) (h : binary s symbol p x y = .ok v) :
    Means s.symbols (.binary symbol l r p) v := by
  have hexact := exactValue?_binary (p := p) hl.exact hr.exact h
  -- The shadow of the result is one and the same however the exact side has ended.
  obtain ⟨op, exact, hop, -, -, rfl⟩ := binary_eq_ok h
  refine ⟨hexact, ?_⟩
  rw [Operation.ofSymbol?_eq_some_iff.1 hop, Expr.roundedValue?, hl.rounded, hr.rounded]
  exact Operation.roundedBinary?_symbol op _ _

theorem roundedValues?_all {table : SymbolTable} {args : List Expr} {vs : List DualValue}
    (h : List.Forall₂ (Means table) args vs) :
    Expr.roundedValues? table args = some (vs.map fun v => v.shadow.value) := by
  induction h with
  | nil => rfl
  | cons he _ ih =>
    rw [Expr.roundedValues?, he.rounded, ih]
    rfl

theorem means_call (htable : s.symbols.functions = SymbolTable.default.functions)
    {n : String} {args : List Expr} {p : Int} {vs : List DualValue} {v : DualValue}
    (hargs : List.Forall₂ (Means s.symbols) args vs) (h : call s n p vs = .ok v) :
    Means s.symbols (.call n args p) v := by
  refine ⟨exactValue?_call htable (hargs.imp fun _ _ hmeans => hmeans.exact) h, ?_⟩
  rw [Expr.roundedValue?, roundedValues?_all hargs]
  cases call_default htable h <;> rfl

/-- Every constant of the default table has the shadow that its exact value rounds to. -/
theorem value_of_constant?_default {n : String} {c : NamedConstant}
    (h : SymbolTable.default.constant? n = some c) : c.shadow.value = Binary64.ofRat c.exact := by
  have hmem : c ∈ SymbolTable.defaultConstants := List.mem_of_find?_eq_some h
  simp only [SymbolTable.defaultConstants, List.mem_cons, List.not_mem_nil, or_false] at hmem
  rcases hmem with rfl | rfl | rfl | rfl | rfl | rfl <;> rfl

theorem means_of_ofExpr (htable : s.symbols = SymbolTable.default) {e : Expr} {v : DualValue}
    (h : ofExpr s e = .ok v) : Means s.symbols e v := by
  refine Hereditary.ofExpr ?_ e v h
  refine ⟨fun _ _ _ => means_literal, ?_, fun _ _ _ _ => means_unary,
    fun _ _ _ _ _ _ _ => means_binary, fun _ _ _ _ _ => means_call (by rw [htable])⟩
  intro n p v hname
  have hexact := exactValue?_name hname
  obtain ⟨c, hc, rfl⟩ := ofName_eq_ok hname
  refine ⟨hexact, ?_⟩
  rw [Expr.roundedValue?, hc]
  rw [htable] at hc
  exact congrArg some (value_of_constant?_default hc).symm

/-- Of the reasons to stop before the end, only a literal over zero is a division by zero. -/
theorem over_zero_of_raisedAt {node : Expr} {x : EvalError} (h : RaisedAt s node (.error x))
    (hkind : x.kind = .divisionByZero) :
    x = .zeroDenominator ∧ ∃ text p n, node = .number text p ∧
      Literal.SpellsFraction (Text.trim text.toList) n 0 := by
  cases h with
  | number hstop =>
    cases ofLiteral_eq_error hstop with
    | zeroDenominator hparse =>
      obtain ⟨n, hspells⟩ := Literal.spells_over_zero hparse
      exact ⟨rfl, _, _, n, rfl, hspells⟩
    | exponent _ => cases hkind
    | size _ _ => cases hkind
  -- The other nodes stop for reasons of other kinds: they have no literal to refuse, and an exact
  -- operation that divides by zero settles in a fault instead of stopping.
  | name hstop => cases ofName_eq_error hstop <;> cases hkind
  | binary _ _ hstop =>
    cases binary_eq_error hstop with
    | guard hguard => cases hguard <;> cases hkind
    | settle _ hsettle => exact absurd hkind hsettle.kind_ne
  | resolve hstop => cases resolve_eq_error hstop <;> cases hkind
  | call _ hstop =>
    cases call_eq_error hstop with
    | resolve hresolve => cases hresolve <;> cases hkind
    | settle _ _ hsettle => exact absurd hkind hsettle.kind_ne

/-- **How an evaluation divides by zero**: the tree has a value without an exact side, or one of its
literals is a fraction over zero. -/
theorem dividedByZero_of_evaluate {e : Expr} {x : EvalError}
    (h : evaluate s e = .error (.error x)) (hkind : x.kind = .divisionByZero) :
    (∃ v p, ofExpr s e = .ok v ∧ v.exact = .error p ∧ x = .dividedByZero p v.shadow) ∨
      (x = .zeroDenominator ∧ ∃ text p n, .number text p ∈ e.preorder ∧
        Literal.SpellsFraction (Text.trim text.toList) n 0) := by
  rcases evaluate_eq_error h with ⟨node, hnode, hraised⟩ | ⟨v, p, hv, hp, ⟨⟩⟩
  · obtain ⟨rfl, text, p, n, rfl, hspells⟩ := over_zero_of_raisedAt hraised hkind
    exact Or.inr ⟨rfl, text, p, n, hnode, hspells⟩
  · exact Or.inl ⟨v, p, hv, hp, rfl⟩

end DualValue

/-- **An evaluation gives both meanings of its tree.**  With the default symbols, a result holds
the number that the tree stands for, in lowest terms, and the tree's value in binary64 alone.  A
division by zero carries the value of the whole tree in binary64 alone, and the tree stands for no
number; it carries no shadow only if a literal of the tree is itself a fraction over zero. -/
theorem evaluate_meanings (s : Settings) (htable : s.symbols = SymbolTable.default) (e : Expr) :
    (∀ v, evaluate s e = .ok v →
      e.exactValue? .default = some v.exact ∧ v.exact.num.natAbs.Coprime v.exact.den ∧
        e.roundedValue? .default = some v.shadow.value) ∧
    (∀ x, evaluate s e = .error (.error x) → x.kind = .divisionByZero →
      (∃ shadow, x.shadow? = some shadow ∧ e.exactValue? .default = none ∧
        e.roundedValue? .default = some shadow.value) ∨
      (x.shadow? = none ∧ ∃ text p n, .number text p ∈ e.preorder ∧
        Literal.SpellsFraction (Text.trim text.toList) n 0)) := by
  rw [← htable]
  refine ⟨?_, ?_⟩
  · intro v h
    have hmeans := DualValue.means_of_ofExpr htable (evaluate_eq_ok h)
    exact ⟨hmeans.exact, v.exact.reduced, hmeans.rounded⟩
  · intro x h hkind
    rcases DualValue.dividedByZero_of_evaluate h hkind with ⟨v, p, hv, hp, rfl⟩ | ⟨rfl, hliteral⟩
    · have hmeans := DualValue.means_of_ofExpr htable hv
      exact Or.inl ⟨_, rfl, by rw [hmeans.exact, hp]; rfl, hmeans.rounded⟩
    · exact Or.inr ⟨rfl, hliteral⟩

/-- `1 / 3` has both meanings, and `2 + 1 / 0` only the rounded one. -/
theorem meanings_of_quotients :
    (Expr.binary "/" (.number "1" 0) (.number "3" 2) 1).exactValue? .default = some (1 / 3) ∧
    (Expr.binary "/" (.number "1" 0) (.number "3" 2) 1).roundedValue? .default =
      some (.ofBits 0x3FD5555555555555) ∧
    (Expr.binary "+" (.number "2" 0) (.binary "/" (.number "1" 4) (.number "0" 6) 5) 2).exactValue?
      .default = none ∧
    (Expr.binary "+" (.number "2" 0) (.binary "/" (.number "1" 4) (.number "0" 6) 5)
      2).roundedValue? .default = some (.infinity false) := by
  have hthird : evaluate {} (.binary "/" (.number "1" 0) (.number "3" 2) 1) =
      .ok ⟨1 / 3, ⟨.ofBits 0x3FD5555555555555, [⟨.operation .div .one (.ofBits 0x4008000000000000),
        .ofBits 0x3FD5555555555555, .inexact⟩]⟩, []⟩ := by
    decide +kernel
  have hfault : evaluate {} (.binary "+" (.number "2" 0)
      (.binary "/" (.number "1" 4) (.number "0" 6) 5) 2) =
      .error (.error (.dividedByZero 5 ⟨.infinity false,
        [⟨.operation .div .one (.zero false), .infinity false, .divideByZero⟩]⟩)) := by
    decide +kernel
  obtain ⟨hexact, -, hrounded⟩ := (evaluate_meanings {} rfl _).1 _ hthird
  refine ⟨hexact, hrounded, ?_⟩
  rcases (evaluate_meanings {} rfl _).2 _ hfault rfl with ⟨_, ⟨⟩, hnone, hrounded⟩ | ⟨⟨⟩, -⟩
  exact ⟨hnone, hrounded⟩

end Roundoff
