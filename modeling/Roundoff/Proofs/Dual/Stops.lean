import Roundoff.Proofs.Dual.Faults
import Roundoff.Proofs.Dual.Limits
import Roundoff.Proofs.Literal.Value
import Roundoff.Proofs.Numeral.Written

/-! # What stops the evaluation of a proper tree

A tree is proper if its literals are spelled as decimal literals, its operators are known and the
numbers in it that a message may have to write out are short (`Expr.Proper`).  Under limits that are
at most the default ones, the evaluation of a proper tree stops only with errors about the line:
each has a position, and its message writes out short numbers only (`EvalError.Presentable`).  The
guards are what makes this so.  A fractional exponent is refused before the power is computed, and
no default function fails, so no error without a position can arise, and none in the words of a
function.
-/
namespace Roundoff

/-! ## Presentable errors -/

/-- The integers that the message about a malformed expression writes out. -/
def ParseError.integers : ParseError → List ℤ
  | empty => []
  | unexpected _ found => [found.position]
  | unmatched found => [found.position]
  | unclosed _ opening => [opening]

/-- The integers that the message of an error writes out; what a function says itself is written
already. -/
def EvalError.integers : EvalError → List ℤ
  | lex e => [e.position]
  | parse e => e.integers
  | lineTooLong length limit => [length, limit]
  | tooDeep limit _ => [limit]
  | tooManyNodes limit _ => [limit]
  | literalExponent exponent limit _ => [exponent, limit]
  | valueTooLarge limit _ => [limit]
  | exponentTooLarge limit _ => [limit]
  | powerTooLarge limit _ => [limit]
  | wrongArity _ arity given _ => [arity, given]
  | dividedByZero p _ => [p]
  | fractionalExponent _ => []
  | unknownName _ _ => []
  | functionAsConstant _ _ => []
  | constantAsFunction _ _ => []
  | zeroDenominator => []
  | fractionalPower => []
  | raised _ => []

/-- An error that points into its line and whose message can be written, and not one in the words of
a function. -/
structure EvalError.Presentable (e : EvalError) : Prop where
  positioned : e.position ≠ none
  quotable : ∀ i ∈ e.integers, Numeral.isQuotable i = true
  unraised : ∀ r, e ≠ .raised r

/-- A stop for a presentable error. -/
def Stop.Presentable (x : Stop) : Prop :=
  ∃ e : EvalError, x = .error e ∧ e.Presentable

theorem isQuotable_of_le {i : ℤ} (h : i.natAbs ≤ 10 ^ 10) : Numeral.isQuotable i = true := by
  rw [Numeral.isQuotable_iff]
  exact h.trans_lt (Nat.pow_lt_pow_right (by decide) (by decide))

/-! ## Proper trees -/

namespace Expr

/-- What a node must be for its evaluation to stop in an orderly way, its operands apart. -/
def IsKnown : Expr → Prop
  | number text _ => ∃ l, Literal.Spells (Text.trim text.toList) l ∧
      Numeral.isQuotable l.exponent = true
  | binary op _ _ _ => (Operation.ofSymbol? op).isSome = true
  | call _ args _ => Numeral.isQuotable args.length = true
  | _ => True

/-- **Every node is known and has a short position.** -/
def Proper (e : Expr) : Prop :=
  ∀ n ∈ e.preorder, n.IsKnown ∧ Numeral.isQuotable n.position = true

end Expr

namespace DualValue

variable {s : Settings} {p : ℤ} {x : Stop}

/-! ## Nodes -/

theorem valueTooLarge_presentable (hs : s.AtMost {}) :
    (Stop.error (.valueTooLarge s.maxRationalBits p)).Presentable := by
  have hbits : s.maxRationalBits ≤ 1048576 := hs.rationalBits
  refine ⟨_, rfl, nofun, fun i hi => ?_, nofun⟩
  rw [List.mem_singleton.1 hi]
  exact isQuotable_of_le (by omega)

theorem ofLiteral_stop (hs : s.AtMost {}) {text : String} {l : Literal}
    (hl : Literal.Spells (Text.trim text.toList) l) (hexp : Numeral.isQuotable l.exponent = true)
    (h : ofLiteral s text p = .error x) : x.Presentable := by
  have hlimit : s.maxLiteralExponent ≤ 4096 := hs.literalExponent
  unfold ofLiteral at h
  rcases Literal.parse_of_spells hl (some s.maxLiteralExponent) with ⟨-, hok⟩ | ⟨-, herr⟩
  · rw [hok] at h
    rcases bind_eq_error.1 h with h | ⟨q, -, h⟩
    · obtain ⟨-, rfl⟩ := checkSize_eq_error h
      exact valueTooLarge_presentable hs
    · cases h
  · rw [herr, hexp] at h
    cases h
    refine ⟨_, rfl, nofun, fun i hi => ?_, nofun⟩
    rcases List.mem_pair.1 hi with rfl | rfl
    · exact hexp
    · exact isQuotable_of_le (by simp; omega)

theorem ofName_stop {n : String} (h : ofName s n p = .error x) : x.Presentable := by
  cases ofName_eq_error h with
  | function => exact ⟨_, rfl, nofun, nofun, nofun⟩
  | unknown => exact ⟨_, rfl, nofun, nofun, nofun⟩

theorem PowerStop.presentable (hs : s.AtMost {}) (h : PowerStop s p x) : x.Presentable := by
  have hexponent : s.maxExponent ≤ 4096 := hs.exponent
  have hbits : s.maxRationalBits ≤ 1048576 := hs.rationalBits
  cases h with
  | fractional => exact ⟨_, rfl, nofun, nofun, nofun⟩
  | exponent | size =>
    refine ⟨_, rfl, nofun, fun i hi => ?_, nofun⟩
    rw [List.mem_singleton.1 hi]
    exact isQuotable_of_le (by omega)

/-- An exact operation that has a value stops the evaluation only by the size of it. -/
theorem settle_stop (hs : s.AtMost {}) {a : Except RuleError ℚ} (ha : ∀ e, a ≠ .error e)
    (h : settle s p a = .error x) : x.Presentable := by
  cases settle_eq_error h with
  | size _ => exact valueTooLarge_presentable hs
  | ending _ => exact absurd rfl (ha _)

theorem binary_stop (hs : s.AtMost {}) {symbol : String} {v w : DualValue}
    (hknown : (Operation.ofSymbol? symbol).isSome = true)
    (h : binary s symbol p v w = .error x) : x.Presentable := by
  rcases binary_stops h with ⟨hunknown, -⟩ | hguard | rfl
  · rw [hunknown] at hknown
    cases hknown
  · exact hguard.presentable hs
  · exact valueTooLarge_presentable hs

theorem functions_eq (hs : s.AtMost {}) : s.symbols.functions = SymbolTable.default.functions := by
  rw [hs.symbols]

theorem resolve_stop (hs : s.AtMost {}) {n : String} {count : ℕ}
    (hcount : Numeral.isQuotable count = true) (h : resolve s n count p = .error x) :
    x.Presentable := by
  unfold resolve at h
  split at h
  · rename_i f hf
    split at h <;> cases h
    refine ⟨_, rfl, nofun, fun i hi => ?_, nofun⟩
    rcases List.mem_pair.1 hi with rfl | rfl
    · rcases function?_eq_some (functions_eq hs) hf with ⟨-, rfl⟩ | ⟨-, rfl⟩ | ⟨-, rfl⟩ <;>
        exact isQuotable_of_le (by decide)
    · exact hcount
  · split at h <;> cases h <;> exact ⟨_, rfl, nofun, nofun, nofun⟩

/-- No default function fails. -/
theorem default_exact_ne_error (hs : s.AtMost {}) {n : String} {f : FunctionRule}
    (hf : s.symbols.function? n = some f) (g : Fin f.arity → ℚ) (e : RuleError) :
    f.exact g ≠ .error e := by
  rcases function?_eq_some (functions_eq hs) hf with ⟨-, rfl⟩ | ⟨-, rfl⟩ | ⟨-, rfl⟩ <;> exact nofun

theorem call_stop (hs : s.AtMost {}) {n : String} {vs : List DualValue}
    (hcount : Numeral.isQuotable vs.length = true) (h : call s n p vs = .error x) :
    x.Presentable := by
  unfold call at h
  rcases bind_eq_error.1 h with h | ⟨⟨f, hf⟩, hresolve, h⟩
  · exact resolve_stop hs hcount h
  · dsimp only [applyRule] at h
    cases hrs : exactAll vs with
    | error q =>
      rw [hrs] at h
      cases h
    | ok rs =>
      rw [hrs] at h
      rcases bind_eq_error.1 h with hsettle | ⟨_, -, h⟩
      · exact settle_stop hs (default_exact_ne_error hs (resolve_eq_ok hresolve) _) hsettle
      · cases h

end DualValue

open DualValue

/-! ## Trees -/

variable {s : Settings}

theorem raised_stop (hs : s.AtMost {}) {n : Expr} {x : Stop} (hn : n.IsKnown)
    (h : RaisedAt s n x) : x.Presentable := by
  cases h with
  | number h =>
    obtain ⟨l, hl, hexp⟩ := hn
    exact ofLiteral_stop hs hl hexp h
  | name h => exact ofName_stop h
  | binary _ _ h => exact binary_stop hs hn h
  | resolve h => exact resolve_stop hs hn h
  | call hvs h =>
    rw [Expr.IsKnown, ← length_ofExprs s hvs] at hn
    exact call_stop hs hn h

/-- **The evaluation of a proper tree stops only with presentable errors.** -/
theorem evaluate_stop (hs : s.AtMost {}) {e : Expr} {x : Stop} (hproper : e.Proper)
    (h : evaluate s e = .error x) : x.Presentable := by
  rcases evaluate_eq_error h with ⟨n, hn, hraised⟩ | ⟨v, p, hv, hp, rfl⟩
  · exact raised_stop hs (hproper n hn).1 hraised
  · -- The division by zero is reported at a node of the tree.
    obtain ⟨n, hn, rfl, -⟩ := faultSite_of_ofExpr e v p hv hp
    refine ⟨_, rfl, nofun, fun i hi => ?_, nofun⟩
    rw [List.mem_singleton.1 hi]
    exact (hproper n hn).2

end Roundoff
