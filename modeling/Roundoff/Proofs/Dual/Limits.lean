import Roundoff.Proofs.Dual.Recursion
import Roundoff.Proofs.Dual.Steps

/-! # Evaluation under larger limits

The limits of an evaluation guard single steps: the exponent of a literal, the exponent and the
growth of a power, the size of an exact value.  A guard that lets a step pass changes nothing in it,
and the same guard under a larger limit lets it pass too.  Two evaluations of a tree are therefore
in step, up to where the smaller limits stop the first one.
-/
namespace Roundoff

/-- Each limit is at most the other one, and the symbols are the same. -/
structure Settings.AtMost (s s' : Settings) : Prop where
  inputLength : s.maxInputLength ≤ s'.maxInputLength
  depth : s.maxDepth ≤ s'.maxDepth
  nodes : s.maxNodes ≤ s'.maxNodes
  exponent : s.maxExponent ≤ s'.maxExponent
  literalExponent : s.maxLiteralExponent ≤ s'.maxLiteralExponent
  rationalBits : s.maxRationalBits ≤ s'.maxRationalBits
  symbols : s.symbols = s'.symbols

/-- A literal is refused for its exponent. -/
inductive LiteralError.Refusal : LiteralError → Prop
  | exponentTooLarge {exponent limit : Int} : Refusal (.exponentTooLarge exponent limit)
  | exponentUnquotable : Refusal .exponentUnquotable

/-- A limit stops the evaluation.  An exponent beyond the limit that is too long for the message
about it is a defect and no error. -/
inductive Stop.Refusal : Stop → Prop
  | limit {e : EvalError} : e.kind = .resourceExhausted → Refusal (.error e)
  | unquotable : Refusal (.defect (.literal .exponentUnquotable))

theorem Literal.parse_agree {limit limit' : Int} (hle : limit ≤ limit') (text : String) :
    AgreeUnless LiteralError.Refusal (parse text (some limit)) (parse text (some limit')) := by
  rw [parse, parse]
  split
  · exact .refl _
  · refine (AgreeUnless.refl (split text)).bind fun l _ => ?_
    dsimp only
    by_cases hstop : limit < l.exponent.natAbs
    · rw [if_pos hstop]
      split
      · exact .stop .exponentTooLarge
      · exact .stop .exponentUnquotable
    · rw [if_neg hstop, if_neg (by omega)]
      exact .refl _

namespace DualValue

variable {s s' : Settings}

/-! ## Guards -/

theorem checkSize_agree (h : s.AtMost s') (p : Int) (r : Rat) :
    AgreeUnless Stop.Refusal (checkSize s p r) (checkSize s' p r) := by
  have hbits := h.rationalBits
  rw [checkSize, checkSize]
  by_cases hstop : s.maxRationalBits < Exact.bitLength r
  · rw [if_pos hstop]
    exact .stop (.limit rfl)
  · rw [if_neg hstop, if_neg (by omega)]
    exact .refl _

theorem checkPower_agree (h : s.AtMost s') (p : Int) (x y : Except Int Rat) :
    AgreeUnless Stop.Refusal (checkPower s p x y) (checkPower s' p x y) := by
  have hexponent := h.exponent
  have hbits := h.rationalBits
  unfold checkPower
  cases y with
  | error q => exact .refl _
  | ok e =>
    dsimp only
    split
    · exact .refl _
    · -- Each of the two comparisons either stops the first run or goes the same way in both.
      by_cases hlarge : s.maxExponent < e.num.natAbs
      · rw [if_pos hlarge]
        exact .stop (.limit rfl)
      · rw [if_neg hlarge, if_neg (by omega)]
        cases x with
        | error q => exact .refl _
        | ok b =>
          dsimp only
          by_cases hstop : s.maxRationalBits < Exact.bitLength b * e.num.natAbs
          · rw [if_pos hstop]
            exact .stop (.limit rfl)
          · rw [if_neg hstop, if_neg (by omega)]
            exact .refl _

/-- A function that fails does so under all limits. -/
theorem settle_agree (h : s.AtMost s') (p : Int) (x : Except RuleError Rat) :
    AgreeUnless Stop.Refusal (settle s p x) (settle s' p x) := by
  cases x with
  | ok r =>
    rw [settle, settle]
    rcases checkSize_agree h p r with heq | ⟨e, he, hstop⟩
    · rw [heq]
      exact .refl _
    · rw [hstop]
      exact .stop he
  | error e => exact .refl _

/-! ## Nodes -/

theorem ofLiteral_agree (h : s.AtMost s') (text : String) (p : Int) :
    AgreeUnless Stop.Refusal (ofLiteral s text p) (ofLiteral s' text p) := by
  have hle : (s.maxLiteralExponent : Int) ≤ s'.maxLiteralExponent :=
    Int.ofNat_le.2 h.literalExponent
  rw [ofLiteral, ofLiteral]
  rcases Literal.parse_agree hle text with heq | ⟨e, he, hstop⟩
  · rw [heq]
    split
    · exact .refl _
    · exact .refl _
    · exact .refl _
    · rename_i r _
      exact (checkSize_agree h p r).bind fun q _ => .refl _
  · rw [hstop]
    cases he with
    | exponentTooLarge => exact .stop (.limit rfl)
    | exponentUnquotable => exact .stop .unquotable

theorem ofName_eq (h : s.AtMost s') (n : String) (p : Int) : ofName s n p = ofName s' n p := by
  rw [ofName, ofName, h.symbols]

theorem resolve_eq (h : s.AtMost s') (n : String) (given : Nat) (p : Int) :
    resolve s n given p = resolve s' n given p := by
  rw [resolve, resolve, h.symbols]

theorem combine_agree (h : s.AtMost s') (op : Operation) (p : Int) (x y : DualValue) :
    AgreeUnless Stop.Refusal (combine s op p x y) (combine s' op p x y) := by
  unfold combine
  cases x.exact with
  | error q => exact .refl _
  | ok a =>
    cases y.exact with
    | error q => exact .refl _
    | ok b => exact (settle_agree h p _).bind fun z _ => .refl _

theorem binary_agree (h : s.AtMost s') (symbol : String) (p : Int) (x y : DualValue) :
    AgreeUnless Stop.Refusal (binary s symbol p x y) (binary s' symbol p x y) := by
  cases hop : Operation.ofSymbol? symbol with
  | none =>
    rw [binary, binary, hop]
    exact .refl _
  | some op =>
    rw [binary_eq hop, binary_eq hop]
    split
    · exact (checkPower_agree h p x.exact y.exact).bind fun _ _ => combine_agree h op p x y
    · exact combine_agree h op p x y

theorem call_agree (h : s.AtMost s') (n : String) (p : Int) (vs : List DualValue) :
    AgreeUnless Stop.Refusal (call s n p vs) (call s' n p vs) := by
  rw [call, call, resolve_eq h]
  refine (AgreeUnless.refl _).bind fun f _ => ?_
  dsimp only [applyRule]
  cases exactAll vs with
  | error q => exact .refl _
  | ok rs => exact (settle_agree h p _).bind fun z _ => .refl _

/-! ## Trees -/

mutual

/-- **Larger limits only let an evaluation go on.** -/
theorem ofExpr_agree (h : s.AtMost s') : ∀ e : Expr,
    AgreeUnless Stop.Refusal (ofExpr s e) (ofExpr s' e)
  | .number text p => by
    rw [ofExpr, ofExpr]
    exact ofLiteral_agree h text p
  | .name n p => by
    rw [ofExpr, ofExpr, ofName_eq h]
    exact .refl _
  | .unary op e p => by
    rw [ofExpr, ofExpr]
    exact (ofExpr_agree h e).bind fun v _ => .refl _
  | .binary op l r p => by
    rw [ofExpr, ofExpr]
    refine (ofExpr_agree h l).bind fun x _ => ?_
    exact (ofExpr_agree h r).bind fun y _ => binary_agree h op p x y
  | .call n args p => by
    rw [ofExpr, ofExpr, resolve_eq h]
    refine (AgreeUnless.refl _).bind fun f _ => ?_
    exact (ofExprs_agree h args).bind fun vs _ => call_agree h n p vs

theorem ofExprs_agree (h : s.AtMost s') : ∀ es : List Expr,
    AgreeUnless Stop.Refusal (ofExprs s es) (ofExprs s' es)
  | [] => .refl _
  | e :: es => by
    rw [ofExprs, ofExprs]
    refine (ofExpr_agree h e).bind fun v _ => ?_
    exact (ofExprs_agree h es).bind fun vs _ => .refl _

end

end DualValue

theorem evaluate_agree {s s' : Settings} (h : s.AtMost s') (e : Expr) :
    AgreeUnless Stop.Refusal (evaluate s e) (evaluate s' e) := by
  rw [evaluate_eq, evaluate_eq]
  exact (DualValue.ofExpr_agree h e).bind fun v _ => .refl _

end Roundoff
