import Roundoff.Proofs.Dual.Recursion
import Roundoff.Proofs.Dual.Steps
import Roundoff.Proofs.Expr.Relocation

/-! # Evaluation passes positions on

No step of an evaluation looks at where its node stands: the position goes into an error, or into
the fault of a division by zero.  The evaluation of a moved tree therefore goes through the same
values, with their faults moved, and its error is the moved one (`evaluate_moves`).  Only an error
that a function raises itself stays where it is: the function is not told where it is called.
-/
namespace Roundoff

variable (σ : ℤ → ℤ)

/-- The same error about a tree that stands elsewhere. -/
inductive EvalError.Moved : EvalError → EvalError → Prop
  | parse {e e' : ParseError} : e.Moved σ e' → Moved (.parse e) (.parse e')
  | tooDeep {limit : ℕ} {p : ℤ} : Moved (.tooDeep limit p) (.tooDeep limit (σ p))
  | tooManyNodes {limit : ℕ} {p : ℤ} : Moved (.tooManyNodes limit p) (.tooManyNodes limit (σ p))
  | literalExponent {exponent limit p : ℤ} :
      Moved (.literalExponent exponent limit p) (.literalExponent exponent limit (σ p))
  | valueTooLarge {limit : ℕ} {p : ℤ} : Moved (.valueTooLarge limit p) (.valueTooLarge limit (σ p))
  | exponentTooLarge {limit : ℕ} {p : ℤ} :
      Moved (.exponentTooLarge limit p) (.exponentTooLarge limit (σ p))
  | powerTooLarge {limit : ℕ} {p : ℤ} : Moved (.powerTooLarge limit p) (.powerTooLarge limit (σ p))
  | fractionalExponent {p : ℤ} : Moved (.fractionalExponent p) (.fractionalExponent (σ p))
  | unknownName {n : String} {p : ℤ} : Moved (.unknownName n p) (.unknownName n (σ p))
  | functionAsConstant {n : String} {p : ℤ} :
      Moved (.functionAsConstant n p) (.functionAsConstant n (σ p))
  | constantAsFunction {n : String} {p : ℤ} :
      Moved (.constantAsFunction n p) (.constantAsFunction n (σ p))
  | wrongArity {n : String} {arity given : ℕ} {p : ℤ} :
      Moved (.wrongArity n arity given p) (.wrongArity n arity given (σ p))
  | dividedByZero {p : ℤ} {shadow : Shadow} :
      Moved (.dividedByZero p shadow) (.dividedByZero (σ p) shadow)
  | zeroDenominator : Moved .zeroDenominator .zeroDenominator
  | fractionalPower : Moved .fractionalPower .fractionalPower
  | raised {e : RaisedError} : Moved (.raised e) (.raised e)

/-- The same stop on a tree that stands elsewhere. -/
inductive Stop.Moved : Stop → Stop → Prop
  | error {e e' : EvalError} : e.Moved σ e' → Moved (.error e) (.error e')
  | defect {d : Defect} : Moved (.defect d) (.defect d)

/-- The values of a sub-expression that stands elsewhere. -/
def DualValue.relocate (v : DualValue) : DualValue := { v with exact := v.exact.mapError σ }

variable {σ} {s : Settings}

/-- The reasons of the parser are moved with those of the line. -/
theorem Parser.Stop.Moved.ofParser {x x' : Parser.Stop} (h : x.Moved σ x')
    (lim : Parser.Limits) : (Stop.ofParser lim x).Moved σ (Stop.ofParser lim x') := by
  cases h with
  | malformed h => exact .error (.parse h)
  | tooDeep => exact .error .tooDeep
  | tooManyNodes => exact .error .tooManyNodes
  | unknownOperator | unfinished | exhausted => exact .defect

/-- A failing function ends the evaluation with an error that does not move. -/
theorem EvalError.Moved.of_ending? {e : RuleError} {x : EvalError} (h : e.ending? = some x) :
    x.Moved σ x := by
  cases e with
  | raised e =>
    cases h
    exact .raised
  | arithmetic cause =>
    cases cause <;> cases h
    exact .fractionalPower

namespace DualValue

/-! ## Guards -/

theorem checkSize_moves (p : ℤ) (r : ℚ) :
    InStep (Stop.Moved σ) Eq (checkSize s p r) (checkSize s (σ p) r) := by
  rw [checkSize, checkSize]
  split
  · exact .stop (.error .valueTooLarge)
  · exact .ok rfl

theorem checkPower_moves (p : ℤ) (x y : Except ℤ ℚ) :
    InStep (Stop.Moved σ) Eq (checkPower s p x y)
      (checkPower s (σ p) (x.mapError σ) (y.mapError σ)) := by
  unfold checkPower
  cases y with
  | error q => exact .ok rfl
  | ok e =>
    rw [mapError_ok]
    dsimp only
    split
    · exact .stop (.error .fractionalExponent)
    · split
      · exact .stop (.error .exponentTooLarge)
      · cases x with
        | error q => exact .ok rfl
        | ok b =>
          rw [mapError_ok]
          dsimp only
          split
          · exact .stop (.error .powerTooLarge)
          · exact .ok rfl

theorem settle_moves (p : ℤ) (x : Except RuleError ℚ) :
    InStep (Stop.Moved σ) (fun z z' => z' = z.mapError σ) (settle s p x) (settle s (σ p) x) := by
  cases x with
  | ok r =>
    refine (checkSize_moves p r).map ?_
    rintro q _ rfl
    rfl
  | error e =>
    rw [settle, settle]
    split
    · rename_i hending
      exact .stop (.error (.of_ending? hending))
    · exact .ok rfl

/-! ## Nodes -/

theorem ofLiteral_moves (text : String) (p : ℤ) :
    InStep (Stop.Moved σ) (fun v v' => v' = v.relocate σ) (ofLiteral s text p)
      (ofLiteral s text (σ p)) := by
  rw [ofLiteral, ofLiteral]
  split
  · exact .stop (.error .literalExponent)
  · exact .stop (.error .zeroDenominator)
  · exact .stop .defect
  · rename_i r _
    refine (checkSize_moves p r).bind ?_
    rintro q _ rfl
    exact .ok rfl

theorem ofName_moves (n : String) (p : ℤ) :
    InStep (Stop.Moved σ) (fun v v' => v' = v.relocate σ) (ofName s n p) (ofName s n (σ p)) := by
  rw [ofName, ofName]
  split
  · exact .ok rfl
  · split
    · exact .stop (.error .functionAsConstant)
    · exact .stop (.error .unknownName)

theorem combine_moves (op : Operation) (p : ℤ) (x y : DualValue) :
    InStep (Stop.Moved σ) (fun v v' => v' = v.relocate σ) (combine s op p x y)
      (combine s op (σ p) (x.relocate σ) (y.relocate σ)) := by
  obtain ⟨exact₁, shadow₁, names₁⟩ := x
  obtain ⟨exact₂, shadow₂, names₂⟩ := y
  cases exact₁ with
  | error q => exact .ok rfl
  | ok a =>
    cases exact₂ with
    | error q => exact .ok rfl
    | ok b =>
      refine (settle_moves p ((op.exact a b).mapError .arithmetic)).bind ?_
      rintro z _ rfl
      exact .ok rfl

theorem binary_moves (symbol : String) (p : ℤ) (x y : DualValue) :
    InStep (Stop.Moved σ) (fun v v' => v' = v.relocate σ) (binary s symbol p x y)
      (binary s symbol (σ p) (x.relocate σ) (y.relocate σ)) := by
  cases hop : Operation.ofSymbol? symbol with
  | none =>
    rw [binary, binary, hop]
    exact .stop .defect
  | some op =>
    rw [binary_eq hop, binary_eq hop]
    split
    · exact (checkPower_moves p x.exact y.exact).bind fun _ _ _ => combine_moves op p x y
    · exact combine_moves op p x y

theorem unary_relocate (symbol : String) (v : DualValue) :
    unary symbol (v.relocate σ) = (unary symbol v).relocate σ := by
  obtain ⟨exact, shadow, names⟩ := v
  rw [unary, unary]
  split
  · rfl
  · cases exact <;> rfl

theorem resolve_moves {given given' : ℕ} (hgiven : given' = given) (n : String) (p : ℤ) :
    InStep (Stop.Moved σ) (fun f f' => f'.1 = f.1) (resolve s n given p)
      (resolve s n given' (σ p)) := by
  subst hgiven
  rw [resolve, resolve]
  split
  · split
    · exact .ok rfl
    · exact .stop (.error .wrongArity)
  · split
    · exact .stop (.error .constantAsFunction)
    · exact .stop (.error .unknownName)

theorem exactAll_relocate (vs : List DualValue) :
    exactAll (vs.map (relocate σ)) = (exactAll vs).mapError σ := by
  induction vs with
  | nil => rfl
  | cons v vs ih =>
    obtain ⟨exact, shadow, names⟩ := v
    rw [List.map_cons, exactAll, exactAll, ih]
    cases exact with
    | error q => rfl
    | ok r => cases exactAll vs <;> rfl

theorem mergeApproximations_relocate (vs : List DualValue) :
    mergeApproximations (vs.map (relocate σ)) = mergeApproximations vs := by
  rw [mergeApproximations, mergeApproximations, List.flatMap_map]
  rfl

theorem applyRule_moves (f : FunctionRule) (p : ℤ) (vs : List DualValue)
    (h : f.arity = vs.length) (h' : f.arity = (vs.map (relocate σ)).length) :
    InStep (Stop.Moved σ) (fun v v' => v' = v.relocate σ) (applyRule s f p vs h)
      (applyRule s f (σ p) (vs.map (relocate σ)) h') := by
  have hshadow : (fun i : Fin f.arity => ((vs.map (relocate σ)).get (i.cast h')).shadow) =
      fun i => (vs.get (i.cast h)).shadow := by
    funext i
    rw [List.get_eq_getElem, List.getElem_map]
    rfl
  rw [applyRule, applyRule, hshadow, exactAll_relocate, mergeApproximations_relocate]
  cases exactAll vs with
  | error q => exact .ok rfl
  | ok rs =>
    refine (settle_moves p _).bind ?_
    rintro z _ rfl
    exact .ok rfl

theorem call_moves (n : String) (p : ℤ) (vs : List DualValue) :
    InStep (Stop.Moved σ) (fun v v' => v' = v.relocate σ) (call s n p vs)
      (call s n (σ p) (vs.map (relocate σ))) := by
  rw [call, call]
  refine (resolve_moves (List.length_map _) n p).bind ?_
  rintro ⟨f, hf⟩ ⟨_, hf'⟩ rfl
  exact applyRule_moves _ p vs hf hf'

/-! ## Trees -/

mutual

/-- **A moved tree has the moved values.** -/
theorem ofExpr_moves : ∀ e : Expr,
    InStep (Stop.Moved σ) (fun v v' => v' = v.relocate σ) (ofExpr s e) (ofExpr s (e.relocate σ))
  | .number text p => by
    rw [Expr.relocate, ofExpr, ofExpr]
    exact ofLiteral_moves text p
  | .name n p => by
    rw [Expr.relocate, ofExpr, ofExpr]
    exact ofName_moves n p
  | .unary op e p => by
    rw [Expr.relocate, ofExpr, ofExpr]
    refine (ofExpr_moves e).bind ?_
    rintro v _ rfl
    exact .ok (unary_relocate op v)
  | .binary op l r p => by
    rw [Expr.relocate, ofExpr, ofExpr]
    refine (ofExpr_moves l).bind ?_
    rintro x _ rfl
    refine (ofExpr_moves r).bind ?_
    rintro y _ rfl
    exact binary_moves op p x y
  | .call n args p => by
    rw [Expr.relocate, ofExpr, ofExpr]
    refine (resolve_moves (Expr.length_relocateList σ args) n p).bind fun _ _ _ => ?_
    refine (ofExprs_move args).bind ?_
    rintro vs _ rfl
    exact call_moves n p vs

theorem ofExprs_move : ∀ es : List Expr,
    InStep (Stop.Moved σ) (fun vs vs' => vs' = vs.map (relocate σ)) (ofExprs s es)
      (ofExprs s (Expr.relocateList σ es))
  | [] => .ok rfl
  | e :: es => by
    rw [Expr.relocateList, ofExprs, ofExprs]
    refine (ofExpr_moves e).bind ?_
    rintro v _ rfl
    refine (ofExprs_move es).bind ?_
    rintro vs _ rfl
    exact .ok rfl

end

theorem toEvaluation_moves (v : DualValue) :
    InStep (Stop.Moved σ) Eq v.toEvaluation (v.relocate σ).toEvaluation := by
  obtain ⟨exact, shadow, names⟩ := v
  cases exact with
  | ok r => exact .ok rfl
  | error q => exact .stop (.error .dividedByZero)

end DualValue

/-- **A moved tree has the same value**, or its error is the moved one. -/
theorem evaluate_moves (e : Expr) :
    InStep (Stop.Moved σ) Eq (evaluate s e) (evaluate s (e.relocate σ)) := by
  rw [evaluate_eq, evaluate_eq]
  refine (DualValue.ofExpr_moves e).bind ?_
  rintro v _ rfl
  exact v.toEvaluation_moves

end Roundoff
