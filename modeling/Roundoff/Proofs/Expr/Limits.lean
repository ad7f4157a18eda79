import Roundoff.Proofs.Expr.Steps

/-! # The parser under larger limits

The limits are compared with the depth and the number of nodes, and nothing else is done with them.
Under larger limits the parser therefore goes through the same states, up to where the smaller ones
stop it.
-/
namespace Roundoff.Parser

/-- Each limit is at most the other one. -/
structure Limits.AtMost (lim lim' : Limits) : Prop where
  depth : lim.maxDepth ≤ lim'.maxDepth
  nodes : lim.maxNodes ≤ lim'.maxNodes

variable {lim lim' : Limits}

theorem Limits.AtMost.node (h : lim.AtMost lim') (e : Expr) (st : State) :
    AgreeUnless Stop.Refusal (st.node lim e) (st.node lim' e) := by
  have hnodes := h.nodes
  rw [State.node, State.node]
  by_cases hstop : lim.maxNodes < st.nodes + 1
  · rw [if_pos hstop]
    exact .stop .tooManyNodes
  · rw [if_neg hstop, if_neg (by omega)]
    exact .refl _

theorem Limits.AtMost.enter (h : lim.AtMost lim') (ctx : Context) (st : State) :
    AgreeUnless Stop.Refusal (ctx.enter lim st) (ctx.enter lim' st) := by
  have hdepth := h.depth
  rw [Context.enter, Context.enter]
  by_cases hstop : lim.maxDepth < ctx.depth + 1
  · rw [if_pos hstop]
    exact .stop .tooDeep
  · rw [if_neg hstop, if_neg (by omega)]
    exact .refl _

/-! ## The four functions -/

def ExpressionAgrees (lim lim' : Limits) (fuel : ℕ) : Prop :=
  ∀ ctx minimum st, AgreeUnless Stop.Refusal (expression lim fuel ctx minimum st)
    (expression lim' fuel ctx minimum st)

def ClimbAgrees (lim lim' : Limits) (fuel : ℕ) : Prop :=
  ∀ ctx minimum left st, AgreeUnless Stop.Refusal (climb lim fuel ctx minimum left st)
    (climb lim' fuel ctx minimum left st)

def OperandAgrees (lim lim' : Limits) (fuel : ℕ) : Prop :=
  ∀ ctx st, AgreeUnless Stop.Refusal (operand lim fuel ctx st) (operand lim' fuel ctx st)

def ArgumentsAgree (lim lim' : Limits) (fuel : ℕ) : Prop :=
  ∀ ctx st, AgreeUnless Stop.Refusal (arguments lim fuel ctx st) (arguments lim' fuel ctx st)

variable {fuel : ℕ}

theorem expression_agrees (h : lim.AtMost lim') (hoperand : OperandAgrees lim lim' fuel)
    (hclimb : ClimbAgrees lim lim' fuel) : ExpressionAgrees lim lim' (fuel + 1) := by
  intro ctx minimum st
  rw [expression, expression]
  refine (h.enter ctx st).bind fun ctx _ => ?_
  refine (hoperand ctx st).bind fun r _ => ?_
  exact hclimb ctx minimum r.1 r.2

theorem climb_agrees (h : lim.AtMost lim') (hexpression : ExpressionAgrees lim lim' fuel)
    (hclimb : ClimbAgrees lim lim' fuel) : ClimbAgrees lim lim' (fuel + 1) := by
  intro ctx minimum left st
  cases climbShape minimum st with
  | stop hbelow =>
    rw [climb_stop hbelow, climb_stop hbelow]
    exact .refl _
  | unknown hkind hop =>
    rw [climb_unknown hkind hop, climb_unknown hkind hop]
    exact .refl _
  | operator hkind hop hle =>
    rw [climb_operator hkind hop hle, climb_operator hkind hop hle]
    refine (hexpression ctx _ _).bind fun r _ => ?_
    refine (h.node _ r.2).bind fun q _ => ?_
    exact hclimb ctx minimum q.1 q.2

theorem operand_agrees (h : lim.AtMost lim') (hexpression : ExpressionAgrees lim lim' fuel)
    (harguments : ArgumentsAgree lim lim' fuel) : OperandAgrees lim lim' (fuel + 1) := by
  intro ctx st
  cases operandShape st with
  | sign hkind hsign =>
    rw [operand_sign hkind hsign, operand_sign hkind hsign]
    exact (hexpression ctx _ _).bind fun r _ => h.node _ r.2
  | number hkind =>
    rw [operand_number hkind, operand_number hkind]
    exact h.node _ _
  | name hkind hnext =>
    rw [operand_name hkind hnext, operand_name hkind hnext]
    exact h.node _ _
  | emptyCall hkind hopening hclosing =>
    rw [operand_emptyCall hkind hopening hclosing, operand_emptyCall hkind hopening hclosing]
    exact h.node _ _
  | call hkind hopening hnext =>
    rw [operand_call hkind hopening hnext, operand_call hkind hopening hnext]
    refine (harguments _ _).bind fun r _ => ?_
    exact (AgreeUnless.refl _).bind fun st _ => h.node _ st
  | parens hkind =>
    rw [operand_parens hkind, operand_parens hkind]
    exact (hexpression _ 1 _).bind fun r _ => .refl _
  | none _ hfail =>
    rw [hfail, hfail]
    exact .refl _

theorem arguments_agree_of_atMost (hexpression : ExpressionAgrees lim lim' fuel)
    (harguments : ArgumentsAgree lim lim' fuel) : ArgumentsAgree lim lim' (fuel + 1) := by
  intro ctx st
  rw [arguments, arguments]
  refine (hexpression ctx 1 st).bind fun r _ => ?_
  dsimp only
  split
  · exact (harguments ctx r.2.advance).bind fun q _ => .refl _
  · exact .refl _

/-- **Larger limits only let the parser go on.** -/
theorem agree_of_atMost (h : lim.AtMost lim') (fuel : ℕ) :
    ExpressionAgrees lim lim' fuel ∧ ClimbAgrees lim lim' fuel ∧ OperandAgrees lim lim' fuel ∧
      ArgumentsAgree lim lim' fuel := by
  induction fuel with
  | zero =>
    exact ⟨fun _ _ _ => .refl _, fun _ _ _ _ => .refl _, fun _ _ => .refl _, fun _ _ => .refl _⟩
  | succ fuel ih =>
    obtain ⟨hexpression, hclimb, hoperand, harguments⟩ := ih
    exact ⟨expression_agrees h hoperand hclimb, climb_agrees h hexpression hclimb,
      operand_agrees h hexpression harguments, arguments_agree_of_atMost hexpression harguments⟩

/-! ## Whole token lists -/

/-- A token list has the same tree, or the same error, under larger limits. -/
theorem parse_agree_of_atMost (h : lim.AtMost lim') (tokens : List Token) :
    AgreeUnless Stop.Refusal (parse lim tokens) (parse lim' tokens) := by
  have hrun : AgreeUnless Stop.Refusal (run lim tokens) (run lim' tokens) := by
    rw [run, run]
    dsimp only
    split
    · exact .refl _
    · split
      · exact .refl _
      · exact ((agree_of_atMost h (fuelFor tokens)).1 _ _ _).bind fun r _ => .refl _
  rw [parse_eq_bind, parse_eq_bind]
  exact hrun.bind fun r _ => .refl _

end Roundoff.Parser
