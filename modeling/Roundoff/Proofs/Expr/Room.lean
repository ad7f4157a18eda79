import Roundoff.Proofs.Expr.Steps

/-! # Room for a token list

Limits as large as a token list are never reached on it.  A node is made only for a token that has
been read, so that the nodes made and the tokens left never grow together (`State.weight`), and the
nesting is bounded by the recursion.
-/
namespace Roundoff.Parser

variable {lim : Limits} {α : Type}

/-- The number of nodes made and of tokens that could still give rise to one. -/
def State.weight (st : State) : ℕ :=
  st.nodes + st.rest.length

theorem weight_cons (t : Token) (ts : List Token) (nodes : ℕ) :
    State.weight ⟨t :: ts, nodes⟩ = State.weight ⟨ts, nodes⟩ + 1 :=
  rfl

/-- No limit stops the computation, and it ends with at most a given weight. -/
def Fits (weight : ℕ) (x : Except Stop (α × State)) : Prop :=
  Ends (fun x => ¬ Stop.Refusal x) (fun r => r.2.weight ≤ weight) x

theorem Fits.mono {v w : ℕ} {x : Except Stop (α × State)} (h : Fits v x) (hle : v ≤ w) :
    Fits w x :=
  Ends.mono h fun _ hr => hr.trans hle

/-! ## Single steps -/

theorem node_fits (e : Expr) {st : State} (h : st.weight + 1 ≤ lim.maxNodes) :
    Fits (st.weight + 1) (st.node lim e) := by
  have hnodes : st.nodes ≤ st.weight := Nat.le_add_right _ _
  rw [State.node, if_neg (by omega)]
  refine .ok ?_
  show st.nodes + 1 + st.rest.length ≤ st.nodes + st.rest.length + 1
  omega

theorem enter_eq_ok {ctx : Context} (st : State) (h : ctx.depth + 1 ≤ lim.maxDepth) :
    ctx.enter lim st = .ok ⟨ctx.depth + 1, ctx.opened⟩ := by
  rw [Context.enter, if_neg (by omega)]

/-- A closing parenthesis makes room for a node. -/
theorem ends_close_weight (ctx : Context) (st : State) :
    Ends (fun x => ¬ Stop.Refusal x) (fun st' => st'.weight + 1 = st.weight) (ctx.close st) := by
  rcases close_cases ctx st with ⟨t, ts, hrest, -, hclose⟩ | ⟨e, hclose⟩
  · rw [hclose]
    refine .ok ?_
    show st.nodes + ts.length + 1 = st.nodes + st.rest.length
    rw [hrest, List.length_cons, Nat.add_assoc]
  · rw [hclose]
    exact .stop (nomatch ·)

/-! ## The four functions -/

def ExpressionFits (lim : Limits) (fuel : ℕ) : Prop :=
  ∀ ctx minimum st, ctx.depth + fuel ≤ lim.maxDepth → st.weight ≤ lim.maxNodes →
    Fits st.weight (expression lim fuel ctx minimum st)

def ClimbFits (lim : Limits) (fuel : ℕ) : Prop :=
  ∀ ctx minimum left st, ctx.depth + fuel ≤ lim.maxDepth → st.weight ≤ lim.maxNodes →
    Fits st.weight (climb lim fuel ctx minimum left st)

def OperandFits (lim : Limits) (fuel : ℕ) : Prop :=
  ∀ ctx st, ctx.depth + fuel ≤ lim.maxDepth → st.weight ≤ lim.maxNodes →
    Fits st.weight (operand lim fuel ctx st)

def ArgumentsFit (lim : Limits) (fuel : ℕ) : Prop :=
  ∀ ctx st, ctx.depth + fuel ≤ lim.maxDepth → st.weight ≤ lim.maxNodes →
    Fits st.weight (arguments lim fuel ctx st)

variable {fuel : ℕ}

theorem expression_fits (hoperand : OperandFits lim fuel) (hclimb : ClimbFits lim fuel) :
    ExpressionFits lim (fuel + 1) := by
  intro ctx minimum st hdepth hnodes
  rw [expression, enter_eq_ok st (by omega)]
  refine (hoperand ⟨ctx.depth + 1, ctx.opened⟩ st (by dsimp only; omega) hnodes).bind ?_
  rintro ⟨left, st₂⟩ hweight
  dsimp only at hweight
  exact (hclimb ⟨ctx.depth + 1, ctx.opened⟩ minimum left st₂ (by dsimp only; omega)
    (by omega)).mono hweight

theorem climb_fits (hexpression : ExpressionFits lim fuel) (hclimb : ClimbFits lim fuel) :
    ClimbFits lim (fuel + 1) := by
  intro ctx minimum left st hdepth hnodes
  cases climbShape minimum st with
  | stop hbelow =>
    rw [climb_stop hbelow]
    exact .ok le_rfl
  | unknown hkind hop =>
    rw [climb_unknown hkind hop]
    exact .stop (nomatch ·)
  | @operator t ts nodes op hkind hop hle =>
    rw [climb_operator hkind hop hle]
    rw [weight_cons] at hnodes ⊢
    refine (hexpression ctx op.rightMinimum ⟨ts, nodes⟩ (by omega) (by omega)).bind ?_
    rintro ⟨right, st₂⟩ hright
    dsimp only at hright
    -- The node takes the place of the operator that has been read.
    refine (node_fits _ (show st₂.weight + 1 ≤ lim.maxNodes by omega)).bind ?_
    rintro ⟨tree, st₃⟩ htree
    dsimp only at htree
    exact (hclimb ctx minimum tree st₃ (by omega) (by omega)).mono (by omega)

theorem operand_fits (hexpression : ExpressionFits lim fuel) (harguments : ArgumentsFit lim fuel) :
    OperandFits lim (fuel + 1) := by
  intro ctx st hdepth hnodes
  cases operandShape st with
  | @sign t ts nodes hkind hsign =>
    rw [operand_sign hkind hsign]
    rw [weight_cons] at hnodes ⊢
    refine (hexpression ctx signMinimum ⟨ts, nodes⟩ (by omega) (by omega)).bind ?_
    rintro ⟨e, st₂⟩ he
    dsimp only at he
    exact (node_fits _ (by omega)).mono (by omega)
  | number hkind =>
    rw [operand_number hkind]
    rw [weight_cons] at hnodes ⊢
    exact node_fits _ hnodes
  | name hkind hnext =>
    rw [operand_name hkind hnext]
    rw [weight_cons] at hnodes ⊢
    exact node_fits _ hnodes
  | emptyCall hkind hopening hclosing =>
    rw [operand_emptyCall hkind hopening hclosing]
    rw [weight_cons, weight_cons, weight_cons] at hnodes ⊢
    exact (node_fits _ (by omega)).mono (by omega)
  | @call t opening ts nodes hkind hopening hnext =>
    rw [operand_call hkind hopening hnext]
    rw [weight_cons, weight_cons] at hnodes ⊢
    have hinner : (ctx.opening opening.position).depth + fuel ≤ lim.maxDepth := by
      show ctx.depth + fuel ≤ lim.maxDepth
      omega
    refine (harguments _ ⟨ts, nodes⟩ hinner (by omega)).bind ?_
    rintro ⟨args, st₂⟩ hargs
    dsimp only at hargs
    refine (ends_close_weight _ st₂).bind ?_
    intro st₃ hst₃
    exact (node_fits _ (show st₃.weight + 1 ≤ lim.maxNodes by omega)).mono (by omega)
  | @parens t ts nodes hkind =>
    rw [operand_parens hkind]
    rw [weight_cons] at hnodes ⊢
    have hinner : (ctx.opening t.position).depth + fuel ≤ lim.maxDepth := by
      show ctx.depth + fuel ≤ lim.maxDepth
      omega
    refine (hexpression _ 1 ⟨ts, nodes⟩ hinner (by omega)).bind ?_
    rintro ⟨e, st₂⟩ he
    dsimp only at he
    refine (ends_close_weight _ st₂).bind ?_
    intro st₃ hst₃
    refine .ok ?_
    dsimp only
    omega
  | none _ hfail =>
    obtain ⟨e, he⟩ := fail_eq ctx .expression st
    rw [hfail, he]
    exact .stop (nomatch ·)

theorem arguments_fit (hexpression : ExpressionFits lim fuel) (harguments : ArgumentsFit lim fuel) :
    ArgumentsFit lim (fuel + 1) := by
  intro ctx st hdepth hnodes
  rw [arguments]
  refine (hexpression ctx 1 st (by omega) hnodes).bind ?_
  rintro ⟨e, st₂⟩ he
  dsimp only at he ⊢
  split
  · rename_i hcomma
    obtain ⟨comma, ts, hst₂, -, hadvance⟩ := exists_cons_of_peek hcomma (by decide)
    rw [hst₂, weight_cons] at he
    rw [hadvance]
    refine (harguments ctx ⟨ts, st₂.nodes⟩ (by omega) (by omega)).bind ?_
    rintro ⟨es, st₃⟩ hes
    refine .ok ?_
    dsimp only at hes ⊢
    omega
  · exact .ok he

/-- **With room for the recursion and the tokens no limit is reached.** -/
theorem fits (lim : Limits) (fuel : ℕ) : ExpressionFits lim fuel ∧ ClimbFits lim fuel ∧
    OperandFits lim fuel ∧ ArgumentsFit lim fuel := by
  induction fuel with
  | zero =>
    refine ⟨?_, ?_, ?_, ?_⟩
    · exact fun _ _ _ _ _ => .stop (nomatch ·)
    · exact fun _ _ _ _ _ _ => .stop (nomatch ·)
    · exact fun _ _ _ _ => .stop (nomatch ·)
    · exact fun _ _ _ _ => .stop (nomatch ·)
  | succ fuel ih =>
    obtain ⟨hexpression, hclimb, hoperand, harguments⟩ := ih
    exact ⟨expression_fits hoperand hclimb, climb_fits hexpression hclimb,
      operand_fits hexpression harguments, arguments_fit hexpression harguments⟩

/-- A token list that the limits have room for is never refused. -/
theorem parse_room {tokens : List Token} (hdepth : fuelFor tokens ≤ lim.maxDepth)
    (hnodes : tokens.length ≤ lim.maxNodes) {x : Stop} (hx : parse lim tokens = .error x) :
    ¬ x.Refusal := by
  have hends : Ends (fun x => ¬ Stop.Refusal x) (fun _ => True) (parse lim tokens) := by
    rw [parse_eq_bind, run]
    dsimp only
    refine Ends.bind (P := fun _ => True) ?_ fun _ _ => .ok trivial
    split
    · exact .stop fun h => by cases h
    · split
      · exact .stop fun h => by cases h
      · refine ((fits lim (fuelFor tokens)).1 ⟨0, []⟩ 1 ⟨tokens, 0⟩ (by dsimp only; omega)
          (show 0 + tokens.length ≤ lim.maxNodes by omega)).bind ?_
        rintro ⟨e, st⟩ -
        dsimp only
        split
        · exact .ok trivial
        · split <;> exact .stop fun h => by cases h
  rw [hx] at hends
  cases hends with
  | stop h => exact h

end Roundoff.Parser
