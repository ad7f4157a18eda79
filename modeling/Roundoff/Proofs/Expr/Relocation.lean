import Roundoff.Proofs.Expr.Steps

/-! # Positions are passed on

The parser looks at the kinds and the texts of tokens and never at where they stand.  If all tokens
are moved, it goes through the same steps, and the positions in its tree, or in its error, are moved
with them (`parse_moves`).  Only two positions come from no token: that of an error about a line
without tokens, and that of the end of input which is read behind the last token; neither comes up
in a list that starts with some other token and ends with the end of its input.
-/
namespace Roundoff

variable (σ : ℤ → ℤ)

/-- The token at another position. -/
def Token.relocate (t : Token) : Token := { t with position := σ t.position }

namespace Expr

mutual

/-- The tree with its nodes at other positions. -/
def relocate : Expr → Expr
  | number t p => number t (σ p)
  | name n p => name n (σ p)
  | unary op e p => unary op e.relocate (σ p)
  | binary op l r p => binary op l.relocate r.relocate (σ p)
  | call n args p => call n (relocateList args) (σ p)

/-- The trees of a list with their nodes at other positions. -/
def relocateList : List Expr → List Expr
  | [] => []
  | e :: es => e.relocate :: relocateList es

end

theorem position_relocate (e : Expr) : (e.relocate σ).position = σ e.position := by
  cases e <;> rfl

theorem length_relocateList (es : List Expr) : (relocateList σ es).length = es.length := by
  induction es with
  | nil => rfl
  | cons e es ih => rw [relocateList, List.length_cons, List.length_cons, ih]

end Expr

/-- The same error about tokens that stand elsewhere. -/
inductive ParseError.Moved : ParseError → ParseError → Prop
  | unexpected {expected : Expected} {t : Token} :
      Moved (.unexpected expected t) (.unexpected expected (t.relocate σ))
  | unmatched {t : Token} : Moved (.unmatched t) (.unmatched (t.relocate σ))
  | unclosed {expected : Expected} {p : ℤ} :
      Moved (.unclosed expected p) (.unclosed expected (σ p))

namespace Parser

/-- The same stop on tokens that stand elsewhere. -/
inductive Stop.Moved : Stop → Stop → Prop
  | malformed {e e' : ParseError} : e.Moved σ e' → Moved (.malformed e) (.malformed e')
  | tooDeep {p : ℤ} : Moved (.tooDeep p) (.tooDeep (σ p))
  | tooManyNodes {p : ℤ} : Moved (.tooManyNodes p) (.tooManyNodes (σ p))
  | unknownOperator {symbol : String} : Moved (.unknownOperator symbol) (.unknownOperator symbol)
  | unfinished : Moved .unfinished .unfinished
  | exhausted : Moved .exhausted .exhausted

/-- The state with the tokens elsewhere. -/
def State.relocate (st : State) : State := { st with rest := st.rest.map (Token.relocate σ) }

/-- The context with the parentheses elsewhere. -/
def Context.relocate (ctx : Context) : Context := { ctx with opened := ctx.opened.map σ }

/-- The result on tokens that stand elsewhere; there are tokens left. -/
structure MovedTo {α : Type} (relocate : α → α) (r r' : α × State) : Prop where
  value : r'.1 = relocate r.1
  state : r'.2 = r.2.relocate σ
  closed : Closed r.2.rest

variable {σ} {lim : Limits} {fuel : ℕ} {ctx : Context} {st : State}

/-! ## Single steps -/

theorem relocate_cons (t : Token) (ts : List Token) (nodes : ℕ) :
    State.relocate σ ⟨t :: ts, nodes⟩ =
      ⟨t.relocate σ :: ts.map (Token.relocate σ), nodes⟩ := rfl

theorem kind_peek_relocate (st : State) : (st.relocate σ).peek.kind = st.peek.kind := by
  obtain ⟨rest, nodes⟩ := st
  cases rest <;> rfl

theorem peek_relocate (h : Closed st.rest) : (st.relocate σ).peek = st.peek.relocate σ := by
  obtain ⟨rest, nodes⟩ := st
  cases rest with
  | nil => exact absurd h not_closed_nil
  | cons t ts => rfl

/-- Stepping over a word leaves tokens. -/
theorem advance_moves (σ : ℤ → ℤ) (h : Closed st.rest) (hkind : st.peek.kind ≠ .endOfInput) :
    (st.relocate σ).advance = st.advance.relocate σ ∧ Closed st.advance.rest := by
  obtain ⟨rest, nodes⟩ := st
  cases rest with
  | nil => exact absurd h not_closed_nil
  | cons t ts =>
    have hne : t.kind ≠ .endOfInput := hkind
    have hmoved : (t.relocate σ).kind ≠ .endOfInput := hkind
    rw [relocate_cons, advance_cons hmoved, advance_cons hne]
    exact ⟨rfl, h.tail hne⟩

theorem fail_moves (h : Closed st.rest) (ctx : Context) (expected : Expected) :
    (ctx.fail expected st).Moved σ ((ctx.relocate σ).fail expected (st.relocate σ)) := by
  obtain ⟨depth, opened⟩ := ctx
  rw [Context.fail, Context.fail, kind_peek_relocate, peek_relocate h]
  split
  · cases opened with
    | nil => exact .malformed .unexpected
    | cons p ps => exact .malformed .unclosed
  · exact .malformed .unexpected

theorem node_moves (h : Closed st.rest) (e : Expr) :
    InStep (Stop.Moved σ) (MovedTo σ (Expr.relocate σ)) (st.node lim e)
      ((st.relocate σ).node lim (e.relocate σ)) := by
  rw [State.node, State.node, Expr.position_relocate]
  show InStep _ _ _ (if lim.maxNodes < st.nodes + 1 then _ else _)
  split
  · exact .stop .tooManyNodes
  · exact .ok ⟨rfl, rfl, h⟩

theorem enter_moves (h : Closed st.rest) (ctx : Context) :
    InStep (Stop.Moved σ) (fun c c' => c' = c.relocate σ) (ctx.enter lim st)
      ((ctx.relocate σ).enter lim (st.relocate σ)) := by
  rw [Context.enter, Context.enter, peek_relocate h]
  show InStep _ _ _ (if lim.maxDepth < ctx.depth + 1 then _ else _)
  split
  · exact .stop .tooDeep
  · exact .ok rfl

theorem close_moves (h : Closed st.rest) (ctx : Context) :
    InStep (Stop.Moved σ) (fun s s' => s' = s.relocate σ ∧ Closed s.rest) (ctx.close st)
      ((ctx.relocate σ).close (st.relocate σ)) := by
  rw [Context.close, Context.close, kind_peek_relocate]
  by_cases hkind : st.peek.kind = .rightParen
  · rw [if_pos hkind, if_pos hkind]
    exact .ok (advance_moves σ h (hkind.trans_ne (by decide)))
  · rw [if_neg hkind, if_neg hkind]
    exact .stop (fail_moves h ctx .closing)

/-! ## The four functions -/

def ExpressionMoves (σ : ℤ → ℤ) (lim : Limits) (fuel : ℕ) : Prop :=
  ∀ ctx minimum st, Closed st.rest → InStep (Stop.Moved σ) (MovedTo σ (Expr.relocate σ))
    (expression lim fuel ctx minimum st)
    (expression lim fuel (ctx.relocate σ) minimum (st.relocate σ))

def ClimbMoves (σ : ℤ → ℤ) (lim : Limits) (fuel : ℕ) : Prop :=
  ∀ ctx minimum left st, Closed st.rest → InStep (Stop.Moved σ) (MovedTo σ (Expr.relocate σ))
    (climb lim fuel ctx minimum left st)
    (climb lim fuel (ctx.relocate σ) minimum (left.relocate σ) (st.relocate σ))

def OperandMoves (σ : ℤ → ℤ) (lim : Limits) (fuel : ℕ) : Prop :=
  ∀ ctx st, Closed st.rest → InStep (Stop.Moved σ) (MovedTo σ (Expr.relocate σ))
    (operand lim fuel ctx st) (operand lim fuel (ctx.relocate σ) (st.relocate σ))

def ArgumentsMove (σ : ℤ → ℤ) (lim : Limits) (fuel : ℕ) : Prop :=
  ∀ ctx st, Closed st.rest → InStep (Stop.Moved σ) (MovedTo σ (Expr.relocateList σ))
    (arguments lim fuel ctx st) (arguments lim fuel (ctx.relocate σ) (st.relocate σ))

theorem expression_moves (hoperand : OperandMoves σ lim fuel) (hclimb : ClimbMoves σ lim fuel) :
    ExpressionMoves σ lim (fuel + 1) := by
  intro ctx minimum st hst
  rw [expression, expression]
  refine (enter_moves hst ctx).bind ?_
  rintro inner _ rfl
  refine (hoperand inner st hst).bind ?_
  rintro ⟨left, st₂⟩ ⟨_, _⟩ ⟨rfl, rfl, hst₂⟩
  exact hclimb inner minimum left st₂ hst₂

theorem stopsBelow_relocate {bound : ℕ} {rest : List Token} (h : StopsBelow bound rest) :
    StopsBelow bound (rest.map (Token.relocate σ)) := by
  intro t ts heq hkind
  obtain ⟨u, us, rfl, rfl, rfl⟩ := List.map_eq_cons_iff.1 heq
  exact h u us rfl hkind

theorem climb_moves (hexpression : ExpressionMoves σ lim fuel) (hclimb : ClimbMoves σ lim fuel) :
    ClimbMoves σ lim (fuel + 1) := by
  intro ctx minimum left st hst
  cases climbShape minimum st with
  | stop hbelow =>
    rw [climb_stop hbelow, climb_stop (stopsBelow_relocate hbelow)]
    exact .ok ⟨rfl, rfl, hst⟩
  | @unknown t ts nodes hkind hop =>
    have hmoved : (t.relocate σ).kind = .operator := hkind
    have hop' : Operation.ofSymbol? (t.relocate σ).text = none := hop
    rw [climb_unknown hkind hop, relocate_cons, climb_unknown hmoved hop']
    exact .stop .unknownOperator
  | @operator t ts nodes op hkind hop hle =>
    have hmoved : (t.relocate σ).kind = .operator := hkind
    have hop' : Operation.ofSymbol? (t.relocate σ).text = some op := hop
    rw [climb_operator hkind hop hle, relocate_cons, climb_operator hmoved hop' hle]
    have hts : Closed ts := hst.tail (hkind.trans_ne (by decide))
    refine (hexpression ctx op.rightMinimum ⟨ts, nodes⟩ hts).bind ?_
    rintro ⟨right, st₂⟩ ⟨_, _⟩ ⟨rfl, rfl, hst₂⟩
    refine (node_moves hst₂ (.binary t.text left right t.position)).bind ?_
    rintro ⟨tree, st₃⟩ ⟨_, _⟩ ⟨rfl, rfl, hst₃⟩
    exact hclimb ctx minimum tree st₃ hst₃

theorem operand_moves (hexpression : ExpressionMoves σ lim fuel)
    (harguments : ArgumentsMove σ lim fuel) : OperandMoves σ lim (fuel + 1) := by
  intro ctx st hst
  cases operandShape st with
  | @sign t ts nodes hkind hsign =>
    have hmoved : (t.relocate σ).kind = .operator := hkind
    have hsign' : isSign (t.relocate σ).text = true := hsign
    rw [operand_sign hkind hsign, relocate_cons, operand_sign hmoved hsign']
    have hts : Closed ts := hst.tail (hkind.trans_ne (by decide))
    refine (hexpression ctx signMinimum ⟨ts, nodes⟩ hts).bind ?_
    rintro ⟨e, st₂⟩ ⟨_, _⟩ ⟨rfl, rfl, hst₂⟩
    exact node_moves hst₂ (.unary t.text e t.position)
  | @number t ts nodes hkind =>
    have hmoved : (t.relocate σ).kind = .number := hkind
    rw [operand_number hkind, relocate_cons, operand_number hmoved]
    have hts : Closed (State.mk ts nodes).rest := hst.tail (hkind.trans_ne (by decide))
    exact node_moves hts (.number t.text t.position)
  | @name t ts nodes hkind hnext =>
    have hmoved : (t.relocate σ).kind = .identifier := hkind
    have hnext' : (State.peek ⟨ts.map (Token.relocate σ), nodes⟩).kind ≠ .leftParen :=
      (kind_peek_relocate ⟨ts, nodes⟩).trans_ne hnext
    rw [operand_name hkind hnext, relocate_cons, operand_name hmoved hnext']
    have hts : Closed (State.mk ts nodes).rest := hst.tail (hkind.trans_ne (by decide))
    exact node_moves hts (.name t.text t.position)
  | @emptyCall t opening closing ts nodes hkind hopening hclosing =>
    have hmoved : (t.relocate σ).kind = .identifier := hkind
    have hopening' : (opening.relocate σ).kind = .leftParen := hopening
    have hclosing' : (closing.relocate σ).kind = .rightParen := hclosing
    rw [operand_emptyCall hkind hopening hclosing, relocate_cons, List.map_cons, List.map_cons,
      operand_emptyCall hmoved hopening' hclosing']
    have hts : Closed (State.mk ts nodes).rest :=
      ((hst.tail (hkind.trans_ne (by decide))).tail (hopening.trans_ne (by decide))).tail
        (hclosing.trans_ne (by decide))
    exact node_moves hts (.call t.text [] t.position)
  | @call t opening ts nodes hkind hopening hnext =>
    have hmoved : (t.relocate σ).kind = .identifier := hkind
    have hopening' : (opening.relocate σ).kind = .leftParen := hopening
    have hnext' : (State.peek ⟨ts.map (Token.relocate σ), nodes⟩).kind ≠ .rightParen :=
      (kind_peek_relocate ⟨ts, nodes⟩).trans_ne hnext
    rw [operand_call hkind hopening hnext, relocate_cons, List.map_cons,
      operand_call hmoved hopening' hnext']
    have hts : Closed ts :=
      (hst.tail (hkind.trans_ne (by decide))).tail (hopening.trans_ne (by decide))
    refine (harguments (ctx.opening opening.position) ⟨ts, nodes⟩ hts).bind ?_
    rintro ⟨args, st₂⟩ ⟨_, _⟩ ⟨rfl, rfl, hst₂⟩
    refine (close_moves hst₂ (ctx.opening opening.position)).bind ?_
    rintro st₃ _ ⟨rfl, hst₃⟩
    exact node_moves hst₃ (.call t.text args t.position)
  | @parens t ts nodes hkind =>
    have hmoved : (t.relocate σ).kind = .leftParen := hkind
    rw [operand_parens hkind, relocate_cons, operand_parens hmoved]
    have hts : Closed ts := hst.tail (hkind.trans_ne (by decide))
    refine (hexpression (ctx.opening t.position) 1 ⟨ts, nodes⟩ hts).bind ?_
    rintro ⟨e, st₂⟩ ⟨_, _⟩ ⟨rfl, rfl, hst₂⟩
    refine (close_moves hst₂ (ctx.opening t.position)).bind ?_
    rintro st₃ _ ⟨rfl, hst₃⟩
    exact .ok ⟨rfl, rfl, hst₃⟩
  | none hnothing hfail =>
    have hnothing' : StartsNothing (st.relocate σ).peek := by
      rw [peek_relocate hst]
      exact ⟨hnothing.number, hnothing.identifier, hnothing.leftParen, hnothing.sign⟩
    rw [hfail, operand_none hnothing']
    exact .stop (fail_moves hst ctx .expression)

theorem arguments_move (hexpression : ExpressionMoves σ lim fuel)
    (harguments : ArgumentsMove σ lim fuel) : ArgumentsMove σ lim (fuel + 1) := by
  intro ctx st hst
  rw [arguments, arguments]
  refine (hexpression ctx 1 st hst).bind ?_
  rintro ⟨e, st₂⟩ ⟨_, _⟩ ⟨rfl, rfl, hst₂⟩
  dsimp only
  rw [kind_peek_relocate]
  by_cases hkind : st₂.peek.kind = .comma
  · rw [if_pos hkind, if_pos hkind]
    obtain ⟨hadvance, hst₃⟩ := advance_moves σ hst₂ (hkind.trans_ne (by decide))
    rw [hadvance]
    refine (harguments ctx st₂.advance hst₃).bind ?_
    rintro ⟨es, st₃⟩ ⟨_, _⟩ ⟨rfl, rfl, hst₄⟩
    exact .ok ⟨rfl, rfl, hst₄⟩
  · rw [if_neg hkind, if_neg hkind]
    exact .ok ⟨rfl, rfl, hst₂⟩

/-- The parser goes through the same steps on moved tokens. -/
theorem moves (σ : ℤ → ℤ) (lim : Limits) (fuel : ℕ) :
    ExpressionMoves σ lim fuel ∧ ClimbMoves σ lim fuel ∧ OperandMoves σ lim fuel ∧
      ArgumentsMove σ lim fuel := by
  induction fuel with
  | zero =>
    exact ⟨fun _ _ _ _ => .stop .exhausted, fun _ _ _ _ _ => .stop .exhausted,
      fun _ _ _ => .stop .exhausted, fun _ _ _ => .stop .exhausted⟩
  | succ fuel ih =>
    obtain ⟨hexpression, hclimb, hoperand, harguments⟩ := ih
    exact ⟨expression_moves hoperand hclimb, climb_moves hexpression hclimb,
      operand_moves hexpression harguments, arguments_move hexpression harguments⟩

/-! ## Whole token lists -/

/-- **The tree of moved tokens is the moved tree**, and their error is the moved error. -/
theorem parse_moves (σ : ℤ → ℤ) (lim : Limits) {tokens : List Token} (hclosed : Closed tokens)
    (hfirst : (State.peek ⟨tokens, 0⟩).kind ≠ .endOfInput) :
    InStep (Stop.Moved σ) (fun e e' => e' = e.relocate σ) (parse lim tokens)
      (parse lim (tokens.map (Token.relocate σ))) := by
  have hfirst' : (State.peek ⟨tokens.map (Token.relocate σ), 0⟩).kind ≠ .endOfInput :=
    (kind_peek_relocate ⟨tokens, 0⟩).trans_ne hfirst
  have hclosed' : Closed (tokens.map (Token.relocate σ)) := by
    rw [Closed, List.getLast?_map, Option.map_map]
    exact hclosed
  have hfuel : fuelFor (tokens.map (Token.relocate σ)) = fuelFor tokens := by
    rw [fuelFor, fuelFor, List.length_map]
  have hrun : InStep (Stop.Moved σ) (MovedTo σ (Expr.relocate σ)) (run lim tokens)
      (run lim (tokens.map (Token.relocate σ))) := by
    rw [run_of_closed hclosed hfirst, run_of_closed hclosed' hfirst', hfuel]
    refine ((moves σ lim (fuelFor tokens)).1 ⟨0, []⟩ 1 ⟨tokens, 0⟩ hclosed).bind ?_
    rintro ⟨tree, st⟩ ⟨_, _⟩ ⟨rfl, rfl, hst⟩
    dsimp only
    rw [kind_peek_relocate, peek_relocate hst]
    split
    · exact .ok ⟨rfl, rfl, hst⟩
    · split
      · exact .stop (.malformed .unmatched)
      · exact .stop (.malformed .unexpected)
  rw [parse_eq_bind, parse_eq_bind]
  refine hrun.bind ?_
  rintro ⟨tree, st⟩ ⟨_, _⟩ ⟨rfl, rfl, _⟩
  exact .ok rfl

end Parser

end Roundoff
