import Roundoff.Proofs.Operation
import Roundoff.Proofs.Sequence

/-! # The steps of the parser

What the next tokens make the parser do, one equation for each way an operand can start
(`OperandShape`) and each way the loop over the operators can go on (`ClimbShape`).  Later proofs go
through these ways and open no function of the parser.
-/
namespace Roundoff.Parser

/-! ## Single steps -/

/-- The stops at a limit. -/
inductive Stop.Refusal : Stop → Prop
  | tooDeep {p : Int} : Refusal (.tooDeep p)
  | tooManyNodes {p : Int} : Refusal (.tooManyNodes p)

theorem fail_eq (ctx : Context) (expected : Expected) (st : State) :
    ∃ e, ctx.fail expected st = .malformed e := by
  rw [Context.fail]
  split
  · split <;> exact ⟨_, rfl⟩
  · exact ⟨_, rfl⟩

theorem advance_cons {t : Token} {ts : List Token} {nodes : ℕ} (h : t.kind ≠ .endOfInput) :
    State.advance ⟨t :: ts, nodes⟩ = ⟨ts, nodes⟩ :=
  if_neg h

theorem close_cons {ctx : Context} {t : Token} {ts : List Token} {nodes : ℕ}
    (hkind : t.kind = .rightParen) : ctx.close ⟨t :: ts, nodes⟩ = .ok ⟨ts, nodes⟩ := by
  rw [Context.close, advance_cons (hkind.trans_ne (by decide))]
  exact if_pos hkind

/-- The next token has a given kind when it is the first of the tokens left. -/
theorem exists_cons_of_peek {st : State} {kind : TokenKind} (hkind : st.peek.kind = kind)
    (hend : kind ≠ .endOfInput) :
    ∃ t ts, st = ⟨t :: ts, st.nodes⟩ ∧ t.kind = kind ∧ st.advance = ⟨ts, st.nodes⟩ := by
  obtain ⟨rest, nodes⟩ := st
  cases rest with
  | nil => exact absurd hkind.symm hend
  | cons t ts =>
    have ht : t.kind = kind := hkind
    exact ⟨t, ts, rfl, ht, advance_cons (ht.trans_ne hend)⟩

/-- A closing parenthesis is next, or the expression is malformed. -/
theorem close_cases (ctx : Context) (st : State) :
    (∃ t ts, st.rest = t :: ts ∧ t.kind = .rightParen ∧ ctx.close st = .ok ⟨ts, st.nodes⟩) ∨
      ∃ e, ctx.close st = .error (.malformed e) := by
  by_cases hkind : st.peek.kind = .rightParen
  · obtain ⟨t, ts, hst, ht, -⟩ := exists_cons_of_peek hkind (by decide)
    refine Or.inl ⟨t, ts, by rw [hst], ht, ?_⟩
    rw [hst]
    exact close_cons ht
  · obtain ⟨e, he⟩ := fail_eq ctx .closing st
    exact Or.inr ⟨e, by rw [Context.close, if_neg hkind, he]⟩

/-! ## Tokens up to the end of the input -/

/-- The tokens end with an end of input. -/
def Closed (ts : List Token) : Prop :=
  ts.getLast?.map Token.kind = some .endOfInput

theorem not_closed_nil : ¬ Closed [] :=
  nofun

theorem Closed.suffix {xs ys : List Token} (h : Closed (xs ++ ys))
    (hxs : ∀ t ∈ xs, t.kind ≠ .endOfInput) : Closed ys := by
  cases ys with
  | nil =>
    obtain ⟨t, ht, hkind⟩ := Option.map_eq_some_iff.1 h
    rw [List.append_nil] at ht
    exact absurd hkind (hxs t (List.mem_of_getLast? ht))
  | cons y ys => rwa [Closed, List.getLast?_append_of_ne_nil _ (List.cons_ne_nil y ys)] at h

theorem Closed.tail {t : Token} {ts : List Token} (h : Closed (t :: ts))
    (hkind : t.kind ≠ .endOfInput) : Closed ts := by
  have hcons : Closed ([t] ++ ts) := h
  exact hcons.suffix (List.forall_mem_singleton.2 hkind)

variable {lim : Limits} {fuel nodes : ℕ} {ctx : Context} {t : Token} {ts : List Token}

/-! ## Operands -/

theorem operand_sign (hkind : t.kind = .operator) (hsign : isSign t.text = true) :
    operand lim (fuel + 1) ctx ⟨t :: ts, nodes⟩ = (do
      let (e, st) ← expression lim fuel ctx signMinimum ⟨ts, nodes⟩
      st.node lim (.unary t.text e t.position)) := by
  obtain ⟨kind, text, position⟩ := t
  subst hkind
  rw [operand]
  show (if isSign text then _ else _) = _
  rw [if_pos hsign]
  rfl

theorem operand_number (hkind : t.kind = .number) : operand lim (fuel + 1) ctx ⟨t :: ts, nodes⟩ =
    State.node lim (.number t.text t.position) ⟨ts, nodes⟩ := by
  obtain ⟨kind, text, position⟩ := t
  subst hkind
  rw [operand]
  rfl

theorem operand_name (hkind : t.kind = .identifier)
    (hnext : (State.peek ⟨ts, nodes⟩).kind ≠ .leftParen) :
    operand lim (fuel + 1) ctx ⟨t :: ts, nodes⟩ =
      State.node lim (.name t.text t.position) ⟨ts, nodes⟩ := by
  obtain ⟨kind, text, position⟩ := t
  subst hkind
  rw [operand]
  exact if_neg hnext

theorem operand_emptyCall {opening closing : Token} (hkind : t.kind = .identifier)
    (hopening : opening.kind = .leftParen) (hclosing : closing.kind = .rightParen) :
    operand lim (fuel + 1) ctx ⟨t :: opening :: closing :: ts, nodes⟩ =
      State.node lim (.call t.text [] t.position) ⟨ts, nodes⟩ := by
  obtain ⟨kind, text, position⟩ := t
  obtain ⟨kind', text', position'⟩ := opening
  obtain ⟨kind'', text'', position''⟩ := closing
  subst hkind
  subst hopening
  subst hclosing
  rw [operand]
  rfl

theorem operand_call {opening : Token} (hkind : t.kind = .identifier)
    (hopening : opening.kind = .leftParen)
    (hnext : (State.peek ⟨ts, nodes⟩).kind ≠ .rightParen) :
    operand lim (fuel + 1) ctx ⟨t :: opening :: ts, nodes⟩ = (do
      let (args, st) ← arguments lim fuel (ctx.opening opening.position) ⟨ts, nodes⟩
      let st ← (ctx.opening opening.position).close st
      st.node lim (.call t.text args t.position)) := by
  obtain ⟨kind, text, position⟩ := t
  obtain ⟨kind', text', position'⟩ := opening
  subst hkind
  subst hopening
  rw [operand]
  exact if_neg hnext

theorem operand_parens (hkind : t.kind = .leftParen) :
    operand lim (fuel + 1) ctx ⟨t :: ts, nodes⟩ = (do
      let (e, st) ← expression lim fuel (ctx.opening t.position) 1 ⟨ts, nodes⟩
      let st ← (ctx.opening t.position).close st
      .ok (e, st)) := by
  obtain ⟨kind, text, position⟩ := t
  subst hkind
  rw [operand]
  rfl

/-- No operand starts with the token. -/
structure StartsNothing (t : Token) : Prop where
  number : t.kind ≠ .number
  identifier : t.kind ≠ .identifier
  leftParen : t.kind ≠ .leftParen
  sign : t.kind = .operator → isSign t.text = false

theorem startsNothing_of_kind {t : Token} {kind : TokenKind} (hkind : t.kind = kind)
    (h : kind = .rightParen ∨ kind = .comma ∨ kind = .endOfInput) : StartsNothing t := by
  subst hkind
  rcases h with h | h | h <;> constructor <;> simp [h]

/-- How an operand can start. -/
inductive OperandShape : State → Prop
  | sign {t : Token} {ts : List Token} {nodes : ℕ} : t.kind = .operator → isSign t.text = true →
      OperandShape ⟨t :: ts, nodes⟩
  | number {t : Token} {ts : List Token} {nodes : ℕ} : t.kind = .number →
      OperandShape ⟨t :: ts, nodes⟩
  | name {t : Token} {ts : List Token} {nodes : ℕ} : t.kind = .identifier →
      (State.peek ⟨ts, nodes⟩).kind ≠ .leftParen → OperandShape ⟨t :: ts, nodes⟩
  | emptyCall {t opening closing : Token} {ts : List Token} {nodes : ℕ} : t.kind = .identifier →
      opening.kind = .leftParen → closing.kind = .rightParen →
      OperandShape ⟨t :: opening :: closing :: ts, nodes⟩
  | call {t opening : Token} {ts : List Token} {nodes : ℕ} : t.kind = .identifier →
      opening.kind = .leftParen → (State.peek ⟨ts, nodes⟩).kind ≠ .rightParen →
      OperandShape ⟨t :: opening :: ts, nodes⟩
  | parens {t : Token} {ts : List Token} {nodes : ℕ} : t.kind = .leftParen →
      OperandShape ⟨t :: ts, nodes⟩
  | none {st : State} : StartsNothing st.peek → (∀ lim fuel ctx,
      operand lim (fuel + 1) ctx st = .error (ctx.fail .expression st)) → OperandShape st

/-- **Every state is one of these**: an operand starts in one of the ways, or there is none. -/
theorem operandShape (st : State) : OperandShape st := by
  obtain ⟨rest, nodes⟩ := st
  cases rest with
  | nil => exact .none (startsNothing_of_kind rfl (Or.inr (Or.inr rfl))) fun _ _ _ => rfl
  | cons t ts =>
    cases hkind : t.kind with
    | number => exact .number hkind
    | leftParen => exact .parens hkind
    | operator =>
      by_cases hsign : isSign t.text = true
      · exact .sign hkind hsign
      · have hnothing : StartsNothing t := by
          constructor <;> simp [hkind, hsign]
        refine .none hnothing fun lim fuel ctx => ?_
        obtain ⟨kind, text, position⟩ := t
        subst hkind
        rw [operand]
        exact if_neg hsign
    | identifier =>
      by_cases hopening : (State.peek ⟨ts, nodes⟩).kind = .leftParen
      · cases ts with
        | nil => cases hopening
        | cons u us =>
          by_cases hclosing : (State.peek ⟨us, nodes⟩).kind = .rightParen
          · cases us with
            | nil => cases hclosing
            | cons v vs => exact .emptyCall hkind hopening hclosing
          · exact .call hkind hopening hclosing
      · exact .name hkind hopening
    | rightParen | comma | endOfInput =>
      refine .none (startsNothing_of_kind hkind (by decide)) fun lim fuel ctx => ?_
      obtain ⟨kind, text, position⟩ := t
      subst hkind
      rw [operand]
      rfl

theorem operand_none {st : State} (h : StartsNothing st.peek) :
    operand lim (fuel + 1) ctx st = .error (ctx.fail .expression st) := by
  cases operandShape st with
  | sign hkind hsign => exact absurd (h.sign hkind) (hsign.trans_ne (by decide))
  | number hkind => exact absurd hkind h.number
  | name hkind | emptyCall hkind | call hkind => exact absurd hkind h.identifier
  | parens hkind => exact absurd hkind h.leftParen
  | none _ hfail => exact hfail lim fuel ctx

/-! ## Operators -/

/-- If the next token is an operator, then one of less than some precedence. -/
def StopsBelow (bound : ℕ) (rest : List Token) : Prop :=
  ∀ t ts, rest = t :: ts → t.kind = .operator →
    ∃ op, Operation.ofSymbol? t.text = some op ∧ op.precedence < bound

theorem StopsBelow.mono {b c : ℕ} {rest : List Token} (h : StopsBelow b rest) (hle : b ≤ c) :
    StopsBelow c rest := by
  intro t ts ht hkind
  obtain ⟨op, hop, hlt⟩ := h t ts ht hkind
  exact ⟨op, hop, lt_of_lt_of_le hlt hle⟩

variable {minimum : ℕ} {left : Expr}

theorem climb_stop {st : State} (h : StopsBelow minimum st.rest) :
    climb lim (fuel + 1) ctx minimum left st = .ok (left, st) := by
  rw [climb]
  dsimp only
  by_cases hkind : st.peek.kind = .operator
  · obtain ⟨t, ts, hst, ht, -⟩ := exists_cons_of_peek hkind (by decide)
    obtain ⟨op, hop, hlt⟩ := h t ts (by rw [hst]) ht
    have hpeek : Operation.ofSymbol? st.peek.text = some op := by
      rw [hst]
      exact hop
    rw [if_neg (not_not.2 hkind), hpeek]
    exact if_pos hlt
  · rw [if_pos hkind]

theorem climb_unknown (hkind : t.kind = .operator) (hop : Operation.ofSymbol? t.text = none) :
    climb lim (fuel + 1) ctx minimum left ⟨t :: ts, nodes⟩ =
      .error (.unknownOperator t.text) := by
  have hpeek : (State.peek ⟨t :: ts, nodes⟩).kind = .operator := hkind
  have hsymbol : Operation.ofSymbol? (State.peek ⟨t :: ts, nodes⟩).text = none := hop
  rw [climb]
  dsimp only
  rw [if_neg (not_not.2 hpeek), hsymbol]
  rfl

theorem climb_operator {op : Operation} (hkind : t.kind = .operator)
    (hop : Operation.ofSymbol? t.text = some op) (hle : minimum ≤ op.precedence) :
    climb lim (fuel + 1) ctx minimum left ⟨t :: ts, nodes⟩ = (do
      let (right, st) ← expression lim fuel ctx op.rightMinimum ⟨ts, nodes⟩
      let (tree, st) ← st.node lim (.binary t.text left right t.position)
      climb lim fuel ctx minimum tree st) := by
  have hpeek : (State.peek ⟨t :: ts, nodes⟩).kind = .operator := hkind
  have hsymbol : Operation.ofSymbol? (State.peek ⟨t :: ts, nodes⟩).text = some op := hop
  rw [climb]
  dsimp only
  rw [if_neg (not_not.2 hpeek), hsymbol, advance_cons (hkind.trans_ne (by decide))]
  exact if_neg (not_lt.2 hle)

/-- How the loop over the operators can go on. -/
inductive ClimbShape (minimum : ℕ) : State → Prop
  | stop {st : State} : StopsBelow minimum st.rest → ClimbShape minimum st
  | unknown {t : Token} {ts : List Token} {nodes : ℕ} : t.kind = .operator →
      Operation.ofSymbol? t.text = none → ClimbShape minimum ⟨t :: ts, nodes⟩
  | operator {t : Token} {ts : List Token} {nodes : ℕ} {op : Operation} : t.kind = .operator →
      Operation.ofSymbol? t.text = some op → minimum ≤ op.precedence →
      ClimbShape minimum ⟨t :: ts, nodes⟩

theorem climbShape (minimum : ℕ) (st : State) : ClimbShape minimum st := by
  obtain ⟨rest, nodes⟩ := st
  cases rest with
  | nil => exact .stop fun _ _ h => (nomatch h)
  | cons t ts =>
    by_cases hkind : t.kind = .operator
    · cases hop : Operation.ofSymbol? t.text with
      | none => exact .unknown hkind hop
      | some op =>
        by_cases hlt : op.precedence < minimum
        · refine .stop ?_
          rintro _ _ ⟨⟩ _
          exact ⟨op, hop, hlt⟩
        · exact .operator hkind hop (not_lt.1 hlt)
    · refine .stop ?_
      rintro _ _ ⟨⟩ hoperator
      exact absurd hoperator hkind

/-! ## Whole token lists -/

/-- Tokens with a word in front are parsed as a sum, after which the input must end. -/
theorem run_of_closed {tokens : List Token} (hclosed : Closed tokens)
    (hfirst : (State.peek ⟨tokens, 0⟩).kind ≠ .endOfInput) :
    run lim tokens = (do
      let (tree, st) ← expression lim (fuelFor tokens) ⟨0, []⟩ 1 ⟨tokens, 0⟩
      if st.peek.kind = .endOfInput then .ok (tree, st)
      else if st.peek.kind = .rightParen then .error (.malformed (.unmatched st.peek))
      else .error (.malformed (.unexpected .endOfInput st.peek))) := by
  have hlast : ¬ tokens.getLast?.map Token.kind ≠ some .endOfInput := not_not.2 hclosed
  rw [run]
  dsimp only
  rw [if_neg hlast, if_neg hfirst]

theorem parse_eq_bind (tokens : List Token) :
    parse lim tokens = run lim tokens >>= fun r => .ok r.1 := by
  rw [parse]
  cases run lim tokens <;> rfl

end Roundoff.Parser
