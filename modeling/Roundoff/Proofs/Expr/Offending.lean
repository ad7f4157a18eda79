import Roundoff.Proofs.Expr.Place

/-! # The first offending token

The parser goes from place to place as the tokens do, and its open parentheses are those of the
place.  By induction on the bound of the recursion, over its four functions together: what a
function reads leads to where an operand has ended (`Passes`), and when it finds the expression
malformed, the tokens before the one it reports lead to a place where that one cannot stand
(`Offends`).
-/
namespace Roundoff.Parser

open Grammar

variable {lim : Limits} {fuel : ℕ}

/-! ## What a stretch of tokens does -/

/-- The position that an error about a token is reported at, when some parentheses are open. -/
def reportedAt (opened : List ℤ) (t : Token) : ℤ :=
  if t.kind = .endOfInput then opened.headD t.position else t.position

/-- If the parser stops because the tokens are malformed, it reports the first of them that cannot
stand where it does. -/
def Offends (c : Place) (ts : List Token) (x : Stop) : Prop :=
  ∀ y, x = .malformed y → ∃ before t after d, ts = before ++ t :: after ∧ c.run before = some d ∧
    d.Blocks t ∧ y.found = t.describe ∧ y.position = reportedAt d.positions t

/-- An operand has just ended; if it was a name, it is not called. -/
structure Behind (m : Mode) (rest : List Token) : Prop where
  ended : m.Ended
  uncalled : m = .callee → ∀ t us, rest = t :: us → t.kind ≠ .leftParen

/-- The tokens that have been read lead to where an operand has ended, with the same parentheses
open. -/
def Passes (c : Place) (ts rest : List Token) : Prop :=
  ∃ before m, ts = before ++ rest ∧ Closed rest ∧ c.run before = some ⟨m, c.opened⟩ ∧
    Behind m rest

/-- The parser stands at a place. -/
structure At (ctx : Context) (st : State) (c : Place) : Prop where
  closed : Closed st.rest
  opened : ctx.opened = c.positions

theorem Offends.after {c d : Place} {xs ys : List Token} {x : Stop} (h : Offends d ys x)
    (hrun : c.run xs = some d) : Offends c (xs ++ ys) x := by
  intro y hy
  obtain ⟨before, t, after, b, rfl, hbefore, hblocks, hfound, hposition⟩ := h y hy
  refine ⟨xs ++ before, t, after, b, (List.append_assoc _ _ _).symm, ?_, hblocks, hfound, hposition⟩
  rw [Place.run_append_of_run hrun, hbefore]

theorem Passes.after {c : Place} {m : Mode} {xs ys rest : List Token}
    (h : Passes ⟨m, c.opened⟩ ys rest) (hrun : c.run xs = some ⟨m, c.opened⟩) :
    Passes c (xs ++ ys) rest := by
  obtain ⟨before, n, rfl, hrest, hbefore, hbehind⟩ := h
  refine ⟨xs ++ before, n, (List.append_assoc _ _ _).symm, hrest, ?_, hbehind⟩
  rw [Place.run_append_of_run hrun, hbefore]

/-- What follows a stretch of tokens offends or passes as a whole when it does behind them. -/
theorem ends_after {α : Type} {c : Place} {m : Mode} {xs ys : List Token} {Q : α → Prop}
    {rest : α → List Token} {r : Except Stop α} (hrun : c.run xs = some ⟨m, c.opened⟩)
    (h : Ends (Offends ⟨m, c.opened⟩ ys) (fun a => Passes ⟨m, c.opened⟩ ys (rest a) ∧ Q a) r) :
    Ends (Offends c (xs ++ ys)) (fun a => Passes c (xs ++ ys) (rest a) ∧ Q a) r :=
  (h.monoError fun _ hx => hx.after hrun).mono fun _ ha => ⟨ha.1.after hrun, ha.2⟩

theorem ends_after_token {α : Type} {c : Place} {m : Mode} {t : Token} {ts : List Token}
    {Q : α → Prop} {rest : α → List Token} {r : Except Stop α}
    (hstep : c.step t = some ⟨m, c.opened⟩)
    (h : Ends (Offends ⟨m, c.opened⟩ ts) (fun a => Passes ⟨m, c.opened⟩ ts (rest a) ∧ Q a) r) :
    Ends (Offends c (t :: ts)) (fun a => Passes c (t :: ts) (rest a) ∧ Q a) r := by
  have hrun : c.run [t] = some ⟨m, c.opened⟩ := Place.run_cons_of_step hstep
  exact ends_after hrun h

/-- Where no argument list ends, the first argument is read as any operand. -/
theorem Offends.argument {os : List Opening} {ts : List Token} {x : Stop}
    (h : Offends ⟨.operand, os⟩ ts x) (hts : Opens ts) : Offends ⟨.argument, os⟩ ts x := by
  obtain ⟨u, us, rfl, hkind⟩ := hts
  intro y hy
  obtain ⟨before, t, after, d, hsplit, hrun, hblocks, hfound, hposition⟩ := h y hy
  cases before with
  | nil =>
    cases hsplit
    cases hrun
    refine ⟨[], u, us, ⟨.argument, os⟩, rfl, rfl, ⟨?_, ?_⟩, hfound, hposition⟩
    · rw [Place.step_argument hkind]
      exact hblocks.step
    · rintro - ⟨hended | hended, -⟩ <;> cases hended
  | cons b bs =>
    cases hsplit
    refine ⟨u :: bs, t, after, d, rfl, ?_, hblocks, hfound, hposition⟩
    rw [Place.run_argument ⟨u, bs, rfl, hkind⟩]
    exact hrun

theorem Passes.argument {os : List Opening} {ts rest : List Token}
    (h : Passes ⟨.operand, os⟩ ts rest) (hts : Opens ts) : Passes ⟨.argument, os⟩ ts rest := by
  obtain ⟨u, us, rfl, hkind⟩ := hts
  obtain ⟨before, m, hsplit, hrest, hrun, hbehind⟩ := h
  refine ⟨before, m, hsplit, hrest, ?_, hbehind⟩
  cases before with
  | nil =>
    -- An operand is still wanted where nothing has been read.
    cases hrun
    rcases hbehind.ended with hended | hended <;> cases hended
  | cons b bs =>
    cases hsplit
    rw [Place.run_argument ⟨u, bs, rfl, hkind⟩]
    exact hrun

/-! ## Single steps -/

theorem opens_of_closed {ts : List Token} {nodes : ℕ} (h : Closed ts)
    (hnext : (State.peek ⟨ts, nodes⟩).kind ≠ .rightParen) : Opens ts := by
  cases ts with
  | nil => exact absurd h not_closed_nil
  | cons t ts => exact ⟨t, ts, rfl, hnext⟩

theorem offends_of_ne {c : Place} {ts : List Token} {x : Stop} (h : ∀ y, x ≠ .malformed y) :
    Offends c ts x :=
  fun y hy => absurd hy (h y)

theorem fail_offends {ctx : Context} {st : State} {c : Place} (h : At ctx st c)
    (hblocks : c.Blocks st.peek) (expected : Expected) :
    Offends c st.rest (ctx.fail expected st) := by
  obtain ⟨rest, nodes⟩ := st
  obtain ⟨depth, opened⟩ := ctx
  obtain ⟨hclosed, rfl⟩ := h
  cases rest with
  | nil => exact absurd hclosed not_closed_nil
  | cons t ts =>
    intro y hy
    refine ⟨[], t, ts, c, rfl, rfl, hblocks, ?_⟩
    have hpeek : (State.peek ⟨t :: ts, nodes⟩) = t := rfl
    rw [Context.fail, hpeek] at hy
    rw [reportedAt]
    by_cases hkind : t.kind = .endOfInput
    · have hdescribe : t.describe = TokenKind.endOfInput.name := by
        rw [Token.describe, hkind]
      rw [if_pos hkind] at hy ⊢
      dsimp only at hy
      cases hpositions : c.positions with
      | nil =>
        rw [hpositions] at hy
        cases hy
        exact ⟨rfl, rfl⟩
      | cons p ps =>
        rw [hpositions] at hy
        cases hy
        exact ⟨hdescribe.symm, rfl⟩
    · rw [if_neg hkind] at hy ⊢
      cases hy
      exact ⟨rfl, rfl⟩

theorem node_offends (c : Place) (ts : List Token) (e : Expr) (st : State) :
    Ends (Offends c ts) (fun r => r.2.rest = st.rest) (st.node lim e) := by
  rw [State.node]
  split
  · exact .stop (offends_of_ne nofun)
  · exact .ok rfl

/-- A node is made where an operand has ended. -/
theorem node_passes {c : Place} {ts : List Token} {st : State} (h : Passes c ts st.rest)
    (e : Expr) :
    Ends (Offends c ts) (fun r => Passes c ts r.2.rest ∧ True) (st.node lim e) := by
  refine (node_offends c ts e st).mono ?_
  rintro ⟨tree, st₂⟩ hst₂
  dsimp only at hst₂ ⊢
  rw [hst₂]
  exact ⟨h, trivial⟩

theorem passes_token {c : Place} {m : Mode} {t : Token} {ts : List Token}
    (hstep : c.step t = some ⟨m, c.opened⟩) (hts : Closed ts) (hbehind : Behind m ts) :
    Passes c (t :: ts) ts :=
  ⟨[t], m, rfl, hts, Place.run_cons_of_step hstep, hbehind⟩

theorem enter_offends (c : Place) (ts : List Token) (ctx : Context) (st : State) :
    Ends (Offends c ts) (fun inner => inner.opened = ctx.opened) (ctx.enter lim st) := by
  rw [Context.enter]
  split
  · exact .stop (offends_of_ne nofun)
  · exact .ok rfl

theorem step_of_startsNothing {os : List Opening} {t : Token} (h : StartsNothing t) :
    Place.step ⟨.operand, os⟩ t = none := by
  show Place.startOperand ⟨.operand, os⟩ t = none
  unfold Place.startOperand
  split
  · exact absurd ‹_› h.number
  · exact absurd ‹_› h.identifier
  · exact absurd ‹_› h.leftParen
  · rw [h.sign ‹_›]
    rfl
  · rfl

/-- Every operator has a precedence of at least one. -/
theorem StopsBelow.kind_ne {rest : List Token} (h : StopsBelow 1 rest) {t : Token}
    {ts : List Token} (hrest : rest = t :: ts) : t.kind ≠ .operator := by
  intro hkind
  obtain ⟨op, -, hlt⟩ := h t ts hrest hkind
  cases op <;> exact absurd hlt (by decide)

/-- Behind an expression in parentheses there is their end, or what cannot stand there. -/
theorem close_offends {ctx : Context} {st : State} {m : Mode} {o : Opening} {os : List Opening}
    (h : At ctx st ⟨m, o :: os⟩) (hbehind : Behind m st.rest) (hstops : StopsBelow 1 st.rest)
    (hcomma : o.call = true → st.peek.kind ≠ .comma) :
    Ends (Offends ⟨m, o :: os⟩ st.rest)
      (fun st' => ∃ t, st.rest = t :: st'.rest ∧ t.kind = .rightParen) (ctx.close st) := by
  by_cases hkind : st.peek.kind = .rightParen
  · obtain ⟨t, ts, hst, ht, hadvance⟩ := exists_cons_of_peek hkind (by decide)
    rw [Context.close, if_pos hkind, hadvance]
    exact .ok ⟨t, by rw [hst], ht⟩
  · rw [Context.close, if_neg hkind]
    refine .stop (fail_offends h ?_ .closing)
    obtain ⟨rest, nodes⟩ := st
    cases rest with
    | nil => exact absurd h.closed not_closed_nil
    | cons t ts =>
      refine blocks_of_ended hbehind.ended (hstops.kind_ne rfl)
        (fun hm => hbehind.uncalled hm t ts rfl) ?_ (fun hclosing => absurd hclosing hkind)
        fun _ => List.cons_ne_nil _ _
      rintro p rest ⟨⟩
      exact hcomma rfl

/-- What stands in parentheses and passes there passes with them. -/
theorem close_after {ctx : Context} {st : State} {c d : Place} {o : Opening} {xs ys : List Token}
    (hrun : c.run xs = some d) (hopened : d.opened = o :: c.opened)
    (hctx : ctx.opened = o.position :: c.positions) (hpasses : Passes d ys st.rest)
    (hstops : StopsBelow 1 st.rest) (hcomma : o.call = true → st.peek.kind ≠ .comma) :
    Ends (Offends c (xs ++ ys)) (fun st' => Passes c (xs ++ ys) st'.rest) (ctx.close st) := by
  obtain ⟨before, m, rfl, hclosed, hbefore, hbehind⟩ := hpasses
  rw [hopened] at hbefore
  have hall : c.run (xs ++ before) = some ⟨m, o :: c.opened⟩ :=
    (Place.run_append_of_run hrun).trans hbefore
  have hat : At ctx st ⟨m, o :: c.opened⟩ := ⟨hclosed, hctx⟩
  rw [← List.append_assoc]
  refine ((close_offends hat hbehind hstops hcomma).monoError fun _ hx => hx.after hall).mono ?_
  rintro st' ⟨t, hst, hkind⟩
  rw [hst] at hclosed ⊢
  refine ⟨xs ++ before ++ [t], .operator, by simp, hclosed.tail (hkind.trans_ne (by decide)), ?_,
    ⟨Or.inl rfl, nofun⟩⟩
  rw [Place.run_append_of_run hall]
  exact Place.run_cons_of_step (Place.step_closing hbehind.ended hkind)

/-! ## The four functions -/

def ExpressionOffends (lim : Limits) (fuel : ℕ) : Prop :=
  ∀ ctx minimum st os, At ctx st ⟨.operand, os⟩ → Ends (Offends ⟨.operand, os⟩ st.rest)
    (fun r => Passes ⟨.operand, os⟩ st.rest r.2.rest ∧ StopsBelow minimum r.2.rest)
    (expression lim fuel ctx minimum st)

def ClimbOffends (lim : Limits) (fuel : ℕ) : Prop :=
  ∀ ctx minimum left st m os, At ctx st ⟨m, os⟩ → Behind m st.rest →
    Ends (Offends ⟨m, os⟩ st.rest)
      (fun r => Passes ⟨m, os⟩ st.rest r.2.rest ∧ StopsBelow minimum r.2.rest)
      (climb lim fuel ctx minimum left st)

def OperandOffends (lim : Limits) (fuel : ℕ) : Prop :=
  ∀ ctx st os, At ctx st ⟨.operand, os⟩ → Ends (Offends ⟨.operand, os⟩ st.rest)
    (fun r => Passes ⟨.operand, os⟩ st.rest r.2.rest ∧ True) (operand lim fuel ctx st)

def ArgumentsOffend (lim : Limits) (fuel : ℕ) : Prop :=
  ∀ ctx st p os, At ctx st ⟨.operand, ⟨true, p⟩ :: os⟩ →
    Ends (Offends ⟨.operand, ⟨true, p⟩ :: os⟩ st.rest)
      (fun r => Passes ⟨.operand, ⟨true, p⟩ :: os⟩ st.rest r.2.rest ∧
        (StopsBelow 1 r.2.rest ∧ r.2.peek.kind ≠ .comma))
      (arguments lim fuel ctx st)

theorem expression_offends (hoperand : OperandOffends lim fuel) (hclimb : ClimbOffends lim fuel) :
    ExpressionOffends lim (fuel + 1) := by
  intro ctx minimum st os h
  rw [expression]
  refine (enter_offends _ _ ctx st).bind fun inner hinner => ?_
  refine (hoperand inner st os ⟨h.closed, hinner.trans h.opened⟩).bind ?_
  rintro ⟨left, st₂⟩ ⟨⟨before, m, hsplit, hclosed, hrun, hbehind⟩, -⟩
  rw [hsplit]
  exact ends_after hrun
    (hclimb inner minimum left st₂ m os ⟨hclosed, hinner.trans h.opened⟩ hbehind)

theorem climb_offends (hexpression : ExpressionOffends lim fuel)
    (hclimb : ClimbOffends lim fuel) : ClimbOffends lim (fuel + 1) := by
  intro ctx minimum left st m os h hbehind
  cases climbShape minimum st with
  | stop hbelow =>
    rw [climb_stop hbelow]
    exact .ok ⟨⟨[], m, rfl, h.closed, rfl, hbehind⟩, hbelow⟩
  | unknown hkind hop =>
    rw [climb_unknown hkind hop]
    exact .stop (offends_of_ne nofun)
  | @operator t ts nodes op hkind hop hle =>
    rw [climb_operator hkind hop hle]
    have hstep : Place.step ⟨m, os⟩ t = some ⟨.operand, os⟩ :=
      Place.step_operator hbehind.ended hkind
    have hts : At ctx ⟨ts, nodes⟩ ⟨.operand, os⟩ :=
      ⟨h.closed.tail (hkind.trans_ne (by decide)), h.opened⟩
    refine ends_after_token hstep ?_
    refine (hexpression ctx op.rightMinimum ⟨ts, nodes⟩ os hts).bind ?_
    rintro ⟨right, st₂⟩ ⟨⟨before, n, hsplit, hclosed, hrun, hbehind₂⟩, -⟩
    dsimp only at hsplit
    rw [hsplit]
    refine ends_after hrun ?_
    refine (node_offends _ _ _ st₂).bind ?_
    rintro ⟨tree, st₃⟩ hst₃
    dsimp only at hst₃ hclosed hbehind₂ ⊢
    rw [← hst₃] at hclosed hbehind₂ ⊢
    exact hclimb ctx minimum tree st₃ n os ⟨hclosed, h.opened⟩ hbehind₂

theorem operand_offends (hexpression : ExpressionOffends lim fuel)
    (harguments : ArgumentsOffend lim fuel) : OperandOffends lim (fuel + 1) := by
  intro ctx st os h
  cases operandShape st with
  | @sign t ts nodes hkind hsign =>
    rw [operand_sign hkind hsign]
    have hstep : Place.step ⟨.operand, os⟩ t = some ⟨.operand, os⟩ :=
      Place.step_sign hkind hsign
    have hts : At ctx ⟨ts, nodes⟩ ⟨.operand, os⟩ :=
      ⟨h.closed.tail (hkind.trans_ne (by decide)), h.opened⟩
    refine ends_after_token hstep ?_
    refine (hexpression ctx signMinimum ⟨ts, nodes⟩ os hts).bind ?_
    rintro ⟨e, st₂⟩ ⟨hpasses, -⟩
    exact node_passes hpasses _
  | @number t ts nodes hkind =>
    rw [operand_number hkind]
    have hts : Closed ts := h.closed.tail (hkind.trans_ne (by decide))
    have hpasses : Passes ⟨.operand, os⟩ (t :: ts) ts :=
      passes_token (Place.step_number hkind) hts ⟨Or.inl rfl, nofun⟩
    exact node_passes hpasses _
  | @name t ts nodes hkind hnext =>
    rw [operand_name hkind hnext]
    have hts : Closed ts := h.closed.tail (hkind.trans_ne (by decide))
    have huncalled : ∀ u us, ts = u :: us → u.kind ≠ .leftParen := by
      rintro u us rfl
      exact hnext
    have hpasses : Passes ⟨.operand, os⟩ (t :: ts) ts :=
      passes_token (Place.step_name hkind) hts ⟨Or.inr rfl, fun _ => huncalled⟩
    exact node_passes hpasses _
  | @emptyCall t opening closing ts nodes hkind hopening hclosing =>
    rw [operand_emptyCall hkind hopening hclosing]
    have hts : Closed ts := ((h.closed.tail (hkind.trans_ne (by decide))).tail
      (hopening.trans_ne (by decide))).tail (hclosing.trans_ne (by decide))
    have hrun : Place.run ⟨.operand, os⟩ [t, opening, closing] = some ⟨.operator, os⟩ := by
      rw [Place.run_cons_of_step (Place.step_name hkind),
        Place.run_cons_of_step (Place.step_call hopening),
        Place.run_cons_of_step (Place.step_emptyCall hclosing), Place.run_nil]
    have hpasses : Passes ⟨.operand, os⟩ (t :: opening :: closing :: ts) ts :=
      ⟨[t, opening, closing], .operator, rfl, hts, hrun, ⟨Or.inl rfl, nofun⟩⟩
    exact node_passes hpasses _
  | @call t opening ts nodes hkind hopening hnext =>
    rw [operand_call hkind hopening hnext]
    have hstep : Place.run ⟨.operand, os⟩ [t, opening] =
        some ⟨.argument, ⟨true, opening.position⟩ :: os⟩ := by
      rw [Place.run_cons_of_step (Place.step_name hkind),
        Place.run_cons_of_step (Place.step_call hopening), Place.run_nil]
    have hctx : (ctx.opening opening.position).opened = opening.position :: os.map (·.position) :=
      congrArg (opening.position :: ·) h.opened
    have hts : At (ctx.opening opening.position) ⟨ts, nodes⟩
        ⟨.operand, ⟨true, opening.position⟩ :: os⟩ :=
      ⟨(h.closed.tail (hkind.trans_ne (by decide))).tail (hopening.trans_ne (by decide)), hctx⟩
    have hopens : Opens ts := opens_of_closed hts.closed hnext
    refine Ends.bind ((harguments _ ⟨ts, nodes⟩ opening.position os hts).monoError
      fun _ hx => (hx.argument hopens).after hstep) ?_
    rintro ⟨args, st₂⟩ ⟨hpasses, hstops, hcomma⟩
    refine (close_after hstep rfl hctx (hpasses.argument hopens) hstops fun _ => hcomma).bind ?_
    exact fun st₃ hst₃ => node_passes hst₃ _
  | @parens t ts nodes hkind =>
    rw [operand_parens hkind]
    have hstep : Place.run ⟨.operand, os⟩ [t] = some ⟨.operand, ⟨false, t.position⟩ :: os⟩ :=
      Place.run_cons_of_step (Place.step_opening hkind)
    have hctx : (ctx.opening t.position).opened = t.position :: os.map (·.position) :=
      congrArg (t.position :: ·) h.opened
    have hts : At (ctx.opening t.position) ⟨ts, nodes⟩ ⟨.operand, ⟨false, t.position⟩ :: os⟩ :=
      ⟨h.closed.tail (hkind.trans_ne (by decide)), hctx⟩
    refine Ends.bind ((hexpression _ 1 ⟨ts, nodes⟩ _ hts).monoError fun _ hx => hx.after hstep) ?_
    rintro ⟨e, st₂⟩ ⟨hpasses, hstops⟩
    refine (close_after hstep rfl hctx hpasses hstops nofun).bind ?_
    intro st₃ hst₃
    exact .ok ⟨hst₃, trivial⟩
  | none hnothing hfail =>
    rw [hfail]
    refine .stop (fail_offends h ⟨?_, ?_⟩ .expression)
    · exact step_of_startsNothing hnothing
    · rintro - ⟨hended | hended, -⟩ <;> cases hended

theorem arguments_offend (hexpression : ExpressionOffends lim fuel)
    (harguments : ArgumentsOffend lim fuel) : ArgumentsOffend lim (fuel + 1) := by
  intro ctx st p os h
  rw [arguments]
  refine (hexpression ctx 1 st _ h).bind ?_
  rintro ⟨e, st₂⟩ ⟨hpasses, hstops⟩
  dsimp only at hpasses hstops ⊢
  by_cases hcomma : st₂.peek.kind = .comma
  · rw [if_pos hcomma]
    obtain ⟨t, ts, hst₂, hkind, hadvance⟩ := exists_cons_of_peek hcomma (by decide)
    obtain ⟨before, m, hsplit, hclosed, hrun, hbehind⟩ := hpasses
    rw [hst₂] at hsplit hclosed
    have hstep : Place.run ⟨.operand, ⟨true, p⟩ :: os⟩ (before ++ [t]) =
        some ⟨.operand, ⟨true, p⟩ :: os⟩ := by
      rw [Place.run_append_of_run hrun,
        Place.run_cons_of_step (Place.step_comma hbehind.ended hkind), Place.run_nil]
    have hts : At ctx ⟨ts, st₂.nodes⟩ ⟨.operand, ⟨true, p⟩ :: os⟩ :=
      ⟨hclosed.tail (hkind.trans_ne (by decide)), h.opened⟩
    have hall : st.rest = before ++ [t] ++ ts := by rw [hsplit, List.append_assoc]; rfl
    rw [hadvance, hall]
    refine ends_after hstep ?_
    refine (harguments ctx ⟨ts, st₂.nodes⟩ p os hts).bind ?_
    rintro ⟨es, st₃⟩ hst₃
    exact .ok hst₃
  · rw [if_neg hcomma]
    exact .ok ⟨hpasses, hstops, hcomma⟩

/-- **The parser reports the first token that cannot stand where it does.** -/
theorem offends (lim : Limits) (fuel : ℕ) : ExpressionOffends lim fuel ∧ ClimbOffends lim fuel ∧
    OperandOffends lim fuel ∧ ArgumentsOffend lim fuel := by
  induction fuel with
  | zero =>
    exact ⟨fun _ _ _ _ _ => .stop (offends_of_ne nofun),
      fun _ _ _ _ _ _ _ _ => .stop (offends_of_ne nofun),
      fun _ _ _ _ => .stop (offends_of_ne nofun), fun _ _ _ _ _ => .stop (offends_of_ne nofun)⟩
  | succ fuel ih =>
    obtain ⟨hexpression, hclimb, hoperand, harguments⟩ := ih
    exact ⟨expression_offends hoperand hclimb, climb_offends hexpression hclimb,
      operand_offends hexpression harguments, arguments_offend hexpression harguments⟩

/-! ## Whole token lists -/

/-- Behind a whole expression there is the end of the input, or what cannot stand there. -/
theorem blocks_of_trailing {m : Mode} {t : Token} {ts : List Token} (hbehind : Behind m (t :: ts))
    (hstops : StopsBelow 1 (t :: ts)) (hkind : t.kind ≠ .endOfInput) :
    Place.Blocks ⟨m, []⟩ t :=
  blocks_of_ended hbehind.ended (hstops.kind_ne rfl) (fun hm => hbehind.uncalled hm t ts rfl)
    (fun _ _ h => (nomatch h)) (fun _ => rfl) fun hend => absurd hend hkind

theorem run_offends {tokens : List Token} (hclosed : Closed tokens)
    (hfirst : (State.peek ⟨tokens, 0⟩).kind ≠ .endOfInput) :
    Ends (Offends .start tokens) (fun _ => True) (run lim tokens) := by
  rw [run_of_closed hclosed hfirst]
  have hat : At ⟨0, []⟩ ⟨tokens, 0⟩ .start := ⟨hclosed, rfl⟩
  refine ((offends lim (fuelFor tokens)).1 ⟨0, []⟩ 1 ⟨tokens, 0⟩ [] hat).bind ?_
  rintro ⟨tree, ⟨rest, nodes⟩⟩ ⟨⟨before, m, rfl, hrest, hrun, hbehind⟩, hstops⟩
  cases rest with
  | nil => exact absurd hrest not_closed_nil
  | cons t ts =>
    dsimp only at hbehind hstops ⊢
    have hpeek : State.peek ⟨t :: ts, nodes⟩ = t := rfl
    rw [hpeek]
    by_cases hkind : t.kind = .endOfInput
    · rw [if_pos hkind]
      exact .ok trivial
    · have hblocks := blocks_of_trailing hbehind hstops hkind
      have hreported : t.position = reportedAt (Place.positions ⟨m, []⟩) t := (if_neg hkind).symm
      rw [if_neg hkind]
      split
      · refine .stop ?_
        rintro _ ⟨⟩
        exact ⟨before, t, ts, ⟨m, []⟩, rfl, hrun, hblocks, rfl, hreported⟩
      · refine .stop ?_
        rintro _ ⟨⟩
        exact ⟨before, t, ts, ⟨m, []⟩, rfl, hrun, hblocks, rfl, hreported⟩

/-- What a malformed token list is reported for: its first token that cannot stand where it does. -/
theorem parse_offends {tokens : List Token} (hclosed : Closed tokens) {x : ParseError}
    (h : parse lim tokens = .error (.malformed x)) :
    ∃ before t after d, tokens = before ++ t :: after ∧ Place.start.run before = some d ∧
      d.Blocks t ∧ x.found = t.describe ∧ x.position =
        if t.kind = .endOfInput ∧ before = [] then 0 else reportedAt (unclosed before) t := by
  by_cases hfirst : (State.peek ⟨tokens, 0⟩).kind = .endOfInput
  · cases tokens with
    | nil => exact absurd hclosed not_closed_nil
    | cons t ts =>
      have hkind : t.kind = .endOfInput := hfirst
      have hrun : run lim (t :: ts) = .error (.malformed .empty) := by
        have hlast : ¬ (t :: ts).getLast?.map Token.kind ≠ some .endOfInput := not_not.2 hclosed
        rw [run]
        dsimp only
        rw [if_neg hlast, if_pos hfirst]
      rw [parse_eq_bind, hrun] at h
      cases h
      refine ⟨[], t, ts, .start, rfl, rfl, ⟨Place.step_finish _ hkind, ?_⟩, ?_, ?_⟩
      · rintro - ⟨hended | hended, -⟩ <;> cases hended
      · rw [Token.describe, hkind]
        rfl
      · rw [if_pos ⟨hkind, rfl⟩]
        rfl
  · have hends : Ends (Offends .start tokens) (fun _ => True) (run lim tokens) :=
      run_offends hclosed hfirst
    rw [parse_eq_bind] at h
    rcases bind_eq_error.1 h with hrun | ⟨r, -, h⟩
    · rw [hrun] at hends
      cases hends with
      | stop hoffends =>
        obtain ⟨before, t, after, d, rfl, hbefore, hblocks, hfound, hposition⟩ := hoffends x rfl
        refine ⟨before, t, after, d, rfl, hbefore, hblocks, hfound, ?_⟩
        have hword : ¬ (t.kind = .endOfInput ∧ before = []) := by
          rintro ⟨hkind, rfl⟩
          exact hfirst hkind
        rw [if_neg hword, Place.unclosed_of_run hbefore]
        exact hposition
    · cases h

end Roundoff.Parser
