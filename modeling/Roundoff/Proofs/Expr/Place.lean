import Roundoff.Proofs.Expr.Grammar
import Roundoff.Proofs.Expr.Steps

/-! # Places in an expression

What can come next behind some tokens depends on little of them: whether an operand is wanted or has
just ended, and which parentheses are open, those of a call being the ones that commas can stand in
(`Place`).  A token leads from one place to the next or cannot stand where it does (`Place.step`).
Every phrase leads from where an operand is wanted to where one has ended, and leaves the same
parentheses open (`Derives.crosses`), so tokens that lead nowhere are the start of no phrase.
-/
namespace Roundoff.Grammar

/-! ## Places -/

/-- What has just been read. -/
inductive Mode where
  /-- An operand is wanted. -/
  | operand
  /-- A call has been opened: its first argument is wanted, or its end. -/
  | argument
  /-- An operand has ended. -/
  | operator
  /-- A name has ended, which may be called. -/
  | callee
  deriving DecidableEq

/-- An operand has ended. -/
def Mode.Ended (m : Mode) : Prop :=
  m = operator ∨ m = callee

/-- A parenthesis that is open: whether it is that of a call, and where it stands. -/
structure Opening where
  call : Bool
  position : ℤ

/-- A place in an expression, with the parentheses that are open, innermost first. -/
structure Place where
  mode : Mode
  opened : List Opening

namespace Place

/-- Before the first token. -/
def start : Place := ⟨.operand, []⟩

/-- An expression may end here. -/
def Complete (c : Place) : Prop :=
  c.mode.Ended ∧ c.opened = []

/-- Close the innermost parenthesis. -/
def close (c : Place) : Option Place :=
  match c.opened with
  | [] => none
  | _ :: os => some ⟨.operator, os⟩

/-- Start an operand. -/
def startOperand (c : Place) (t : Token) : Option Place :=
  match t.kind with
  | .number => some ⟨.operator, c.opened⟩
  | .identifier => some ⟨.callee, c.opened⟩
  | .leftParen => some ⟨.operand, ⟨false, t.position⟩ :: c.opened⟩
  | .operator => if Parser.isSign t.text then some ⟨.operand, c.opened⟩ else none
  | _ => none

/-- Go on behind an operand. -/
def goOn (c : Place) (t : Token) : Option Place :=
  match t.kind with
  | .operator => some ⟨.operand, c.opened⟩
  | .rightParen => c.close
  | .comma =>
    match c.opened with
    | ⟨true, _⟩ :: _ => some ⟨.operand, c.opened⟩
    | _ => none
  | _ => none

/-- The place behind a token, if it can stand here. -/
def step (c : Place) (t : Token) : Option Place :=
  match c.mode with
  | .operand => c.startOperand t
  | .argument => if t.kind = .rightParen then c.close else c.startOperand t
  | .operator => c.goOn t
  | .callee =>
    if t.kind = .leftParen then some ⟨.argument, ⟨true, t.position⟩ :: c.opened⟩
    else c.goOn t

/-- The place behind some tokens, if each can stand where it does. -/
def run (c : Place) (ts : List Token) : Option Place :=
  ts.foldlM step c

/-! ## Steps -/

variable {c d : Place} {m : Mode} {os : List Opening} {t : Token} {xs ys : List Token}

theorem run_nil (c : Place) : c.run [] = some c := rfl

theorem run_cons (c : Place) (t : Token) (ts : List Token) :
    c.run (t :: ts) = (c.step t).bind fun d => d.run ts := rfl

theorem run_cons_of_step (h : c.step t = some d) : c.run (t :: xs) = d.run xs := by
  rw [run_cons, h, Option.bind_some]

theorem run_append (c : Place) (xs ys : List Token) :
    c.run (xs ++ ys) = (c.run xs).bind fun d => d.run ys :=
  List.foldlM_append

theorem run_append_of_run (h : c.run xs = some d) : c.run (xs ++ ys) = d.run ys := by
  rw [run_append, h, Option.bind_some]

/-- The start of tokens that lead somewhere leads somewhere. -/
theorem exists_run_of_append (h : c.run (xs ++ ys) = some d) :
    ∃ b, c.run xs = some b ∧ b.run ys = some d := by
  rw [run_append] at h
  exact Option.bind_eq_some_iff.1 h

theorem step_operator (hm : m.Ended) (hkind : t.kind = .operator) :
    step ⟨m, os⟩ t = some ⟨.operand, os⟩ := by
  rcases hm with rfl | rfl <;> simp [step, goOn, hkind]

theorem step_closing {o : Opening} (hm : m.Ended) (hkind : t.kind = .rightParen) :
    step ⟨m, o :: os⟩ t = some ⟨.operator, os⟩ := by
  rcases hm with rfl | rfl <;> simp [step, goOn, close, hkind]

theorem step_comma {p : ℤ} (hm : m.Ended) (hkind : t.kind = .comma) :
    step ⟨m, ⟨true, p⟩ :: os⟩ t = some ⟨.operand, ⟨true, p⟩ :: os⟩ := by
  rcases hm with rfl | rfl <;> simp [step, goOn, hkind]

theorem step_sign (hkind : t.kind = .operator) (hsign : Parser.isSign t.text = true) :
    step ⟨.operand, os⟩ t = some ⟨.operand, os⟩ := by
  simp [step, startOperand, hkind, hsign]

theorem step_number (hkind : t.kind = .number) :
    step ⟨.operand, os⟩ t = some ⟨.operator, os⟩ := by
  simp [step, startOperand, hkind]

theorem step_name (hkind : t.kind = .identifier) :
    step ⟨.operand, os⟩ t = some ⟨.callee, os⟩ := by
  simp [step, startOperand, hkind]

theorem step_opening (hkind : t.kind = .leftParen) :
    step ⟨.operand, os⟩ t = some ⟨.operand, ⟨false, t.position⟩ :: os⟩ := by
  simp [step, startOperand, hkind]

theorem step_call (hkind : t.kind = .leftParen) :
    step ⟨.callee, os⟩ t = some ⟨.argument, ⟨true, t.position⟩ :: os⟩ :=
  if_pos hkind

theorem step_emptyCall {o : Opening} (hkind : t.kind = .rightParen) :
    step ⟨.argument, o :: os⟩ t = some ⟨.operator, os⟩ :=
  if_pos hkind

/-- The first argument of a call starts as any operand. -/
theorem step_argument (hkind : t.kind ≠ .rightParen) :
    step ⟨.argument, os⟩ t = step ⟨.operand, os⟩ t :=
  if_neg hkind

theorem run_argument (h : Opens xs) : run ⟨.argument, os⟩ xs = run ⟨.operand, os⟩ xs := by
  obtain ⟨t, ts, rfl, hkind⟩ := h
  rw [run_cons, run_cons, step_argument hkind]

/-- Nothing leads past the end of the input. -/
theorem step_finish (c : Place) (hkind : t.kind = .endOfInput) : c.step t = none := by
  obtain ⟨m, os⟩ := c
  cases m <;> simp [step, startOperand, goOn, hkind]

theorem kind_ne_of_run (h : c.run xs = some d) : ∀ t ∈ xs, t.kind ≠ .endOfInput := by
  intro t ht hkind
  obtain ⟨us, vs, rfl⟩ := List.append_of_mem ht
  obtain ⟨b, -, hrun⟩ := exists_run_of_append h
  rw [run_cons, step_finish b hkind] at hrun
  cases hrun

end Place

/-! ## The parentheses that are open -/

/-- The open parentheses behind one more token. -/
def openedBy (ps : List ℤ) (t : Token) : List ℤ :=
  match t.kind with
  | .leftParen => t.position :: ps
  | .rightParen => ps.tail
  | _ => ps

/-- **The positions of the parentheses that some tokens leave open**, innermost first. -/
def unclosed (ts : List Token) : List ℤ :=
  ts.foldl openedBy []

namespace Place

variable {c d : Place} {m : Mode} {os : List Opening} {t : Token} {xs ys : List Token}

/-- The positions of the parentheses that are open at a place. -/
def positions (c : Place) : List ℤ :=
  c.opened.map Opening.position

theorem positions_of_close (h : c.close = some d) : d.positions = c.positions.tail := by
  obtain ⟨m, os⟩ := c
  cases os with
  | nil => cases h
  | cons o os =>
    cases h
    rfl

theorem positions_of_startOperand (h : c.startOperand t = some d) :
    d.positions = openedBy c.positions t := by
  unfold startOperand at h
  unfold openedBy
  cases hkind : t.kind <;> rw [hkind] at h
  case operator =>
    dsimp only at h
    split at h <;> cases h
    rfl
  all_goals
    cases h
    try rfl

theorem positions_of_goOn (h : c.goOn t = some d) : d.positions = openedBy c.positions t := by
  unfold goOn at h
  unfold openedBy
  cases hkind : t.kind <;> rw [hkind] at h
  case rightParen => exact positions_of_close h
  case comma =>
    dsimp only at h
    split at h <;> cases h
    rfl
  all_goals
    cases h
    try rfl

/-- Each token opens and closes the parentheses that it would in any text. -/
theorem positions_of_step (h : c.step t = some d) : d.positions = openedBy c.positions t := by
  obtain ⟨m, os⟩ := c
  cases m with
  | operand => exact positions_of_startOperand h
  | operator => exact positions_of_goOn h
  | argument =>
    by_cases hkind : t.kind = .rightParen
    · rw [openedBy, hkind]
      exact positions_of_close ((if_pos hkind).symm.trans h)
    · exact positions_of_startOperand ((if_neg hkind).symm.trans h)
  | callee =>
    by_cases hkind : t.kind = .leftParen
    · rw [step_call hkind] at h
      cases h
      rw [openedBy, hkind]
      rfl
    · exact positions_of_goOn ((if_neg hkind).symm.trans h)

theorem positions_of_run (h : c.run xs = some d) : d.positions = xs.foldl openedBy c.positions := by
  induction xs generalizing c with
  | nil =>
    cases h
    rfl
  | cons t ts ih =>
    rw [run_cons] at h
    obtain ⟨b, hstep, hrun⟩ := Option.bind_eq_some_iff.1 h
    rw [ih hrun, positions_of_step hstep, List.foldl_cons]

theorem unclosed_of_run (h : start.run xs = some d) : unclosed xs = d.positions :=
  (positions_of_run h).symm

end Place

/-! ## Phrases -/

open Place

/-- The tokens lead from wherever an operand is wanted to where one has ended. -/
def Crosses (ts : List Token) : Prop :=
  ∀ os, ∃ m, m.Ended ∧ run ⟨.operand, os⟩ ts = some ⟨m, os⟩

theorem crosses_binary {xs ys : List Token} {t : Token} (hxs : Crosses xs)
    (hkind : t.kind = .operator) (hys : Crosses ys) : Crosses (xs ++ t :: ys) := by
  intro os
  obtain ⟨m, hm, hrun⟩ := hxs os
  obtain ⟨n, hn, hrest⟩ := hys os
  refine ⟨n, hn, ?_⟩
  rw [run_append_of_run hrun, run_cons_of_step (step_operator hm hkind), hrest]

/-- Arguments lead to where the last of them has ended. -/
theorem run_separated {ts : List Token} {parts : List (List Token)} (h : Separated ts parts)
    (hparts : ∀ part ∈ parts, Crosses part) (p : ℤ) (os : List Opening) :
    ∃ m, m.Ended ∧ run ⟨.operand, ⟨true, p⟩ :: os⟩ ts = some ⟨m, ⟨true, p⟩ :: os⟩ := by
  induction h with
  | one => exact hparts _ (List.mem_singleton_self _) _
  | more hcomma _ ih =>
    obtain ⟨hfirst, hrest⟩ := List.forall_mem_cons.1 hparts
    obtain ⟨m, hm, hrun⟩ := hfirst (⟨true, p⟩ :: os)
    obtain ⟨n, hn, hmore⟩ := ih hrest
    refine ⟨n, hn, ?_⟩
    rw [run_append_of_run hrun, run_cons_of_step (step_comma hm hcomma), hmore]

/-- **Every phrase leads across**, and leaves the parentheses around it open. -/
theorem Derives.crosses {L : Level} {ts : List Token} {e : Expr} (h : Derives L ts e) :
    Crosses ts := by
  induction h with
  | ofProduct _ ih | ofSigned _ ih | ofPower _ ih | ofAtom _ ih => exact ih
  | sum _ hkind _ _ ihl ihr | product _ hkind _ _ ihl ihr | power _ hkind _ _ ihl ihr =>
    exact crosses_binary ihl hkind ihr
  | sign hkind hsign _ ih =>
    intro os
    obtain ⟨m, hm, hrun⟩ := ih os
    refine ⟨m, hm, ?_⟩
    rw [run_cons_of_step (step_sign hkind (by simpa [Parser.isSign] using hsign)), hrun]
  | number hkind => exact fun os => ⟨.operator, Or.inl rfl, run_cons_of_step (step_number hkind)⟩
  | name hkind => exact fun os => ⟨.callee, Or.inr rfl, run_cons_of_step (step_name hkind)⟩
  | emptyCall hname hopening hclosing =>
    refine fun os => ⟨.operator, Or.inl rfl, ?_⟩
    rw [run_cons_of_step (step_name hname), run_cons_of_step (step_call hopening),
      run_cons_of_step (step_emptyCall hclosing), run_nil]
  | @call name opening closing ts parts hname hopening hparts hderives hclosing ih =>
    intro os
    have hcross : ∀ part ∈ parts.map Prod.fst, Crosses part := by
      intro part hpart
      obtain ⟨q, hq, rfl⟩ := List.mem_map.1 hpart
      exact ih q hq
    have hopens : Opens ts := by
      refine hparts.opens fun part hpart => ?_
      obtain ⟨q, hq, rfl⟩ := List.mem_map.1 hpart
      exact (hderives q hq).opens
    obtain ⟨m, hm, hrun⟩ := run_separated hparts hcross opening.position os
    refine ⟨.operator, Or.inl rfl, ?_⟩
    rw [List.cons_append, List.cons_append, run_cons_of_step (step_name hname),
      run_cons_of_step (step_call hopening), run_append, run_argument hopens, hrun,
      Option.bind_some, run_cons_of_step (step_closing hm hclosing), run_nil]
  | parens hopening _ hclosing ih =>
    intro os
    obtain ⟨m, hm, hrun⟩ := ih _
    refine ⟨.operator, Or.inl rfl, ?_⟩
    rw [List.cons_append, run_cons_of_step (step_opening hopening), run_append_of_run hrun,
      run_cons_of_step (step_closing hm hclosing), run_nil]

/-! ## Tokens that cannot stand where they do -/

/-- The token cannot stand at the place; the end of the input can where an expression may end. -/
structure Place.Blocks (c : Place) (t : Token) : Prop where
  step : c.step t = none
  incomplete : t.kind = .endOfInput → ¬ c.Complete

/-- Behind an operand there can be nothing but an operator, a comma between arguments, the end of
the parentheses and of the input, and the arguments of a name. -/
theorem blocks_of_ended {m : Mode} {os : List Opening} {t : Token} (hm : m.Ended)
    (hoperator : t.kind ≠ .operator) (hcall : m = .callee → t.kind ≠ .leftParen)
    (hcomma : ∀ p rest, os = ⟨true, p⟩ :: rest → t.kind ≠ .comma)
    (hclosing : t.kind = .rightParen → os = []) (hend : t.kind = .endOfInput → os ≠ []) :
    Place.Blocks ⟨m, os⟩ t := by
  refine ⟨?_, fun hkind hcomplete => hend hkind hcomplete.2⟩
  have hgoOn : goOn ⟨m, os⟩ t = none := by
    unfold goOn
    split
    · exact absurd ‹_› hoperator
    · rw [hclosing ‹_›]
      rfl
    · dsimp only
      split
      · exact absurd ‹_› (hcomma _ _ rfl)
      · rfl
    · rfl
  rcases hm with rfl | rfl
  · exact hgoOn
  · exact (if_neg (hcall rfl)).trans hgoOn

/-- Tokens that are the start of a phrase lead somewhere. -/
theorem exists_run_of_derives {L : Level} {xs ys : List Token} {e : Expr}
    (h : Derives L (xs ++ ys) e) : ∃ c, start.run xs = some c := by
  obtain ⟨m, -, hrun⟩ := h.crosses []
  obtain ⟨c, hc, -⟩ := exists_run_of_append hrun
  exact ⟨c, hc⟩

/-- **A token that cannot stand behind some tokens goes on with no phrase.** -/
theorem not_derives_of_blocks {L : Level} {xs ys : List Token} {t : Token} {e : Expr} {c : Place}
    (hrun : start.run xs = some c) (hblocks : c.Blocks t) :
    ¬ Derives L (xs ++ t :: ys) e := by
  intro h
  have hsplit : xs ++ t :: ys = (xs ++ [t]) ++ ys := by simp
  rw [hsplit] at h
  obtain ⟨d, hd⟩ := exists_run_of_derives h
  rw [run_append_of_run hrun, run_cons, hblocks.step] at hd
  cases hd

/-- Where the input cannot end, the tokens before are no phrase. -/
theorem not_derives_of_incomplete {L : Level} {xs : List Token} {e : Expr} {c : Place}
    (hrun : start.run xs = some c) (hincomplete : ¬ c.Complete) : ¬ Derives L xs e := by
  intro h
  obtain ⟨m, hm, hcross⟩ := h.crosses []
  cases hrun.symm.trans hcross
  exact hincomplete ⟨hm, rfl⟩

/-! ## Completing an expression -/

/-- Tokens that complete an expression: an operand if one is wanted, and the closing
parentheses. -/
def Place.completion (c : Place) : List Token :=
  (if c.mode = .operand ∨ c.mode = .argument then [⟨.number, "0", 0⟩] else []) ++
    List.replicate c.opened.length ⟨.rightParen, ")", 0⟩

theorem run_closings {m : Mode} (hm : m.Ended) (os : List Opening) :
    ∃ n, n.Ended ∧
      run ⟨m, os⟩ (List.replicate os.length ⟨.rightParen, ")", 0⟩) = some ⟨n, []⟩ := by
  induction os generalizing m with
  | nil => exact ⟨m, hm, rfl⟩
  | cons o os ih =>
    obtain ⟨n, hn, hrun⟩ := ih (Or.inl rfl)
    refine ⟨n, hn, ?_⟩
    rw [List.length_cons, List.replicate_succ, run_cons_of_step (step_closing hm rfl), hrun]

theorem run_completion (c : Place) : ∃ d, d.Complete ∧ c.run c.completion = some d := by
  obtain ⟨m, os⟩ := c
  have hnumber : run ⟨.operand, os⟩ [⟨.number, "0", 0⟩] = some ⟨.operator, os⟩ := rfl
  have hargument : run ⟨.argument, os⟩ [⟨.number, "0", 0⟩] = some ⟨.operator, os⟩ := rfl
  cases m with
  | operand =>
    obtain ⟨n, hn, hrun⟩ := run_closings (Or.inl rfl) os
    exact ⟨⟨n, []⟩, ⟨hn, rfl⟩, (run_append_of_run hnumber).trans hrun⟩
  | argument =>
    obtain ⟨n, hn, hrun⟩ := run_closings (Or.inl rfl) os
    exact ⟨⟨n, []⟩, ⟨hn, rfl⟩, (run_append_of_run hargument).trans hrun⟩
  | operator =>
    obtain ⟨n, hn, hrun⟩ := run_closings (Or.inl rfl) os
    exact ⟨⟨n, []⟩, ⟨hn, rfl⟩, hrun⟩
  | callee =>
    obtain ⟨n, hn, hrun⟩ := run_closings (Or.inr rfl) os
    exact ⟨⟨n, []⟩, ⟨hn, rfl⟩, hrun⟩

end Roundoff.Grammar
