import Roundoff.Proofs.Expr.Acceptance
import Roundoff.Proofs.Expr.Offending
import Roundoff.Proofs.Line.Totality

/-! # Where a line is malformed

A malformed line is reported at the first token that cannot stand where it does (`parse_offends`),
so the tokens up to it are the start of no expression.  The tokens before it are: they lead to some
place, the parser accepts them together with what completes an expression from there, since it can
report none of these tokens, and what it accepts is an expression.
-/
namespace Roundoff.Parser

open Grammar

/-! ## The start of an expression -/

theorem known_completion {xs : List Token} (h : Known xs) (c : Place) :
    Known (xs ++ c.completion ++ [.finish 0]) := by
  intro t ht hkind
  have hword : t.kind ≠ .operator ∨ t ∈ xs := by
    simp only [List.mem_append, Place.completion, List.mem_singleton, List.mem_replicate] at ht
    rcases ht with (hxs | hnumber | ⟨-, rfl⟩) | rfl
    · exact Or.inr hxs
    · split at hnumber
      · rw [List.mem_singleton.1 hnumber]
        exact Or.inl nofun
      · cases hnumber
    · exact Or.inl nofun
    · exact Or.inl nofun
  rcases hword with hne | hmem
  · exact absurd hkind hne
  · exact h t hmem hkind

/-- No token of a list that leads to where an expression may end cannot stand where it does. -/
theorem not_blocks_of_complete {xs before after : List Token} {t u : Token} {c d : Place}
    (hxs : Place.start.run xs = some c) (hcomplete : c.Complete) (hu : u.kind = .endOfInput)
    (hsplit : xs ++ [u] = before ++ t :: after) (hbefore : Place.start.run before = some d) :
    ¬ d.Blocks t := by
  intro hblocks
  rcases List.eq_nil_or_concat after with rfl | ⟨more, v, rfl⟩
  · obtain ⟨rfl, hlast⟩ := List.append_inj' hsplit rfl
    cases hlast
    cases hbefore.symm.trans hxs
    exact hblocks.incomplete hu hcomplete
  · have hstart : xs = before ++ t :: more := by
      rw [List.concat_eq_append, ← List.cons_append, ← List.append_assoc] at hsplit
      exact (List.append_inj' hsplit rfl).1
    rw [hstart, Place.run_append_of_run hbefore, Place.run_cons, hblocks.step] at hxs
    cases hxs

/-- **Tokens that lead somewhere are the start of an expression**: the parser accepts what completes
them, because it can report none of its tokens. -/
theorem exists_derives_of_run {xs : List Token} {c : Place} (hrun : Place.start.run xs = some c)
    (hknown : Known xs) : ∃ more e, Derives .sum (xs ++ more) e := by
  obtain ⟨d, hcomplete, hcompletion⟩ := run_completion c
  have hall : Place.start.run (xs ++ c.completion) = some d :=
    (Place.run_append_of_run hrun).trans hcompletion
  have hclosed : Closed (xs ++ c.completion ++ [.finish 0]) := by
    rw [Closed, List.getLast?_concat]
    rfl
  have hbody : body (xs ++ c.completion ++ [.finish 0]) = xs ++ c.completion :=
    body_append (Place.kind_ne_of_run hall) rfl
  -- These limits leave room for the whole token list.
  generalize htokens : xs ++ c.completion ++ [.finish 0] = tokens at hclosed hbody
  have hends : Ends Stop.Reported (fun e => Derives .sum (body tokens) e)
      (parse ⟨fuelFor tokens, tokens.length⟩ tokens) :=
    ends_parse hclosed (htokens ▸ known_completion hknown c)
  generalize hparse : parse ⟨fuelFor tokens, tokens.length⟩ tokens = r at hends
  cases hends with
  | @ok e he => exact ⟨c.completion, e, hbody ▸ he⟩
  | stop hreported =>
    cases hreported with
    | refused hrefusal => exact absurd hrefusal (parse_room le_rfl le_rfl hparse)
    | malformed =>
      obtain ⟨before, t, after, b, hsplit, hbefore, hblocks, -⟩ := parse_offends hclosed hparse
      rw [← htokens] at hsplit
      exact absurd hblocks (not_blocks_of_complete hall hcomplete rfl hsplit hbefore)

/-- **Parse errors are reported at the first offending token.**  When the tokens of a line are
malformed, the tokens before the one that the error has found are the start of an expression, but
with that one behind them they are none; for the end of the input, they are no expression
themselves.  The error is reported at the position of the token, at the end of the input at that of
the innermost parenthesis that the tokens before leave open, if there is one, and for a line without
words at the first character. -/
theorem malformed_at_first_offending (lim : Limits) {line : String} {tokens : List Token}
    (htokens : Lexer.tokenize line = .ok tokens) {x : ParseError}
    (h : parse lim tokens = .error (.malformed x)) :
    ∃ before t after, tokens = before ++ t :: after ∧ x.found = t.describe ∧
      (∃ more e, Derives .sum (before ++ more) e) ∧
      (t.kind ≠ .endOfInput → (∀ more e, ¬ Derives .sum (before ++ t :: more) e) ∧
        x.position = t.position) ∧
      (t.kind = .endOfInput → (∀ e, ¬ Derives .sum before e) ∧
        x.position = if before = [] then 0 else (unclosed before).headD t.position) := by
  obtain ⟨before, t, after, d, rfl, hbefore, hblocks, hfound, hposition⟩ :=
    parse_offends (Lexer.getLast?_of_tokenize htokens) h
  have hknown : Known before := fun u hu =>
    Lexer.known_of_tokenize htokens u (List.mem_append_left _ hu)
  refine ⟨before, t, after, rfl, hfound, exists_derives_of_run hbefore hknown,
    fun hkind => ⟨fun more e => not_derives_of_blocks hbefore hblocks, ?_⟩,
    fun hkind => ⟨fun e => not_derives_of_incomplete hbefore (hblocks.incomplete hkind), ?_⟩⟩
  · rw [hposition, if_neg fun hend => hkind hend.1, reportedAt, if_neg hkind]
  · rw [hposition, reportedAt, if_pos hkind]
    exact if_congr (and_iff_right hkind) rfl rfl

/-- The tokens of `(1 + (2`. -/
def nested : List Token :=
  [⟨.leftParen, "(", 0⟩, ⟨.number, "1", 1⟩, ⟨.operator, "+", 3⟩, ⟨.leftParen, "(", 5⟩,
    ⟨.number, "2", 6⟩, .finish 7]

/-- Two parentheses are open at the end of the line, which is reported at the inner one. -/
theorem malformed_nested :
    parse ⟨8, 8⟩ nested = .error (.malformed (.unclosed .closing 5)) ∧
    ∃ before t after, nested = before ++ t :: after ∧ "end of input" = t.describe ∧
      (∃ more e, Derives .sum (before ++ more) e) ∧
      (t.kind ≠ .endOfInput → (∀ more e, ¬ Derives .sum (before ++ t :: more) e) ∧
        5 = t.position) ∧
      (t.kind = .endOfInput → (∀ e, ¬ Derives .sum before e) ∧
        5 = if before = [] then 0 else (unclosed before).headD t.position) := by
  have htokens : Lexer.tokenize "(1 + (2" = .ok nested := by decide +kernel
  have hparse : parse ⟨8, 8⟩ nested = .error (.malformed (.unclosed .closing 5)) := rfl
  exact ⟨hparse, malformed_at_first_offending ⟨8, 8⟩ htokens hparse⟩

example : unclosed (nested.take 5) = [5, 0] := rfl

end Roundoff.Parser
