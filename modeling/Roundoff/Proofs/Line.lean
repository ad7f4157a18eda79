import Roundoff.Line
import Roundoff.Proofs.Dual.Limits
import Roundoff.Proofs.Expr.Limits

/-! # Limits only refuse

Of two settings with the same symbols, one with limits that are at most those of the other, the
smaller limits decide only whether a line is refused.  Each stage of an evaluation goes the same way
under both as long as no limit stops the first one, and a stop at a limit is always reported as
such.
-/
namespace Roundoff.Line

variable {s s' : Settings}

theorem parserLimits_atMost (h : s.AtMost s') : (parserLimits s).AtMost (parserLimits s') :=
  ⟨h.depth, h.nodes⟩

/-- The reasons of the parser, those at a limit apart, read the same under all limits. -/
theorem ofParser_agree {α : Type} (lim lim' : Parser.Limits) (x : Except Parser.Stop α) :
    AgreeUnless Stop.Refusal (x.mapError (Stop.ofParser lim))
      (x.mapError (Stop.ofParser lim')) := by
  cases x with
  | ok a => exact .refl _
  | error e =>
    cases e with
    | tooDeep p => exact .stop (.limit rfl)
    | tooManyNodes p => exact .stop (.limit rfl)
    | malformed _ | unknownOperator _ | unfinished | exhausted => exact .refl _

theorem parse_agree (h : s.AtMost s') (tokens : List Token) :
    AgreeUnless Stop.Refusal (parse s tokens) (parse s' tokens) := by
  rw [parse, parse]
  rcases Parser.parse_agree_of_atMost (parserLimits_atMost h) tokens with heq | ⟨x, hx, hstop⟩
  · rw [heq]
    exact ofParser_agree _ _ _
  · rw [hstop]
    cases hx with
    | tooDeep => exact .stop (.limit rfl)
    | tooManyNodes => exact .stop (.limit rfl)

theorem tree_agree (h : s.AtMost s') (line : String) :
    AgreeUnless Stop.Refusal (tree s line) (tree s' line) := by
  have hlength := h.inputLength
  rw [tree, tree]
  dsimp only
  by_cases hstop : s.maxInputLength < line.length
  · rw [if_pos hstop]
    exact .stop (.limit rfl)
  · rw [if_neg hstop, if_neg (by omega)]
    split
    · exact .refl _
    · exact parse_agree h _

theorem run_agree (h : s.AtMost s') (line : String) :
    AgreeUnless Stop.Refusal (run s line) (run s' line) := by
  rw [run, run]
  refine (tree_agree h line).bind fun e _ => ?_
  exact (evaluate_agree h e).bind fun v _ => .refl _

/-- **Limits only refuse, they never alter a result.**  Take settings with the same symbols, each
limit of the first at most that of the second.  What comes of a line under the first settings, if it
is not a failure for a limit, comes of it under the second ones too. -/
theorem evaluate_of_atMost (h : s.AtMost s') (line : String) (outcome : Outcome)
    (heval : evaluate s line = .ok outcome)
    (hrefused : ∀ failure, outcome = .failure failure → failure.kind ≠ .resourceExhausted) :
    evaluate s' line = .ok outcome := by
  rcases run_agree h line with heq | ⟨x, hx, hstop⟩
  · rw [evaluate, ← heq]
    exact heval
  · rw [evaluate, hstop] at heval
    cases hx with
    | limit hkind =>
      cases heval
      exact absurd hkind (hrefused _ rfl)
    -- A defect is no outcome at all.
    | unquotable => cases heval

/-- Settings with tight limits. -/
def tight : Settings where
  maxInputLength := 8
  maxDepth := 3
  maxNodes := 6
  maxExponent := 2
  maxLiteralExponent := 1
  maxRationalBits := 4

theorem tight_atMost : tight.AtMost {} :=
  ⟨by decide, by decide, by decide, by decide, by decide, by decide, rfl⟩

/-- What the tight limits admit, a value and a malformed line, is the same under the default
ones. -/
theorem evaluate_tight :
    evaluate {} "2^-2+1" = .ok (.success ⟨5 / 4, ⟨.ofBits 0x3FF4000000000000, []⟩, []⟩
      ⟨.exact, some 0, some 0, some 0, some 0, some true⟩) ∧
    evaluate {} "1+" = .ok (.failure ⟨.parseError,
      "expected expression, found end of input at position 2", some 2, some "expression",
      some "end of input", none⟩) := by
  refine ⟨?_, ?_⟩
  · refine evaluate_of_atMost tight_atMost _ _ (by decide +kernel) ?_
    intro failure h
    cases h
  · refine evaluate_of_atMost tight_atMost _ _ (by decide +kernel) ?_
    intro failure h
    cases h
    decide

end Roundoff.Line
