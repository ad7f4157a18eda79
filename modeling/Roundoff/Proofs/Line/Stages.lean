import Roundoff.Line
import Roundoff.Proofs.Sequence

/-! # The stages of a line

What is known once a line has come to an end of some kind: how far it got, and what the stage it
got to has answered.
-/
namespace Roundoff.Line

variable {s : Settings} {line : String}

/-- How a line comes to its tree: it is too long, the lexer stops, or the parser has its tokens. -/
inductive TreeStage (s : Settings) (line : String) : Except Stop Expr → Prop
  | tooLong : s.maxInputLength < line.length →
      TreeStage s line (.error (.error (.lineTooLong line.length s.maxInputLength)))
  | lex {e : LexError} : line.length ≤ s.maxInputLength → Lexer.tokenize line = .error e →
      TreeStage s line (.error (.error (.lex e)))
  | parse {tokens : List Token} : line.length ≤ s.maxInputLength →
      Lexer.tokenize line = .ok tokens → TreeStage s line (parse s tokens)

theorem treeStage (s : Settings) (line : String) : TreeStage s line (tree s line) := by
  rw [tree]
  dsimp only
  by_cases hlong : s.maxInputLength < line.length
  · rw [if_pos hlong]
    exact .tooLong hlong
  · rw [if_neg hlong]
    cases htokens : Lexer.tokenize line with
    | error e => exact .lex (not_lt.1 hlong) htokens
    | ok tokens => exact .parse (not_lt.1 hlong) htokens

/-- A tree is what the parser answers on the tokens of the line. -/
theorem exists_of_tree {e : Expr} (h : tree s line = .ok e) : ∃ tokens,
    Lexer.tokenize line = .ok tokens ∧ Parser.parse (parserLimits s) tokens = .ok e := by
  generalize hstage : tree s line = r at h
  have hcases := treeStage s line
  rw [hstage] at hcases
  cases hcases with
  | tooLong _ => cases h
  | lex _ _ => cases h
  | @parse tokens _ htokens =>
    refine ⟨tokens, htokens, ?_⟩
    rw [parse] at h
    cases hparse : Parser.parse (parserLimits s) tokens with
    | error x =>
      rw [hparse] at h
      cases h
    | ok e' =>
      rw [hparse] at h
      cases h
      rfl

/-- A value comes from the tree of the line, and the metrics from the value. -/
theorem evaluate_eq_success {v : Evaluation} {m : Metrics}
    (h : evaluate s line = .ok (.success v m)) :
    ∃ e, tree s line = .ok e ∧ Roundoff.evaluate s e = .ok v ∧
      m = Metrics.compute v.exact v.shadow.value := by
  unfold evaluate at h
  split at h
  · rename_i w n hrun
    cases h
    obtain ⟨e, htree, hrun⟩ := bind_eq_ok.1 hrun
    obtain ⟨w, hvalue, ⟨⟩⟩ := bind_eq_ok.1 hrun
    exact ⟨e, htree, hvalue, rfl⟩
  · cases h
  · cases h

/-- A failure is an error of the lexer, of the parser or of the evaluation. -/
theorem evaluate_eq_failure {f : Failure} (h : evaluate s line = .ok (.failure f)) :
    ∃ x, f = x.toFailure ∧ (tree s line = .error (.error x) ∨
      ∃ e, tree s line = .ok e ∧ Roundoff.evaluate s e = .error (.error x)) := by
  unfold evaluate at h
  split at h
  · cases h
  · rename_i x hrun
    cases h
    refine ⟨x, rfl, ?_⟩
    rcases bind_eq_error.1 hrun with htree | ⟨e, htree, hrun⟩
    · exact Or.inl htree
    · rcases bind_eq_error.1 hrun with hvalue | ⟨v, -, hrun⟩
      · exact Or.inr ⟨e, htree, hvalue⟩
      · cases hrun
  · cases h

end Roundoff.Line
