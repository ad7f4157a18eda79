import Roundoff.Proofs.Dual.Relocation
import Roundoff.Proofs.Line.Totality
import Roundoff.Proofs.Token.Layout

/-! # Layout does not matter

Two lines with the same words and other blanks have the same tokens at other places
(`Relaid.tokenize`).  The tokens of a line stand at distinct positions, so some map of positions
takes those of the one line to those of the other, and what comes of moved tokens is known: the same
value, or the moved error (`ofTokens_moves`).  An error points to one of the tokens, because a map
that moves its position only would move the error and no token (`position_mem_of_ofTokens`).
-/
namespace Roundoff

/-! ## Moved tokens -/

/-- The first of tokens at distinct positions can be moved to any place. -/
theorem map_relocate_update {σ : ℤ → ℤ} {p q : ℤ} {ts : List Token}
    (h : ∀ t ∈ ts, t.position ≠ p) :
    ts.map (Token.relocate (Function.update σ p q)) = ts.map (Token.relocate σ) := by
  refine List.map_congr_left fun t ht => ?_
  rw [Token.relocate, Token.relocate, Function.update_of_ne (h t ht)]

theorem map_relocate_id (ts : List Token) : ts.map (Token.relocate id) = ts :=
  List.map_id ts

/-- Tokens at distinct positions can be moved to wherever the same words stand. -/
theorem exists_relocation {ts ts' : List Token} (h : List.Forall₂ Lexer.SameWord ts ts')
    (hts : ts.Pairwise fun a b => a.position < b.position) :
    ∃ σ, ts' = ts.map (Token.relocate σ) := by
  induction h with
  | nil => exact ⟨id, rfl⟩
  | @cons t t' ts ts' hsame _ ih =>
    obtain ⟨hfirst, hrest⟩ := List.pairwise_cons.1 hts
    obtain ⟨σ, rfl⟩ := ih hrest
    have hfixed : ∀ u ∈ ts, u.position ≠ t.position := fun u hu => (hfirst u hu).ne'
    refine ⟨Function.update σ t.position t'.position, ?_⟩
    rw [List.map_cons, map_relocate_update hfixed, Token.relocate, Function.update_self,
      ← hsame.kind_eq, ← hsame.text_eq]

/-! ## Moved errors -/

variable {σ : ℤ → ℤ}

theorem EvalError.Moved.kind_eq {e e' : EvalError} (h : e.Moved σ e') : e'.kind = e.kind := by
  cases h <;> rfl

/-- An error is moved with the tokens, unless a function has raised it in its own words. -/
theorem EvalError.Moved.position_eq {e e' : EvalError} (h : e.Moved σ e')
    (hunraised : ∀ r, e ≠ .raised r) : e'.position = e.position.map σ := by
  cases h with
  | parse h => cases h <;> rfl
  | raised => exact absurd rfl (hunraised _)
  | _ => rfl

theorem EvalError.Moved.shadow_eq {e e' : EvalError} (h : e.Moved σ e') :
    e'.shadow? = e.shadow? := by
  cases h <;> rfl

theorem EvalError.Moved.expected_eq {e e' : EvalError} (h : e.Moved σ e') :
    e'.expected? = e.expected? := by
  cases h with
  | parse h => cases h <;> rfl
  | _ => rfl

theorem EvalError.Moved.found_eq {e e' : EvalError} (h : e.Moved σ e') :
    e'.found? = e.found? := by
  cases h with
  | parse h => cases h <;> rfl
  | _ => rfl

namespace Line

variable {s : Settings}

/-! ## What comes of tokens -/

/-- The values of a token list and their discrepancy. -/
def ofTokens (s : Settings) (tokens : List Token) : Except Stop (Evaluation × Metrics) := do
  let e ← parse s tokens
  let result ← Roundoff.evaluate s e
  return (result, Metrics.compute result.exact result.shadow.value)

theorem run_eq_ofTokens {line : String} {tokens : List Token}
    (hlength : line.length ≤ s.maxInputLength) (htokens : Lexer.tokenize line = .ok tokens) :
    run s line = ofTokens s tokens := by
  rw [run, tree, htokens, ofTokens]
  dsimp only
  rw [if_neg (not_lt.2 hlength)]

/-- **What comes of moved tokens** is the same value, or the moved error. -/
theorem ofTokens_moves (s : Settings) (σ : ℤ → ℤ) {tokens : List Token}
    (hclosed : Parser.Closed tokens)
    (hfirst : (Parser.State.peek ⟨tokens, 0⟩).kind ≠ .endOfInput) :
    InStep (Stop.Moved σ) Eq (ofTokens s tokens)
      (ofTokens s (tokens.map (Token.relocate σ))) := by
  rw [ofTokens, ofTokens, parse, parse]
  have hparse := Parser.parse_moves σ (parserLimits s) hclosed hfirst
  refine (hparse.mapError fun x x' hx => hx.ofParser (parserLimits s)).bind ?_
  rintro e _ rfl
  refine (evaluate_moves e).bind ?_
  rintro v _ rfl
  exact .ok rfl

/-- An error points to one of the tokens, unless a function has raised it in its own words. -/
theorem position_mem_of_ofTokens {tokens : List Token} (hclosed : Parser.Closed tokens)
    (hfirst : (Parser.State.peek ⟨tokens, 0⟩).kind ≠ .endOfInput) {e : EvalError} {p : ℤ}
    (hunraised : ∀ r, e ≠ .raised r) (h : ofTokens s tokens = .error (.error e))
    (hp : e.position = some p) : ∃ t ∈ tokens, t.position = p := by
  by_contra hnone
  have hfixed : ∀ t ∈ tokens, t.position ≠ p := fun t ht htp => hnone ⟨t, ht, htp⟩
  have hmoves := ofTokens_moves s (Function.update id p (p + 1)) hclosed hfirst
  rw [map_relocate_update hfixed, map_relocate_id, h] at hmoves
  cases hmoves with
  | stop hmoved =>
    cases hmoved with
    | error hmoved =>
      have hposition := hmoved.position_eq hunraised
      rw [hp, Option.map_some, Function.update_self] at hposition
      have := Option.some.inj hposition
      omega

/-- Without a word in front there is nothing to read. -/
theorem ofTokens_of_finish (s : Settings) (p : ℤ) :
    ofTokens s [.finish p] = .error (.error (.parse .empty)) :=
  rfl

end Line

/-! ## The same outcome -/

/-- The positions are those of one word, as it stands in two lines; for lines without a word both
are that of the first character. -/
inductive SamePlace (ts ts' : List Token) : Option ℤ → Option ℤ → Prop
  | token {i : ℕ} {t t' : Token} : ts[i]? = some t → ts'[i]? = some t' →
      SamePlace ts ts' (some t.position) (some t'.position)
  | noWord {p p' : ℤ} : ts = [.finish p] → ts' = [.finish p'] →
      SamePlace ts ts' (some 0) (some 0)

/-- The failures differ at most in their positions, and these are those of one word. -/
structure Failure.Alike (ts ts' : List Token) (f f' : Failure) : Prop where
  kind_eq : f'.kind = f.kind
  expected_eq : f'.expected = f.expected
  found_eq : f'.found = f.found
  shadow_eq : f'.shadow = f.shadow
  place : SamePlace ts ts' f.position f'.position

/-- The outcomes are the same up to the position of a failure. -/
inductive Outcome.Alike (ts ts' : List Token) : Outcome → Outcome → Prop
  | success {v : Evaluation} {m : Metrics} : Alike ts ts' (.success v m) (.success v m)
  | failure {f f' : Failure} : f.Alike ts ts' f' → Alike ts ts' (.failure f) (.failure f')

theorem EvalError.Moved.alike {e e' : EvalError} (h : e.Moved σ e')
    (hunraised : ∀ r, e ≠ .raised r) {ts : List Token} {t : Token} (ht : t ∈ ts)
    (hposition : e.position = some t.position) :
    e.toFailure.Alike ts (ts.map (Token.relocate σ)) e'.toFailure := by
  refine ⟨h.kind_eq, h.expected_eq, h.found_eq, h.shadow_eq, ?_⟩
  obtain ⟨i, hi⟩ := List.mem_iff_getElem?.1 ht
  have hi' : (ts.map (Token.relocate σ))[i]? = some (t.relocate σ) := by
    rw [List.getElem?_map, hi, Option.map_some]
  have hplace : SamePlace ts (ts.map (Token.relocate σ)) (some t.position)
      (some (t.relocate σ).position) := .token hi hi'
  have hposition' : e'.position = some (t.relocate σ).position := by
    rw [h.position_eq hunraised, hposition]
    rfl
  rw [EvalError.toFailure, EvalError.toFailure, hposition, hposition']
  exact hplace

namespace Line

variable {s : Settings}

/-- Lines without a word have the same failure. -/
theorem alike_of_finish {line line' : String} {p p' : ℤ}
    (hrun : run s line = ofTokens s [.finish p]) (hrun' : run s line' = ofTokens s [.finish p']) :
    ∃ o o', evaluate s line = .ok o ∧ evaluate s line' = .ok o' ∧
      Outcome.Alike [.finish p] [.finish p'] o o' := by
  refine ⟨_, _, by rw [evaluate, hrun, ofTokens_of_finish],
    by rw [evaluate, hrun', ofTokens_of_finish], ?_⟩
  exact .failure ⟨rfl, rfl, rfl, rfl, .noWord rfl rfl⟩

/-- Lines with the same words at other places have the same outcome. -/
theorem alike_of_relocate (hs : s.AtMost {}) {line line' : String} {ts : List Token} {σ : ℤ → ℤ}
    (hclosed : Parser.Closed ts) (hfirst : (Parser.State.peek ⟨ts, 0⟩).kind ≠ .endOfInput)
    (hrun : run s line = ofTokens s ts)
    (hrun' : run s line' = ofTokens s (ts.map (Token.relocate σ))) :
    ∃ o o', evaluate s line = .ok o ∧ evaluate s line' = .ok o' ∧
      Outcome.Alike ts (ts.map (Token.relocate σ)) o o' := by
  have hmoves := ofTokens_moves s σ hclosed hfirst
  rw [← hrun, ← hrun'] at hmoves
  rw [evaluate, evaluate]
  generalize hr : run s line = r at hmoves
  generalize run s line' = r' at hmoves
  cases hmoves with
  | ok heq =>
    subst heq
    exact ⟨_, _, rfl, rfl, .success⟩
  | stop hmoved =>
    cases hmoved with
    | @error e e' hmoved =>
      rcases run_stop hs hr with hlong | ⟨_, ⟨⟩, hpresentable⟩
      · -- The error is not one about a line that is too long, which no move leads to.
        cases hlong
        cases hmoved
      · obtain ⟨p, hp⟩ := Option.ne_none_iff_exists'.1 hpresentable.positioned
        rw [hrun] at hr
        obtain ⟨t, ht, rfl⟩ :=
          position_mem_of_ofTokens hclosed hfirst hpresentable.unraised hr hp
        exact ⟨_, _, rfl, rfl, .failure (hmoved.alike hpresentable.unraised ht hp)⟩
    | defect =>
      rcases run_stop hs hr with hlong | ⟨_, hdefect, -⟩
      · cases hlong
      · cases hdefect

theorem alike_of_sameWord (hs : s.AtMost {}) {line line' : String} {ts ts' : List Token}
    (hlength : line.length ≤ s.maxInputLength) (hlength' : line'.length ≤ s.maxInputLength)
    (hts : Lexer.tokenize line = .ok ts) (hts' : Lexer.tokenize line' = .ok ts')
    (hsame : List.Forall₂ Lexer.SameWord ts ts') :
    ∃ o o', evaluate s line = .ok o ∧ evaluate s line' = .ok o' ∧ Outcome.Alike ts ts' o o' := by
  have hrun := run_eq_ofTokens hlength hts
  have hrun' := run_eq_ofTokens hlength' hts'
  have hclosed : Parser.Closed ts := Lexer.getLast?_of_tokenize hts
  by_cases hfirst : (Parser.State.peek ⟨ts, 0⟩).kind = .endOfInput
  · cases hsame with
    | nil => exact absurd hclosed Parser.not_closed_nil
    | cons hword _ =>
      obtain ⟨p, hp⟩ := (Lexer.tokenize_eq_ok hts).eq_finish hfirst
      obtain ⟨p', hp'⟩ := (Lexer.tokenize_eq_ok hts').eq_finish (hword.kind_eq.trans hfirst)
      rw [hp] at hrun ⊢
      rw [hp'] at hrun' ⊢
      exact alike_of_finish hrun hrun'
  · obtain ⟨σ, rfl⟩ := exists_relocation hsame (Lexer.tokenize_eq_ok hts).pairwise
    exact alike_of_relocate hs hclosed hfirst hrun hrun'

/-- **Layout does not matter.**  Every line that the lexer accepts can be laid out anew, and then
the same words are found in both lines, in the same order.  Under limits that are at most the
default ones, if neither line is too long, both have the same value with the same trail,
approximations and metrics, or both fail: with failures of one kind, which expect and find the same
thing, carry the same shadow and point to the same word, or to the first character if there is no
word. -/
theorem evaluate_relaid (line : String) :
    ((∃ ts, Lexer.tokenize line = .ok ts) ↔ Lexer.Relaid false line.toList line.toList) ∧
    ∀ line' : String, Lexer.Relaid false line.toList line'.toList →
      ∃ ts ts', Lexer.tokenize line = .ok ts ∧ Lexer.tokenize line' = .ok ts' ∧
        List.Forall₂ Lexer.SameWord ts ts' ∧
        ∀ s : Settings, s.AtMost {} → line.length ≤ s.maxInputLength →
          line'.length ≤ s.maxInputLength →
          ∃ o o', evaluate s line = .ok o ∧ evaluate s line' = .ok o' ∧
            Outcome.Alike ts ts' o o' := by
  refine ⟨Lexer.relaid_self_iff.symm, fun line' h => ?_⟩
  obtain ⟨ts, ts', hts, hts', hsame⟩ := h.tokenize
  exact ⟨ts, ts', hts, hts', hsame, fun s hs hlength hlength' =>
    alike_of_sameWord hs hlength hlength' hts hts' hsame⟩

/-- A division by zero with blanks around its words. -/
theorem evaluate_relaid_fault :
    Lexer.Relaid false "1/0".toList " 1 / 0".toList ∧
    ∃ o o', evaluate {} "1/0" = .ok o ∧ evaluate {} " 1 / 0" = .ok o' ∧ Outcome.Alike
      [⟨.number, "1", 0⟩, ⟨.operator, "/", 1⟩, ⟨.number, "0", 2⟩, .finish 3]
      [⟨.number, "1", 1⟩, ⟨.operator, "/", 3⟩, ⟨.number, "0", 5⟩, .finish 6] o o' := by
  have hend : Lexer.Relaid true [] [] := .finish (by decide) (by decide)
  have hzero : Lexer.Relaid true ([] ++ (['0'] ++ [])) ([' '] ++ (['0'] ++ [])) :=
    .word (by decide) (by decide) (by decide) (Lexer.lexeme?_eq_some_iff.1 rfl) hend
  have hbar : Lexer.Relaid true ([] ++ (['/'] ++ ['0'])) ([' '] ++ (['/'] ++ [' ', '0'])) :=
    .word (by decide) (by decide) (by decide) (Lexer.lexeme?_eq_some_iff.1 rfl) hzero
  have hline : Lexer.Relaid false ([] ++ (['1'] ++ ['/', '0']))
      ([' '] ++ (['1'] ++ [' ', '/', ' ', '0'])) :=
    .word (by decide) (by decide) (by decide) (Lexer.lexeme?_eq_some_iff.1 rfl) hbar
  obtain ⟨ts, ts', hts, hts', -, h⟩ := (evaluate_relaid "1/0").2 " 1 / 0" hline
  have htokens : Lexer.tokenize "1/0" =
      .ok [⟨.number, "1", 0⟩, ⟨.operator, "/", 1⟩, ⟨.number, "0", 2⟩, .finish 3] := by
    decide +kernel
  have htokens' : Lexer.tokenize " 1 / 0" =
      .ok [⟨.number, "1", 1⟩, ⟨.operator, "/", 3⟩, ⟨.number, "0", 5⟩, .finish 6] := by
    decide +kernel
  cases htokens.symm.trans hts
  cases htokens'.symm.trans hts'
  refine ⟨hline, h {} ⟨le_rfl, le_rfl, le_rfl, le_rfl, le_rfl, le_rfl, rfl⟩ (by decide)
    (by decide)⟩

end Line

end Roundoff
