import Roundoff.Proofs.Literal.Value
import Roundoff.Proofs.Token.Munch

/-! # Number tokens and literals

The lexer takes numbers off a line, and `Literal.split` takes literals apart, each in its own way:
the one goes on as far as it can and knows no signs, the other one reads a whole text and sorts out
repeating groups afterwards.  They know the same numbers.  A text without a sign and without blanks
around it is a single number token exactly when it is a decimal literal
(`tokenize_number_iff_split`).
-/
namespace Roundoff.Lexer

open Literal (Spells)

/-- The text has no blanks around it and does not start with a sign. -/
structure Bare (text : String) : Prop where
  trim_eq : Text.trim text.toList = text.toList
  plus : text.toList.head? ≠ some '+'
  minus : text.toList.head? ≠ some '-'

/-- A decimal literal that does not start with a sign is a number. -/
theorem numberText_of_spells {cs : List Char} {l : Literal} (h : Spells cs l)
    (hplus : cs.head? ≠ some '+') (hminus : cs.head? ≠ some '-') : NumberText cs l := by
  obtain ⟨hsgn, hm, hg, hpoint, he⟩ := h
  cases hsgn with
  | none =>
    rw [List.nil_append]
    exact .mk hm hg hpoint he
  | plus => exact absurd rfl hplus
  | minus => exact absurd rfl hminus

theorem Bare.numberText {text : String} {l : Literal} (h : Bare text)
    (hl : Literal.split text = .ok l) : NumberText text.toList l := by
  have hspells := Literal.split_eq_ok_iff.1 hl
  rw [h.trim_eq] at hspells
  exact numberText_of_spells hspells h.plus h.minus

/-- A number is a literal with a value. -/
theorem NumberText.parse_eq {text : String} {l : Literal} (h : NumberText text.toList l) :
    Literal.split text = .ok l ∧ Literal.parse text = .ok l.worth := by
  have hspells : Spells (Text.trim text.toList) l := by
    rw [h.trim_eq]
    exact h.spells
  refine ⟨Literal.split_of_spells hspells, ?_⟩
  rcases Literal.parse_of_spells hspells none with ⟨-, hparse⟩ | ⟨⟨m, hm, -⟩, -⟩
  · exact hparse
  · cases hm

theorem NumberText.tokenize_eq {text : String} {l : Literal} (h : NumberText text.toList l) :
    tokenize text = .ok [⟨.number, text, 0⟩, .finish text.length] := by
  have hend : scan (0 + text.toList.length) [] = ([.finish text.length], none) := by
    rw [scan, zero_add, String.length_toList]
  have hscan := scan_number h endsNumber_nil hend
  rw [List.append_nil, String.ofList_toList] at hscan
  rw [tokenize, hscan]
  rfl

/-- **The lexer and the reader of literals know the same numbers.**  A text without a sign and
without blanks around it is one number token, from its start to its end, exactly when it can be
taken apart as a decimal literal.  So every number token of every line is a literal with a value;
and where the lexer comes to a literal in a line it takes all of it as one token. -/
theorem tokenize_number_iff_split :
    (∀ text, Bare text → (tokenize text = .ok [⟨.number, text, 0⟩, .finish text.length] ↔
      ∃ l, Literal.split text = .ok l)) ∧
    (∀ line tokens, tokenize line = .ok tokens → ∀ t ∈ tokens, t.kind = .number →
      ∃ l r, Literal.split t.text = .ok l ∧ Literal.parse t.text = .ok r ∧ l.value = .ok r) ∧
    ∀ text l, Bare text → Literal.split text = .ok l → ∀ rest, ∃ more after,
      rest = more ++ after ∧ lexeme? (text.toList ++ rest) =
        some ⟨.number, String.ofList (text.toList ++ more), (text.toList ++ more).length⟩ := by
  refine ⟨fun text hbare => ⟨fun h => ?_, ?_⟩, fun line tokens h t ht hkind => ?_,
    fun text l hbare hl rest => (hbare.numberText hl).lexeme?_eq rest⟩
  · obtain ⟨l, hl⟩ := numberText_of_tokenize h
    exact ⟨l, hl.parse_eq.1⟩
  · rintro ⟨l, hl⟩
    exact (hbare.numberText hl).tokenize_eq
  · obtain ⟨l, hl, -⟩ := (tokenize_eq_ok h).number_of_mem ht hkind
    obtain ⟨hsplit, hparse⟩ := hl.parse_eq
    exact ⟨l, l.worth, hsplit, hparse, Literal.value_of_spells hl.spells⟩

/-- A literal with all of its parts is one token.  A group needs a point, and a power of ten needs
digits, in a token as in a literal.  In a line, a literal may be the start of a longer one. -/
theorem tokenize_number_of_parts :
    tokenize "1.2(34...)e-5" = .ok [⟨.number, "1.2(34...)e-5", 0⟩, .finish 13] ∧
    (¬ ∃ l, Literal.split "12(3)" = .ok l) ∧ (¬ ∃ l, Literal.split "1.5e" = .ok l) ∧
    (∃ l r, Literal.split ".5e3" = .ok l ∧ Literal.parse ".5e3" = .ok r ∧ l.value = .ok r) ∧
    ∃ more after, ['e', '5', '+', 'x'] = more ++ after ∧
      lexeme? ("1".toList ++ ['e', '5', '+', 'x']) =
        some ⟨.number, String.ofList ("1".toList ++ more), ("1".toList ++ more).length⟩ := by
  have hbare : ∀ text ∈ ["1.2(34...)e-5", "12(3)", "1.5e", "1"], Bare text := by
    intro text htext
    fin_cases htext <;> exact ⟨by decide +kernel, by decide +kernel, by decide +kernel⟩
  have hline : tokenize "x*.5e3" = .ok [⟨.identifier, "x", 0⟩, ⟨.operator, "*", 1⟩,
      ⟨.number, ".5e3", 2⟩, .finish 6] := by
    decide +kernel
  refine ⟨?_, ?_, ?_, ?_, ?_⟩
  · exact (tokenize_number_iff_split.1 _ (hbare _ (by simp))).2
      ⟨⟨false, ['1'], ['2'], ['3', '4'], -5⟩, by decide +kernel⟩
  · rw [← tokenize_number_iff_split.1 _ (hbare _ (by simp))]
    decide +kernel
  · rw [← tokenize_number_iff_split.1 _ (hbare _ (by simp))]
    decide +kernel
  · exact tokenize_number_iff_split.2.1 _ _ hline ⟨.number, ".5e3", 2⟩ (by simp) rfl
  · exact tokenize_number_iff_split.2.2 "1" ⟨false, ['1'], [], [], 0⟩ (hbare _ (by simp))
      (by decide +kernel) _

end Roundoff.Lexer
