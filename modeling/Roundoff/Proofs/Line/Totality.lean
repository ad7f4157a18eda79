import Roundoff.Proofs.Dual.Stops
import Roundoff.Proofs.Expr.Origin
import Roundoff.Proofs.Line
import Roundoff.Proofs.Line.Stages
import Roundoff.Proofs.Metrics
import Roundoff.Proofs.Shadow.Detection
import Roundoff.Proofs.Token.Lexing

/-! # Every line has an outcome

Under limits that are at most the default ones, a line has a value or there is an error about it.
The tokens of a line have known operators and well-spelled numbers, so the parser stops with errors
about the line only and the trees it makes are proper; and the evaluation of a proper tree stops
only with errors about the line.  Nothing that happens on the way can fail for another reason:
neither finding the flags of the roundings, nor the metrics, nor writing a message.
-/
namespace Roundoff

namespace Lexer

variable {line : String} {tokens : List Token}

theorem known_of_tokenize (h : tokenize line = .ok tokens) : Parser.Known tokens := by
  intro t ht hkind
  rcases (tokenize_eq_ok h).word_of_mem ht with hend | ⟨w, hw, -⟩
  · rw [hkind] at hend
    cases hend
  · rw [hkind] at hw
    exact Operation.isSome_ofSymbol?_iff.2 hw.operator

theorem getLast?_of_tokenize (h : tokenize line = .ok tokens) :
    tokens.getLast?.map Token.kind = some .endOfInput := by
  rw [(tokenize_eq_ok h).getLast?]
  rfl

theorem position_of_tokenize (h : tokenize line = .ok tokens) {t : Token} (ht : t ∈ tokens) :
    0 ≤ t.position ∧ t.position ≤ line.length := by
  have hinside := (tokenize_eq_ok h).position_of_mem ht
  rw [String.length_toList, Nat.cast_zero, zero_add] at hinside
  exact hinside

theorem position_of_tokenize_error {e : LexError} (h : tokenize line = .error e) :
    0 ≤ e.position ∧ e.position ≤ line.length := by
  obtain ⟨u, v, hline, hposition⟩ := tokenize_eq_error h
  have hlength := congrArg List.length hline
  rw [String.length_toList, List.length_append] at hlength
  omega

/-- A number token spells a decimal literal, whose exponent has no more digits than the line. -/
theorem spells_of_number (h : tokenize line = .ok tokens) {t : Token} (ht : t ∈ tokens)
    (hkind : t.kind = .number) :
    ∃ l, Literal.Spells (Text.trim t.text.toList) l ∧
      l.exponent.natAbs < 10 ^ line.length := by
  obtain ⟨l, hl, hlength⟩ := (tokenize_eq_ok h).number_of_mem ht hkind
  rw [String.length_toList (s := line)] at hlength
  refine ⟨l, ?_, hl.exponent_lt.trans_le (Nat.pow_le_pow_right (by decide) hlength)⟩
  rw [hl.trim_eq]
  exact hl.spells

end Lexer

namespace Line

variable {s : Settings} {line : String}

theorem isQuotable_position {p : ℤ} (hlength : line.length ≤ 4096) (h : 0 ≤ p ∧ p ≤ line.length) :
    Numeral.isQuotable p = true :=
  isQuotable_of_le (by omega)

/-- The tree of a line is proper. -/
theorem proper_of_derives (hlength : line.length ≤ 4096) {tokens : List Token}
    (htokens : Lexer.tokenize line = .ok tokens) {e : Expr}
    (h : Grammar.Derives .sum (Parser.body tokens) e) : e.Proper := by
  have hsub : (Parser.body tokens).Sublist tokens := List.takeWhile_sublist _
  have hcount : tokens.length ≤ line.length + 1 := by
    have := (Lexer.tokenize_eq_ok htokens).length_le
    rwa [String.length_toList] at this
  intro n hn
  obtain ⟨⟨t, ht, hkind, htext, hposition⟩, hoperands⟩ := (h.comesFrom n hn).sublist hsub
  refine ⟨?_, ?_⟩
  · cases n with
    | number text p =>
      obtain ⟨l, hl, hexp⟩ := Lexer.spells_of_number htokens ht hkind
      have hquote : l.exponent.natAbs < 10 ^ Numeral.quotableDigits :=
        hexp.trans_le (Nat.pow_le_pow_right (by decide) (hlength.trans (by decide)))
      dsimp only [Expr.label] at htext
      rw [htext] at hl
      exact ⟨l, hl, Numeral.isQuotable_iff.2 hquote⟩
    | binary op l r p =>
      have hknown := Lexer.known_of_tokenize htokens t ht hkind
      rw [htext] at hknown
      exact hknown
    | call name args p =>
      dsimp only [Expr.children] at hoperands
      exact isQuotable_of_le (by omega)
    | name | unary => trivial
  · rw [← hposition]
    exact isQuotable_position hlength (Lexer.position_of_tokenize htokens ht)

/-- The parser's error about a line is presentable. -/
theorem presentable_ofParser (hs : s.AtMost {}) (hlength : line.length ≤ 4096) {x : Parser.Stop}
    (hreported : x.Reported) (hposition : x.Within fun p => 0 ≤ p ∧ p ≤ line.length) :
    (Stop.ofParser (parserLimits s) x).Presentable := by
  have hdepth : s.maxDepth ≤ 128 := hs.depth
  have hnodes : s.maxNodes ≤ 1024 := hs.nodes
  cases hreported with
  | @malformed e =>
    refine ⟨_, rfl, Option.some_ne_none _, fun i hi => ?_, nofun⟩
    have hi : i = e.position := by
      cases e with
      | empty => cases hi
      | unexpected | unmatched | unclosed => exact List.mem_singleton.1 hi
    rw [hi]
    exact isQuotable_position hlength hposition
  | refused hrefusal =>
    cases hrefusal with
    | tooDeep | tooManyNodes =>
      refine ⟨_, rfl, Option.some_ne_none _, fun i hi => ?_, nofun⟩
      rw [List.mem_singleton.1 hi]
      refine isQuotable_of_le ?_
      dsimp only [parserLimits]
      omega

/-- The parser stops on the tokens of a line only with presentable errors. -/
theorem parse_ends (hs : s.AtMost {}) (hlength : line.length ≤ 4096) {tokens : List Token}
    (htokens : Lexer.tokenize line = .ok tokens) :
    Ends Stop.Presentable Expr.Proper (parse s tokens) := by
  have hends : Ends Parser.Stop.Reported (Grammar.Derives .sum (Parser.body tokens))
      (Parser.parse (parserLimits s) tokens) :=
    Parser.ends_parse (Lexer.getLast?_of_tokenize htokens) (Lexer.known_of_tokenize htokens)
  have hwithin := Parser.parse_within (P := fun p => 0 ≤ p ∧ p ≤ line.length)
    ⟨le_refl _, Int.natCast_nonneg _⟩ (parserLimits s)
    fun t ht => Lexer.position_of_tokenize htokens ht
  rw [parse]
  cases hparse : Parser.parse (parserLimits s) tokens with
  | ok e =>
    rw [hparse] at hends
    cases hends with
    | ok he => exact .ok (proper_of_derives hlength htokens he)
  | error x =>
    rw [hparse] at hends hwithin
    cases hends with
    | stop hreported =>
      cases hwithin with
      | stop hposition => exact .stop (presentable_ofParser hs hlength hreported hposition)

/-- A line is too long, or its lexer and parser stop only with presentable errors and the tree is
proper. -/
theorem tree_ends (hs : s.AtMost {}) (line : String) :
    (tree s line = .error (.error (.lineTooLong line.length s.maxInputLength))) ∨
      Ends Stop.Presentable Expr.Proper (tree s line) := by
  have hinput : s.maxInputLength ≤ 4096 := hs.inputLength
  have hstage := treeStage s line
  generalize tree s line = r at hstage
  cases hstage with
  | tooLong _ => exact Or.inl rfl
  | lex hlength htokens =>
    refine Or.inr (.stop ⟨_, rfl, Option.some_ne_none _, fun i hi => ?_, nofun⟩)
    rw [List.mem_singleton.1 hi]
    exact isQuotable_position (hlength.trans hinput) (Lexer.position_of_tokenize_error htokens)
  | parse hlength htokens => exact Or.inr (parse_ends hs (hlength.trans hinput) htokens)

theorem run_stop (hs : s.AtMost {}) {x : Stop} (h : run s line = .error x) :
    x = .error (.lineTooLong line.length s.maxInputLength) ∨ x.Presentable := by
  rcases tree_ends hs line with hlong | hends
  · rw [run, hlong] at h
    cases h
    exact Or.inl rfl
  · rcases bind_eq_error.1 h with h | ⟨e, htree, h⟩
    · rw [h] at hends
      cases hends with
      | stop hx => exact Or.inr hx
    · rw [htree] at hends
      cases hends with
      | ok hproper =>
        rcases bind_eq_error.1 h with h | ⟨v, -, h⟩
        · exact Or.inr (evaluate_stop hs hproper h)
        · cases h

/-- **Every line has an outcome.**  Under limits that are at most the default ones, evaluating a
line ends with a value or with a failure.  Each number token is read as a literal; the flag of every
operation and of every rounded literal is found, although its redo could lack a value, and so are
the metrics; and an error has a position, is not the one about a power that nobody guarded, and
writes out no integer of more than `quotableDigits` digits (the length of a line being none). -/
theorem evaluate_total (hs : s.AtMost {}) (line : String) :
    (∃ outcome, evaluate s line = .ok outcome) ∧
    (∀ tokens, Lexer.tokenize line = .ok tokens → ∀ t ∈ tokens, t.kind = .number →
      ∃ r, Literal.parse t.text = .ok r) ∧
    (∀ op x y, RoundingFlag.detect op x y (op.rounded x y) =
      .ok (RoundingFlag.ofOperation? op x y (op.rounded x y))) ∧
    (∀ r, RoundingFlag.detectRounding r (.ofRat r) =
      .ok (RoundingFlag.ofRounding? r (.ofRat r))) ∧
    (∀ r x, Metrics.measure r x = .ok (Metrics.compute r x)) ∧
    (∀ e, run s line = .error (.error e) → e ≠ .fractionalPower ∧ e.position ≠ none ∧
      (line.length < 10 ^ Numeral.quotableDigits →
        ∀ i ∈ e.integers, Numeral.isQuotable i = true)) := by
  refine ⟨?_, ?_, RoundingFlag.detect_eq, RoundingFlag.detectRounding_eq, Metrics.measure_eq, ?_⟩
  · cases hrun : run s line with
    | ok r => exact ⟨.success r.1 r.2, by rw [evaluate, hrun]⟩
    | error x =>
      have herror : ∃ e, x = .error e := by
        rcases run_stop hs hrun with hlong | ⟨e, he, -⟩
        · exact ⟨_, hlong⟩
        · exact ⟨e, he⟩
      obtain ⟨e, rfl⟩ := herror
      exact ⟨.failure e.toFailure, by rw [evaluate, hrun]⟩
  · intro tokens htokens t ht hkind
    obtain ⟨l, hl, -⟩ := Lexer.spells_of_number htokens ht hkind
    exact ⟨l.worth, Literal.parse_eq_ok_iff.2 (.decimal hl)⟩
  · intro e hrun
    have hinput : s.maxInputLength ≤ 4096 := hs.inputLength
    rcases run_stop hs hrun with hlong | ⟨e', he, hpresentable⟩
    · cases hlong
      refine ⟨by simp, Option.some_ne_none _, fun hshort i hi => ?_⟩
      rcases List.mem_pair.1 hi with rfl | rfl
      · exact Numeral.isQuotable_iff.2 hshort
      · exact isQuotable_of_le (by omega)
    · cases he
      refine ⟨?_, hpresentable.positioned, fun _ => hpresentable.quotable⟩
      rintro rfl
      exact hpresentable.positioned rfl

/-- A division by zero under tight limits: its second number is read, and the failure is at the
operator. -/
theorem total_of_fault :
    (∃ outcome, evaluate tight "1/0" = .ok outcome) ∧ (∃ r, Literal.parse "0" = .ok r) ∧
    ∃ e, run tight "1/0" = .error (.error e) ∧ e.position ≠ none ∧ e.integers = [1] ∧
      ∀ i ∈ e.integers, Numeral.isQuotable i = true := by
  obtain ⟨houtcome, hnumbers, -, -, -, herrors⟩ := evaluate_total tight_atMost "1/0"
  have htokens : Lexer.tokenize "1/0" =
      .ok [⟨.number, "1", 0⟩, ⟨.operator, "/", 1⟩, ⟨.number, "0", 2⟩, .finish 3] := by
    decide +kernel
  have hrun : run tight "1/0" = .error (.error (.dividedByZero 1 ⟨.infinity false,
      [⟨.operation .div .one (.zero false), .infinity false, .divideByZero⟩]⟩)) := by
    decide +kernel
  have hshort : "1/0".length < 10 ^ Numeral.quotableDigits :=
    (show 3 < 10 ^ 1 by decide).trans_le (Nat.pow_le_pow_right (by decide) (by decide))
  obtain ⟨-, hposition, hquotable⟩ := herrors _ hrun
  exact ⟨houtcome, hnumbers _ htokens ⟨.number, "0", 2⟩ (by decide) rfl, _, hrun, hposition, rfl,
    hquotable hshort⟩

end Line

end Roundoff
