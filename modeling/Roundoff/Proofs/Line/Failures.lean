import Roundoff.Proofs.Dual.Faults
import Roundoff.Proofs.Line.Stages
import Roundoff.Proofs.Line.Totality
import Roundoff.Proofs.Token.Words

/-! # Where failures point

Every stage that can fail knows a place in the line: the lexer the character that stopped it, the
parser a token, and the evaluation a node, which stands for a token.  So a failure points into its
line, and what it is about stands there: a character, a name, or the operator that divided by zero.
A function of the symbol table is the exception.  It is evaluated without a position, so a division
by zero in it is reported at its name.  Every other error that it raises is reported as it is, at a
place of its own or nowhere (`Failure.RaisedInCall`).
-/
namespace Roundoff

open DualValue

/-! ## Places in a line -/

namespace Line

/-- The position is that of a character of the line, or it is behind the last one. -/
def Inside (line : String) (p : ℤ) : Prop :=
  0 ≤ p ∧ p ≤ line.length

/-- The characters stand in the line, the first one at the position. -/
def StandsAt (line : String) (p : ℤ) (cs : List Char) : Prop :=
  0 ≤ p ∧ cs <+: line.toList.drop p.toNat

/-- The name stands in the line at the position. -/
def NameAt (line : String) (n : String) (p : ℤ) : Prop :=
  Lexer.IsName n.toList ∧ StandsAt line p n.toList

/-- The tree of the line has a call at the position, and the exact meaning of the function fails
with the error at the exact values of the arguments. -/
def CallFails (s : Settings) (line : String) (n : String) (p : ℤ) (e : RuleError) : Prop :=
  ∃ root args vs rs rule, tree s line = .ok root ∧ .call n args p ∈ root.preorder ∧
    ofExprs s args = .ok vs ∧ exactAll vs = .ok rs ∧ s.symbols.function? n = some rule ∧
    (rule.exact fun i => rs.getD i 0) = .error e

/-- A function called in the line ends the evaluation with the error, which is one of its own or
about its power. -/
def CallRaises (s : Settings) (line : String) (x : EvalError) : Prop :=
  ∃ n p e, CallFails s line n p e ∧ e.ending? = some x

/-- A division bar or a power stands at the position, or the name of a function that divides by
zero. -/
def DividesAt (s : Settings) (line : String) (p : ℤ) : Prop :=
  StandsAt line p ['/'] ∨ StandsAt line p ['^'] ∨ StandsAt line p ['*', '*'] ∨
    ∃ n e, NameAt line n p ∧ CallFails s line n p e ∧ e.isDivisionByZero = true

end Line

/-- **An error is about a place in the line**, and what it is about stands there; or a function that
the line calls has raised it. -/
def EvalError.Placed (s : Settings) (line : String) : EvalError → Prop
  | lex e => Line.StandsAt line e.position [e.character]
  | parse e => Line.Inside line e.position
  | lineTooLong _ limit => Line.Inside line limit
  | tooDeep _ p => Line.Inside line p
  | tooManyNodes _ p => Line.Inside line p
  | literalExponent _ _ p => Line.Inside line p
  | valueTooLarge _ p => Line.Inside line p
  | exponentTooLarge _ p => Line.Inside line p
  | powerTooLarge _ p => Line.Inside line p
  | fractionalExponent p => Line.Inside line p
  | unknownName n p => Line.NameAt line n p
  | functionAsConstant n p => Line.NameAt line n p
  | constantAsFunction n p => Line.NameAt line n p
  | wrongArity n _ _ p => Line.NameAt line n p
  | dividedByZero p _ => Line.DividesAt s line p
  | zeroDenominator => False
  | fractionalPower => Line.CallRaises s line .fractionalPower
  | raised e => Line.CallRaises s line (.raised e)

namespace Line

variable {s : Settings} {line : String}

theorem StandsAt.inside {p : ℤ} {cs : List Char} (h : StandsAt line p cs) (hne : cs ≠ []) :
    Inside line p := by
  obtain ⟨hp, hprefix⟩ := h
  refine ⟨hp, ?_⟩
  by_contra hout
  have hdrop : line.toList.drop p.toNat = [] := by
    rw [List.drop_eq_nil_iff, String.length_toList]
    omega
  rw [hdrop] at hprefix
  exact hne (List.prefix_nil.1 hprefix)

theorem NameAt.inside {n : String} {p : ℤ} (h : NameAt line n p) : Inside line p := by
  obtain ⟨⟨c, ds, hname, -⟩, hstands⟩ := h
  exact hstands.inside (by rw [hname]; exact List.cons_ne_nil _ _)

theorem DividesAt.inside {p : ℤ} (h : DividesAt s line p) : Inside line p := by
  rcases h with h | h | h | ⟨n, e, h, -⟩
  · exact h.inside (List.cons_ne_nil _ _)
  · exact h.inside (List.cons_ne_nil _ _)
  · exact h.inside (List.cons_ne_nil _ _)
  · exact h.inside

theorem standsAt_of_eq {u w v : List Char} {p : ℤ} (h : line.toList = u ++ (w ++ v))
    (hp : p = u.length) : StandsAt line p w := by
  subst hp
  refine ⟨Int.natCast_nonneg _, ?_⟩
  rw [h, Int.toNat_natCast, List.drop_left]
  exact List.prefix_append _ _

/-! ## Stages -/

/-- The token of the node stands in the line, at the position of the node. -/
def NodeAt (line : String) (n : Expr) : Prop :=
  ∃ w, Lexer.Word w n.tokenKind n.label ∧ StandsAt line n.position w

theorem derives_of_parse {tokens : List Token} {lim : Parser.Limits} {e : Expr}
    (htokens : Lexer.tokenize line = .ok tokens) (hparse : Parser.parse lim tokens = .ok e) :
    Grammar.Derives .sum (Parser.body tokens) e := by
  have hends : Ends Parser.Stop.Reported (Grammar.Derives .sum (Parser.body tokens))
      (Parser.parse lim tokens) :=
    Parser.ends_parse (Lexer.getLast?_of_tokenize htokens) (Lexer.known_of_tokenize htokens)
  rw [hparse] at hends
  cases hends with
  | ok hderives => exact hderives

theorem derives_of_tree {e : Expr} (h : tree s line = .ok e) :
    ∃ tokens, Lexer.tokenize line = .ok tokens ∧ Grammar.Derives .sum (Parser.body tokens) e := by
  obtain ⟨tokens, htokens, hparse⟩ := exists_of_tree h
  exact ⟨tokens, htokens, derives_of_parse htokens hparse⟩

/-- **Every node of the tree of a line stands for a word of it.** -/
theorem nodeAt_of_tree {root : Expr} (h : tree s line = .ok root) :
    ∀ n ∈ root.preorder, NodeAt line n := by
  obtain ⟨tokens, htokens, hderives⟩ := derives_of_tree h
  intro n hn
  obtain ⟨t, ht, hkind, htext, hposition⟩ :=
    ((hderives.comesFrom n hn).sublist (List.takeWhile_sublist _)).token
  rcases (Lexer.tokenize_eq_ok htokens).mem_split ht with rfl | ⟨u, w, v, hline, hp, hw⟩
  · cases n <;> cases hkind
  · rw [hkind, htext] at hw
    rw [hposition, Nat.cast_zero, zero_add] at hp
    exact ⟨w, hw, standsAt_of_eq hline hp⟩

theorem NodeAt.name {n : Expr} (h : NodeAt line n) (hkind : n.tokenKind = .identifier) :
    NameAt line n.label n.position := by
  obtain ⟨w, hw, hstands⟩ := h
  rw [hkind] at hw
  obtain ⟨rfl, hname⟩ := hw.isName
  exact ⟨hname, hstands⟩

theorem NodeAt.inside {n : Expr} (h : NodeAt line n) : Inside line n.position := by
  obtain ⟨w, hw, hstands⟩ := h
  exact hstands.inside hw.ne_nil

/-- The lexer and the parser stop with errors about places in the line. -/
theorem placed_of_tree {x : EvalError} (h : tree s line = .error (.error x)) :
    x.Placed s line := by
  have hstage := treeStage s line
  generalize tree s line = r at h hstage
  cases hstage with
  | tooLong hlong =>
    cases h
    exact ⟨Int.natCast_nonneg _, Int.ofNat_le.2 hlong.le⟩
  | @lex e _ htokens =>
    cases h
    obtain ⟨u, v, hline, hposition⟩ := Lexer.tokenize_eq_error htokens
    exact standsAt_of_eq (w := [e.character]) hline hposition
  | @parse tokens _ htokens =>
    have hwithin := Parser.parse_within (P := Inside line)
      ⟨le_refl _, Int.natCast_nonneg _⟩ (parserLimits s)
      fun t ht => Lexer.position_of_tokenize htokens ht
    rw [parse] at h
    generalize Parser.parse (parserLimits s) tokens = y at h hwithin
    cases hwithin with
    | ok _ => cases h
    | @stop z hposition => cases z <;> cases h <;> exact hposition

/-- A number of a line is never a fraction over zero. -/
theorem NodeAt.parse_ne {t : String} {p : ℤ} (h : NodeAt line (.number t p)) (limit : Option ℤ) :
    Literal.parse t limit ≠ .error .zeroDenominator := by
  obtain ⟨w, hw, -⟩ := h
  obtain ⟨htext, l, hl⟩ := Lexer.Word.numberText hw
  have hspells : Literal.Spells (Text.trim t.toList) l := by
    rw [show t.toList = w from htext, hl.trim_eq]
    exact hl.spells
  rcases Literal.parse_of_spells hspells limit with ⟨-, hok⟩ | ⟨-, herror⟩
  · rw [hok]
    exact nofun
  · rw [herror]
    split <;> exact nofun

theorem CallRaises.placed {x : EvalError} (h : CallRaises s line x) : x.Placed s line := by
  obtain ⟨n, p, e, hfails, hending⟩ := h
  cases e with
  | raised e =>
    cases hending
    exact ⟨n, p, _, hfails, rfl⟩
  | arithmetic cause =>
    cases cause <;> cases hending
    exact ⟨n, p, _, hfails, rfl⟩

/-- **A node stops the evaluation with an error about its own place**, unless its function raises
one. -/
theorem placed_of_raisedAt {root n : Expr} (htree : tree s line = .ok root)
    (hn : n ∈ root.preorder) {x : EvalError} (h : RaisedAt s n (.error x)) : x.Placed s line := by
  have hnode := nodeAt_of_tree htree n hn
  have hinside := hnode.inside
  cases h with
  | number h =>
    cases ofLiteral_eq_error h with
    | exponent _ | size _ _ => exact hinside
    | zeroDenominator hparse => exact absurd hparse (hnode.parse_ne _)
  | name h =>
    cases ofName_eq_error h with
    | function | unknown => exact hnode.name rfl
  | binary _ _ h =>
    rcases binary_stops h with ⟨-, ⟨⟩⟩ | hguard | hsize
    · cases hguard with
      | fractional | exponent | size => exact hinside
    · cases hsize
      exact hinside
  | resolve h =>
    cases resolve_eq_error h with
    | arity _ | constant | unknown => exact hnode.name rfl
  | call hvs h =>
    cases call_eq_error h with
    | resolve hresolve =>
      cases hresolve with
      | arity _ | constant | unknown => exact hnode.name rfl
    | settle hfunction hall hsettle =>
      generalize hexact : FunctionRule.exact _ _ = c at hsettle
      cases hsettle with
      | size _ => exact hinside
      | ending hending =>
        exact CallRaises.placed
          ⟨_, _, _, ⟨root, _, _, _, _, htree, hn, hvs, hall, hfunction, hexact⟩, hending⟩

/-- **A division by zero is reported at a division bar, at a power, or at the name of a function**
that divides by zero. -/
theorem dividesAt_of_faultSite {root n : Expr} (htree : tree s line = .ok root)
    (hn : n ∈ root.preorder) (h : FaultSite s n) : DividesAt s line n.position := by
  have hnode := nodeAt_of_tree htree n hn
  cases h with
  | operation hop hdivides =>
    obtain ⟨w, hw, hstands⟩ := hnode
    rw [Operation.ofSymbol?_eq_some_iff] at hop
    subst hop
    rcases hdivides with rfl | rfl
    · rw [Lexer.Word.division hw] at hstands
      exact Or.inl hstands
    · rcases Lexer.Word.power hw with rfl | rfl
      · exact Or.inr (Or.inl hstands)
      · exact Or.inr (Or.inr (Or.inl hstands))
  | call hvs hall hfunction hexact hzero =>
    exact Or.inr (Or.inr (Or.inr ⟨_, _, hnode.name rfl,
      ⟨root, _, _, _, _, htree, hn, hvs, hall, hfunction, hexact⟩, hzero⟩))

theorem placed_of_evaluate {root : Expr} (htree : tree s line = .ok root) {x : EvalError}
    (h : Roundoff.evaluate s root = .error (.error x)) : x.Placed s line := by
  rcases evaluate_eq_error h with ⟨n, hn, hraised⟩ | ⟨v, p, hv, hp, ⟨⟩⟩
  · exact placed_of_raisedAt htree hn hraised
  · obtain ⟨n, hn, rfl, hsite⟩ := faultSite_of_ofExpr root v p hv hp
    exact dividesAt_of_faultSite htree hn hsite

end Line

/-! ## Failures -/

theorem append_ne_left {a b : String} (h : a ≠ "") : a ++ b ≠ "" :=
  fun heq => h (String.append_eq_empty_iff.1 heq).1

theorem append_ne_right {a b : String} (h : b ≠ "") : a ++ b ≠ "" :=
  fun heq => h (String.append_eq_empty_iff.1 heq).2

theorem LexError.message_ne (e : LexError) : e.message ≠ "" :=
  append_ne_left (append_ne_left (append_ne_left (by decide)))

theorem ParseError.message_ne (e : ParseError) : e.message ≠ "" := by
  cases e with
  | empty => decide
  | unexpected _ _ =>
    exact append_ne_left (append_ne_left (append_ne_left (append_ne_left (append_ne_left
      (by decide)))))
  | unmatched _ => exact append_ne_left (by decide)
  | unclosed _ _ => exact append_ne_left (append_ne_left (append_ne_left (by decide)))

theorem RaisedError.message_ne (e : RaisedError) : e.message ≠ "" := by
  cases e with
  | lex _ _ => exact append_ne_left (append_ne_left (append_ne_left (by decide)))
  | parse _ _ _ message spoken =>
    cases message with
    | none =>
      exact append_ne_left (append_ne_left (append_ne_left (append_ne_left (append_ne_left
        (by decide)))))
    | some m => exact fun h => spoken (congrArg some h)
  | unknownName _ _ => exact append_ne_left (by decide)
  | resource _ _ spoken | domain _ _ spoken => exact spoken

/-- Every message has words of its own. -/
theorem EvalError.message_ne (e : EvalError) : e.message ≠ "" := by
  cases e with
  | lex e => exact e.message_ne
  | parse e => exact e.message_ne
  | lineTooLong _ _ | literalExponent _ _ _ =>
    exact append_ne_left (append_ne_left (append_ne_left (by decide)))
  | tooDeep _ _ | tooManyNodes _ _ | valueTooLarge _ _ | powerTooLarge _ _ =>
    exact append_ne_left (append_ne_left (by decide))
  | exponentTooLarge _ _ | unknownName _ _ | dividedByZero _ _ => exact append_ne_left (by decide)
  | functionAsConstant _ _ | constantAsFunction _ _ => exact append_ne_right (by decide)
  | wrongArity _ _ _ _ =>
    exact append_ne_left (append_ne_left (append_ne_left (append_ne_right (by decide))))
  | fractionalExponent _ =>
    show "exponent is not an integer; the exact result would not be rational" ≠ ""
    decide
  | zeroDenominator | fractionalPower => decide
  | raised e => exact e.message_ne

/-- An error about the name itself: a function without arguments, a constant with some, or the wrong
number of them. -/
inductive EvalError.Misnames (n : String) (p : ℤ) : EvalError → Prop
  | function : Misnames n p (.functionAsConstant n p)
  | constant : Misnames n p (.constantAsFunction n p)
  | arity {arity given : ℕ} : Misnames n p (.wrongArity n arity given p)

/-- The failure is an error that a function called in the line has raised itself, at the exact
values of its arguments. -/
def Failure.RaisedInCall (s : Settings) (line : String) (f : Failure) : Prop :=
  ∃ x, Line.CallRaises s line x ∧ f = x.toFailure

/-- **A failure is well formed and points into its line.**  An error that a function has raised
itself has the form of a failure too, but it may be about any place, or about none. -/
structure Failure.WellFormed (s : Settings) (line : String) (f : Failure) : Prop where
  position : ¬ f.RaisedInCall s line → ∃ p, f.position = some p ∧ Line.Inside line p
  message : f.message ≠ ""
  expected : f.expected.isSome ↔ f.kind = .parseError
  found : f.found.isSome ↔ f.kind = .parseError
  shadow : f.shadow.isSome ↔ f.kind = .divisionByZero
  character : f.kind = .lexError → ¬ f.RaisedInCall s line →
    ∃ e, f = (EvalError.lex e).toFailure ∧ Line.StandsAt line e.position [e.character]
  unknown : f.kind = .unknownIdentifier → ¬ f.RaisedInCall s line →
    ∃ n p, f = (EvalError.unknownName n p).toFailure ∧ Line.NameAt line n p
  domain : f.kind = .domainError → ¬ f.RaisedInCall s line →
    (∃ n p e, EvalError.Misnames n p e ∧ f = e.toFailure ∧ Line.NameAt line n p) ∨
      ∃ p, f = (EvalError.fractionalExponent p).toFailure
  division : f.kind = .divisionByZero →
    ∃ p shadow, f = (EvalError.dividedByZero p shadow).toFailure ∧ Line.DividesAt s line p

section

variable {s : Settings} {line : String}

/-- An error points into the line, or a function has raised it. -/
theorem EvalError.Placed.raises_or_inside {e : EvalError} (h : e.Placed s line) :
    Line.CallRaises s line e ∨ ∃ p, e.position = some p ∧ Line.Inside line p := by
  cases e with
  | lex e => exact Or.inr ⟨_, rfl, Line.StandsAt.inside h (List.cons_ne_nil _ _)⟩
  | dividedByZero => exact Or.inr ⟨_, rfl, Line.DividesAt.inside h⟩
  | unknownName | functionAsConstant | constantAsFunction | wrongArity =>
    exact Or.inr ⟨_, rfl, Line.NameAt.inside h⟩
  | zeroDenominator => exact h.elim
  | fractionalPower | raised _ => exact Or.inl h
  | _ => exact Or.inr ⟨_, rfl, h⟩

theorem EvalError.Placed.wellFormed {e : EvalError} (h : e.Placed s line) :
    e.toFailure.WellFormed s line where
  position hraised := h.raises_or_inside.resolve_left fun hcall => hraised ⟨e, hcall, rfl⟩
  message := e.message_ne
  expected := by
    cases e with
    | raised r => exact r.isSome_expected?_iff
    | _ => simp [toFailure, expected?, kind]
  found := by
    cases e with
    | raised r => exact r.isSome_found?_iff
    | _ => simp [toFailure, found?, kind]
  shadow := by
    cases e with
    | zeroDenominator => exact h.elim
    | raised r => simpa [toFailure, shadow?, kind] using r.kind_ne
    | _ => simp [toFailure, shadow?, kind]
  character hkind hraised := by
    cases e with
    | lex e => exact ⟨e, rfl, h⟩
    | raised _ => exact absurd ⟨_, h, rfl⟩ hraised
    | _ => cases hkind
  unknown hkind hraised := by
    cases e with
    | unknownName n p => exact ⟨n, p, rfl, h⟩
    | raised _ => exact absurd ⟨_, h, rfl⟩ hraised
    | _ => cases hkind
  domain hkind hraised := by
    cases e with
    | functionAsConstant n p => exact Or.inl ⟨n, p, _, .function, rfl, h⟩
    | constantAsFunction n p => exact Or.inl ⟨n, p, _, .constant, rfl, h⟩
    | wrongArity n arity given p => exact Or.inl ⟨n, p, _, .arity, rfl, h⟩
    | fractionalExponent p => exact Or.inr ⟨p, rfl⟩
    | fractionalPower | raised _ => exact absurd ⟨_, h, rfl⟩ hraised
    | _ => cases hkind
  division hkind := by
    cases e with
    | dividedByZero p shadow => exact ⟨p, shadow, rfl, h⟩
    | zeroDenominator => exact h.elim
    | raised r => exact absurd hkind r.kind_ne
    | _ => cases hkind

end

namespace Line

variable {s : Settings} {line : String}

/-- **Every failure is well formed and points into its line**, under all settings. -/
theorem failure_wellFormed {f : Failure} (h : evaluate s line = .ok (.failure f)) :
    f.WellFormed s line := by
  obtain ⟨x, rfl, hstop⟩ := evaluate_eq_failure h
  rcases hstop with htree | ⟨root, htree, hvalue⟩
  · exact (placed_of_tree htree).wellFormed
  · exact (placed_of_evaluate htree hvalue).wellFormed

/-- A division by zero in a longer line. -/
theorem failure_wellFormed_quotient : ∃ f, evaluate {} "2 + 1/0" = .ok (.failure f) ∧
    f.position = some 5 ∧ f.WellFormed {} "2 + 1/0" := by
  have heval : evaluate {} "2 + 1/0" = .ok (.failure (EvalError.dividedByZero 5
      ⟨.infinity false, [⟨.operation .div .one (.zero false), .infinity false, .divideByZero⟩]⟩
      ).toFailure) := by
    decide +kernel
  exact ⟨_, heval, rfl, failure_wellFormed heval⟩

/-- The reciprocal and the power as functions, and one that takes on no work. -/
def functional : Settings where
  symbols := ⟨SymbolTable.defaultConstants, SymbolTable.default.functions ++ [
    { name := "recip"
      arity := 1
      exact := fun x => (Exact.reciprocal (x ⟨0, Nat.zero_lt_one⟩)).mapError .arithmetic
      shadow := fun x => Shadow.apply .div ⟨.one, []⟩ (x ⟨0, Nat.zero_lt_one⟩) },
    { name := "power"
      arity := 2
      exact := fun x =>
        (Exact.pow (x ⟨0, Nat.two_pos⟩) (x ⟨1, Nat.one_lt_two⟩)).mapError .arithmetic
      shadow := fun x => Shadow.apply .pow (x ⟨0, Nat.two_pos⟩) (x ⟨1, Nat.one_lt_two⟩) },
    { name := "idle"
      arity := 1
      exact := fun _ => .error (.raised (.resource "too much work" none (by decide)))
      shadow := fun x => x ⟨0, Nat.zero_lt_one⟩ }]⟩

/-- A function that divides by zero is reported at its name, where no operator stands; one that
raises its argument to a fractional power is reported nowhere, and so is one that raises an error of
its own without a place. -/
theorem failure_of_function :
    (∃ f, evaluate functional "recip(0/1)" = .ok (.failure f) ∧ f.kind = .divisionByZero ∧
      f.position = some 0 ∧ ∀ w ∈ [['/'], ['^'], ['*', '*']], ¬ StandsAt "recip(0/1)" 0 w) ∧
    (∃ f, evaluate functional "power(2, 1/2)" = .ok (.failure f) ∧ f.kind = .domainError ∧
      f.position = none) ∧
    ∃ f, evaluate functional "idle(1)" = .ok (.failure f) ∧ f.kind = .resourceExhausted ∧
      f.position = none := by
  have hrecip : evaluate functional "recip(0/1)" = .ok (.failure (EvalError.dividedByZero 0
      ⟨.infinity false, [⟨.operation .div .one (.zero false), .infinity false, .divideByZero⟩]⟩
      ).toFailure) := by
    decide +kernel
  have hpower : evaluate functional "power(2, 1/2)" =
      .ok (.failure EvalError.fractionalPower.toFailure) := by
    decide +kernel
  have hidle : evaluate functional "idle(1)" = .ok (.failure
      (EvalError.raised (.resource "too much work" none (by decide))).toFailure) := by
    decide +kernel
  refine ⟨⟨_, hrecip, rfl, rfl, fun w hw hstands => ?_⟩, ⟨_, hpower, rfl, rfl⟩, _, hidle, rfl, rfl⟩
  obtain ⟨-, hprefix⟩ := hstands
  fin_cases hw <;> revert hprefix <;> decide +kernel

end Line

end Roundoff
