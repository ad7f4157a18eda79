import Roundoff.Proofs.Binary64.Line
import Roundoff.Proofs.Dual.Recursion
import Roundoff.Proofs.Dual.Steps
import Roundoff.Proofs.Expr.Acceptance
import Roundoff.Proofs.Line
import Roundoff.Proofs.Literal.Printed
import Roundoff.Proofs.Literal.Size
import Roundoff.Proofs.Token.Words

/-! # Lines that are literals

A literal text can be read at once, or as a line: then its sign is an operator on a number, and its
fraction bar a division.  Both ways give the same number.  The text comes apart into few tokens,
these derive a tree without the parser reaching a limit, and the tree has the value of the literal,
which is far too small to be refused for its size.
-/
namespace Roundoff

open Text (isBlank)
open Literal (SignText)
open Numeral (Digits positional)

/-! ## Short lines -/

/-- A line of few tokens has the tree that they derive. -/
theorem Line.tree_of_derives {line : String} {phrase : List Token} {q : ℤ} {e : Expr}
    (hlength : line.length ≤ 4096) (htokens : Lexer.tokenize line = .ok (phrase ++ [.finish q]))
    (hshort : phrase.length ≤ 60) (h : Grammar.Derives .sum phrase e) :
    Line.tree {} line = .ok e := by
  have hcount : (phrase ++ [Token.finish q]).length ≤ 61 := by
    rw [List.length_append, List.length_singleton]
    omega
  have hbody : Parser.body (phrase ++ [Token.finish q]) = phrase :=
    Parser.body_append h.kind_ne rfl
  have hend : (phrase ++ [Token.finish q]).getLast?.map Token.kind = some .endOfInput := by
    rw [List.getLast?_concat]
    rfl
  have hparse : Parser.parse (Line.parserLimits {}) (phrase ++ [Token.finish q]) = .ok e := by
    have hdepth : Parser.fuelFor (phrase ++ [Token.finish q]) ≤ 128 := by
      rw [Parser.fuelFor]
      omega
    have hnodes : (phrase ++ [Token.finish q]).length ≤ 1024 := by omega
    rcases Parser.parse_agree hend (hbody.symm ▸ h) with hok | ⟨x, hx, hstop⟩
    · exact hok
    · exact absurd hx (Parser.parse_room hdepth hnodes hstop)
  rw [Line.tree]
  dsimp only
  rw [if_neg (not_lt.2 hlength), htokens]
  show (Parser.parse (Line.parserLimits {}) _).mapError _ = _
  rw [hparse, mapError_ok]

/-! ## Values -/

/-- Under the default settings the tree has an exact value, and a shadow that is the same number
as the value rounded. -/
def Expr.HasValue (e : Expr) (r : ℚ) : Prop :=
  ∃ shadow, DualValue.ofExpr {} e = .ok ⟨.ok r, shadow, []⟩ ∧
    shadow.value.numEq (Binary64.ofRat r) = true

section
variable {e : Expr} {r : ℚ}

theorem Expr.hasValue_number {w : List Char} {l : Literal} (h : Lexer.NumberText w l)
    (hlength : w.length ≤ 4096) (hexp : l.exponent.natAbs ≤ 4096) (p : ℤ) :
    (Expr.number (String.ofList w) p).HasValue l.worth := by
  have hspell : Literal.Spells (Text.trim (String.ofList w).toList) l := by
    rw [String.toList_ofList, h.trim_eq]
    exact h.spells
  have hparse :
      Literal.parse (String.ofList w) (some ({} : Settings).maxLiteralExponent) = .ok l.worth := by
    rcases Literal.parse_of_spells hspell (some ({} : Settings).maxLiteralExponent) with
      ⟨-, hok⟩ | ⟨⟨m, hm, hlt⟩, -⟩
    · exact hok
    · have hmax : m = 4096 := (Option.some.inj hm).symm
      omega
  have hsize : DualValue.checkSize {} p l.worth = .ok l.worth := by
    refine DualValue.checkSize_eq_ok_iff.2 ⟨?_, rfl⟩
    refine (Literal.bitLength_worth_le h.spells).trans ?_
    show _ ≤ 1048576
    omega
  refine ⟨Shadow.ofRat l.worth (some (String.ofList w)), ?_, ?_⟩
  · rw [DualValue.ofExpr, DualValue.ofLiteral, hparse]
    dsimp only
    rw [hsize]
    rfl
  · exact (Binary64.numEq_iff (Binary64.isNaN_ofRat _) (Binary64.isNaN_ofRat _)).2 rfl

theorem Expr.HasValue.plus (h : e.HasValue r) (p : ℤ) : (Expr.unary "+" e p).HasValue r := by
  obtain ⟨shadow, he, hshadow⟩ := h
  refine ⟨shadow, ?_, hshadow⟩
  rw [DualValue.ofExpr, he]
  rfl

theorem Expr.HasValue.minus (h : e.HasValue r) (p : ℤ) : (Expr.unary "-" e p).HasValue (-r) := by
  obtain ⟨shadow, he, hshadow⟩ := h
  refine ⟨shadow.neg, ?_, ?_⟩
  · rw [DualValue.ofExpr, he]
    rfl
  · have hnan : shadow.value.isNaN = false := by
      by_contra hnan
      simp [Binary64.numEq, Binary64.compare?, hnan] at hshadow
    rw [Binary64.numEq_iff hnan (Binary64.isNaN_ofRat r)] at hshadow
    refine (Binary64.numEq_iff (x := shadow.neg.value) hnan (Binary64.isNaN_ofRat _)).2 ?_
    rw [Shadow.value_neg, Binary64.ordinal_neg, hshadow, Binary64.ordinal_ofRat_neg]

/-- A division of values settles as the exact division does. -/
theorem Expr.HasValue.quotient {l : Expr} {n d : ℚ} (hl : l.HasValue n) (hr : e.HasValue d)
    (p : ℤ) : ∃ shadow, DualValue.ofExpr {} (.binary "/" l e p) =
      (DualValue.settle {} p ((Exact.div n d).mapError .arithmetic)).map fun exact =>
        ⟨exact, shadow, []⟩ := by
  obtain ⟨x, hx, -⟩ := hl
  obtain ⟨y, hy, -⟩ := hr
  refine ⟨Shadow.apply .div x y, ?_⟩
  rw [DualValue.ofExpr, hx, hy]
  show DualValue.binary {} "/" p ⟨.ok n, x, []⟩ ⟨.ok d, y, []⟩ = _
  rw [DualValue.binary_eq (show Operation.ofSymbol? "/" = some .div from
    Operation.ofSymbol?_symbol .div), if_neg (by decide), DualValue.combine]
  show ((DualValue.settle {} p ((Exact.div n d).mapError .arithmetic)) >>= _) = _
  cases DualValue.settle {} p ((Exact.div n d).mapError .arithmetic) with
  | error x => rfl
  | ok z => rfl

end

/-! ## Phrases of a literal -/

theorem Lexer.numberText_digits {ds : List Char} (h : Digits ds) :
    NumberText ds ⟨false, ds, [], [], 0⟩ := by
  have hnumber := NumberText.mk (.whole h) .none (fun _ => rfl) .none
  rw [List.nil_append, List.append_nil] at hnumber
  exact hnumber

section
variable {p : ℕ} {sgn w rest : List Char} {ts : List Token} {negative : Bool} {r : ℚ}

/-- A signed number is scanned as a phrase, the value of which has the sign. -/
theorem exists_signed {l : Literal} (hsgn : SignText sgn negative) (hw : Lexer.NumberText w l)
    (hvalue : ∀ q, (Expr.number (String.ofList w) q).HasValue r) (hr : Lexer.EndsNumber rest)
    (hrest : Lexer.scan (p + (sgn ++ w).length) rest = (ts, none)) :
    ∃ phrase e, Lexer.scan p (sgn ++ (w ++ rest)) = (phrase ++ ts, none) ∧ phrase.length ≤ 2 ∧
      Grammar.Derives .signed phrase e ∧ e.HasValue (if negative then -r else r) := by
  have hnumber : ∀ {q : ℕ}, Grammar.Derives .signed [⟨.number, String.ofList w, q⟩]
      (.number (String.ofList w) q) := fun {q} =>
    .ofPower (.ofAtom (.number (t := ⟨.number, String.ofList w, q⟩) rfl))
  rw [List.length_append, ← add_assoc] at hrest
  have hscan := Lexer.scan_number hw hr hrest
  cases hsgn with
  | none => exact ⟨[_], _, hscan, by simp, hnumber, hvalue _⟩
  | plus =>
    exact ⟨[_, _], _, Lexer.scan_symbol (by decide) rfl hscan, by simp,
      .sign (t := ⟨.operator, "+", p⟩) rfl (Or.inr rfl) hnumber, (hvalue _).plus p⟩
  | minus =>
    exact ⟨[_, _], _, Lexer.scan_symbol (by decide) rfl hscan, by simp,
      .sign (t := ⟨.operator, "-", p⟩) rfl (Or.inl rfl) hnumber, (hvalue _).minus p⟩

/-- A fraction bar and a denominator at the end of a line. -/
theorem exists_divisor {u v den b : List Char} (hu : ∀ c ∈ u, isBlank c = true)
    (hv : ∀ c ∈ v, isBlank c = true) (hden : Digits den) (hb : ∀ c ∈ b, isBlank c = true) (p : ℕ) :
    ∃ i j k, Lexer.scan p (u ++ '/' :: (v ++ (den ++ b))) =
      ([⟨.operator, "/", i⟩, ⟨.number, String.ofList den, j⟩, .finish k], none) := by
  obtain ⟨k, hend⟩ := Lexer.scan_end hb (p + u.length + 1 + v.length + den.length)
  refine ⟨(p + u.length : ℕ), (p + u.length + 1 + v.length : ℕ), k, ?_⟩
  rw [Lexer.scan_blanks hu]
  refine Lexer.scan_symbol (by decide) rfl ?_
  rw [Lexer.scan_blanks hv]
  exact Lexer.scan_number (Lexer.numberText_digits hden) (Lexer.endsNumber_blanks hb) hend

end

/-- A decimal literal is a sign and a number, with the value of its magnitude. -/
theorem Literal.Spells.exists_number {cs : List Char} {l : Literal} (h : Spells cs l) :
    ∃ sgn w m, cs = sgn ++ w ∧ SignText sgn l.negative ∧ Lexer.NumberText w m ∧
      m.exponent = l.exponent ∧ l.worth = if l.negative then -m.worth else m.worth := by
  obtain ⟨hsgn, hm, hg, hpoint, he⟩ := h
  refine ⟨_, _, _, rfl, hsgn, .mk hm hg hpoint he, rfl, ?_⟩
  simp only [Literal.worth]
  split
  · simp only [Bool.false_eq_true, if_false]
    ring
  · rfl

theorem Expr.hasValue_digits {ds : List Char} (h : Digits ds) (hlength : ds.length ≤ 4096)
    (p : ℤ) : (Expr.number (String.ofList ds) p).HasValue (positional ds) := by
  have hvalue := hasValue_number (Lexer.numberText_digits h) hlength (Nat.zero_le _) p
  rw [Literal.worth_whole] at hvalue
  exact hvalue

/-- **A decimal literal is a line with its value.** -/
theorem Line.exists_tree_of_spells {text : String} {l : Literal}
    (h : Literal.Spells (Text.trim text.toList) l) (hlength : text.length ≤ 4096)
    (hexp : l.exponent.natAbs ≤ 4096) :
    ∃ e, Line.tree {} text = .ok e ∧ e.HasValue l.worth := by
  obtain ⟨u, v, htext, hu, hv⟩ := Text.exists_eq_trim_append text.toList
  obtain ⟨sgn, w, m, htrim, hsgn, hw, hm, hworth⟩ := h.exists_number
  rw [htrim, List.append_assoc] at htext
  have hshort : w.length ≤ 4096 := by
    have := congrArg List.length htext
    simp only [List.length_append, String.length_toList] at this
    omega
  have hnumber := Expr.hasValue_number hw hshort (hm.symm ▸ hexp)
  obtain ⟨k, hend⟩ := Lexer.scan_end hv (0 + u.length + (sgn ++ w).length)
  obtain ⟨phrase, e, hscan, hcount, he, hvalue⟩ :=
    exists_signed hsgn hw hnumber (Lexer.endsNumber_blanks hv) hend
  have htokens : Lexer.tokenize text = .ok (phrase ++ [.finish k]) := by
    rw [Lexer.tokenize, htext, Lexer.scan_blanks hu, hscan]
  exact ⟨e, Line.tree_of_derives hlength htokens (hcount.trans (by decide)) (he.loosen (by decide)),
    hworth.symm ▸ hvalue⟩

/-- **A fraction is a line that divides its numerator by its denominator.** -/
theorem Line.exists_tree_of_spellsFraction {text : String} {n : ℤ} {d : ℕ}
    (h : Literal.SpellsFraction (Text.trim text.toList) n d) (hlength : text.length ≤ 4096) :
    ∃ l r p, Line.tree {} text = .ok (.binary "/" l r p) ∧ l.HasValue n ∧ r.HasValue d := by
  obtain ⟨a, b, htext, ha, hb⟩ := Text.exists_eq_trim_append text.toList
  generalize Text.trim text.toList = cs at h htext
  obtain @⟨sgn, num, u, v, den, negative, hsgn, hnum, hu, hv, hden⟩ := h
  have hparts : num.length ≤ 4096 ∧ den.length ≤ 4096 := by
    have := congrArg List.length htext
    simp only [List.length_append, List.length_cons, String.length_toList] at this
    omega
  obtain ⟨i, j, k, htail⟩ :=
    exists_divisor hu hv hden hb (0 + a.length + (sgn ++ num).length)
  obtain ⟨phrase, e, hscan, hcount, he, hvalue⟩ := exists_signed hsgn
    (Lexer.numberText_digits hnum) (Expr.hasValue_digits hnum hparts.1)
    ((Lexer.endsNumber_bar _).blanks hu) htail
  have htokens : Lexer.tokenize text = .ok
      (phrase ++ [⟨.operator, "/", i⟩, ⟨.number, String.ofList den, j⟩] ++ [.finish k]) := by
    rw [Lexer.tokenize, htext]
    simp only [List.append_assoc, List.cons_append]
    rw [Lexer.scan_blanks ha, hscan]
    rfl
  have hproduct : Grammar.Derives .product
      (phrase ++ [⟨.operator, "/", i⟩, ⟨.number, String.ofList den, j⟩])
      (.binary "/" e (.number (String.ofList den) j) i) :=
    .product (t := ⟨.operator, "/", i⟩) (he.loosen (by decide)) rfl (Or.inr rfl)
      (.ofPower (.ofAtom (.number (t := ⟨.number, String.ofList den, j⟩) rfl)))
  have hshort : (phrase ++ [Token.mk .operator "/" i, ⟨.number, String.ofList den, j⟩]).length
      ≤ 60 := by
    rw [List.length_append]
    simp only [List.length_cons, List.length_nil]
    omega
  refine ⟨e, .number (String.ofList den) j, i,
    Line.tree_of_derives hlength htokens hshort (.ofProduct hproduct), ?_,
    Expr.hasValue_digits hden hparts.2 j⟩
  have hsigned : ((Literal.signed negative (positional num) : ℤ) : ℚ) =
      if negative then -(positional num : ℚ) else positional num := by
    rw [Literal.signed]
    split <;> simp
  rw [hsigned]
  exact hvalue

/-! ## Outcomes -/

namespace Line

variable {text : String} {e : Expr} {names : List String} {shadow : Shadow}

theorem evaluate_of_value {r : ℚ} (htree : tree {} text = .ok e)
    (h : DualValue.ofExpr {} e = .ok ⟨.ok r, shadow, names⟩) :
    evaluate {} text = .ok (.success ⟨r, shadow, names⟩ (Metrics.compute r shadow.value)) := by
  have hrun : run {} text = .ok (⟨r, shadow, names⟩, Metrics.compute r shadow.value) := by
    rw [run, htree, ok_bind, Roundoff.evaluate_eq, h]
    rfl
  rw [evaluate, hrun]

theorem evaluate_of_fault {p : ℤ} (htree : tree {} text = .ok e)
    (h : DualValue.ofExpr {} e = .ok ⟨.error p, shadow, names⟩) :
    evaluate {} text = .ok (.failure (EvalError.dividedByZero p shadow).toFailure) := by
  have hrun : run {} text = .error (.error (.dividedByZero p shadow)) := by
    rw [run, htree, ok_bind, Roundoff.evaluate_eq, h]
    rfl
  rw [evaluate, hrun]

theorem evaluate_of_spells {l : Literal} (h : Literal.Spells (Text.trim text.toList) l)
    (hlength : text.length ≤ 4096) (hexp : l.exponent.natAbs ≤ 4096) :
    ∃ v m, evaluate {} text = .ok (.success v m) ∧ v.exact = l.worth ∧
      v.shadow.value.numEq (Binary64.ofRat l.worth) = true := by
  obtain ⟨e, htree, shadow, hvalue, hshadow⟩ := exists_tree_of_spells h hlength hexp
  exact ⟨_, _, evaluate_of_value htree hvalue, rfl, hshadow⟩

theorem evaluate_of_spellsFraction {n : ℤ} {d : ℕ}
    (h : Literal.SpellsFraction (Text.trim text.toList) n d) (hlength : text.length ≤ 4096) :
    (d ≠ 0 → ∃ v m, evaluate {} text = .ok (.success v m) ∧ v.exact = n / d) ∧
    (d = 0 → ∃ f, evaluate {} text = .ok (.failure f) ∧ f.kind = .divisionByZero) := by
  obtain ⟨l, r, p, htree, hl, hr⟩ := exists_tree_of_spellsFraction h hlength
  obtain ⟨shadow, hvalue⟩ := hl.quotient hr p
  refine ⟨fun hd => ?_, fun hd => ?_⟩
  · have hcount : (Text.trim text.toList).length ≤ 4096 :=
      (Numeral.length_trim_le _).trans (String.length_toList.le.trans hlength)
    obtain ⟨hn, hden⟩ := h.lt
    have hbits : Exact.bitLength ((n : ℚ) / d) ≤ 1048576 := by
      refine le_trans (Exact.bitLength_div_le hd (hn.trans (ten_pow_lt _))
        (hden.trans (ten_pow_lt _))) ?_
      omega
    have hsize : DualValue.checkSize {} p ((n : ℚ) / d) = .ok ((n : ℚ) / d) :=
      DualValue.checkSize_eq_ok_iff.2 ⟨hbits, rfl⟩
    rw [Exact.div, if_neg (Nat.cast_ne_zero.2 hd), mapError_ok, DualValue.settle, hsize] at hvalue
    exact ⟨_, _, evaluate_of_value htree hvalue, rfl⟩
  · subst hd
    rw [Exact.div, if_pos Nat.cast_zero] at hvalue
    exact ⟨_, evaluate_of_fault htree hvalue, rfl⟩

/-- **A literal text and the line of the same text have the same value.**  Take a text within the
default limits on length and literal exponents.  If it is read as a number, the line has that exact
value, and without a fraction bar its shadow is the number rounded; if its denominator is zero, the
line fails with a division by zero.  So the text of a rational evaluates to that rational. -/
theorem evaluate_of_parse :
    (∀ text : String, text.length ≤ ({} : Settings).maxInputLength →
      (∀ l, Literal.split text = .ok l →
        l.exponent.natAbs ≤ ({} : Settings).maxLiteralExponent) →
      (∀ r, Literal.parse text = .ok r →
        ∃ v m, evaluate {} text = .ok (.success v m) ∧ v.exact = r ∧
          ('/' ∉ text.toList → v.shadow.value.numEq (Binary64.ofRat r) = true)) ∧
      (Literal.parse text = .error .zeroDenominator →
        ∃ f, evaluate {} text = .ok (.failure f) ∧ f.kind = .divisionByZero)) ∧
    ∀ r : ℚ, (Exact.text r).length ≤ ({} : Settings).maxInputLength →
      ∃ v m, evaluate {} (Exact.text r) = .ok (.success v m) ∧ v.exact = r := by
  have hagree : ∀ text : String, text.length ≤ 4096 →
      (∀ l, Literal.split text = .ok l → l.exponent.natAbs ≤ 4096) →
      ∀ r, Literal.parse text = .ok r →
        ∃ v m, evaluate {} text = .ok (.success v m) ∧ v.exact = r ∧
          ('/' ∉ text.toList → v.shadow.value.numEq (Binary64.ofRat r) = true) := by
    intro text hlength hexp r hparse
    have hdenotes := Literal.parse_eq_ok_iff.1 hparse
    obtain ⟨u, v, htext, -, -⟩ := Text.exists_eq_trim_append text.toList
    generalize htrim : Text.trim text.toList = cs at hdenotes htext
    cases hdenotes with
    | decimal hl =>
      obtain ⟨v, m, heval, hexact, hshadow⟩ :=
        evaluate_of_spells (htrim ▸ hl) hlength (hexp _ (Literal.split_of_spells (htrim ▸ hl)))
      exact ⟨v, m, heval, hexact, fun _ => hshadow⟩
    | fraction hf hd =>
      obtain ⟨v, m, heval, hexact⟩ := (evaluate_of_spellsFraction (htrim ▸ hf) hlength).1 hd
      refine ⟨v, m, heval, hexact, fun hbar => absurd ?_ hbar⟩
      rw [htext]
      exact List.mem_append_right _ (List.mem_append_left _ hf.mem_bar)
  refine ⟨fun text hlength hexp => ⟨hagree text hlength hexp, fun hparse => ?_⟩,
    fun r hlength => ?_⟩
  · obtain ⟨n, hn⟩ := Literal.spells_over_zero hparse
    exact (evaluate_of_spellsFraction hn hlength).2 rfl
  · obtain ⟨v, m, heval, hexact, -⟩ := hagree _ hlength (fun l hl => by
      rw [Literal.exponent_of_split_text hl]
      decide) r (Literal.parse_text r)
    exact ⟨v, m, heval, hexact⟩

/-- A fraction with a sign and blanks, a fraction over zero, a literal with a repeating group and a
power of ten, and the text of a rational. -/
theorem evaluate_signed_fraction :
    (∃ v m, evaluate {} " -3 / 4 " = .ok (.success v m) ∧ v.exact = -3 / 4) ∧
    (∃ f, evaluate {} "1/0" = .ok (.failure f) ∧ f.kind = .divisionByZero) ∧
    (∃ v m, evaluate {} "-1.2(34)e-3" = .ok (.success v m) ∧ v.exact = -611 / 495000 ∧
      v.shadow.value.numEq (Binary64.ofRat (-611 / 495000)) = true) ∧
    ∃ v m, evaluate {} (Exact.text (22 / 7)) = .ok (.success v m) ∧ v.exact = 22 / 7 := by
  have hnone : ∀ {text : String} {e : LiteralError}, Literal.split text = .error e →
      ∀ l, Literal.split text = .ok l → l.exponent.natAbs ≤ ({} : Settings).maxLiteralExponent := by
    intro text e herror l hl
    rw [herror] at hl
    cases hl
  obtain ⟨hparse, hprinted⟩ := evaluate_of_parse
  refine ⟨?_, ?_, ?_, hprinted (22 / 7) (by decide +kernel)⟩
  · have hsplit : Literal.split " -3 / 4 " = .error (.notDecimal " -3 / 4 ") := by decide +kernel
    obtain ⟨v, m, heval, hexact, -⟩ := (hparse " -3 / 4 " (by decide) (hnone hsplit)).1 (-3 / 4)
      (by decide +kernel)
    exact ⟨v, m, heval, hexact⟩
  · have hsplit : Literal.split "1/0" = .error (.notDecimal "1/0") := by decide +kernel
    exact (hparse "1/0" (by decide) (hnone hsplit)).2 (by decide +kernel)
  · have hsplit : Literal.split "-1.2(34)e-3" = .ok ⟨true, ['1'], ['2'], ['3', '4'], -3⟩ := by
      decide +kernel
    obtain ⟨v, m, heval, hexact, hshadow⟩ := (hparse "-1.2(34)e-3" (by decide) (by
      intro l hl
      rw [hsplit] at hl
      cases hl
      decide)).1 (-611 / 495000) (by decide +kernel)
    exact ⟨v, m, heval, hexact, hshadow (by decide)⟩

end Line

end Roundoff
