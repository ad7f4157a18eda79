import Roundoff.Proofs.Dual.Steps
import Roundoff.Proofs.Numeral.Written
import Roundoff.Proofs.Shadow.Detection
import Roundoff.Proofs.Token.Literal

/-! # Number tokens behind their guards

Every number token of a line is a literal with a value, and two guards stand before its evaluation:
one for the exponent, checked before the value is computed, and one for the size of the value.  What
a guard refuses is refused at the position of the token, for exhausted resources.  The first guard
writes the exponent into its message, and an exponent of more than `quotableDigits` digits cannot be
written there: such a literal is no error about the line, but a defect (`ofLiteral_number`).  A line
of at most `quotableDigits` characters holds no such literal.
-/
namespace Roundoff.DualValue

open Numeral (quotableDigits)
open Lexer (NumberText)

/-- **What the guards make of a number token** with exponent `e` and value `r`. -/
inductive Guarded (s : Settings) (t : Token) (e : ℤ) (r : ℚ) : Except Stop DualValue → Prop
  | value : e.natAbs ≤ s.maxLiteralExponent → Exact.bitLength r ≤ s.maxRationalBits →
      Guarded s t e r (.ok ⟨.ok r, Shadow.ofRat r (some t.text), []⟩)
  | exponent : s.maxLiteralExponent < e.natAbs → e.natAbs < 10 ^ quotableDigits →
      Guarded s t e r (.error (.error (.literalExponent e s.maxLiteralExponent t.position)))
  | size : e.natAbs ≤ s.maxLiteralExponent → s.maxRationalBits < Exact.bitLength r →
      Guarded s t e r (.error (.error (.valueTooLarge s.maxRationalBits t.position)))
  | unquotable : s.maxLiteralExponent < e.natAbs → 10 ^ quotableDigits ≤ e.natAbs →
      Guarded s t e r (.error (.defect (.literal .exponentUnquotable)))

/-- The guards of a number. -/
theorem guarded_of_numberText (s : Settings) {t : Token} {l : Literal}
    (h : NumberText t.text.toList l) :
    Guarded s t l.exponent l.worth (ofLiteral s t.text t.position) := by
  have hspells : Literal.Spells (Text.trim t.text.toList) l := by
    rw [h.trim_eq]
    exact h.spells
  rcases Literal.parse_of_spells hspells (some s.maxLiteralExponent) with
    ⟨hwithin, hparse⟩ | ⟨⟨m, ⟨⟩, hexceeds⟩, hparse⟩
  · have hexponent : l.exponent.natAbs ≤ s.maxLiteralExponent := Int.ofNat_le.1 (hwithin _ rfl)
    rw [ofLiteral, hparse]
    by_cases hsize : s.maxRationalBits < Exact.bitLength l.worth
    · simp only [checkSize, if_pos hsize]
      exact .size hexponent hsize
    · simp only [checkSize, if_neg hsize]
      exact .value hexponent (not_lt.1 hsize)
  · have hexponent : s.maxLiteralExponent < l.exponent.natAbs := Int.ofNat_lt.1 hexceeds
    rw [ofLiteral, hparse]
    by_cases hquotable : Numeral.isQuotable l.exponent = true
    · rw [if_pos hquotable]
      exact .exponent hexponent (Numeral.isQuotable_iff.1 hquotable)
    · rw [if_neg hquotable]
      exact .unquotable hexponent (not_lt.1 fun hlt => hquotable (Numeral.isQuotable_iff.2 hlt))

section

variable {s : Settings} {t : Token} {e : ℤ} {r : ℚ} {x : Except Stop DualValue}

theorem Guarded.eq_ok_iff (h : Guarded s t e r x) (v : DualValue) :
    x = .ok v ↔ (e.natAbs ≤ s.maxLiteralExponent ∧ Exact.bitLength r ≤ s.maxRationalBits) ∧
      v = ⟨.ok r, Shadow.ofRat r (some t.text), []⟩ := by
  cases h with
  | value hexponent hsize => simp [hexponent, hsize, eq_comm]
  | exponent hexponent _ => simp [hexponent]
  | size _ hsize => simp [hsize]
  | unquotable hexponent _ => simp [hexponent]

theorem Guarded.eq_refusal_iff (h : Guarded s t e r x) (y : EvalError) :
    x = .error (.error y) ↔
      (s.maxLiteralExponent < e.natAbs ∧ e.natAbs < 10 ^ quotableDigits) ∧
        y = .literalExponent e s.maxLiteralExponent t.position ∨
      (e.natAbs ≤ s.maxLiteralExponent ∧ s.maxRationalBits < Exact.bitLength r) ∧
        y = .valueTooLarge s.maxRationalBits t.position := by
  cases h with
  | value hexponent hsize => simp [hexponent, hsize]
  | exponent hexponent hquotable => simp [hexponent, hquotable, eq_comm]
  | size hexponent hsize => simp [hexponent, hsize, eq_comm]
  | unquotable hexponent hlong => simp [hexponent, hlong]

theorem Guarded.eq_defect_iff (h : Guarded s t e r x) (d : Defect) :
    x = .error (.defect d) ↔
      (s.maxLiteralExponent < e.natAbs ∧ 10 ^ quotableDigits ≤ e.natAbs) ∧
        d = .literal .exponentUnquotable := by
  cases h with
  | value hexponent _ => simp [hexponent]
  | exponent _ hquotable => simp [hquotable]
  | size hexponent _ => simp [hexponent]
  | unquotable hexponent hlong => simp [hexponent, hlong, eq_comm]

end

/-- **What comes of a number token.**  In a line of any length, under any settings, it is a literal
with a value.  Evaluating it gives this value, with the shadow whose flag is always found, exactly
if both limits are kept.  It is refused exactly if the exponent is beyond its limit and can be
quoted, or the value has too many bits; then for exhausted resources, and at the position of the
token.  It is a defect exactly if the exponent is beyond its limit and has too many digits to be
quoted, for which the line must be longer than `quotableDigits` characters. -/
theorem ofLiteral_number (s : Settings) {line : String} {tokens : List Token}
    (h : Lexer.tokenize line = .ok tokens) {t : Token} (ht : t ∈ tokens)
    (hkind : t.kind = .number) :
    ∃ l r, Literal.split t.text = .ok l ∧ Literal.parse t.text = .ok r ∧
      (∀ v, ofLiteral s t.text t.position = .ok v ↔
        (l.exponent.natAbs ≤ s.maxLiteralExponent ∧ Exact.bitLength r ≤ s.maxRationalBits) ∧
          v = ⟨.ok r, Shadow.ofRat r (some t.text), []⟩) ∧
      RoundingFlag.detectRounding r (.ofRat r) = .ok (RoundingFlag.ofRounding? r (.ofRat r)) ∧
      (∀ y, ofLiteral s t.text t.position = .error (.error y) ↔
        (s.maxLiteralExponent < l.exponent.natAbs ∧ l.exponent.natAbs < 10 ^ quotableDigits) ∧
          y = .literalExponent l.exponent s.maxLiteralExponent t.position ∨
        (l.exponent.natAbs ≤ s.maxLiteralExponent ∧ s.maxRationalBits < Exact.bitLength r) ∧
          y = .valueTooLarge s.maxRationalBits t.position) ∧
      (∀ y, ofLiteral s t.text t.position = .error (.error y) →
        y.kind = .resourceExhausted ∧ y.position = some t.position) ∧
      (∀ d, ofLiteral s t.text t.position = .error (.defect d) ↔
        (s.maxLiteralExponent < l.exponent.natAbs ∧ 10 ^ quotableDigits ≤ l.exponent.natAbs) ∧
          d = .literal .exponentUnquotable) ∧
      (line.length ≤ quotableDigits → ∀ d, ofLiteral s t.text t.position ≠ .error (.defect d)) := by
  obtain ⟨l, hl, hlength⟩ := (Lexer.tokenize_eq_ok h).number_of_mem ht hkind
  obtain ⟨hsplit, hparse⟩ := hl.parse_eq
  have hguarded := guarded_of_numberText s hl
  refine ⟨l, l.worth, hsplit, hparse, hguarded.eq_ok_iff, RoundingFlag.detectRounding_eq _,
    hguarded.eq_refusal_iff, fun y hy => ?_, hguarded.eq_defect_iff, fun hline d hd => ?_⟩
  · rcases (hguarded.eq_refusal_iff y).1 hy with ⟨-, rfl⟩ | ⟨-, rfl⟩ <;> exact ⟨rfl, rfl⟩
  · obtain ⟨⟨-, hlong⟩, -⟩ := (hguarded.eq_defect_iff d).1 hd
    rw [String.length_toList (s := line)] at hlength
    have hshort : l.exponent.natAbs < 10 ^ quotableDigits := hl.exponent_lt.trans_le
      (Nat.pow_le_pow_right (by decide) (hlength.trans hline))
    exact absurd hlong (not_le.2 hshort)

/-- A small exponent beyond a small limit is refused where the token stands. -/
theorem ofLiteral_small_exponent :
    Lexer.tokenize "3+1e-9" = .ok
      [⟨.number, "3", 0⟩, ⟨.operator, "+", 1⟩, ⟨.number, "1e-9", 2⟩, .finish 6] ∧
    ∃ y, ofLiteral { maxLiteralExponent := 4 } "1e-9" 2 = .error (.error y) ∧
      y.kind = .resourceExhausted ∧ y.position = some 2 := by
  have htokens : Lexer.tokenize "3+1e-9" = .ok
      [⟨.number, "3", 0⟩, ⟨.operator, "+", 1⟩, ⟨.number, "1e-9", 2⟩, .finish 6] := by
    decide +kernel
  have hsplit : Literal.split "1e-9" = .ok ⟨false, ['1'], [], [], -9⟩ := by decide +kernel
  obtain ⟨l, r, hl, -, -, -, hrefused, hkind, -, -⟩ :=
    ofLiteral_number { maxLiteralExponent := 4 } htokens (t := ⟨.number, "1e-9", 2⟩) (by simp) rfl
  rw [hsplit] at hl
  cases hl
  have hexponent : (9 : ℕ) < 10 ^ quotableDigits :=
    (show 9 < 10 ^ 1 by decide).trans_le (Nat.pow_le_pow_right (by decide) (by decide))
  have hy := (hrefused _).2 (Or.inl ⟨⟨by decide, hexponent⟩, rfl⟩)
  exact ⟨htokens, _, hy, hkind _ hy⟩

/-! ## An exponent that cannot be quoted -/

/-- The literal of a one with a large power of ten for its exponent. -/
def towering (k : ℕ) : Token :=
  ⟨.number, String.ofList ('1' :: 'e' :: '1' :: List.replicate k '0'), 0⟩

theorem numberText_towering (k : ℕ) :
    NumberText (towering k).text.toList ⟨false, ['1'], [], [], 10 ^ k⟩ := by
  have hscale : Literal.ScaleText ('e' :: ([] ++ '1' :: List.replicate k '0'))
      (Literal.signed false (Numeral.positional ('1' :: List.replicate k '0'))) :=
    .power (Or.inl rfl) .none (Numeral.digits_one_zeros k)
  rw [Numeral.positional_one_zeros] at hscale
  have hnumber := NumberText.mk (.whole (Numeral.digits_one_zeros 0)) .none (fun _ => rfl) hscale
  rw [towering, String.toList_ofList]
  exact_mod_cast hnumber

theorem ofLiteral_towering_of_le {s : Settings} {k : ℕ} (hk : quotableDigits ≤ k)
    (hs : s.maxLiteralExponent < 10 ^ quotableDigits) :
    s.maxLiteralExponent < ((10 : ℤ) ^ k).natAbs ∧
      ofLiteral s (towering k).text (towering k).position =
        .error (.defect (.literal .exponentUnquotable)) := by
  have hlong : 10 ^ quotableDigits ≤ ((10 : ℤ) ^ k).natAbs := by
    rw [Int.natAbs_pow]
    exact Nat.pow_le_pow_right (by decide) hk
  have hguarded := guarded_of_numberText s (numberText_towering k)
  exact ⟨hs.trans_le hlong, (hguarded.eq_defect_iff _).2 ⟨⟨hs.trans_le hlong, hlong⟩, rfl⟩⟩

/-- **A literal with an exponent beyond its limit that is not refused.**  It is the only token of
its line. -/
theorem ofLiteral_towering :
    Lexer.tokenize (towering quotableDigits).text =
      .ok [towering quotableDigits, .finish (towering quotableDigits).text.length] ∧
    (∃ l, Literal.split (towering quotableDigits).text = .ok l ∧
      ({} : Settings).maxLiteralExponent < l.exponent.natAbs) ∧
    ∀ y, ofLiteral {} (towering quotableDigits).text (towering quotableDigits).position ≠
      .error (.error y) := by
  have hnumber := numberText_towering quotableDigits
  have hlimit : ({} : Settings).maxLiteralExponent < 10 ^ quotableDigits :=
    (show 4096 < 10 ^ 4 by decide).trans_le (Nat.pow_le_pow_right (by decide) (by decide))
  obtain ⟨hexceeds, hdefect⟩ := ofLiteral_towering_of_le le_rfl hlimit
  refine ⟨hnumber.tokenize_eq, ⟨_, hnumber.parse_eq.1, hexceeds⟩, fun y hy => ?_⟩
  rw [hdefect] at hy
  cases hy

end Roundoff.DualValue
