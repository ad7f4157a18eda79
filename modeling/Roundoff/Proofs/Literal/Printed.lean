import Roundoff.Proofs.Literal.Value
import Roundoff.Proofs.Numeral.Written

/-! # Rationals as they are written

The text of a rational is an integer literal or a fraction, and it is read as that rational.
-/
namespace Roundoff.Literal

open Text (isAsciiDigit isBlank trim)
open Numeral (positional natural)

/-- The literal that the numeral of an integer spells. -/
def ofInteger (i : ℤ) : Literal :=
  ⟨decide (i < 0), natural i.natAbs, [], [], 0⟩

theorem integer_eq (i : ℤ) :
    ∃ sgn, Numeral.integer i = sgn ++ natural i.natAbs ∧ SignText sgn (decide (i < 0)) := by
  cases i with
  | ofNat n =>
    have hnot : ¬ (Int.ofNat n < 0) := Int.not_lt.2 (Int.natCast_nonneg n)
    refine ⟨[], rfl, ?_⟩
    rw [decide_eq_false hnot]
    exact .none
  | negSucc n =>
    refine ⟨['-'], rfl, ?_⟩
    rw [decide_eq_true (Int.negSucc_lt_zero n)]
    exact .minus

theorem signed_natAbs (i : ℤ) : signed (decide (i < 0)) i.natAbs = i := by
  rw [signed]
  by_cases hi : i < 0
  · rw [if_pos (decide_eq_true hi)]
    omega
  · rw [if_neg (by simpa using hi)]
    omega

theorem spells_integer (i : ℤ) : Spells (Numeral.integer i) (ofInteger i) := by
  obtain ⟨sgn, htext, hsgn⟩ := integer_eq i
  have hspell := Spells.mk hsgn (.whole (Numeral.digits_natural i.natAbs)) .none (fun _ => rfl)
    .none
  rw [List.nil_append, List.append_nil, ← htext] at hspell
  exact hspell

/-- A literal of integer digits stands for the number they spell. -/
theorem worth_whole (negative : Bool) (ds : List Char) :
    worth ⟨negative, ds, [], [], 0⟩ = signed negative (positional ds) := by
  rw [signed]
  simp only [worth, List.append_nil, List.length_nil, pow_zero, div_one, zpow_zero, mul_one]
  cases negative <;> simp [positional]

theorem worth_ofInteger (i : ℤ) : (ofInteger i).worth = i := by
  rw [ofInteger, worth_whole, Numeral.positional_natural, signed_natAbs]

theorem not_blank_integer (i : ℤ) : ∀ c ∈ Numeral.integer i, isBlank c = false := by
  obtain ⟨sgn, htext, hsgn⟩ := integer_eq i
  intro c hc
  rw [htext] at hc
  rcases List.mem_append.1 hc with hc | hc
  · exact hsgn.not_blank c hc
  · exact Numeral.isBlank_of_isAsciiDigit ((Numeral.digits_natural i.natAbs).all c hc)

/-- The text of a rational has no blanks. -/
theorem trim_text (r : ℚ) : trim (Exact.text r).toList = (Exact.text r).toList := by
  refine Text.trimAll_eq_self fun c hc => ?_
  rw [Exact.text] at hc
  split at hc
  · rw [Numeral.text, String.toList_ofList] at hc
    exact not_blank_integer _ c hc
  · simp only [Numeral.text, String.toList_append, String.toList_ofList, List.mem_append] at hc
    rcases hc with (hc | hc) | hc
    · exact not_blank_integer _ c hc
    · rw [List.mem_singleton.1 hc]
      decide
    · exact not_blank_integer _ c hc

theorem spells_text (r : ℚ) : (r.den = 1 ∧ Spells (Exact.text r).toList (ofInteger r.num)) ∨
    SpellsFraction (Exact.text r).toList r.num r.den := by
  rw [Exact.text]
  split
  · rename_i hden
    refine Or.inl ⟨hden, ?_⟩
    rw [Numeral.text, String.toList_ofList]
    exact spells_integer r.num
  · obtain ⟨sgn, htext, hsgn⟩ := integer_eq r.num
    have hspell := SpellsFraction.mk hsgn (Numeral.digits_natural r.num.natAbs) (u := []) (v := [])
      (fun _ hc => nomatch hc) (fun _ hc => nomatch hc) (Numeral.digits_natural r.den)
    rw [Numeral.positional_natural, Numeral.positional_natural, signed_natAbs, List.nil_append,
      List.nil_append, ← List.append_assoc, ← htext] at hspell
    refine Or.inr ?_
    simp only [Numeral.text, String.toList_append, String.toList_ofList]
    rw [List.append_assoc]
    exact hspell

/-- **The text of a rational is read as that rational.** -/
theorem parse_text (r : ℚ) : parse (Exact.text r) = .ok r := by
  refine parse_eq_ok_iff.2 ?_
  rw [trim_text]
  rcases spells_text r with ⟨hden, hspell⟩ | hspell
  · have hworth := Denotes.decimal hspell
    rw [worth_ofInteger, (Rat.den_eq_one_iff r).1 hden] at hworth
    exact hworth
  · have hquotient := Denotes.fraction hspell r.den_nz
    rw [Rat.num_div_den] at hquotient
    exact hquotient

/-- There is no power of ten in the text of a rational. -/
theorem exponent_of_split_text {r : ℚ} {l : Literal} (h : split (Exact.text r) = .ok l) :
    l.exponent = 0 := by
  have hl := spells_of_split h
  rcases spells_text r with ⟨-, hspell⟩ | hspell
  · rw [split_of_spells ((trim_text r).symm ▸ hspell)] at h
    cases h
    rfl
  · rw [trim_text] at hl
    obtain ⟨sgn, num, den, hfraction, -⟩ := fraction?_of_spells hspell
    rw [fraction?_eq_none_of_spells hl] at hfraction
    cases hfraction

end Roundoff.Literal
