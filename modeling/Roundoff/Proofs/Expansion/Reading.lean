import Roundoff.Proofs.Expansion.Budget
import Roundoff.Proofs.Literal.Plain

/-! # Reading expansions

The text of an expansion that is not truncated is a literal of its rational, and it is read as the
same expansion as long as the default budget has room for its digits (`text_reads_back`).  Of all
the texts, those that are read are the decimal literals without a power of ten, and those with a
power of ten whose exponent is written with zeros (`parse_accepts_idle_scales`).
-/
namespace Roundoff.Expansion

open Literal (Spells SpellsPlain IdleScale worth)
open Text (trim)

/-! ## The text of an expansion -/

/-- **The digits that a division found are budget enough to find them again.** -/
theorem ofRat_length_digits (x : ℚ) (n : ℕ) : ofRat x (ofRat x n).digits.length = ofRat x n := by
  obtain ⟨k, -, -, hrun, hbefore, -⟩ := Division.run_after (x.num.natAbs % x.den) x.den 0 n
  obtain ⟨j, -, hj, hagain, -, hstop⟩ := Division.run_after (x.num.natAbs % x.den) x.den 0 k
  rw [zero_add] at hj hstop
  have hfound : ofRat x n = (Division.after (x.num.natAbs % x.den) x.den k).expansion
      (decide (x < 0)) ((x.num.natAbs / x.den : ℕ) : ℤ) := by rw [ofRat_eq_expansion, hrun]
  have hlength : (ofRat x n).digits.length = k := by
    rw [hfound, Division.digits_expansion, Division.after]
    simp
  -- The second run could only stop before `k` where the first one went on.
  have hjk : j = k := by
    by_contra hne
    have hlt : j < k := Nat.lt_of_le_of_ne hj hne
    exact hne (hstop (hbefore j (Nat.zero_le j) hlt))
  rw [hlength, hfound, ofRat_eq_expansion, hagain, hjk]

theorem length_digits_le (x : ℚ) (n : ℕ) : (ofRat x n).digits.length ≤ n := by
  obtain ⟨k, hk, hdigits, -, -⟩ := exists_digits x n
  rwa [hdigits, List.length_map, List.length_range]

/-- The default budget gives an expansion that is not truncated back if it has room for the
digits. -/
theorem ofRat_default_eq_iff {x : ℚ} {n : ℕ} (h : (ofRat x n).truncated = false) :
    ofRat x = ofRat x n ↔ (ofRat x n).digits.length ≤ defaultBudget := by
  constructor
  · intro heq
    rw [← heq]
    exact length_digits_le x defaultBudget
  · intro hroom
    rw [← ofRat_length_digits] at h
    rw [ofRat_of_le h hroom, ofRat_length_digits]

/-- **The text of an expansion reads back.**  An expansion that is not truncated, found within
whatever budget, has a text that is read as its rational; the text is read as the expansion itself,
field by field, if the digits fit in the default budget, and only then. -/
theorem text_reads_back {x : ℚ} {n : ℤ} {e : Expansion} (h : ofRatWithin x n = .ok e)
    (hend : e.truncated = false) :
    Literal.parse e.text = .ok x ∧
      (parse e.text = .ok e ↔ e.fixed.length + e.repeating.length ≤ 1100) := by
  unfold ofRatWithin at h
  split at h
  · cases h
  · cases h
    have hdenotes := Literal.Denotes.decimal (spells_trim_text hend)
    rw [worth_literal hend] at hdenotes
    refine ⟨Literal.parse_eq_ok_iff.2 hdenotes, ?_⟩
    rw [parse_text_default hend, Except.ok.injEq, ofRat_default_eq_iff hend, digits,
      List.length_append, defaultBudget]

/-- A sixth, a whole number and a fraction whose period has 96 digits. -/
theorem text_reads_back_sixth :
    parse "-0.1(6...)" = .ok ⟨true, 0, [1], [6], false⟩ ∧
      Literal.parse "-0.1(6...)" = .ok (-1 / 6) ∧
      parse "-12" = .ok ⟨true, 12, [], [], false⟩ ∧ Literal.parse "-12" = .ok (-12) ∧
      parse (ofRat (1 / 97) 96).text = .ok (ofRat (1 / 97) 96) := by
  have hsixth := text_reads_back (x := -1 / 6) (n := 2) (e := ⟨true, 0, [1], [6], false⟩)
    (by decide +kernel) rfl
  have hwhole := text_reads_back (x := -12) (n := 0) (e := ⟨true, 12, [], [], false⟩)
    (by decide +kernel) rfl
  have hlong := text_reads_back (x := 1 / 97) (n := 96) (e := ofRat (1 / 97) 96)
    (by decide +kernel) (by decide +kernel)
  have htext : (⟨true, 0, [1], [6], false⟩ : Expansion).text = "-0.1(6...)" := by decide +kernel
  have htext' : (⟨true, 12, [], [], false⟩ : Expansion).text = "-12" := by decide +kernel
  rw [htext] at hsixth
  rw [htext'] at hwhole
  exact ⟨hsixth.2.2 (by decide), hsixth.1, hwhole.2.2 (by decide), hwhole.1,
    hlong.2.2 (by decide +kernel)⟩

/-! ## The texts that are read -/

variable {text : String}

/-- A decimal literal is read as the expansion of its number, unless its exponent is not zero. -/
theorem parse_of_spells {l : Literal} (h : Spells (trim text.toList) l) :
    parse text = if l.exponent = 0 then .ok (ofRat l.worth) else .error (.exponent text) := by
  unfold parse
  rw [Literal.split_of_spells h]
  dsimp only
  rw [Literal.value_of_spells h, ite_not]

theorem parse_of_not_spells (h : ∀ l, ¬ Spells (trim text.toList) l) :
    parse text = .error (.literal (.notDecimal text)) ∨
      parse text = .error (.literal (.groupWithoutPoint text)) := by
  unfold parse
  cases hsplit : Literal.split text with
  | ok l => exact absurd (Literal.spells_of_split hsplit) (h l)
  | error c =>
    rcases Literal.error_of_split hsplit with rfl | rfl
    · exact Or.inl rfl
    · exact Or.inr rfl

theorem parse_eq_ok_iff {e : Expansion} : parse text = .ok e ↔
    ∃ l, (Spells (trim text.toList) l ∧ l.exponent = 0) ∧ e = ofRat l.worth := by
  constructor
  · intro h
    by_cases hspells : ∃ l, Spells (trim text.toList) l
    · obtain ⟨l, hl⟩ := hspells
      rw [parse_of_spells hl] at h
      split at h <;> cases h
      rename_i hzero
      exact ⟨l, ⟨hl, hzero⟩, rfl⟩
    · rcases parse_of_not_spells (not_exists.1 hspells) with herr | herr <;>
      · rw [herr] at h
        cases h
  · rintro ⟨l, ⟨hl, hzero⟩, rfl⟩
    rw [parse_of_spells hl, if_pos hzero]

/-- **Which texts are read as expansions**, and as which.  A text is read if, blanks around it
aside, it is a decimal literal without a power of ten, or one with a power of ten whose exponent is
written with zeros; the result is the expansion of its number.  Every other text is refused, for its
exponent if it is a decimal literal, and for its form or for a group without a point if it is none.
A result that is not truncated has the value that the text has as a number. -/
theorem parse_accepts_idle_scales (text : String) :
    (∀ e, parse text = .ok e ↔ ∃ w s l, trim text.toList = w ++ s ∧ SpellsPlain w l ∧
      IdleScale s ∧ e = ofRat l.worth) ∧
    (∀ c, parse text = .error c →
      (c = .exponent text ∧ ∃ l, Spells (trim text.toList) l ∧ l.exponent ≠ 0) ∨
      ((c = .literal (.notDecimal text) ∨ c = .literal (.groupWithoutPoint text)) ∧
        ∀ l, ¬ Spells (trim text.toList) l)) ∧
    ∀ e, parse text = .ok e → e.truncated = false →
      ∃ q, e.value = .ok q ∧ Literal.parse text = .ok q := by
  refine ⟨fun e => ?_, fun c hc => ?_, fun e he hend => ?_⟩
  · rw [parse_eq_ok_iff]
    constructor
    · rintro ⟨l, hl, rfl⟩
      obtain ⟨w, s, htext, hw, hs⟩ := Literal.spells_zero_iff.1 hl
      exact ⟨w, s, l, htext, hw, hs, rfl⟩
    · rintro ⟨w, s, l, htext, hw, hs, rfl⟩
      exact ⟨l, Literal.spells_zero_iff.2 ⟨w, s, htext, hw, hs⟩, rfl⟩
  · by_cases hspells : ∃ l, Spells (trim text.toList) l
    · obtain ⟨l, hl⟩ := hspells
      rw [parse_of_spells hl] at hc
      split at hc <;> cases hc
      rename_i hexponent
      exact Or.inl ⟨rfl, l, hl, hexponent⟩
    · have hnone := not_exists.1 hspells
      refine Or.inr ⟨?_, hnone⟩
      rcases parse_of_not_spells hnone with herr | herr <;>
      · rw [herr] at hc
        cases hc
        simp
  · obtain ⟨l, ⟨hl, -⟩, rfl⟩ := parse_eq_ok_iff.1 he
    exact ⟨l.worth, value_ofRat hend, Literal.parse_eq_ok_iff.2 (.decimal hl)⟩

/-- A power of ten with two zeros goes unnoticed behind a group, one with a digit more does not. -/
theorem parse_accepts_idle_scales_sixth :
    (∃ w s l, trim " -0.1(6...)E-00 ".toList = w ++ s ∧ SpellsPlain w l ∧ IdleScale s ∧
      (⟨true, 0, [1], [6], false⟩ : Expansion) = ofRat l.worth) ∧
    (∃ q, value ⟨true, 0, [1], [6], false⟩ = .ok q ∧ Literal.parse " -0.1(6...)E-00 " = .ok q) ∧
    ∃ l, Spells (trim "-0.1(6...)E-001".toList) l ∧ l.exponent ≠ 0 := by
  have hsixth : parse " -0.1(6...)E-00 " = .ok ⟨true, 0, [1], [6], false⟩ := by decide +kernel
  have hscaled : parse "-0.1(6...)E-001" = .error (.exponent "-0.1(6...)E-001") := by
    decide +kernel
  obtain ⟨haccepts, -, hvalue⟩ := parse_accepts_idle_scales " -0.1(6...)E-00 "
  obtain ⟨-, hrefuses, -⟩ := parse_accepts_idle_scales "-0.1(6...)E-001"
  refine ⟨(haccepts _).1 hsixth, hvalue _ hsixth rfl, ?_⟩
  rcases hrefuses _ hscaled with ⟨-, hl⟩ | ⟨hform | hform, -⟩
  · exact hl
  · cases hform
  · cases hform

/-- The exponent of `1e0` is written, and the text is read all the same. -/
theorem parse_accepts_exponent_zero :
    parse "1e0" = .ok ⟨false, 1, [], [], false⟩ ∧ ∀ l, ¬ SpellsPlain (trim "1e0".toList) l := by
  refine ⟨by decide +kernel, fun l h => ?_⟩
  have htrim : trim "1e0".toList = ['1', 'e', '0'] := by decide
  rw [htrim] at h
  rcases h.chars 'e' (by decide) with hdigit | hmark
  · exact absurd hdigit (by decide)
  · exact absurd hmark (by decide)

end Roundoff.Expansion
