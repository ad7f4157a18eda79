import Roundoff.Proofs.Expansion.Rendering
import Roundoff.Proofs.Literal.Printed

/-! # What an expansion stands for

An expansion that ended or became periodic spells a literal that stands for the rational it came
from: the digits found are the quotient of the long division, and equal remainders around a period
make the period a geometric series (`worth_divided`).  Its text is therefore read as the same
expansion, since a division that is settled does not change when more digits are asked for
(`ofRat_of_le`).
-/
namespace Roundoff.Expansion

open Literal (SignText MantissaText GroupText Spells worth signed)
open Numeral (Digits natural)
open Text (isAsciiDigit)

variable {r d n : ℕ}

/-! ## The digits of a division -/

/-- The digits of a division, from one on, written. -/
def digitText (r d s k : ℕ) : List Char :=
  (List.range k).map fun i => Nat.digitChar (digitAt r d (s + i))

/-- **The digits found and the remainder left make up the dividend.** -/
theorem digitText_equation (hd : 0 < d) (r s k : ℕ) :
    d * Numeral.positional (digitText r d s k) + remainderAt r d (s + k) =
      remainderAt r d s * 10 ^ k := by
  induction k with
  | zero =>
    have hnil : Numeral.positional (digitText r d s 0) = 0 := rfl
    rw [hnil, mul_zero, zero_add, add_zero, pow_zero, mul_one]
  | succ k ih =>
    have hstep : d * digitAt r d (s + k) + remainderAt r d (s + (k + 1)) =
        remainderAt r d (s + k) * 10 := by
      rw [← add_assoc, remainderAt_succ, digitAt, Nat.div_add_mod]
    have hdigits : Numeral.positional (digitText r d s (k + 1)) =
        Numeral.positional (digitText r d s k) * 10 + digitAt r d (s + k) := by
      rw [digitText, List.range_succ, List.map_append, Numeral.positional_append,
        List.map_singleton, Numeral.positional_digitChar (digitAt_lt hd _), List.length_singleton,
        pow_one]
      rfl
    calc d * Numeral.positional (digitText r d s (k + 1)) + remainderAt r d (s + (k + 1))
        = d * Numeral.positional (digitText r d s k) * 10 +
            (d * digitAt r d (s + k) + remainderAt r d (s + (k + 1))) := by rw [hdigits]; ring
      _ = (d * Numeral.positional (digitText r d s k) + remainderAt r d (s + k)) * 10 := by
        rw [hstep]; ring
      _ = remainderAt r d s * 10 ^ (k + 1) := by rw [ih, pow_succ, mul_assoc]

/-- A quotient by its first digits and the remainder after them. -/
theorem div_eq_digits (hd : 0 < d) (hr : r < d) (k : ℕ) :
    (r : ℚ) / d = Numeral.positional (digitText r d 0 k) / 10 ^ k +
      (remainderAt r d k : ℚ) / (d * 10 ^ k) := by
  have hequation := digitText_equation hd r 0 k
  rw [zero_add, remainderAt_zero hr] at hequation
  have hcast : (d : ℚ) * Numeral.positional (digitText r d 0 k) + remainderAt r d k =
      r * 10 ^ k := by exact_mod_cast hequation
  have hd' : (d : ℚ) ≠ 0 := Nat.cast_ne_zero.2 hd.ne'
  field_simp
  linarith

/-- Between equal remainders stands the geometric series of the digits. -/
theorem remainder_eq_period (hd : 0 < d) {s k : ℕ} (hlt : s < k)
    (h : remainderAt r d s = remainderAt r d k) :
    (remainderAt r d s : ℚ) / d =
      Numeral.positional (digitText r d s (k - s)) / (10 ^ (k - s) - 1) := by
  have hequation := digitText_equation hd r s (k - s)
  rw [Nat.add_sub_cancel' hlt.le, ← h] at hequation
  have hcast : (d : ℚ) * Numeral.positional (digitText r d s (k - s)) + remainderAt r d s =
      remainderAt r d s * 10 ^ (k - s) := by exact_mod_cast hequation
  have hd' : (d : ℚ) ≠ 0 := Nat.cast_ne_zero.2 hd.ne'
  have hcycle : (10 : ℚ) ^ (k - s) - 1 ≠ 0 := by
    have hone : (1 : ℚ) < 10 ^ (k - s) := one_lt_pow₀ (by norm_num) (by omega)
    linarith
  rw [div_eq_div_iff hd' hcycle]
  linarith

/-! ## The literal of an expansion -/

/-- The literal that an expansion that is not truncated spells. -/
def literal (e : Expansion) : Literal where
  negative := e.negative
  integer := Numeral.integer e.whole
  fixed := digitChars e.fixed
  repeating := digitChars e.repeating
  exponent := 0

theorem isAsciiDigit_digitChars (ds : List ℕ) : ∀ c ∈ digitChars ds, isAsciiDigit c = true := by
  intro c hc
  obtain ⟨k, -, hk⟩ := List.mem_flatMap.1 hc
  exact (Numeral.digits_natural k).all c hk

theorem digitChars_ne_nil {ds : List ℕ} (h : ds ≠ []) : digitChars ds ≠ [] := by
  cases ds with
  | nil => exact absurd rfl h
  | cons k ds =>
    rw [digitChars, List.flatMap_cons]
    exact List.append_ne_nil_of_left_ne_nil (Numeral.digits_natural k).ne_nil _

theorem digits_integer {e : Expansion} {q : ℕ} (hq : e.whole = q) :
    Digits (Numeral.integer e.whole) := by
  rw [hq]
  exact Numeral.digits_natural q

/-- **The text of an expansion that is not truncated spells its literal.** -/
theorem spells_chars {e : Expansion} {q : ℕ} (hq : e.whole = q) (hend : e.truncated = false) :
    Spells e.chars e.literal := by
  have hsign : SignText (if e.negative then ['-'] else []) e.negative := by
    cases e.negative
    · exact .none
    · exact .minus
  have hwhole := digits_integer hq
  have hfixed := isAsciiDigit_digitChars e.fixed
  have hchars : e.chars = (if e.negative then ['-'] else []) ++ (Numeral.integer e.whole ++
      if e.fractionChars.isEmpty then [] else '.' :: e.fractionChars) := by
    rw [chars, List.append_assoc]
  by_cases hperiod : e.repeating = []
  · have hrepeating : e.isRepeating = false := by rw [isRepeating, hperiod]; rfl
    have hfraction : e.fractionChars = digitChars e.fixed := by
      rw [fractionChars, hrepeating, hend]
      simp
    have hliteral : e.literal =
        ⟨e.negative, Numeral.integer e.whole, digitChars e.fixed, [], 0⟩ := by
      rw [literal, hperiod]
      rfl
    rw [hchars, hfraction, hliteral]
    by_cases hempty : digitChars e.fixed = []
    · have hspell := Spells.mk hsign (.whole hwhole) .none (fun _ => rfl) .none
      rw [hempty]
      simpa using hspell
    · have hspell := Spells.mk hsign (.pointed hwhole hfixed) .none (fun _ => rfl) .none
      rw [List.isEmpty_eq_false_iff.2 hempty, if_neg Bool.false_ne_true]
      simpa using hspell
  · have hrepeating : e.isRepeating = true := by simpa [isRepeating] using hperiod
    have hdigits : Digits (digitChars e.repeating) :=
      ⟨digitChars_ne_nil hperiod, isAsciiDigit_digitChars _⟩
    have hfraction : e.fractionChars =
        digitChars e.fixed ++ '(' :: (digitChars e.repeating ++ ['.', '.', '.', ')']) := by
      rw [fractionChars, hrepeating, if_pos rfl]
      rfl
    have hspell := Spells.mk hsign (.pointed hwhole hfixed) (.dotted hdigits)
      (fun h => absurd h.symm Bool.false_ne_true) .none
    rw [hchars, hfraction, literal]
    simpa using hspell

/-- **What ended or became periodic stands for the quotient.** -/
theorem worth_divided (hd : 0 < d) (hr : r < d) {negative : Bool} {q : ℕ} {e : Expansion}
    (h : Divided r d n negative q e) (hend : e.truncated = false) :
    e.literal.worth = (if negative then -1 else 1) * (q + (r : ℚ) / d) := by
  have hlt := digitAt_lt hd (r := r)
  have hinteger : Numeral.integer (q : ℤ) = natural q := rfl
  have htext : ∀ k, digitChars ((List.range k).map (digitAt r d)) = digitText r d 0 k := by
    intro k
    rw [digitChars_map_range hlt, digitText]
    simp only [zero_add]
  have hlength : ∀ s k, (digitText r d s k).length = k := fun s k => by simp [digitText]
  -- The whole part and the first digits stand in front of the point together.
  have hfront : ∀ k, (Numeral.positional (natural q ++ digitText r d 0 k) : ℚ) / 10 ^ k =
      q + Numeral.positional (digitText r d 0 k) / 10 ^ k := by
    intro k
    rw [Numeral.positional_append, Numeral.positional_natural, hlength]
    push_cast
    field_simp
  cases h with
  | @ended k _ hzero =>
    have hdiv := div_eq_digits hd hr k
    rw [hzero, Nat.cast_zero, zero_div, add_zero] at hdiv
    rw [literal, worth]
    simp only [htext, hinteger, hlength, hfront, hdiv]
    simp [digitChars, Numeral.positional]
  | @periodic s k hlt' _ heq _ =>
    have hperiod : digitChars ((List.range (k - s)).map fun i => digitAt r d (s + i)) =
        digitText r d s (k - s) := digitChars_map_range (fun i => hlt (s + i)) _
    have hdiv := div_eq_digits hd hr s
    have hseries := remainder_eq_period hd hlt' heq
    rw [← div_div, hseries] at hdiv
    rw [literal, worth]
    simp only [htext, hperiod, hinteger, hlength, hfront, hdiv, zpow_zero, mul_one]
    rw [div_div, mul_comm ((10 : ℚ) ^ (k - s) - 1), add_assoc]
  | cut _ => cases hend

/-! ## The expansion of a rational -/

variable (x : ℚ)

theorem whole_ofRat (n : ℕ) : (ofRat x n).whole = (x.num.natAbs / x.den : ℕ) := by
  have hdivided := divided_ofRat x n
  generalize ofRat x n = e at hdivided
  cases hdivided <;> rfl

variable {x} (h : (ofRat x n).truncated = false)
include h

theorem worth_literal : (ofRat x n).literal.worth = x := by
  rw [worth_divided x.den_pos (Nat.mod_lt _ x.den_pos) (divided_ofRat x n) h]
  have habs :
      ((x.num.natAbs / x.den : ℕ) : ℚ) + ((x.num.natAbs % x.den : ℕ) : ℚ) / x.den = |x| := by
    have hden : (x.den : ℚ) ≠ 0 := Nat.cast_ne_zero.2 x.den_nz
    have hsplit : (x.den : ℚ) * (x.num.natAbs / x.den : ℕ) + (x.num.natAbs % x.den : ℕ) =
        x.num.natAbs := by exact_mod_cast Nat.div_add_mod x.num.natAbs x.den
    rw [Exact.abs_eq_div, eq_div_iff hden, add_mul, div_mul_cancel₀ _ hden, mul_comm]
    exact hsplit
  rw [habs]
  by_cases hneg : x < 0
  · rw [if_pos (decide_eq_true hneg), abs_of_neg hneg]
    ring
  · rw [if_neg (by simpa using hneg), abs_of_nonneg (not_lt.1 hneg), one_mul]

/-- **An expansion that is not truncated has the value of its rational.** -/
theorem value_ofRat : (ofRat x n).value = .ok x := by
  have hvalue := Literal.value_of_spells (spells_chars (whole_ofRat x n) h)
  rw [worth_literal h, literal] at hvalue
  rw [value, h, if_neg Bool.false_ne_true]
  dsimp only
  rw [hvalue]

omit h

/-! ## More digits -/

theorem Division.run_of_settled {s : Division} (hs : s.settled = true) (m : ℕ) :
    Division.run d m s = s := by
  cases m with
  | zero => rfl
  | succ m => rw [Division.run, if_pos hs]

theorem Division.run_add (n m : ℕ) (s : Division) :
    Division.run d (n + m) s = Division.run d m (Division.run d n s) := by
  induction n generalizing s with
  | zero => rw [zero_add, Division.run]
  | succ n ih =>
    rw [Nat.succ_add, Division.run, Division.run]
    split
    · rename_i hs
      rw [Division.run_of_settled hs]
    · exact ih _

/-- An expansion is truncated where its division is not settled. -/
theorem Division.truncated_expansion {negative : Bool} {whole : ℤ} {s : Division} :
    (s.expansion negative whole).truncated = false ↔ s.settled = true := by
  rw [Division.settled, Bool.or_eq_true, beq_iff_eq]
  unfold Division.expansion
  dsimp only
  by_cases hzero : s.remainder = 0
  · rw [if_pos hzero]
    exact ⟨fun _ => Or.inl hzero, fun _ => rfl⟩
  · rw [if_neg hzero]
    split
    · rename_i i hi
      have hmem := List.mem_of_getElem (List.idxOf?_eq_some_iff.1 hi).2.1
      exact ⟨fun _ => Or.inr (List.contains_iff_mem.2 (List.mem_reverse.1 hmem)), fun _ => rfl⟩
    · rename_i hnone
      have hfresh := List.idxOf?_eq_none_iff.1 hnone
      rw [List.mem_reverse] at hfresh
      refine ⟨fun h => (by cases h), fun h => ?_⟩
      exact absurd (List.contains_iff_mem.1 (h.resolve_left hzero)) hfresh

include h

/-- Asking for more digits changes nothing. -/
theorem ofRat_of_le {m : ℕ} (hle : n ≤ m) : ofRat x m = ofRat x n := by
  obtain ⟨k, rfl⟩ := Nat.exists_eq_add_of_le hle
  have hsettled := Division.truncated_expansion.1 h
  rw [ofRat, Division.run_add, Division.run_of_settled hsettled]
  rfl

/-- The text of an expansion that is not truncated is a literal of its rational. -/
theorem spells_trim_text : Spells (Text.trim (ofRat x n).text.toList) (ofRat x n).literal := by
  have hspell := spells_chars (whole_ofRat x n) h
  have htrim : Text.trim (ofRat x n).text.toList = (ofRat x n).chars := by
    rw [text, String.toList_ofList]
    exact Text.trimAll_eq_self hspell.not_blank
  rwa [htrim]

/-- The text of an expansion that is not truncated is read as the expansion of its rational. -/
theorem parse_text_default : parse (ofRat x n).text = .ok (ofRat x) := by
  have hspell := spells_trim_text h
  rw [parse, Literal.split_of_spells hspell]
  dsimp only
  rw [if_neg (by simp [literal]), Literal.value_of_spells hspell, worth_literal h]

/-- **The text of an expansion that is not truncated is read as the expansion.** -/
theorem parse_text (hn : n ≤ defaultBudget) : parse (ofRat x n).text = .ok (ofRat x n) := by
  rw [parse_text_default h, ofRat_of_le h hn]

omit h

/-- The period of `-1/6` is found at once, that of `1/97` has 96 digits. -/
example : (ofRat (-1 / 6) 64).text = "-0.1(6...)" ∧ (ofRat (1 / 97) 5).text = "0.01030..." := by
  decide +kernel

/-- A truncated expansion ends in three points. -/
theorem suffix_of_truncated (hcut : (ofRat x n).truncated = true) :
    ['.', '.', '.'] <:+ (ofRat x n).text.toList := by
  have hdivided := divided_ofRat x n
  generalize ofRat x n = e at hdivided hcut
  cases hdivided with
  | ended _ _ => cases hcut
  | periodic _ _ _ _ => cases hcut
  | cut _ =>
    generalize (List.range n).map (digitAt (x.num.natAbs % x.den) x.den) = ds
    have hfraction : fractionChars ⟨decide (x < 0), (x.num.natAbs / x.den : ℕ), ds, [], true⟩ =
        digitChars ds ++ ['.', '.', '.'] := rfl
    have hne : (digitChars ds ++ ['.', '.', '.']).isEmpty = false := by simp
    rw [text, String.toList_ofList, chars, hfraction, hne, if_neg Bool.false_ne_true]
    exact (List.suffix_append ('.' :: digitChars ds) _).trans (List.suffix_append _ _)

end Roundoff.Expansion
