import Roundoff.Proofs.Binary64.ReadBack
import Roundoff.Session.Ratio

/-! # Ratios are correctly rounded

The decimal exponent of a number is searched for downwards, until its power of ten does not exceed
the number, and then upwards, until the next one does.  Wherever the search starts, it ends at the
exponent of the leading digit (`decimalExponent_eq`).  The number in units of its fourth digit,
rounded to an integer, has four digits or is the next power of ten, which is written with the next
exponent; so what is written is read as the rounded number (`ratioText_rounds`).
-/
namespace Roundoff.Session

open Numeral (Digits)
open Literal (Spells)

/-! ## The decimal exponent -/

section Search

variable {a d : ℕ}

theorem ltTenPow_iff (hd : 0 < d) (e : ℤ) : ltTenPow a d e = true ↔ (a : ℚ) / d < 10 ^ e := by
  have hiff := Binary64.div_lt_zpow_iff (a := a) (b := 10) (by decide) hd e
  rw [Nat.cast_ofNat] at hiff
  rw [ltTenPow, hiff]
  split <;> exact decide_eq_true_iff

/-- Lowered exponents end at a power of ten that does not exceed the number. -/
theorem lowerExponent_le (ha : 0 < a) (hd : 0 < d) (e : ℤ) :
    (10 : ℚ) ^ lowerExponent a d ha e ≤ a / d := by
  fun_induction lowerExponent a d ha e with
  | case1 e hless hbound ih => exact ih
  | case2 e hless => exact not_lt.1 fun h => hless ((ltTenPow_iff hd e).2 h)

/-- Raised from such an exponent, they end where the next power exceeds it. -/
theorem raiseExponent_spec (hd : 0 < d) (e : ℤ) (hlow : (10 : ℚ) ^ e ≤ a / d) :
    (10 : ℚ) ^ raiseExponent a d hd e ≤ a / d ∧
      (a : ℚ) / d < 10 ^ (raiseExponent a d hd e + 1) := by
  fun_induction raiseExponent a d hd e with
  | case1 e hless => exact ⟨hlow, (ltTenPow_iff hd (e + 1)).1 hless⟩
  | case2 e hless hbound ih => exact ih (not_lt.1 fun h => hless ((ltTenPow_iff hd (e + 1)).2 h))

end Search

/-- **The search ends at the exponent of the leading digit.** -/
theorem decimalExponent_eq {x : ℚ} (hx : x ≠ 0) {k : ℤ} (hlow : (10 : ℚ) ^ k ≤ |x|)
    (hhigh : |x| < 10 ^ (k + 1)) : decimalExponent x hx = k := by
  have ha : 0 < x.num.natAbs := Int.natAbs_pos.2 (mt Rat.num_eq_zero.1 hx)
  rw [Exact.abs_eq_div] at hlow hhigh
  obtain ⟨hlow', hhigh'⟩ := raiseExponent_spec x.den_pos
    (lowerExponent x.num.natAbs x.den ha (estimatedExponent x.num.natAbs x.den))
    (lowerExponent_le ha x.den_pos _)
  exact Binary64.exponent_unique (by norm_num) hlow' hhigh' hlow hhigh

/-! ## Rounding -/

/-- **A quotient in units of a power of ten is rounded to the nearest integer, halves upwards.** -/
theorem roundHalfUp_eq (a : ℕ) {d : ℕ} (hd : 0 < d) (e : ℤ) :
    (roundHalfUp a d e : ℤ) = round ((a / d : ℚ) / 10 ^ e) := by
  have hpair : ∀ n c : ℕ, 0 < c → (((2 * n + c) / (2 * c) : ℕ) : ℤ) = round ((n : ℚ) / c) := by
    intro n c hc
    have hne : (c : ℚ) ≠ 0 := Nat.cast_ne_zero.2 hc.ne'
    have hhalf : (n : ℚ) / c + 1 / 2 = ((2 * n + c : ℕ) : ℤ) / ((2 * c : ℕ) : ℚ) := by
      push_cast
      field_simp
    rw [round_eq, hhalf, Rat.floor_intCast_div_natCast, Int.natCast_div]
  rw [roundHalfUp]
  split
  · rename_i he
    obtain ⟨k, rfl⟩ := Int.eq_ofNat_of_zero_le he
    rw [Int.toNat_natCast, hpair _ _ (Nat.mul_pos hd (Nat.pow_pos (by decide))), zpow_natCast,
      div_div]
    push_cast
    rfl
  · rename_i he
    obtain ⟨k, hk⟩ := Int.eq_ofNat_of_zero_le (Int.neg_nonneg_of_nonpos (not_le.1 he).le)
    rw [hk, Int.toNat_natCast, hpair _ _ hd, show e = -(k : ℤ) by omega, zpow_neg, zpow_natCast,
      div_inv_eq_mul, div_mul_eq_mul_div]
    push_cast
    rfl

/-! ## Four digits -/

section Written

variable {x : ℚ} {k : ℤ}

/-- A number in units of its fourth digit is rounded to four digits, or to the next power of ten. -/
theorem round_mem_Icc (hlow : (10 : ℚ) ^ k ≤ |x|) (hhigh : |x| < 10 ^ (k + 1)) :
    10 ^ 3 ≤ round (|x| / 10 ^ (k - 3)) ∧ round (|x| / 10 ^ (k - 3)) ≤ 10 ^ 4 := by
  have hunit : (0 : ℚ) < 10 ^ (k - 3) := by positivity
  have hpower : ∀ j : ℕ, (10 : ℚ) ^ (k - 3 + j) = 10 ^ j * 10 ^ (k - 3) := by
    intro j
    rw [zpow_add₀ (by norm_num), zpow_natCast, mul_comm]
  have hleast : (10 : ℚ) ^ 3 ≤ |x| / 10 ^ (k - 3) := by
    rw [le_div_iff₀ hunit, ← hpower]
    exact le_trans (le_of_eq (by congr 1; push_cast; ring)) hlow
  have hmost : |x| / 10 ^ (k - 3) < 10 ^ 4 := by
    rw [div_lt_iff₀ hunit, ← hpower]
    exact hhigh.trans_eq (by congr 1; push_cast; ring)
  obtain ⟨hleft, hright⟩ := abs_le.1 (abs_sub_round (|x| / 10 ^ (k - 3)))
  generalize |x| / 10 ^ (k - 3) = y at hleast hmost hleft hright
  have hbelow : ((10 ^ 3 - 1 : ℤ) : ℚ) < round y := by
    push_cast
    linarith
  have habove : (round y : ℚ) < ((10 ^ 4 + 1 : ℤ) : ℚ) := by
    push_cast
    linarith
  have hbelow' := Int.cast_lt.1 hbelow
  have habove' := Int.cast_lt.1 habove
  omega

/-- **What is written**: four digits and an exponent that stand for the rounded number, also when it
is rounded to the next power of ten. -/
theorem ratioChars_eq (hx : x ≠ 0) (hlow : (10 : ℚ) ^ k ≤ |x|) (hhigh : |x| < 10 ^ (k + 1)) :
    ∃ (n : ℕ) (e : ℤ), 10 ^ 3 ≤ n ∧ n < 10 ^ 4 ∧
      (n : ℚ) * 10 ^ (e - 3) = round (|x| / 10 ^ (k - 3)) * 10 ^ (k - 3) ∧
      ratioChars x hx = (if x < 0 then ['-'] else []) ++
        (Decimal.scientificMantissa (Numeral.natural n) ++ 'e' :: Decimal.exponentText e) := by
  obtain ⟨hleast, hmost⟩ := round_mem_Icc hlow hhigh
  have hround := roundHalfUp_eq x.num.natAbs x.den_pos (k - (ratioDigits - 1 : ℕ))
  rw [← Exact.abs_eq_div, show ((ratioDigits - 1 : ℕ) : ℤ) = 3 from rfl] at hround
  rw [ratioChars, decimalExponent_eq hx hlow hhigh]
  rw [show ((ratioDigits - 1 : ℕ) : ℤ) = 3 from rfl]
  generalize roundHalfUp x.num.natAbs x.den (k - 3) = n at hround
  rw [← hround] at hleast hmost ⊢
  by_cases hcarry : n = 10 ^ ratioDigits
  · refine ⟨n / 10, k + 1, ?_, ?_, ?_, ?_⟩
    · rw [hcarry]
      decide
    · rw [hcarry]
      decide
    · have hstep : (10 : ℚ) ^ (k + 1 - 3) = 10 * 10 ^ (k - 3) := by
        rw [show k + 1 - 3 = k - 3 + 1 by ring, zpow_add_one₀ (by norm_num), mul_comm]
      have htenth : ((n / 10 : ℕ) : ℚ) * 10 = n := by
        rw [hcarry]
        norm_num [ratioDigits]
      rw [hstep, ← mul_assoc, htenth, Int.cast_natCast]
    · simp only [if_pos hcarry, List.append_assoc]
  · refine ⟨n, k, by exact_mod_cast hleast, ?_, by rw [Int.cast_natCast], ?_⟩
    · exact lt_of_le_of_ne (by exact_mod_cast hmost) hcarry
    · simp only [if_neg hcarry, List.append_assoc]

end Written

/-! ## The text -/

/-- **Scientific notation with four digits**: `d.ddde+XX` or `d.ddde-XX`, with a minus sign before a
negative number.  The first digit is not zero, and the exponent has at least two digits. -/
inductive ShortForm (negative : Bool) : List Char → Prop
  | mk {first sign : Char} {rest exponent : List Char} : Digits (first :: rest) → first ≠ '0' →
      rest.length = 3 → sign = '+' ∨ sign = '-' → Digits exponent → 2 ≤ exponent.length →
      ShortForm negative ((if negative then ['-'] else []) ++
        first :: '.' :: (rest ++ 'e' :: sign :: exponent))

theorem shortForm_scientific {n : ℕ} (hlow : 10 ^ 3 ≤ n) (hhigh : n < 10 ^ 4) (e : ℤ)
    (negative : Bool) : ShortForm negative ((if negative then ['-'] else []) ++
      (Decimal.scientificMantissa (Numeral.natural n) ++ 'e' :: Decimal.exponentText e)) := by
  have hdigits := Numeral.digits_natural n
  have hlength := Numeral.length_natural_eq hlow hhigh
  have hfirst := Numeral.head_natural_ne_zero (show 0 < n by omega)
  have hexponent := Numeral.digits_padZeros (Numeral.digits_natural e.natAbs) 2
  have hwidth : 2 ≤ (Numeral.padZeros 2 (Numeral.natural e.natAbs)).length := by
    rw [Numeral.padZeros, List.length_append, List.length_replicate]
    omega
  obtain ⟨first, rest, hnatural⟩ := List.exists_cons_of_ne_nil hdigits.ne_nil
  rw [hnatural, List.length_cons] at hlength
  rw [hnatural, List.head?_cons, ne_eq, Option.some_inj] at hfirst
  rw [hnatural] at hdigits ⊢
  obtain ⟨second, others, rfl⟩ := List.exists_cons_of_length_pos (by omega : 0 < rest.length)
  rw [Decimal.scientificMantissa, Decimal.exponentText]
  refine .mk hdigits hfirst (Nat.succ_injective hlength) ?_ hexponent hwidth
  split
  · exact Or.inr rfl
  · exact Or.inl rfl

theorem spells_scientific (negative : Bool) (n : ℕ) (e : ℤ) :
    ∃ l, Spells ((if negative then ['-'] else []) ++
      (Decimal.scientificMantissa (Numeral.natural n) ++ 'e' :: Decimal.exponentText e)) l ∧
      l.worth = (if negative then -1 else 1) *
        (n * 10 ^ (e + 1 - (Numeral.natural n).length : ℤ)) := by
  obtain ⟨i, f, point, hmantissa, hvalue⟩ :=
    Binary64.mantissaText_scientific (Numeral.digits_natural n)
  refine ⟨_, .mk (Binary64.signText_signText negative) hmantissa .none (fun _ => rfl)
    (Binary64.scaleText_exponentText e), ?_⟩
  rw [Binary64.worth_plain, hvalue, Numeral.positional_natural, mul_assoc,
    ← zpow_add₀ (by norm_num)]
  congr 3
  ring

/-- **A ratio is written as the number correctly rounded to four digits.**  For a number from `10 ^
k` up to `10 ^ (k + 1)` the text has the short form, and it is read as a number with the same sign
whose size is a whole number of units of `10 ^ (k - 3)`: the nearest one, and the greater one, away
from zero, of two that are as near. -/
theorem ratioText_rounds {x : ℚ} {k : ℤ} (hlow : (10 : ℚ) ^ k ≤ |x|) (hhigh : |x| < 10 ^ (k + 1)) :
    ShortForm (decide (x < 0)) (ratioText (some x)).toList ∧
      ∃ r, Literal.parse (ratioText (some x)) = .ok r ∧ (r < 0 ↔ x < 0) ∧
        |r| = round (|x| / 10 ^ (k - 3)) * 10 ^ (k - 3) := by
  have hx : x ≠ 0 := abs_pos.1 (lt_of_lt_of_le (by positivity) hlow)
  obtain ⟨n, e, hn, hn', hvalue, hchars⟩ := ratioChars_eq hx hlow hhigh
  obtain ⟨l, hspell, hworth⟩ := spells_scientific (decide (x < 0)) n e
  have hlength : (Numeral.natural n).length = 4 := Numeral.length_natural_eq hn hn'
  have hpositive : (0 : ℚ) < n * 10 ^ (e - 3) := by
    have hcast : (0 : ℚ) < n := Nat.cast_pos.2 (by omega)
    positivity
  have htext : (ratioText (some x)).toList = (if decide (x < 0) then ['-'] else []) ++
      (Decimal.scientificMantissa (Numeral.natural n) ++ 'e' :: Decimal.exponentText e) := by
    simp only [ratioText, dif_neg hx, hchars, String.toList_ofList, decide_eq_true_eq]
  rw [hlength, show e + 1 - ((4 : ℕ) : ℤ) = e - 3 by push_cast; ring] at hworth
  rw [← htext] at hspell
  refine ⟨htext ▸ shortForm_scientific hn hn' e _, l.worth, ?_, ?_, ?_⟩
  · rw [← Text.trimAll_eq_self hspell.not_blank] at hspell
    exact Literal.parse_eq_ok_iff.2 (.decimal hspell)
  · rw [hworth]
    by_cases hneg : x < 0
    · simp only [hneg, decide_true, if_true, iff_true]
      linarith
    · simp only [hneg, decide_false, Bool.false_eq_true, if_false, iff_false, one_mul]
      exact not_lt.2 hpositive.le
  · rw [← hvalue, hworth, abs_mul, abs_of_pos hpositive]
    split <;> simp

/-- Half a unit of the fourth digit below a power of ten a number is rounded up to this power. -/
theorem ratioText_rounds_carry : (10 : ℚ) ^ (3 : ℤ) ≤ |-19999 / 2| ∧
    |(-19999 / 2 : ℚ)| < 10 ^ (3 + 1 : ℤ) ∧
    ShortForm true (ratioText (some (-19999 / 2))).toList ∧
      ∃ r, Literal.parse (ratioText (some (-19999 / 2))) = .ok r ∧ |r| = 10 ^ 4 := by
  have hsize : |(-19999 / 2 : ℚ)| = 19999 / 2 := by
    rw [neg_div, abs_neg, abs_of_pos (by norm_num)]
  have hlow : (10 : ℚ) ^ (3 : ℤ) ≤ |-19999 / 2| := by
    rw [hsize]
    norm_num
  have hhigh : |(-19999 / 2 : ℚ)| < 10 ^ (3 + 1 : ℤ) := by
    rw [hsize]
    norm_num
  have hnegative : decide ((-19999 / 2 : ℚ) < 0) = true := decide_eq_true (by norm_num)
  have hround : round ((19999 / 2 : ℚ) / 10 ^ (3 - 3 : ℤ)) = 10000 := by
    rw [sub_self, zpow_zero, div_one, round_eq]
    norm_num
  obtain ⟨hform, r, hparse, -, habs⟩ := ratioText_rounds hlow hhigh
  rw [hnegative] at hform
  refine ⟨hlow, hhigh, hform, r, hparse, ?_⟩
  rw [habs, hsize, hround]
  norm_num

end Roundoff.Session
