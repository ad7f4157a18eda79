import Roundoff.Proofs.Binary64.Rounding
import Roundoff.Proofs.Binary64.Text
import Roundoff.Proofs.Expansion.Rendering

/-! # Texts of finite values read back

The decimal text of a finite value is read as a rational that rounds to this value again
(`parse_text`), except that the sign of a negative zero is lost.  The shortest decimal reads back
because the search tries every decimal for it, and the exact decimal, which is left when the search
finds none, is the value itself.  The hexadecimal text keeps the sign of every finite value.
-/
namespace Roundoff

/-- The two ways to take a decimal for a rational. -/
theorem Decimal.numerator_div_denominator (x : Decimal) :
    (x.numerator : ℚ) / x.denominator = x.toRat := by
  rw [numerator, denominator, toRat]
  by_cases hexp : 0 ≤ x.exponent
  · obtain ⟨k, hk⟩ := Int.eq_ofNat_of_zero_le hexp
    rw [hk, Int.toNat_natCast, zpow_natCast, show (-(k : ℤ)).toNat = 0 by omega]
    push_cast
    simp
  · obtain ⟨k, hk⟩ := Int.eq_ofNat_of_zero_le (Int.neg_nonneg_of_nonpos (not_le.1 hexp).le)
    rw [hk, Int.toNat_natCast, show x.exponent = -(k : ℤ) by omega, zpow_neg, zpow_natCast,
      show (-(k : ℤ)).toNat = 0 by omega]
    push_cast
    rw [mul_one, div_eq_mul_inv]

theorem Decimal.denominator_pos (x : Decimal) : 0 < x.denominator := by
  rw [denominator]
  exact Nat.pow_pos (by decide)

namespace Binary64

/-! ## The shortest decimal -/

theorem readsBack_exactDecimal {m : ℕ} (hm : m < infinityMagnitude) :
    readsBack m (exactDecimal m) = true := by
  obtain ⟨u, hu, hunit⟩ := exists_unitDenominator
  have hu' : u = 1074 := by omega
  have hround := roundMagnitude_scaled hm
  rw [hunit] at hround
  rw [readsBack, beq_iff_eq, exactDecimal, ← hu', ← hu, Decimal.numerator, Decimal.denominator]
  dsimp only
  rw [Int.neg_neg, Int.toNat_natCast, show (-(u : ℤ)).toNat = 0 by omega, pow_zero, mul_one]
  refine (roundMagnitude_congr (Nat.pow_pos (by decide)) (Nat.two_pow_pos u) ?_).trans hround
  rw [mul_assoc, ← mul_pow, show 5 * 2 = 10 from rfl]

/-- **The shortest decimal reads back.** -/
theorem readsBack_shortest {m : ℕ} (hm : m < infinityMagnitude) :
    readsBack m (shortest m) = true := by
  rw [shortest]
  cases hfind : (List.range 17).findSome? fun k : ℕ =>
      neighbour? m (Decimal.leadingExponent (scaled m) unitDenominator - k) with
  | some x =>
    obtain ⟨k, -, hk⟩ := List.exists_of_findSome?_eq_some hfind
    exact readsBack_of_neighbour? hk
  | none => exact readsBack_exactDecimal hm

/-! ## The number that a text spells -/

/-- A rational is rounded as any fraction of its size. -/
theorem roundMagnitude_of_abs_eq {r : ℚ} {a d : ℕ} (hd : 0 < d) (h : |r| = a / d) :
    roundMagnitude r.num.natAbs r.den = roundMagnitude a d := by
  have hden : (r.den : ℚ) ≠ 0 := Nat.cast_ne_zero.2 r.den_nz
  have hd' : (d : ℚ) ≠ 0 := Nat.cast_ne_zero.2 hd.ne'
  rw [Exact.abs_eq_div, div_eq_div_iff hden hd'] at h
  exact roundMagnitude_congr r.den_pos hd (by exact_mod_cast h)

theorem spelledValue_pos {m : ℕ} (hm : m ≠ 0) : 0 < spelledValue m := by
  have hpos := Nat.pos_of_ne_zero (coefficient_shortest_ne_zero hm)
  rw [spelledValue, if_neg hm]
  generalize shortest m = x at hpos
  rw [Decimal.toRat]
  positivity

/-- **The number that the text of a finite value spells rounds to this value**, up to the sign of
zero. -/
theorem ofRat_spelledValue {x : Binary64} (hx : x.isFinite = true) :
    ofRat ((if x.negative then -1 else 1) * spelledValue x.magnitude) =
      if x.isZero then zero false else x := by
  obtain ⟨negative, m, hbound⟩ := x
  have hm : m < infinityMagnitude := of_decide_eq_true hx
  dsimp only
  by_cases hzero : m = 0
  · subst hzero
    rw [spelledValue, if_pos rfl, mul_zero]
    rfl
  · have hpos := spelledValue_pos hzero
    have hnot : (⟨negative, m, hbound⟩ : Binary64).isZero = false := decide_eq_false hzero
    have habs : |(if negative then -1 else 1) * spelledValue m| =
        ((shortest m).numerator : ℚ) / (shortest m).denominator := by
      rw [Decimal.numerator_div_denominator, abs_mul, abs_of_pos hpos, spelledValue, if_neg hzero]
      cases negative <;> simp
    have hsign : decide ((if negative then -1 else 1) * spelledValue m < 0) = negative := by
      generalize spelledValue m = q at hpos
      cases negative with
      | true => simpa using hpos
      | false => simpa using hpos.le
    have hround : roundMagnitude (shortest m).numerator (shortest m).denominator = m :=
      beq_iff_eq.1 (readsBack_shortest hm)
    rw [hnot, if_neg Bool.false_ne_true, ofRat, ofMagnitude]
    simp only [hsign, roundMagnitude_of_abs_eq (Decimal.denominator_pos _) habs, hround]

/-- **The decimal text of a finite value reads back.** -/
theorem parse_text {x : Binary64} (hx : x.isFinite = true) :
    ∃ r, Literal.parse x.text = .ok r ∧ ofRat r = if x.isZero then zero false else x := by
  obtain ⟨l, hspell, -, hworth⟩ := spells_text hx
  refine ⟨l.worth, Literal.parse_eq_ok_iff.2 (.decimal hspell), ?_⟩
  rw [hworth, ofRat_spelledValue hx]

/-- The hexadecimal text of a finite value shows its sign. -/
theorem head_hexText {x : Binary64} (hx : x.isFinite = true) :
    x.hexText.toList.head? = some '-' ↔ x.negative = true := by
  obtain ⟨body, htext⟩ :
      ∃ body, x.hexText = String.ofList (signText x.negative ++ '0' :: body) := by
    rw [hexText, isNaN_of_isFinite hx, isInfinite_of_isFinite hx, if_neg Bool.false_ne_true,
      if_neg Bool.false_ne_true]
    exact ⟨_, rfl⟩
  rw [htext, String.toList_ofList, signText]
  cases x.negative <;> simp

end Binary64

end Roundoff
