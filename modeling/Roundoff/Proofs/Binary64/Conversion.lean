import Roundoff.Proofs.Binary64.Power
import Roundoff.Proofs.Binary64.ReadBack
import Roundoff.Proofs.Shadow.Exactness

/-! # Rationals to values and back

Rounding takes a larger rational to a place further up on the line (`ordinal_ofRat_mono`): the
magnitudes are in order, and signs turn the order round.  The rational that a finite value denotes
is rounded to this value again (`ofRat_toRat`), but a zero loses its sign.
-/
namespace Roundoff.Binary64

variable {x : Binary64} {r s : ℚ}

theorem ordinal_ofRat_of_nonneg (h : 0 ≤ r) :
    (ofRat r).ordinal = roundMagnitude r.num.natAbs r.den := by
  rw [ordinal, ofRat, ofMagnitude, decide_eq_false (not_lt.2 h)]
  rfl

theorem ordinal_ofRat_le_of_nonneg (hr : 0 ≤ r) (h : r ≤ s) :
    (ofRat r).ordinal ≤ (ofRat s).ordinal := by
  rw [ordinal_ofRat_of_nonneg hr, ordinal_ofRat_of_nonneg (hr.trans h), Int.ofNat_le]
  refine roundMagnitude_mono r.den_pos s.den_pos ?_
  rwa [← Exact.abs_eq_div, ← Exact.abs_eq_div, abs_of_nonneg hr,
    abs_of_nonneg (hr.trans h)]

/-- **Rounding preserves order**, also where the rationals have different signs. -/
theorem ordinal_ofRat_mono (h : r ≤ s) : (ofRat r).ordinal ≤ (ofRat s).ordinal := by
  -- A negative rational is on the other side of the line, at the place of its opposite.
  have hnegative : ∀ {p q : ℚ}, q ≤ 0 → p ≤ q → (ofRat p).ordinal ≤ (ofRat q).ordinal := by
    intro p q hq hpq
    have hopposite := ordinal_ofRat_le_of_nonneg (neg_nonneg.2 hq) (neg_le_neg hpq)
    rw [ordinal_ofRat_neg, ordinal_ofRat_neg] at hopposite
    exact neg_le_neg_iff.1 hopposite
  rcases le_total 0 r with hr | hr
  · exact ordinal_ofRat_le_of_nonneg hr h
  · rcases le_total s 0 with hs | hs
    · exact hnegative hs h
    · exact (hnegative le_rfl hr).trans (ordinal_ofRat_le_of_nonneg le_rfl hs)

/-- **A finite value is rounded to itself**, a negative zero to the positive one. -/
theorem ofRat_toRat (hx : x.isFinite = true) :
    ofRat x.toRat = if x.isZero then zero false else x := by
  by_cases hzero : x.isZero = true
  · rw [if_pos hzero, toRat_eq_zero_iff.2 hzero]
    rfl
  · have hsign : decide (x.toRat < 0) = x.negative := by
      rw [Bool.eq_iff_iff, decide_eq_true_eq]
      exact toRat_neg_iff (Bool.eq_false_of_not_eq_true hzero)
    have hmagnitude : roundMagnitude x.toRat.num.natAbs x.toRat.den = x.magnitude := by
      have hunit : 0 < unitDenominator := Nat.cast_pos.1 unitDenominator_pos
      rw [roundMagnitude_of_abs_eq hunit (abs_toRat x)]
      exact roundMagnitude_scaled (of_decide_eq_true hx)
    rw [if_neg hzero, ofRat, ofMagnitude]
    simp only [hsign, hmagnitude]

theorem ordinal_ofRat_toRat (hx : x.isFinite = true) : (ofRat x.toRat).ordinal = x.ordinal := by
  rw [ofRat_toRat hx]
  split
  · rename_i hzero
    exact (ordinal_eq_zero_iff.2 (of_decide_eq_true hzero)).symm
  · rfl

/-- A rounded rational is finite or an infinity. -/
theorem isFinite_ofRat (r : ℚ) : (ofRat r).isFinite = !(ofRat r).isInfinite := by
  have hle : (ofRat r).magnitude ≤ infinityMagnitude := roundMagnitude_le ..
  rw [isFinite, isInfinite, ← decide_not, decide_eq_decide]
  exact lt_iff_le_and_ne.trans (and_iff_right hle)

theorem place_eq_ok (hx : x.isNaN = false) : x.place = .ok x.ordinal := by
  rw [place, hx, if_neg Bool.false_ne_true]

/-- **The conversion from rationals preserves order and undoes the conversion to them.**  The
rounded values of two rationals have places in the same order; the rational of a finite value is
rounded to the bits of this value, but for the negative zero, which comes back as the positive
one. -/
theorem ofRat_order_and_bits :
    (∀ r s : ℚ, r ≤ s →
      ∃ m n, (ofRat r).place = .ok m ∧ (ofRat s).place = .ok n ∧ m ≤ n) ∧
    ∀ x : Binary64, x.isFinite = true →
      ∃ r, x.rational = .ok r ∧
        (ofRat r).bits = if x = zero true then (zero false).bits else x.bits := by
  constructor
  · intro r s h
    exact ⟨_, _, place_eq_ok (isNaN_ofRat r), place_eq_ok (isNaN_ofRat s), ordinal_ofRat_mono h⟩
  · intro x hx
    refine ⟨x.toRat, rational_eq_ok_iff.2 ⟨hx, rfl⟩, ?_⟩
    rw [ofRat_toRat hx]
    by_cases hnegative : x = zero true
    · subst hnegative
      rfl
    · rw [if_neg hnegative]
      split
      · -- Of the two zeros only the positive one is left.
        rename_i hzero
        obtain ⟨negative, m, hm⟩ := x
        have hmagnitude : m = 0 := of_decide_eq_true hzero
        subst hmagnitude
        cases negative with
        | false => rfl
        | true => exact absurd rfl hnegative
      · rfl

/-- A rational that overflows lies above one that is rounded to a negative zero; the smallest
subnormal and the negative zero as rationals. -/
theorem ofRat_order_and_bits_extremes :
    (∃ m n, (ofRat (-(1 / 2 ^ 1080))).place = .ok m ∧ (ofRat (2 ^ 1024)).place = .ok n ∧ m ≤ n) ∧
    (∃ r, (ofBits 1).rational = .ok r ∧ (ofRat r).bits = 1) ∧
    ∃ r, (zero true).rational = .ok r ∧ (ofRat r).bits = 0 := by
  refine ⟨?_, ?_, ?_⟩
  · refine ofRat_order_and_bits.1 _ _ (le_trans (neg_nonpos.2 ?_) ?_) <;> positivity
  · exact ofRat_order_and_bits.2 (ofBits 1) (by decide)
  · exact ofRat_order_and_bits.2 (zero true) (by decide)

end Roundoff.Binary64
