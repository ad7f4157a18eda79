import Roundoff.Proofs.Binary64.Conversion

/-! # The unit in the last place

The unit in the last place of a finite value is a power of two and a finite value itself, hence not
changed by the rounding in its definition (`ulp_spec`).  It is the step to the next larger value
(`toRat_of_ordinal_succ`), and a rational is at most half of it away from the value that it is
rounded to (`abs_sub_ofRat_le`).
-/
namespace Roundoff.Binary64

variable {x y : Binary64} {r : ℚ}

theorem exists_scaled_eq_two_pow {j : ℕ} (hj : j ≤ 2045) :
    ∃ m, m < infinityMagnitude ∧ scaled m = 2 ^ j := by
  have hinfinity : infinityMagnitude = 2047 * 2 ^ 52 := by decide
  by_cases hsmall : j < 52
  · have hlt : 2 ^ j < 2 ^ 52 := Nat.pow_lt_pow_right (by decide) hsmall
    have hscaled := scaled_units (n := 2 ^ j) (k := 0) (by omega) fun h => absurd rfl h
    rw [pow_zero, mul_one, Nat.zero_mul, Nat.add_zero] at hscaled
    exact ⟨2 ^ j, by omega, hscaled⟩
  · have hscaled := scaled_units (n := 2 ^ 52) (k := j - 52) (by decide) fun _ => le_rfl
    rw [← pow_add, Nat.add_sub_cancel' (not_lt.1 hsmall)] at hscaled
    exact ⟨2 ^ 52 + (j - 52) * 2 ^ 52, by omega, hscaled⟩

/-- The distance of a finite magnitude to the next one is a magnitude. -/
theorem exists_scaled_eq_gap (hx : x.isFinite = true) :
    ∃ m, m < infinityMagnitude ∧ scaled m = 2 ^ (biasedExponent x.magnitude - 1) := by
  have hm : x.magnitude < infinityMagnitude := of_decide_eq_true hx
  refine exists_scaled_eq_two_pow ?_
  rw [infinityMagnitude] at hm
  rw [biasedExponent]
  omega

/-- **The unit in the last place** is finite, and the power of two by which the significand
counts. -/
theorem ulp_spec (hx : x.isFinite = true) : x.ulp.isFinite = true ∧
    x.ulp.toRat = 2 ^ ((biasedExponent x.magnitude - 1 : ℕ) + -1074 : ℤ) := by
  obtain ⟨m, hm, hscaled⟩ := exists_scaled_eq_gap hx
  have hbound : m < 2 ^ 63 := hm.trans (by decide)
  have hgap : (scaled (x.magnitude + 1) : ℤ) - scaled x.magnitude = scaled m := by
    rw [scaled_succ, hscaled]
    push_cast
    ring
  have hpositive : (⟨false, m, hbound⟩ : Binary64).isZero = false := by
    rw [isZero, decide_eq_false_iff_not]
    rintro rfl
    exact absurd hscaled (Nat.two_pow_pos _).ne
  have hulp : x.ulp = ⟨false, m, hbound⟩ := by
    rw [ulp, isNaN_of_isFinite hx, isInfinite_of_isFinite hx, if_neg Bool.false_ne_true,
      if_neg Bool.false_ne_true, hgap]
    have hround := ofRat_toRat (x := ⟨false, m, hbound⟩) (decide_eq_true hm)
    rwa [hpositive, if_neg Bool.false_ne_true] at hround
  rw [hulp]
  refine ⟨decide_eq_true hm, ?_⟩
  rw [toRat, Rat.mkRat_eq_div, if_neg Bool.false_ne_true, hscaled, two_zpow_unit, div_eq_mul_inv]
  push_cast
  rfl

theorem ulp_toRat_pos (hx : x.isFinite = true) : 0 < x.ulp.toRat := by
  rw [(ulp_spec hx).2]
  positivity

/-! ## The next value -/

/-- **A unit in the last place above a value that is not negative lies the next value.** -/
theorem toRat_of_ordinal_succ (hx : x.isFinite = true) (hnonneg : 0 ≤ x.toRat)
    (h : y.ordinal = x.ordinal + 1) : y.toRat = x.toRat + x.ulp.toRat := by
  have hplace : 0 ≤ x.ordinal := by
    have hzero : (zero false).toRat = 0 := toRat_eq_zero_iff.2 rfl
    rw [← hzero, ← not_lt, toRat_lt_iff] at hnonneg
    exact not_lt.1 hnonneg
  have hmagnitude := natAbs_ordinal x
  have hnext : scaledAt (x.ordinal + 1) =
      scaledAt x.ordinal + (2 ^ (biasedExponent x.magnitude - 1) : ℕ) := by
    rw [scaledAt, scaledAt, if_neg (not_lt.2 hplace), if_neg (by omega), hmagnitude,
      show (x.ordinal + 1).natAbs = x.magnitude + 1 by omega, scaled_succ]
    push_cast
    ring
  rw [toRat_eq, toRat_eq, h, hnext, (ulp_spec hx).2, two_zpow_unit]
  push_cast
  ring

/-! ## Half a unit -/

theorem abs_sub_ofRat_le_of_pos (hr : 0 < r) (hfinite : (ofRat r).isFinite = true) :
    |r - (ofRat r).toRat| ≤ (ofRat r).ulp.toRat / 2 := by
  obtain ⟨n, k, hrounded, hsign, hmagnitude⟩ := exists_rounded_ofRat hr
  have hlt : (ofRat r).magnitude < infinityMagnitude := of_decide_eq_true hfinite
  rw [hmagnitude, min_lt_iff, or_iff_left (lt_irrefl _)] at hlt
  rw [min_eq_left hlt.le] at hmagnitude
  have hvalue := hrounded.toRat_eq hsign hmagnitude
  -- The unit of the result is that of the rounding, or the next one after a carry.
  have hexponent : k ≤ biasedExponent (ofRat r).magnitude - 1 := by
    have hnormal := hrounded.le_of_ne_zero
    rw [hmagnitude, biasedExponent]
    omega
  have hunit : (2 : ℚ) ^ (k + -1074 : ℤ) ≤ (ofRat r).ulp.toRat := by
    rw [(ulp_spec hfinite).2]
    exact zpow_le_zpow_right₀ one_le_two (by omega)
  have hpositive : (0 : ℚ) < 2 ^ (k + -1074 : ℤ) := by positivity
  have hhalf := mul_le_mul_of_nonneg_right hrounded.nearest.le_half hpositive.le
  rw [abs_sub_comm, hvalue, ← Int.cast_natCast, Rounded.dist_eq]
  linarith

/-- **A rational is rounded by at most half a unit in the last place of the result.** -/
theorem abs_sub_ofRat_le (hfinite : (ofRat r).isFinite = true) :
    |r - (ofRat r).toRat| ≤ (ofRat r).ulp.toRat / 2 := by
  rcases lt_trichotomy r 0 with hneg | rfl | hpos
  · have hopposite := ofRat_neg hneg.ne
    have hfinite' : (ofRat (-r)).isFinite = true := by
      rw [hopposite]
      exact hfinite
    have hbound := abs_sub_ofRat_le_of_pos (neg_pos.2 hneg) hfinite'
    have hulp : (ofRat (-r)).ulp.toRat = (ofRat r).ulp.toRat := by
      rw [(ulp_spec hfinite).2, (ulp_spec hfinite').2, hopposite]
      rfl
    rw [hulp, hopposite, toRat_neg, neg_sub_neg, abs_sub_comm] at hbound
    exact hbound
  · have hzero : (ofRat 0).toRat = 0 := toRat_eq_zero_iff.2 rfl
    rw [hzero, sub_zero, abs_zero]
    exact (half_pos (ulp_toRat_pos hfinite)).le
  · exact abs_sub_ofRat_le_of_pos hpos hfinite

end Roundoff.Binary64
