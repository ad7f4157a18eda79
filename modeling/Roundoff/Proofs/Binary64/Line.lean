import Roundoff.Binary64.Arithmetic
import Mathlib

/-! # The line of binary64 values

A finite value denotes the rational at its place on the line: the next magnitude is larger by one
unit of the last place (`scaled_succ`), so places are ordered as the numbers they denote
(`toRat_lt_iff`).  A change of sign, the absolute value and the smaller or larger of two values
are those of the numbers denoted.
-/
namespace Roundoff.Binary64

/-! ## Magnitudes -/

/-- **Neighbouring magnitudes differ by a unit in the last place**, also across the boundary of two
binades and from the subnormals to the normals. -/
theorem scaled_succ (m : ℕ) : scaled (m + 1) = scaled m + 2 ^ (biasedExponent m - 1) := by
  have hdiv : m = 2 ^ 52 * biasedExponent m + fraction m := (Nat.div_add_mod m (2 ^ 52)).symm
  have hlt : fraction m < 2 ^ 52 := Nat.mod_lt _ (by norm_num)
  by_cases hcarry : fraction m + 1 < 2 ^ 52
  · -- Within a binade only the fraction changes.
    have hexp : biasedExponent (m + 1) = biasedExponent m := by
      unfold biasedExponent fraction at *
      omega
    have hfrac : fraction (m + 1) = fraction m + 1 := by
      unfold biasedExponent fraction at *
      omega
    rw [scaled, scaled, hexp, hfrac]
    split
    · rename_i h0
      rw [h0]
      rfl
    · ring
  · -- The fraction is full, and the next magnitude is the first one of the next binade.
    have hexp : biasedExponent (m + 1) = biasedExponent m + 1 := by
      unfold biasedExponent fraction at *
      omega
    have hfrac : fraction (m + 1) = 0 := by
      unfold biasedExponent fraction at *
      omega
    rw [scaled, scaled, hexp, hfrac, if_neg (Nat.succ_ne_zero _)]
    split
    · rename_i h0
      rw [h0] at hdiv ⊢
      simp only [Nat.mul_zero, Nat.zero_add] at hdiv
      rw [hdiv]
      norm_num
      omega
    · rename_i h0
      obtain ⟨k, hk⟩ := Nat.exists_eq_succ_of_ne_zero h0
      have hlast : 2 ^ 52 + fraction m + 1 = 2 ^ 53 := by omega
      rw [hk]
      simp only [Nat.succ_eq_add_one, Nat.add_sub_cancel, Nat.add_zero]
      calc 2 ^ 52 * 2 ^ (k + 1) = 2 ^ 53 * 2 ^ k := by ring
        _ = (2 ^ 52 + fraction m + 1) * 2 ^ k := by rw [hlast]
        _ = (2 ^ 52 + fraction m) * 2 ^ k + 2 ^ k := by ring

theorem scaled_strictMono : StrictMono scaled :=
  strictMono_nat_of_lt_succ fun m => by
    rw [scaled_succ]
    exact Nat.lt_add_of_pos_right (Nat.two_pow_pos _)

@[simp] theorem scaled_zero : scaled 0 = 0 := rfl

/-! ## Numbers -/

/-- The multiple of the smallest subnormal at a place on the line. -/
def scaledAt (o : ℤ) : ℤ :=
  if o < 0 then -(scaled o.natAbs : ℤ) else scaled o.natAbs

theorem toRat_eq (x : Binary64) : x.toRat = (scaledAt x.ordinal : ℚ) / unitDenominator := by
  have hnum : (if x.negative then -(scaled x.magnitude : ℤ) else scaled x.magnitude)
      = scaledAt x.ordinal := by
    rw [scaledAt, ordinal]
    cases x.negative with
    | false => simp
    | true =>
      rcases Nat.eq_zero_or_pos x.magnitude with hzero | hpos
      · simp [hzero]
      · simp [hpos.ne']
  rw [toRat, Rat.mkRat_eq_div, hnum]

theorem unitDenominator_pos : (0 : ℚ) < unitDenominator := by
  rw [unitDenominator, Nat.cast_pos]
  positivity

theorem two_zpow_unit (k : ℕ) :
    (2 : ℚ) ^ (k + -1074 : ℤ) = 2 ^ k * (unitDenominator : ℚ)⁻¹ := by
  -- The exponent has a name here so that the power is not multiplied out.
  obtain ⟨u, hu⟩ : ∃ u, u = 1074 := ⟨_, rfl⟩
  have hexp : (-1074 : ℤ) = -(u : ℕ) := by omega
  rw [hexp, zpow_add₀ two_ne_zero, zpow_natCast, zpow_neg, zpow_natCast, unitDenominator, ← hu,
    Nat.cast_pow, Nat.cast_ofNat]

theorem scaledAt_strictMono : StrictMono scaledAt := by
  intro a b hab
  have hzero : ∀ {n : ℕ}, 0 < n → 0 < scaled n := fun h => scaled_strictMono h
  unfold scaledAt
  by_cases ha : a < 0
  · by_cases hb : b < 0
    · rw [if_pos ha, if_pos hb]
      have := scaled_strictMono (show b.natAbs < a.natAbs by omega)
      omega
    · rw [if_pos ha, if_neg hb]
      have := hzero (show 0 < a.natAbs by omega)
      omega
  · rw [if_neg ha, if_neg (by omega)]
    exact_mod_cast scaled_strictMono (show a.natAbs < b.natAbs by omega)

/-- **Values are ordered as their places.** -/
theorem toRat_lt_iff {x y : Binary64} : x.toRat < y.toRat ↔ x.ordinal < y.ordinal := by
  rw [toRat_eq, toRat_eq, div_lt_div_iff_of_pos_right unitDenominator_pos, Int.cast_lt,
    scaledAt_strictMono.lt_iff_lt]

theorem toRat_eq_iff {x y : Binary64} : x.toRat = y.toRat ↔ x.ordinal = y.ordinal := by
  rw [toRat_eq, toRat_eq, div_left_inj' unitDenominator_pos.ne', Int.cast_inj,
    scaledAt_strictMono.injective.eq_iff]

theorem natAbs_ordinal (x : Binary64) : x.ordinal.natAbs = x.magnitude := by
  rw [ordinal]
  split <;> omega

/-- Every place up to the magnitudes is that of a value. -/
theorem exists_ordinal {o : ℤ} (h : o.natAbs < 2 ^ 63) : ∃ x : Binary64, x.ordinal = o := by
  refine ⟨⟨decide (o < 0), o.natAbs, h⟩, ?_⟩
  simp only [ordinal, decide_eq_true_eq]
  split <;> omega

theorem ordinal_eq_zero_iff {x : Binary64} : x.ordinal = 0 ↔ x.magnitude = 0 := by
  rw [← natAbs_ordinal, Int.natAbs_eq_zero]

theorem toRat_eq_zero_iff {x : Binary64} : x.toRat = 0 ↔ x.isZero = true := by
  have hzero : (zero false).toRat = 0 := by
    rw [toRat_eq, show scaledAt (zero false).ordinal = 0 from rfl, Int.cast_zero, zero_div]
  rw [← hzero, toRat_eq_iff, isZero, decide_eq_true_eq]
  exact ordinal_eq_zero_iff

theorem toRat_ne_zero_iff {x : Binary64} : x.toRat ≠ 0 ↔ x.isZero = false := by
  rw [Ne, toRat_eq_zero_iff, Bool.not_eq_true]

/-! ## Signs -/

@[simp] theorem toRat_neg (x : Binary64) : x.neg.toRat = -x.toRat := by
  have hnum : scaledAt (-x.ordinal) = -scaledAt x.ordinal := by
    unfold scaledAt
    rcases lt_trichotomy x.ordinal 0 with hneg | hzero | hpos
    · rw [if_neg (by omega), if_pos hneg, Int.natAbs_neg, Int.neg_neg]
    · rw [hzero]
      rfl
    · rw [if_pos (by omega), if_neg (by omega), Int.natAbs_neg]
  rw [toRat_eq, toRat_eq, ordinal_neg, hnum, Int.cast_neg, neg_div]

theorem toRat_nonneg {x : Binary64} (h : x.negative = false) : 0 ≤ x.toRat := by
  rw [toRat, h, Rat.mkRat_eq_div]
  simp only [Bool.false_eq_true, if_false]
  positivity

@[simp] theorem toRat_abs (x : Binary64) : x.abs.toRat = |x.toRat| := by
  cases h : x.negative with
  | false =>
    have hx : x.abs = x := by
      rw [abs, ← h]
    rw [hx, abs_of_nonneg (toRat_nonneg h)]
  | true =>
    have hx : x.abs = x.neg := by
      rw [abs, neg, h]
      rfl
    have hpos : 0 ≤ x.neg.toRat := toRat_nonneg (by rw [neg, h]; rfl)
    rw [hx, ← abs_of_nonneg hpos, toRat_neg, abs_neg]

/-! ## Classes -/

theorem isNaN_of_isFinite {x : Binary64} (h : x.isFinite = true) : x.isNaN = false := by
  rw [isFinite, decide_eq_true_eq] at h
  rw [isNaN, decide_eq_false_iff_not]
  omega

theorem isInfinite_of_isFinite {x : Binary64} (h : x.isFinite = true) : x.isInfinite = false := by
  rw [isFinite, decide_eq_true_eq] at h
  rw [isInfinite, decide_eq_false_iff_not]
  omega

theorem isFinite_of_isInfinite {x : Binary64} (h : x.isInfinite = true) : x.isFinite = false := by
  rw [isFinite, of_decide_eq_true h]
  exact decide_eq_false (lt_irrefl _)

theorem isFinite_of_not {x : Binary64} (hnan : x.isNaN = false) (hinf : x.isInfinite = false) :
    x.isFinite = true := by
  rw [isNaN, decide_eq_false_iff_not] at hnan
  rw [isInfinite, decide_eq_false_iff_not] at hinf
  rw [isFinite, decide_eq_true_eq]
  omega

/-- Values at one place are both finite or both not. -/
theorem isFinite_eq_of_ordinal_eq {x y : Binary64} (h : x.ordinal = y.ordinal) :
    x.isFinite = y.isFinite := by
  rw [isFinite, isFinite, ← natAbs_ordinal x, ← natAbs_ordinal y, h]

/-! ## Equality of numbers -/

/-- Numbers are compared by their places. -/
theorem compare?_of_numbers {x y : Binary64} (hx : x.isNaN = false) (hy : y.isNaN = false) :
    x.compare? y = some (Ord.compare x.ordinal y.ordinal) := by
  rw [compare?, hx, hy, Bool.or_self, if_neg Bool.false_ne_true]

theorem numEq_iff {x y : Binary64} (hx : x.isNaN = false) (hy : y.isNaN = false) :
    x.numEq y = true ↔ x.ordinal = y.ordinal := by
  rw [numEq, compare?_of_numbers hx hy]
  simp

/-- Rounding commutes with a change of sign; the sign of zero is not changed. -/
theorem ofRat_neg {r : ℚ} (h : r ≠ 0) : ofRat (-r) = (ofRat r).neg := by
  have hsign : decide (-r < 0) = !decide (r < 0) := by
    rw [← decide_not, decide_eq_decide, neg_lt_zero, not_lt]
    exact ⟨le_of_lt, fun hle => lt_of_le_of_ne hle (Ne.symm h)⟩
  rw [ofRat, ofRat, neg, hsign]
  simp only [ofMagnitude, Rat.num_neg_eq_neg_num, Rat.den_neg_eq_den, Int.natAbs_neg]

theorem ordinal_ofRat_neg (r : ℚ) : (ofRat (-r)).ordinal = -(ofRat r).ordinal := by
  by_cases hzero : r = 0
  · subst hzero
    rfl
  · rw [ofRat_neg hzero, ordinal_neg]

/-! ## The smaller and the larger value -/

theorem compare?_of_isFinite {x y : Binary64} (hx : x.isFinite = true) (hy : y.isFinite = true) :
    x.compare? y = some (Ord.compare x.ordinal y.ordinal) :=
  compare?_of_numbers (isNaN_of_isFinite hx) (isNaN_of_isFinite hy)

theorem minimum_of_isFinite {x y : Binary64} (hx : x.isFinite = true) (hy : y.isFinite = true) :
    (x.minimum y).isFinite = true ∧ (x.minimum y).toRat = min x.toRat y.toRat := by
  rw [minimum, compare?_of_isFinite hx hy]
  cases hcmp : Ord.compare x.ordinal y.ordinal with
  | lt => exact ⟨hx, (min_eq_left (toRat_lt_iff.2 (compare_lt_iff_lt.1 hcmp)).le).symm⟩
  | gt => exact ⟨hy, (min_eq_right (toRat_lt_iff.2 (compare_gt_iff_gt.1 hcmp)).le).symm⟩
  | eq =>
    have heq := toRat_eq_iff.2 (compare_eq_iff_eq.1 hcmp)
    cases x.negative with
    | true => exact ⟨hx, by rw [heq, min_self]; exact heq⟩
    | false => exact ⟨hy, by rw [heq, min_self]; rfl⟩

theorem maximum_of_isFinite {x y : Binary64} (hx : x.isFinite = true) (hy : y.isFinite = true) :
    (x.maximum y).isFinite = true ∧ (x.maximum y).toRat = max x.toRat y.toRat := by
  rw [maximum, compare?_of_isFinite hx hy]
  cases hcmp : Ord.compare x.ordinal y.ordinal with
  | lt => exact ⟨hy, (max_eq_right (toRat_lt_iff.2 (compare_lt_iff_lt.1 hcmp)).le).symm⟩
  | gt => exact ⟨hx, (max_eq_left (toRat_lt_iff.2 (compare_gt_iff_gt.1 hcmp)).le).symm⟩
  | eq =>
    have heq := toRat_eq_iff.2 (compare_eq_iff_eq.1 hcmp)
    cases x.negative with
    | true => exact ⟨hy, by rw [heq, max_self]; rfl⟩
    | false => exact ⟨hx, by rw [heq, max_self]; exact heq⟩

end Roundoff.Binary64
