import Roundoff.Proofs.Dual.Steps
import Roundoff.Proofs.Metrics

/-! # The metrics belong together

The metrics of a finite shadow are read off two numbers, the exact value and the one that the shadow
denotes, and two places on the line, those of the rounded exact value and of the shadow
(`compute_of_isFinite`).  So a shadow that denotes the exact value is the rounded one, which is at
the same place, and the rounded one is at most half a unit in the last place away.
-/
namespace Roundoff.Metrics

open Binary64

variable {exact : ℚ} {shadow : Binary64}

/-- **The metrics of a finite shadow.** -/
theorem compute_of_isFinite (h : shadow.isFinite = true) : compute exact shadow = {
    accuracy := if shadow.toRat = exact then .exact else .inexact
    absoluteError := some |exact - shadow.toRat|
    relativeError := if exact = 0 then none else some (|exact - shadow.toRat| / |exact|)
    ulpDistance := if exact = 0 then none
      else some ((ofRat exact).ordinal - shadow.ordinal).natAbs
    ulpError := if (ofRat exact).isFinite then
      some (|exact - shadow.toRat| / (ofRat exact).ulp.toRat) else none
    correctlyRounded := some (decide ((ofRat exact).ordinal = shadow.ordinal)) } := by
  have habsolute : absoluteErrorOf exact shadow = .ok |exact - shadow.toRat| := by
    rw [absoluteErrorOf_eq h, DualValue.abs_eq]
  have haccuracy : accuracyOf exact shadow = if shadow.toRat = exact then .exact else .inexact := by
    rw [accuracyOf, isNaN_of_isFinite h, isInfinite_of_isFinite h, if_neg Bool.false_ne_true,
      if_neg Bool.false_ne_true]
  have hrelative : relativeErrorOf exact shadow =
      .ok (if exact = 0 then none else some (|exact - shadow.toRat| / |exact|)) := by
    rw [relativeErrorOf, habsolute, DualValue.abs_eq]
    split <;> rfl
  have hdistance : ulpDistanceOf exact shadow = if exact = 0 then none
      else some ((ofRat exact).ordinal - shadow.ordinal).natAbs := by
    rw [ulpDistanceOf, h, Binary64.ulpDistance, place_eq_ok (isNaN_ofRat exact),
      place_eq_ok (isNaN_of_isFinite h)]
    simp only [Bool.not_true, Bool.false_eq_true, or_false]
    rfl
  have hunits : ulpErrorOf exact shadow = if (ofRat exact).isFinite then
      some (|exact - shadow.toRat| / (ofRat exact).ulp.toRat) else none := by
    have hunit : (ofRat exact).ulp.isFinite = (ofRat exact).isFinite := by
      cases hfinite : (ofRat exact).isFinite with
      | true => exact (ulp_spec hfinite).1
      | false =>
        rw [isFinite_ofRat, Bool.not_eq_false'] at hfinite
        rw [ulp, isNaN_ofRat, hfinite, if_neg Bool.false_ne_true, if_pos rfl]
        rfl
    rw [ulpErrorOf, h, Bool.true_and, hunit, DualValue.abs_eq]
  have hrounded : ((ofRat exact).isFinite && (ofRat exact).numEq shadow) =
      decide ((ofRat exact).ordinal = shadow.ordinal) := by
    rw [Bool.eq_iff_iff, Bool.and_eq_true, decide_eq_true_eq,
      numEq_iff (isNaN_ofRat exact) (isNaN_of_isFinite h), and_iff_right_iff_imp]
    intro hplace
    rw [isFinite_eq_of_ordinal_eq hplace, h]
  rw [compute, habsolute, hrelative, haccuracy, hdistance, hunits, hrounded]

/-- **What the metrics of an exact value and a finite shadow say about each other.** -/
structure Consistent (exact : ℚ) (shadow : Binary64) (m : Metrics) : Prop where
  /-- The absolute error is the distance of the two numbers. -/
  absoluteError : m.absoluteError = some |exact - shadow.toRat|
  /-- Only a shadow without error is exact. -/
  exact_iff : m.accuracy = .exact ↔ m.absoluteError = some 0
  /-- Whether the shadow is the rounded exact value is always known. -/
  rounded_known : ∃ b, m.correctlyRounded = some b
  rounded_of_exact : m.accuracy = .exact → m.correctlyRounded = some true
  /-- The rounded exact value is at most half a unit in the last place away. -/
  half_of_rounded : m.correctlyRounded = some true → ∃ u, m.ulpError = some u ∧ u ≤ 1 / 2
  relativeError_none : m.relativeError = none ↔ exact = 0
  relativeError_some : ∀ q, m.relativeError = some q → m.absoluteError = some (q * |exact|)
  ulpDistance_none : m.ulpDistance = none ↔ exact = 0
  ulpDistance_zero : ∀ n, m.ulpDistance = some n → (n = 0 ↔ m.correctlyRounded = some true)
  ulpError_none : m.ulpError = none ↔ (ofRat exact).isInfinite = true
  /-- An exact value beyond the finite range is at least one step away. -/
  overflow : (ofRat exact).isInfinite = true →
    m.correctlyRounded = some false ∧ ∃ n, m.ulpDistance = some n ∧ 1 ≤ n

/-- A shadow at the place of the rounded exact value has at most half a unit of error. -/
theorem error_le_half_ulp (h : shadow.isFinite = true)
    (hplace : (ofRat exact).ordinal = shadow.ordinal) :
    |exact - shadow.toRat| / (ofRat exact).ulp.toRat ≤ 1 / 2 := by
  have hfinite : (ofRat exact).isFinite = true := by
    rw [isFinite_eq_of_ordinal_eq hplace, h]
  have hhalf := abs_sub_ofRat_le hfinite
  rw [div_le_iff₀ (ulp_toRat_pos hfinite), ← toRat_eq_iff.2 hplace]
  linarith

/-- **The metrics of a finite shadow are consistent.** -/
theorem compute_consistent (h : shadow.isFinite = true) :
    Consistent exact shadow (compute exact shadow) := by
  rw [compute_of_isFinite h]
  constructor <;> dsimp only
  case exact_iff =>
    rw [Option.some_inj, abs_eq_zero, sub_eq_zero, eq_comm (a := exact)]
    split <;> simp [*]
  case rounded_known => exact ⟨_, rfl⟩
  case rounded_of_exact =>
    intro hexact
    have hvalue : shadow.toRat = exact := by
      by_contra hne
      rw [if_neg hne] at hexact
      cases hexact
    rw [← hvalue, ordinal_ofRat_toRat h, decide_eq_true rfl]
  case half_of_rounded =>
    intro hrounded
    have hplace := of_decide_eq_true (Option.some_inj.1 hrounded)
    have hfinite : (ofRat exact).isFinite = true := by
      rw [isFinite_eq_of_ordinal_eq hplace, h]
    rw [if_pos hfinite]
    exact ⟨_, rfl, error_le_half_ulp h hplace⟩
  case relativeError_none => split <;> simp [*]
  case relativeError_some =>
    intro q hq
    split at hq
    · cases hq
    · rename_i hne
      rw [← Option.some_inj.1 hq, div_mul_cancel₀ _ (abs_ne_zero.2 hne)]
  case ulpDistance_none => split <;> simp [*]
  case ulpDistance_zero =>
    intro n hn
    split at hn
    · cases hn
    · rw [← Option.some_inj.1 hn, Int.natAbs_eq_zero, sub_eq_zero, Option.some_inj,
        decide_eq_true_eq]
  case ulpError_none =>
    rw [isFinite_ofRat]
    split <;> simp_all
  case overflow =>
    intro hinfinite
    have hplace : (ofRat exact).ordinal ≠ shadow.ordinal := by
      intro hplace
      have hfinite := isFinite_eq_of_ordinal_eq hplace
      rw [h, isFinite_ofRat, hinfinite] at hfinite
      cases hfinite
    have hne : exact ≠ 0 := by
      rintro rfl
      cases hinfinite
    rw [if_neg hne, decide_eq_false hplace]
    exact ⟨rfl, _, rfl, Int.natAbs_pos.2 (sub_ne_zero.2 hplace)⟩

/-- The value nearest to one tenth has less than half a unit of error. -/
theorem compute_consistent_tenth :
    (ofBits 0x3FB999999999999A).isFinite = true ∧
    Consistent (1 / 10) (ofBits 0x3FB999999999999A)
      (compute (1 / 10) (ofBits 0x3FB999999999999A)) ∧
    ∃ u, (compute (1 / 10) (ofBits 0x3FB999999999999A)).ulpError = some u ∧ u ≤ 1 / 2 := by
  have hconsistent := @compute_consistent (1 / 10) (ofBits 0x3FB999999999999A) (by decide)
  exact ⟨by decide, hconsistent, hconsistent.half_of_rounded (by decide +kernel)⟩

end Roundoff.Metrics
