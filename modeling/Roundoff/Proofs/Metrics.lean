import Roundoff.Metrics
import Roundoff.Proofs.Binary64.Ulp
import Roundoff.Proofs.Sequence

/-! # The metrics are always defined

The metrics ask for the rational of the shadow, for its place on the line and for a quotient by the
unit in the last place.  Here they are computed with each of these checked, and no check ever fails
(`measure_eq`): a shadow that is not finite is classified first, the rounded exact value is never a
NaN, and its unit in the last place, when finite, is not zero (`ulp_toRat_pos`).
-/
namespace Roundoff

open Binary64

namespace Metrics

/-! ## Checked metrics -/

/-- Why a metric has no value. -/
inductive MeasureError where
  | arithmetic (cause : ArithmeticError)
  | notFinite (cause : NotFinite)
  | notANumber (cause : NotANumber)
  deriving DecidableEq

/-- The class of a shadow; a finite one is compared as a rational. -/
def classify (exact : Rat) (shadow : Binary64) : Except MeasureError Accuracy :=
  if shadow.isNaN then .ok .nan
  else if shadow.isInfinite then .ok .infinite
  else do
    let r ← shadow.rational.mapError .notFinite
    return if r = exact then .exact else .inexact

/-- The distance between the exact value and the shadow, checked. -/
def measureAbsolute (exact : Rat) (shadow : Binary64) : Except MeasureError Rat := do
  let r ← shadow.rational.mapError .notFinite
  return Exact.abs (exact - r)

/-- The distance relative to the exact value, checked. -/
def measureRelative (exact : Rat) (shadow : Binary64) : Except MeasureError (Option Rat) :=
  if exact = 0 then .ok none
  else do
    let e ← measureAbsolute exact shadow
    let q ← (Exact.div e (Exact.abs exact)).mapError .arithmetic
    return some q

/-- The binary64 steps between the exact value, rounded, and the shadow, checked. -/
def measureDistance (exact : Rat) (shadow : Binary64) : Except MeasureError (Option Nat) :=
  if exact = 0 ∨ !shadow.isFinite then .ok none
  else (((Binary64.ofRat exact).ulpDistance shadow).mapError .notANumber).map some

/-- The distance in units of the last place of the exact value, rounded, checked. -/
def measureUnits (exact : Rat) (shadow : Binary64) : Except MeasureError (Option Rat) :=
  if !shadow.isFinite then .ok none
  else
    let unit := (Binary64.ofRat exact).ulp
    if !unit.isFinite then .ok none
    else do
      let e ← measureAbsolute exact shadow
      let u ← unit.rational.mapError .notFinite
      let q ← (Exact.div e u).mapError .arithmetic
      return some q

/-- All metrics of an exact value and its shadow, every step checked. -/
def measure (exact : Rat) (shadow : Binary64) : Except MeasureError Metrics := do
  let accuracy ← classify exact shadow
  if accuracy = .nan ∨ accuracy = .infinite then
    return ⟨accuracy, none, none, none, none, none⟩
  else
    let rounded := Binary64.ofRat exact
    let absolute ← measureAbsolute exact shadow
    let relative ← measureRelative exact shadow
    let distance ← measureDistance exact shadow
    let units ← measureUnits exact shadow
    return ⟨accuracy, some absolute, relative, distance, units,
      some (rounded.isFinite && rounded.numEq shadow)⟩

/-! ## No check fails -/

variable {exact : Rat} {shadow : Binary64}

theorem measureAbsolute_eq (h : shadow.isFinite = true) :
    measureAbsolute exact shadow = .ok (Exact.abs (exact - shadow.toRat)) := by
  rw [measureAbsolute, rational_eq_ok_iff.2 ⟨h, rfl⟩, mapError_ok, ok_bind]
  rfl

theorem absoluteErrorOf_eq (h : shadow.isFinite = true) :
    absoluteErrorOf exact shadow = .ok (Exact.abs (exact - shadow.toRat)) := by
  rw [absoluteErrorOf, rational_eq_ok_iff.2 ⟨h, rfl⟩]
  rfl

theorem exact_abs_ne_zero (h : exact ≠ 0) : Exact.abs exact ≠ 0 := by
  unfold Exact.abs
  split
  · exact neg_ne_zero.2 h
  · exact h

theorem measureRelative_eq (h : shadow.isFinite = true) :
    ∃ r, measureRelative exact shadow = .ok r ∧ relativeErrorOf exact shadow = .ok r := by
  unfold measureRelative relativeErrorOf
  by_cases hzero : exact = 0
  · rw [if_pos hzero, if_pos hzero]
    exact ⟨none, rfl, rfl⟩
  · rw [if_neg hzero, if_neg hzero, measureAbsolute_eq h, absoluteErrorOf_eq h]
    refine ⟨some (Exact.abs (exact - shadow.toRat) / Exact.abs exact), ?_, rfl⟩
    show ((Exact.div _ _).mapError _ >>= _) = _
    rw [Exact.div, if_neg (exact_abs_ne_zero hzero)]
    rfl

theorem measureDistance_eq (h : shadow.isFinite = true) :
    measureDistance exact shadow = .ok (ulpDistanceOf exact shadow) := by
  unfold measureDistance ulpDistanceOf
  split
  · rfl
  · rw [Binary64.ulpDistance, place, place, isNaN_ofRat, isNaN_of_isFinite h]
    rfl

theorem measureUnits_eq (h : shadow.isFinite = true) :
    measureUnits exact shadow = .ok (ulpErrorOf exact shadow) := by
  unfold measureUnits ulpErrorOf
  rw [h]
  by_cases hunit : (Binary64.ofRat exact).ulp.isFinite = true
  · -- A finite unit is that of a finite value, so the quotient by it is defined.
    have hinf : (Binary64.ofRat exact).isInfinite = false := by
      by_contra hinf
      rw [ulp, isNaN_ofRat, Bool.eq_true_of_not_eq_false hinf] at hunit
      cases hunit
    have hne := (ulp_toRat_pos (isFinite_of_not (isNaN_ofRat exact) hinf)).ne'
    simp only [hunit, Bool.not_true, Bool.false_eq_true, if_false, Bool.and_self, if_true,
      measureAbsolute_eq h, rational_eq_ok_iff.2 ⟨hunit, rfl⟩, mapError_ok, ok_bind, Exact.div,
      hne]
    rfl
  · have hnot : (Binary64.ofRat exact).ulp.isFinite = false := Bool.eq_false_of_not_eq_true hunit
    simp [hnot]

theorem classify_eq : classify exact shadow = .ok (accuracyOf exact shadow) := by
  unfold classify accuracyOf
  by_cases hnan : shadow.isNaN = true
  · rw [if_pos hnan, if_pos hnan]
  · by_cases hinf : shadow.isInfinite = true
    · rw [if_neg hnan, if_neg hnan, if_pos hinf, if_pos hinf]
    · have hfinite : shadow.isFinite = true :=
        isFinite_of_not (Bool.eq_false_of_not_eq_true hnan) (Bool.eq_false_of_not_eq_true hinf)
      rw [if_neg hnan, if_neg hnan, if_neg hinf, if_neg hinf,
        rational_eq_ok_iff.2 ⟨hfinite, rfl⟩, mapError_ok, ok_bind]
      rfl

theorem accuracyOf_of_isFinite (h : shadow.isFinite = true) :
    ¬ (accuracyOf exact shadow = .nan ∨ accuracyOf exact shadow = .infinite) := by
  rw [accuracyOf, isNaN_of_isFinite h, isInfinite_of_isFinite h]
  simp only [Bool.false_eq_true, if_false]
  split <;> decide

theorem accuracyOf_of_not (h : shadow.isFinite ≠ true) :
    accuracyOf exact shadow = .nan ∨ accuracyOf exact shadow = .infinite := by
  unfold accuracyOf
  by_cases hnan : shadow.isNaN = true
  · exact Or.inl (if_pos hnan)
  · have hinf : shadow.isInfinite = true := by
      by_contra hinf
      exact h (isFinite_of_not (Bool.eq_false_of_not_eq_true hnan)
        (Bool.eq_false_of_not_eq_true hinf))
    rw [if_neg hnan, if_pos hinf]
    exact Or.inr rfl

/-- **The metrics of an exact value and a shadow are always defined.** -/
theorem measure_eq (exact : Rat) (shadow : Binary64) :
    measure exact shadow = .ok (compute exact shadow) := by
  rw [measure, classify_eq, compute, ok_bind]
  by_cases h : shadow.isFinite = true
  · obtain ⟨relative, hmeasure, hrelative⟩ := @measureRelative_eq exact shadow h
    rw [if_neg (accuracyOf_of_isFinite h), measureAbsolute_eq h, hmeasure, measureDistance_eq h,
      measureUnits_eq h, absoluteErrorOf_eq h, hrelative, ok_bind, ok_bind, ok_bind, ok_bind]
    rfl
  · have herror : absoluteErrorOf exact shadow = .error ⟨shadow⟩ := by
      rw [absoluteErrorOf, rational, if_neg h]
      rfl
    rw [if_pos (accuracyOf_of_not h), herror]
    rfl

end Metrics

end Roundoff
