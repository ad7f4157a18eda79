import Roundoff.Proofs.Sequence
import Roundoff.Proofs.Shadow.Exactness

/-! # The redo of an operation always has a value

Finding the flag of a step takes the operands and the result for rationals and redoes the operation
on them, which is undefined for infinities and NaNs, for a zero divisor and for a fractional
exponent.  Here the flag is computed with each of these steps checked, and none of the checks ever
fails: the special values and exponents are settled before the redo, and an operation on finite
values with a finite result has an exact result (`detect_eq`, `detectRounding_eq`).
-/
namespace Roundoff.RoundingFlag

open Binary64

/-- Why a redo has no value. -/
inductive RedoError where
  | arithmetic (cause : ArithmeticError)
  | notFinite (cause : NotFinite)
  deriving DecidableEq

/-- A value as a rational, for a redo. -/
def operand (x : Binary64) : Except RedoError Rat :=
  x.rational.mapError .notFinite

/-- The redo of an operation, every step of it checked. -/
def redo (op : Operation) (x y result : Binary64) : Except RedoError (Option RoundingFlag) := do
  let a ← operand x
  let b ← operand y
  let exact ← (op.exact a b).mapError .arithmetic
  let r ← operand result
  return if r = exact then none else some (ofInexact result)

/-- The flag of an operation with a given result, every step of its redo checked. -/
def detect (op : Operation) (x y result : Binary64) : Except RedoError (Option RoundingFlag) :=
  let finite := x.isFinite && y.isFinite
  if result.isNaN then
    .ok (if x.isNaN || y.isNaN then none else some .invalid)
  else if result.isInfinite then
    .ok (if !finite then none
      else if (op == .div && y.isZero) || (op == .pow && x.isZero) then some .divideByZero
      else some .overflow)
  else if !finite then .ok none
  else if op = .pow then
    if !y.isIntegral then .ok (some .inexact)
    else if exactPowerLimit < y.toRat.num.natAbs then
      .ok (if x.magnitude = one.magnitude then none else some (ofInexact result))
    else redo op x y result
  else redo op x y result

/-- The flag of rounding a rational to a value, the comparison checked. -/
def detectRounding (exact : Rat) (result : Binary64) : Except RedoError (Option RoundingFlag) :=
  if result.isInfinite then .ok (some .overflow)
  else do
    let r ← operand result
    return if r = exact then none else some (ofInexact result)

/-! ## No check fails -/

theorem operand_of_isFinite {x : Binary64} (hx : x.isFinite = true) : operand x = .ok x.toRat := by
  rw [operand, rational_eq_ok_iff.2 ⟨hx, rfl⟩, mapError_ok]

/-- On finite values with a finite result the redo has a value. -/
theorem redo_eq {op : Operation} {x y : Binary64} (hx : x.isFinite = true) (hy : y.isFinite = true)
    (hpow : op = .pow → y.isIntegral = true) (hresult : (op.rounded x y).isFinite = true) :
    redo op x y (op.rounded x y) = .ok (ofRedo? op x y (op.rounded x y)) := by
  rw [redo, operand_of_isFinite hx, operand_of_isFinite hy, operand_of_isFinite hresult, ofRedo?,
    ok_bind, ok_bind]
  cases hexact : op.exact x.toRat y.toRat with
  | error e => exact absurd hexact (exact_ne_error hx hy hpow hresult e)
  | ok r =>
    rw [mapError_ok, ok_bind, ok_bind]
    rfl

/-- **Finding the flag of an operation never fails.** -/
theorem detect_eq (op : Operation) (x y : Binary64) :
    detect op x y (op.rounded x y) = .ok (ofOperation? op x y (op.rounded x y)) := by
  unfold detect ofOperation?
  dsimp only
  by_cases hnan : (op.rounded x y).isNaN = true
  · rw [if_pos hnan, if_pos hnan]
  · rw [if_neg hnan, if_neg hnan]
    by_cases hfinite : (x.isFinite && y.isFinite) = true
    · obtain ⟨hx, hy⟩ := (Bool.and_eq_true _ _).mp hfinite
      have hnot : ¬ (!(x.isFinite && y.isFinite)) = true := by simp [hfinite]
      rw [if_neg hnot, if_neg hnot, if_neg hnot]
      by_cases hinf : (op.rounded x y).isInfinite = true
      · rw [if_pos hinf, if_pos hinf]
      · have hresult : (op.rounded x y).isFinite = true :=
          isFinite_of_not (Bool.eq_false_of_not_eq_true hnan) (Bool.eq_false_of_not_eq_true hinf)
        rw [if_neg hinf, if_neg hinf]
        by_cases hop : op = .pow
        · subst hop
          rw [if_pos rfl, if_pos rfl, ofPower?]
          by_cases hint : y.isIntegral = true
          · have hnotint : ¬ (!y.isIntegral) = true := by simp [hint]
            rw [if_neg hnotint, if_neg hnotint, redo_eq hx hy (fun _ => hint) hresult]
            split <;> rfl
          · have hnotint : (!y.isIntegral) = true := by simpa using hint
            rw [if_pos hnotint, if_pos hnotint]
        · rw [if_neg hop, if_neg hop, redo_eq hx hy (fun h => absurd h hop) hresult]
    · have hnot : (!(x.isFinite && y.isFinite)) = true := by
        rw [Bool.eq_false_of_not_eq_true hfinite, Bool.not_false]
      rw [if_pos hnot, if_pos hnot, if_pos hnot]
      split <;> rfl

/-- **Finding the flag of a literal never fails**: a rational is never rounded to a NaN. -/
theorem detectRounding_eq (exact : Rat) :
    detectRounding exact (ofRat exact) = .ok (ofRounding? exact (ofRat exact)) := by
  unfold detectRounding ofRounding?
  by_cases hinf : (ofRat exact).isInfinite = true
  · rw [if_pos hinf, if_pos hinf]
  · have hfinite : (ofRat exact).isFinite = true :=
      isFinite_of_not (isNaN_ofRat exact) (Bool.eq_false_of_not_eq_true hinf)
    rw [if_neg hinf, if_neg hinf, operand_of_isFinite hfinite, ok_bind]
    rfl

end Roundoff.RoundingFlag
