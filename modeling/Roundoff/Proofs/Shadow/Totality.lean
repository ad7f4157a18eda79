import Roundoff.Proofs.Binary64.Trapping
import Roundoff.Proofs.Shadow.Detection
import Roundoff.Proofs.Shadow.Step

/-! # Every step on shadows has a result

A step computes a value with arithmetic that traps, and then looks for its flag, for which it may
have to redo the operation on rationals (`Step.perform`).  Neither stops it (`steps_never_stop`).
Most flags are found without the redo (`settled?`); it is left for finite operands with a finite
result, and such a result is never that of a quotient by zero or of a power without an exact value
(`redoes_of_settled?`).
-/
namespace Roundoff

open Binary64

namespace RoundingFlag

variable {op : Operation} {x y : Binary64}

/-- The flag of an operation where it is found without a redo, and nothing where the redo is
reached. -/
def settled? (op : Operation) (x y result : Binary64) : Option (Option RoundingFlag) :=
  if result.isNaN then
    some (if x.isNaN || y.isNaN then none else some .invalid)
  else if result.isInfinite then
    some (if !(x.isFinite && y.isFinite) then none
      else if (op == .div && y.isZero) || (op == .pow && x.isZero) then some .divideByZero
      else some .overflow)
  else if !(x.isFinite && y.isFinite) then some none
  else if op = .pow then
    if !y.isIntegral then some (some .inexact)
    else if exactPowerLimit < y.toRat.num.natAbs then
      some (if x.magnitude = one.magnitude then none else some (ofInexact result))
    else none
  else none

/-- A flag is looked for by a redo if it is not settled before. -/
theorem detect_eq_elim (op : Operation) (x y result : Binary64) :
    detect op x y result = (settled? op x y result).elim (redo op x y result) .ok := by
  unfold detect settled?
  dsimp only
  split_ifs <;> rfl

/-- **What is known where a redo is reached**: each of its steps has a value. -/
structure Redoes (op : Operation) (x y result : Binary64) : Prop where
  left : x.isFinite = true
  right : y.isFinite = true
  result : result.isFinite = true
  divisor : op = .div → y.isZero = false
  exponent : op = .pow → y.isIntegral = true
  base : op = .pow → x.isZero = true → ¬ y.toRat < 0

/-- **A redo is reached only where it has a value.** -/
theorem redoes_of_settled? (h : settled? op x y (op.rounded x y) = none) :
    Redoes op x y (op.rounded x y) := by
  unfold settled? at h
  split at h
  · cases h
  rename_i hnan
  split at h
  · cases h
  rename_i hinf
  split at h
  · cases h
  rename_i hfinite
  rw [Bool.not_eq_true', Bool.not_eq_false, Bool.and_eq_true] at hfinite
  obtain ⟨hx, hy⟩ := hfinite
  have hresult : (op.rounded x y).isFinite = true :=
    isFinite_of_not (Bool.eq_false_of_not_eq_true hnan) (Bool.eq_false_of_not_eq_true hinf)
  refine ⟨hx, hy, hresult, ?_, ?_, ?_⟩
  · rintro rfl
    by_contra hzero
    rw [Operation.rounded, isFinite_div_zero hx hy (Bool.eq_true_of_not_eq_false hzero)] at hresult
    cases hresult
  · rintro rfl
    by_contra hint
    rw [if_pos rfl, Bool.eq_false_of_not_eq_true hint] at h
    cases h
  · rintro rfl hzero hneg
    rw [Operation.rounded, isFinite_zero_pow hzero hy hneg] at hresult
    cases hresult

end RoundingFlag

namespace Shadow

/-- Why a step stops. -/
inductive Halt where
  | trap (cause : Trap)
  | redo (cause : RoundingFlag.RedoError)
  deriving DecidableEq

/-- The rounded result of an operation, from arithmetic that traps. -/
def handled : Operation → Binary64 → Binary64 → Except Trap Binary64
  | .div, x, y => Handled.div x y
  | .pow, x, y => Handled.pow x y
  | op, x, y => .ok (op.rounded x y)

theorem handled_eq (op : Operation) (x y : Binary64) : handled op x y = .ok (op.rounded x y) := by
  cases op with
  | add | sub | mul => rfl
  | div => exact Handled.div_eq x y
  | pow => exact Handled.pow_eq x y

namespace Step

/-- **A step as it is performed**: the value from arithmetic that traps, then the flag from a redo
each part of which is checked.  A change of sign and a choice between two shadows need neither. -/
def perform : Step → Except Halt Shadow
  | ofRat exact source => do
    let value ← (Handled.ofRat exact).mapError .trap
    let flag ← (RoundingFlag.detectRounding exact value).mapError .redo
    return ⟨value, event? (.literal source) value flag⟩
  | apply op x y => do
    let value ← (handled op x.value y.value).mapError .trap
    let flag ← (RoundingFlag.detect op x.value y.value value).mapError .redo
    return ⟨value, x.events ++ y.events ++ event? (.operation op x.value y.value) value flag⟩
  | neg x => return x.neg
  | abs x => return x.abs
  | minimum x y => return x.minimum y
  | maximum x y => return x.maximum y

theorem perform_ofRat (exact : ℚ) (source : Option String) :
    (ofRat exact source).perform = .ok (Shadow.ofRat exact source) := by
  rw [perform, Handled.ofRat_eq, mapError_ok, ok_bind, RoundingFlag.detectRounding_eq, mapError_ok,
    ok_bind]
  rfl

theorem perform_apply (op : Operation) (x y : Shadow) :
    (apply op x y).perform = .ok (Shadow.apply op x y) := by
  rw [perform, handled_eq, mapError_ok, ok_bind, RoundingFlag.detect_eq, mapError_ok, ok_bind]
  rfl

end Step

/-- **No step on shadows stops.**  Each has its result, whatever the values and the trails of its
operands: no trap gets out of the arithmetic, and the redo that looks for a flag has a value where
it is reached.  It is reached for finite operands with a finite result only, never for a zero
divisor, nor for a power with a fractional exponent or with an exponent below zero on a zero
base. -/
theorem steps_never_stop :
    (∀ s : Step, s.perform = .ok s.result) ∧
    (∀ op x y result, RoundingFlag.detect op x y result =
      (RoundingFlag.settled? op x y result).elim (RoundingFlag.redo op x y result) .ok) ∧
    ∀ op x y, RoundingFlag.settled? op x y (op.rounded x y) = none →
      RoundingFlag.Redoes op x y (op.rounded x y) := by
  refine ⟨fun s => ?_, RoundingFlag.detect_eq_elim, fun op x y => RoundingFlag.redoes_of_settled?⟩
  cases s with
  | ofRat exact source => exact Step.perform_ofRat exact source
  | apply op x y => exact Step.perform_apply op x y
  | neg | abs | minimum | maximum => rfl

/-- The negative zero to an odd power: with the exponent minus three it is infinite without a trap,
and with the exponent three the redo is reached. -/
theorem steps_never_stop_zero :
    (Step.apply .pow ⟨zero true, []⟩ ⟨ofBits 0xC008000000000000, []⟩).perform =
      .ok ⟨infinity true, [⟨.operation .pow (zero true) (ofBits 0xC008000000000000), infinity true,
        .divideByZero⟩]⟩ ∧
    RoundingFlag.settled? .pow (zero true) (ofBits 0x4008000000000000)
      (Operation.pow.rounded (zero true) (ofBits 0x4008000000000000)) = none ∧
    ¬ (ofBits 0x4008000000000000).toRat < 0 := by
  have hsettled : RoundingFlag.settled? .pow (zero true) (ofBits 0x4008000000000000)
      (Operation.pow.rounded (zero true) (ofBits 0x4008000000000000)) = none := by
    decide +kernel
  refine ⟨?_, hsettled, (steps_never_stop.2.2 _ _ _ hsettled).base rfl rfl⟩
  rw [steps_never_stop.1]
  decide +kernel

end Shadow

end Roundoff
