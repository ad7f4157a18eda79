import Roundoff.Proofs.Binary64.Trapping

/-! # Powers of opposite bases

The power of the opposite base to an integer exponent is the power itself for an even exponent and
its opposite for an odd one (`neg_pow`).  Zeros and infinities have powers with the sign of the base
for an odd exponent and without a sign for an even one; the other powers are rounded exact powers,
and rounding commutes with a change of sign.  The two powers may be found on different ways, by the
test for a zero base, without a trap, or by the handler of an overflow.
-/
namespace Roundoff.Binary64

variable {x y : Binary64}

/-! ## Zeros and infinities -/

/-- A power of an infinity, other than the zeroth, is zero or infinite by the sign of the
exponent. -/
theorem pow_of_isInfinite (hx : x.isInfinite = true) (hy : y.isFinite = true)
    (hyzero : y.isZero = false) :
    x.pow y = if y.negative then zero (x.negative && y.isOddIntegral)
      else infinity (x.negative && y.isOddIntegral) := by
  have hmagnitude : x.magnitude = infinityMagnitude := of_decide_eq_true hx
  have hone : x ≠ one := by
    rintro rfl
    cases hx
  have hnumber : x.isNaN = false ∧ x.isZero = false := by
    rw [isNaN, isZero, hmagnitude]
    decide
  unfold pow
  simp only [hyzero, hone, hnumber, isNaN_of_isFinite hy, isInfinite_of_isFinite hy, hx,
    Bool.or_self, decide_false, Bool.false_eq_true, if_false, if_true]

/-- A value that takes the sign of the base for an odd exponent, and no sign for an even one, is
turned round with the base for an odd exponent. -/
theorem turned_round {f : Bool → Binary64} (hf : ∀ s, f (!s) = (f s).neg) (s odd : Bool) :
    f (!s && odd) = if odd then (f (s && odd)).neg else f (s && odd) := by
  cases odd with
  | true => rw [Bool.and_true, Bool.and_true, if_pos rfl, hf]
  | false => rw [Bool.and_false, Bool.and_false, if_neg Bool.false_ne_true]

theorem neg_pow_of_isInfinite (hx : x.isInfinite = true) (hy : y.isFinite = true)
    (hyzero : y.isZero = false) :
    x.neg.pow y = if y.isOddIntegral then (x.pow y).neg else x.pow y := by
  rw [pow_of_isInfinite (x := x.neg) hx hy hyzero, pow_of_isInfinite hx hy hyzero]
  cases y.negative with
  | true => exact turned_round (f := zero) (fun _ => rfl) _ _
  | false => exact turned_round (f := infinity) (fun _ => rfl) _ _

theorem neg_pow_of_isZero (hx : x.isZero = true) (hy : y.isFinite = true)
    (hyzero : y.isZero = false) :
    x.neg.pow y = if y.isOddIntegral then (x.pow y).neg else x.pow y := by
  rw [pow_of_isZero (x := x.neg) hx hy hyzero, pow_of_isZero hx hy hyzero]
  by_cases hneg : y.toRat < 0
  · rw [if_pos hneg, if_pos hneg]
    exact turned_round (f := infinity) (fun _ => rfl) _ _
  · rw [if_neg hneg, if_neg hneg]
    exact turned_round (f := zero) (fun _ => rfl) _ _

/-! ## Opposite bases -/

theorem isOddIntegral_iff (hy : y.isIntegral = true) :
    y.isOddIntegral = true ↔ Odd y.toRat.num := by
  rw [isOddIntegral, hy, Bool.true_and, beq_iff_eq, Int.odd_iff]

/-- The power of a finite base but zero is the exact power rounded, and rounding commutes with a
change of sign. -/
theorem neg_pow_of_isFinite (hx : x.isFinite = true) (hzero : x.isZero = false)
    (hy : y.isIntegral = true) :
    x.neg.pow y = if y.isOddIntegral then (x.pow y).neg else x.pow y := by
  have hne : x.toRat ^ y.toRat.num ≠ 0 := zpow_ne_zero _ (toRat_ne_zero_iff.2 hzero)
  rw [pow_eq_ofRat (x := x.neg) hx hzero hy, pow_eq_ofRat hx hzero hy, toRat_neg]
  by_cases hodd : y.isOddIntegral = true
  · rw [if_pos hodd, ((isOddIntegral_iff hy).1 hodd).neg_zpow, ofRat_neg hne]
  · have heven := Int.not_odd_iff_even.1 fun h => hodd ((isOddIntegral_iff hy).2 h)
    rw [if_neg hodd, heven.neg_zpow]

/-- **The power of the opposite base** is the power itself, or its opposite if the exponent is
odd. -/
theorem neg_pow (hx : x.isNaN = false) (hy : y.isIntegral = true) :
    x.neg.pow y = if y.isOddIntegral then (x.pow y).neg else x.pow y := by
  have hyfinite := isFinite_of_isIntegral hy
  cases hyzero : y.isZero with
  | true =>
    have heven : y.isOddIntegral = false := by
      rw [isOddIntegral, toRat_eq_zero_iff.2 hyzero, Rat.num_zero]
      exact Bool.and_false _
    rw [heven, pow, pow, hyzero]
    rfl
  | false =>
    cases hinf : x.isInfinite with
    | true => exact neg_pow_of_isInfinite hinf hyfinite hyzero
    | false =>
      cases hzero : x.isZero with
      | true => exact neg_pow_of_isZero hzero hyfinite hyzero
      | false => exact neg_pow_of_isFinite (isFinite_of_not hx hinf) hzero hy

/-- **Powers of opposite bases**, for every number as the base and every integer as the exponent.
For an even exponent the two powers are the same, bit for bit, and for an odd one they differ in the
sign alone.  This holds of the powers as they are performed, whichever way each of the two is found:
by the test for a zero base, without a trap, or by the handler of an overflow. -/
theorem powers_of_opposite_bases (x n : Binary64) (hx : x.isNaN = false)
    (hn : n.isIntegral = true) :
    Handled.pow x n = .ok (x.pow n) ∧ Handled.pow x.neg n = .ok (x.neg.pow n) ∧
      (Even n.toRat.num → x.neg.pow n = x.pow n) ∧
      (Odd n.toRat.num → x.neg.pow n = (x.pow n).neg) := by
  refine ⟨Handled.pow_eq x n, Handled.pow_eq x.neg n, fun heven => ?_, fun hodd => ?_⟩
  · have hnot : ¬ n.isOddIntegral = true := fun h =>
      Int.not_even_iff_odd.2 ((isOddIntegral_iff hn).1 h) heven
    rw [neg_pow hx hn, if_neg hnot]
  · rw [neg_pow hx hn, if_pos ((isOddIntegral_iff hn).2 hodd)]

/-- Zero to minus three meets the test for a zero base, and two to 1025 and to 1026 the handler of
an overflow; the opposite bases hand their sign on to the odd powers. -/
theorem powers_of_opposite_bases_infinite :
    (zero false).isNaN = false ∧ (ofBits 0xC008000000000000).isIntegral = true ∧
    Odd (ofBits 0xC008000000000000).toRat.num ∧
    (zero true).pow (ofBits 0xC008000000000000) = infinity true ∧
    (ofBits 0x4000000000000000).isNaN = false ∧ (ofBits 0x4090040000000000).isIntegral = true ∧
    Trapping.pow (ofBits 0x4000000000000000) (ofBits 0x4090040000000000) = .error .overflow ∧
    (ofBits 0xC000000000000000).pow (ofBits 0x4090040000000000) = infinity true ∧
    Even (ofBits 0x4090080000000000).toRat.num ∧
    (ofBits 0xC000000000000000).pow (ofBits 0x4090080000000000) = infinity false := by
  have hminusThree : (ofBits 0xC008000000000000).isIntegral = true := by decide +kernel
  have hoddLarge : (ofBits 0x4090040000000000).isIntegral = true := by decide +kernel
  have hevenLarge : (ofBits 0x4090080000000000).isIntegral = true := by decide +kernel
  have hodd : Odd (ofBits 0xC008000000000000).toRat.num := by decide +kernel
  have heven : Even (ofBits 0x4090080000000000).toRat.num := by decide +kernel
  obtain ⟨-, -, -, hzero⟩ := powers_of_opposite_bases (zero false) _ (by decide) hminusThree
  obtain ⟨-, -, -, htwo⟩ :=
    powers_of_opposite_bases (ofBits 0x4000000000000000) _ (by decide) hoddLarge
  obtain ⟨-, -, hfour, -⟩ :=
    powers_of_opposite_bases (ofBits 0x4000000000000000) _ (by decide) hevenLarge
  refine ⟨by decide, hminusThree, hodd, (hzero hodd).trans ?_, by decide, hoddLarge,
    by decide +kernel, (htwo ?_).trans ?_, heven, (hfour heven).trans ?_⟩ <;> decide +kernel

end Roundoff.Binary64
