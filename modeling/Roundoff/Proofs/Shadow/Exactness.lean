import Roundoff.Shadow.Basic
import Roundoff.Proofs.Binary64.Power
import Mathlib

/-! # Steps without an event are exact

A step of a binary64 computation that raises no flag loses nothing: on finite operands its result is
finite and denotes the exact result.  The flag is computed by redoing the operation on rationals,
but not always: a fractional exponent and a large one are settled without it, and a redo without a
value raises no flag.  Each of these ways is shown to be safe here.
-/
namespace Roundoff

namespace Binary64

theorem rational_eq_ok_iff {x : Binary64} {r : ℚ} :
    x.rational = .ok r ↔ x.isFinite = true ∧ x.toRat = r := by
  rw [rational]
  by_cases hx : x.isFinite = true <;> simp [hx]

theorem isIntegral_iff {x : Binary64} (hx : x.isFinite = true) :
    x.isIntegral = true ↔ x.toRat.den = 1 := by
  rw [isIntegral, hx, Bool.true_and, beq_iff_eq]

/-! ## Operations that cannot lose anything -/

theorem rational_neg {x : Binary64} {r : ℚ} (hx : x.rational = .ok r) :
    x.neg.rational = .ok (-r) := by
  obtain ⟨hfin, rfl⟩ := rational_eq_ok_iff.1 hx
  exact rational_eq_ok_iff.2 ⟨hfin, toRat_neg x⟩

theorem rational_abs {x : Binary64} {r : ℚ} (hx : x.rational = .ok r) :
    x.abs.rational = .ok |r| := by
  obtain ⟨hfin, rfl⟩ := rational_eq_ok_iff.1 hx
  exact rational_eq_ok_iff.2 ⟨hfin, toRat_abs x⟩

theorem rational_minimum {x y : Binary64} {p q : ℚ} (hx : x.rational = .ok p)
    (hy : y.rational = .ok q) : (x.minimum y).rational = .ok (min p q) := by
  obtain ⟨hxfin, rfl⟩ := rational_eq_ok_iff.1 hx
  obtain ⟨hyfin, rfl⟩ := rational_eq_ok_iff.1 hy
  exact rational_eq_ok_iff.2 (minimum_of_isFinite hxfin hyfin)

theorem rational_maximum {x y : Binary64} {p q : ℚ} (hx : x.rational = .ok p)
    (hy : y.rational = .ok q) : (x.maximum y).rational = .ok (max p q) := by
  obtain ⟨hxfin, rfl⟩ := rational_eq_ok_iff.1 hx
  obtain ⟨hyfin, rfl⟩ := rational_eq_ok_iff.1 hy
  exact rational_eq_ok_iff.2 (maximum_of_isFinite hxfin hyfin)

/-! ## Operations without an exact result -/

theorem not_isFinite_infinity (negative : Bool) : (infinity negative).isFinite = false := by
  cases negative <;> decide

theorem isFinite_div_zero {x y : Binary64} (hx : x.isFinite = true) (hy : y.isFinite = true)
    (hzero : y.isZero = true) : (x.div y).isFinite = false := by
  unfold div
  dsimp only
  rw [isNaN_of_isFinite hx, isNaN_of_isFinite hy, isInfinite_of_isFinite hx,
    isInfinite_of_isFinite hy, hzero]
  cases x.isZero with
  | true => rfl
  | false => exact not_isFinite_infinity _

theorem isFinite_zero_pow {x y : Binary64} (hx : x.isZero = true) (hy : y.isFinite = true)
    (hneg : y.toRat < 0) : (x.pow y).isFinite = false := by
  rw [pow_of_isZero hx hy (toRat_ne_zero_iff.1 hneg.ne), if_pos hneg]
  exact not_isFinite_infinity _

/-! ## Powers of one -/

theorem eq_one_or_neg {x : Binary64} (hx : x.magnitude = one.magnitude) :
    x = one ∨ x = one.neg := by
  obtain ⟨s, m, hm⟩ := x
  subst hx
  cases s with
  | false => exact Or.inl rfl
  | true => exact Or.inr rfl

/-- **A power of one or minus one is exact**, whatever the integer exponent: it is one or minus one
again. -/
theorem rational_pow_of_one {x y : Binary64} (hx : x.magnitude = one.magnitude)
    (hint : y.isIntegral = true) : (x.pow y).rational = .ok (x.toRat ^ y.toRat.num) := by
  have hfinite : x.isFinite = true ∧ x.isZero = false := by
    rw [isFinite, isZero, hx]
    exact ⟨rfl, rfl⟩
  have hone : one.rational = .ok 1 := rational_eq_ok_iff.2 ⟨rfl, toRat_one⟩
  have hunit : x.toRat ^ y.toRat.num = 1 ∨ x.toRat ^ y.toRat.num = -1 := by
    rcases eq_one_or_neg hx with rfl | rfl
    · rw [toRat_one, one_zpow]
      exact Or.inl rfl
    · rw [toRat_neg, toRat_one]
      exact (Int.even_or_odd y.toRat.num).imp Even.neg_one_zpow Odd.neg_one_zpow
  rw [pow_eq_ofRat hfinite.1 hfinite.2 hint]
  rcases hunit with hpower | hpower
  · rw [hpower, ofRat_one]
    exact hone
  · rw [hpower, ofRat_neg one_ne_zero, ofRat_one]
    exact rational_neg hone

end Binary64

open Binary64

/-! ## Flags -/

namespace RoundingFlag

theorem toRat_of_ofDifference? {r : ℚ} {x : Binary64} (h : ofDifference? r x = none) :
    x.toRat = r := by
  rw [ofDifference?] at h
  split at h
  · rename_i heq
    exact heq
  · cases h

/-- An operation on finite values with a finite result has an exact result. -/
theorem exact_ne_error {op : Operation} {x y : Binary64} (hx : x.isFinite = true)
    (hy : y.isFinite = true) (hpow : op = .pow → y.isIntegral = true)
    (hresult : (op.rounded x y).isFinite = true) (e : ArithmeticError) :
    op.exact x.toRat y.toRat ≠ .error e := by
  intro he
  cases op with
  | add => cases he
  | sub => cases he
  | mul => cases he
  | div =>
    change Exact.div _ _ = _ at he
    rw [Exact.div] at he
    split at he
    · rename_i hzero
      rw [Operation.rounded, isFinite_div_zero hx hy (toRat_eq_zero_iff.1 hzero)] at hresult
      cases hresult
    · cases he
  | pow =>
    change Exact.pow _ _ = _ at he
    rw [Exact.pow, if_neg (not_not.2 ((isIntegral_iff hy).1 (hpow rfl)))] at he
    split at he
    · rename_i hzero
      rw [Operation.rounded, isFinite_zero_pow (toRat_eq_zero_iff.1 hzero.2) hy
        (Rat.num_neg.1 hzero.1)] at hresult
      cases hresult
    · cases he

theorem exact_of_ofRedo? {op : Operation} {x y : Binary64} (hx : x.isFinite = true)
    (hy : y.isFinite = true) (hpow : op = .pow → y.isIntegral = true)
    (hresult : (op.rounded x y).isFinite = true) (h : ofRedo? op x y (op.rounded x y) = none) :
    ∃ r, op.exact x.toRat y.toRat = .ok r ∧ (op.rounded x y).rational = .ok r := by
  rw [ofRedo?] at h
  split at h
  · rename_i r hr
    exact ⟨r, hr, rational_eq_ok_iff.2 ⟨hresult, toRat_of_ofDifference? h⟩⟩
  · -- A redo without a value raises no flag either, but it does not happen here.
    rename_i e he
    exact absurd he (exact_ne_error hx hy hpow hresult e)

theorem exact_of_ofPower? {x y : Binary64} (hx : x.isFinite = true) (hy : y.isFinite = true)
    (hresult : (x.pow y).isFinite = true) (h : ofPower? x y (x.pow y) = none) :
    ∃ r, Exact.pow x.toRat y.toRat = .ok r ∧ (x.pow y).rational = .ok r := by
  rw [ofPower?] at h
  cases hint : y.isIntegral with
  | false =>
    rw [hint] at h
    cases h
  | true =>
    rw [hint] at h
    simp only [Bool.not_true, Bool.false_eq_true, if_false] at h
    split at h
    · -- For a large exponent only the powers of one and minus one raise no flag.
      split at h
      · rename_i hone
        refine ⟨_, Exact.pow_eq_ok_iff.2 ⟨(isIntegral_iff hy).1 hint, ?_, rfl⟩,
          rational_pow_of_one hone hint⟩
        intro _ hzero
        rw [toRat_eq_zero_iff, isZero, hone] at hzero
        cases hzero
      · cases h
    · exact @exact_of_ofRedo? .pow x y hx hy (fun _ => hint) hresult h

/-- **An operation that raises no flag is exact**: on values that denote rationals, its result
denotes the exact result. -/
theorem exact_of_ofOperation? {op : Operation} {x y : Binary64} {p q : ℚ}
    (hx : x.rational = .ok p) (hy : y.rational = .ok q)
    (h : ofOperation? op x y (op.rounded x y) = none) :
    ∃ r, op.exact p q = .ok r ∧ (op.rounded x y).rational = .ok r := by
  obtain ⟨hxfin, rfl⟩ := rational_eq_ok_iff.1 hx
  obtain ⟨hyfin, rfl⟩ := rational_eq_ok_iff.1 hy
  simp only [ofOperation?, isNaN_of_isFinite hxfin, isNaN_of_isFinite hyfin, hxfin, hyfin,
    Bool.and_self, Bool.or_self, Bool.not_true, Bool.false_eq_true, if_false] at h
  split at h
  · cases h
  · rename_i hnan
    split at h
    · split at h <;> cases h
    · rename_i hinf
      have hfin : (op.rounded x y).isFinite = true :=
        isFinite_of_not (Bool.eq_false_of_not_eq_true hnan) (Bool.eq_false_of_not_eq_true hinf)
      split at h
      · rename_i hop
        subst hop
        exact exact_of_ofPower? hxfin hyfin hfin h
      · rename_i hop
        exact exact_of_ofRedo? hxfin hyfin (fun hpow => absurd hpow hop) hfin h

theorem exact_of_ofRounding? {r : ℚ} (h : ofRounding? r (ofRat r) = none) :
    (ofRat r).rational = .ok r := by
  rw [ofRounding?] at h
  split at h
  · cases h
  · rename_i hinf
    exact rational_eq_ok_iff.2 ⟨isFinite_of_not (isNaN_ofRat r)
      (Bool.eq_false_of_not_eq_true hinf), toRat_of_ofDifference? h⟩

theorem ofRounding?_eq_none_iff {r : ℚ} :
    ofRounding? r (ofRat r) = none ↔ (ofRat r).rational = .ok r := by
  refine ⟨exact_of_ofRounding?, fun h => ?_⟩
  obtain ⟨hfinite, hr⟩ := rational_eq_ok_iff.1 h
  rw [ofRounding?, isInfinite_of_isFinite hfinite, if_neg Bool.false_ne_true, ofDifference?,
    if_pos hr]

end RoundingFlag

/-! ## Trails -/

namespace Shadow

theorem event?_eq_nil {step : RoundingStep} {result : Binary64} {flag : Option RoundingFlag} :
    event? step result flag = [] ↔ flag = none := by
  cases flag <;> simp [event?]

theorem rational_ofRat {r : ℚ} {source : Option String} (h : (ofRat r source).events = []) :
    (ofRat r source).value.rational = .ok r :=
  RoundingFlag.exact_of_ofRounding? (event?_eq_nil.1 h)

theorem events_apply_eq_nil {op : Operation} {x y : Shadow} :
    (apply op x y).events = [] ↔ x.events = [] ∧ y.events = [] ∧
      RoundingFlag.ofOperation? op x.value y.value (op.rounded x.value y.value) = none := by
  rw [apply, List.append_eq_nil_iff, List.append_eq_nil_iff, event?_eq_nil, and_assoc]

end Shadow

end Roundoff
