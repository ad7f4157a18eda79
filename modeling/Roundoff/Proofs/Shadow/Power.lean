import Roundoff.Proofs.Shadow.Flags

/-! # Rounding events of powers

An integer power is rounded correctly (`nearest_pow`), so that its event is that of comparing the
result with the exact power.  For a large exponent the event is found without computing the power:
none for a base of one or minus one, and the event of an inexact result for any other.  This is
what the comparison gives for every base but zero (`ofPower?_eq_ofDifference?`), since no other
power is a finite value that far out.  The large powers of zero are exact, but have an event
(`ofPower?_of_isZero`).
-/
namespace Roundoff

open Binary64

variable {x y : Binary64}

namespace Binary64

theorem isFinite_of_isIntegral (hy : y.isIntegral = true) : y.isFinite = true :=
  ((Bool.and_eq_true _ _).mp hy).1

/-! ## Correct rounding -/

theorem Nearest.of_toRat_eq {r : ℚ} (hx : x.isFinite = true) (h : x.toRat = r) : Nearest x r := by
  subst h
  refine ⟨hx, fun y _ => ?_, fun y _ hne htie => ?_⟩
  · rw [sub_self, abs_zero]
    exact abs_nonneg _
  · rw [sub_self, abs_zero, abs_eq_zero, sub_eq_zero] at htie
    exact absurd htie hne

theorem toRat_pow_of_isZero (hx : x.isZero = true) (hy : y.isIntegral = true)
    (hresult : (x.pow y).isFinite = true) : (x.pow y).toRat = x.toRat ^ y.toRat.num := by
  have hyfinite := isFinite_of_isIntegral hy
  cases hyzero : y.isZero with
  | true =>
    have hone : x.pow y = one := by
      rw [pow, hyzero, Bool.true_or, if_pos rfl]
    rw [hone, toRat_one, toRat_eq_zero_iff.2 hyzero, Rat.num_zero, zpow_zero]
  | false =>
    have hnum : y.toRat.num ≠ 0 := Rat.num_ne_zero.2 (toRat_ne_zero_iff.2 hyzero)
    have hnonneg : ¬ y.toRat < 0 := by
      intro hneg
      rw [isFinite_zero_pow hx hyfinite hneg] at hresult
      cases hresult
    rw [pow_of_isZero hx hyfinite hyzero, if_neg hnonneg, toRat_eq_zero_iff.2 hx, zero_zpow _ hnum]
    exact toRat_eq_zero_iff.2 rfl

/-- **An integer power is rounded correctly**: a finite one is nearest to the exact power. -/
theorem nearest_pow (hx : x.isFinite = true) (hy : y.isIntegral = true)
    (hresult : (x.pow y).isFinite = true) : Nearest (x.pow y) (x.toRat ^ y.toRat.num) := by
  cases hzero : x.isZero with
  | true => exact Nearest.of_toRat_eq hresult (toRat_pow_of_isZero hzero hy hresult)
  | false =>
    rw [pow_eq_ofRat hx hzero hy] at hresult ⊢
    refine nearest_of_abs_lt (not_le.1 fun hlarge => ?_)
    rw [ofRat_eq_infinity hlarge, not_isFinite_infinity] at hresult
    cases hresult

end Binary64

namespace RoundingFlag

/-! ## The flag of a power -/

/-- The exact redo of a power always has a value. -/
theorem ofRedo?_pow (hx : x.isFinite = true) (hy : y.isIntegral = true)
    (hresult : (x.pow y).isFinite = true) :
    ofRedo? .pow x y (x.pow y) = ofDifference? (x.toRat ^ y.toRat.num) (x.pow y) := by
  cases hexact : Operation.pow.exact x.toRat y.toRat with
  | ok r =>
    have hpower : Exact.pow x.toRat y.toRat = .ok r := hexact
    rw [ofRedo?, hexact, (Exact.pow_eq_ok_iff.1 hpower).2.2]
  | error e =>
    have hne := @exact_ne_error .pow x y hx (isFinite_of_isIntegral hy) (fun _ => hy) hresult e
    exact absurd hexact hne

/-- **The flag of a power is that of comparing it with the exact one**, also where it is not
computed, unless the base is zero and the exponent is large. -/
theorem ofPower?_eq_ofDifference? (hx : x.isFinite = true) (hy : y.isIntegral = true)
    (hresult : (x.pow y).isFinite = true)
    (hbase : exactPowerLimit < y.toRat.num.natAbs → x.isZero = false) :
    ofPower? x y (x.pow y) = ofDifference? (x.toRat ^ y.toRat.num) (x.pow y) := by
  rw [ofPower?, hy, Bool.not_true, if_neg Bool.false_ne_true]
  split
  · rename_i hlarge
    rw [ofDifference?]
    split
    · rename_i hone
      rw [if_pos (rational_eq_ok_iff.1 (rational_pow_of_one hone hy)).2]
    · rename_i hone
      have hfar : 2098 ≤ y.toRat.num.natAbs := le_trans (by decide) hlarge.le
      rw [if_neg (toRat_ne_zpow hresult (hbase hlarge) hone hfar)]
  · exact ofRedo?_pow hx hy hresult

/-- **A large power of zero raises underflow**, although it is exact. -/
theorem ofPower?_of_isZero (hx : x.isZero = true) (hy : y.isIntegral = true)
    (hresult : (x.pow y).isFinite = true) (hlarge : exactPowerLimit < y.toRat.num.natAbs) :
    ofPower? x y (x.pow y) = some underflow := by
  have hbase : x.magnitude ≠ one.magnitude := by
    rw [of_decide_eq_true hx]
    decide
  have hnum : y.toRat.num ≠ 0 := Int.natAbs_pos.1 (lt_of_le_of_lt (Nat.zero_le _) hlarge)
  rw [ofPower?, hy, Bool.not_true, if_neg Bool.false_ne_true, if_pos hlarge, if_neg hbase,
    Option.some.injEq, ofInexact_eq_underflow_iff, toRat_pow_of_isZero hx hy hresult,
    toRat_eq_zero_iff.2 hx, zero_zpow _ hnum, abs_zero]
  positivity

/-- **The flag of comparing a finite result with the exact one**: none if they are equal, and
otherwise underflow below the smallest normal value and inexact from there on. -/
structure OfComparison (flag : Option RoundingFlag) (exact : ℚ) (result : Binary64) : Prop where
  none_iff : flag = none ↔ result.toRat = exact
  underflow_iff :
    flag = some underflow ↔ result.toRat ≠ exact ∧ |result.toRat| < 2 ^ (-1022 : ℤ)
  inexact_iff : flag = some inexact ↔ result.toRat ≠ exact ∧ 2 ^ (-1022 : ℤ) ≤ |result.toRat|

theorem ofComparison_ofDifference? (exact : ℚ) (result : Binary64) :
    OfComparison (ofDifference? exact result) exact result where
  none_iff := by
    rw [ofDifference?]
    split <;> simp_all
  underflow_iff := by rw [ofDifference?_eq_some_iff, ofInexact_eq_underflow_iff]
  inexact_iff := by rw [ofDifference?_eq_some_iff, ofInexact_eq_inexact_iff]

theorem ofOperation?_pow (hx : x.isFinite = true) (hy : y.isFinite = true) {result : Binary64}
    (hresult : result.isFinite = true) :
    ofOperation? .pow x y result = ofPower? x y result := by
  rw [ofOperation?, isNaN_of_isFinite hresult, isInfinite_of_isFinite hresult, hx, hy]
  rfl

end RoundingFlag

namespace Shadow

/-- **Rounding events of powers.**  A finite integer power is rounded correctly and adds one event
at most to the trails of its operands.  The event is that of comparing the result with the exact
power, also where an exponent is too large for the comparison to be made, for every base but zero:
a large power of zero is exact, but adds an underflow. -/
theorem events_pow (a b : Shadow) (ha : a.value.isFinite = true) (hb : b.value.isIntegral = true)
    (hresult : (a.value.pow b.value).isFinite = true) :
    Nearest (a.value.pow b.value) (a.value.toRat ^ b.value.toRat.num) ∧
    ∃ flag : Option RoundingFlag,
      (apply .pow a b).events = a.events ++ b.events ++
        event? (.operation .pow a.value b.value) (a.value.pow b.value) flag ∧
      (RoundingFlag.OfComparison flag (a.value.toRat ^ b.value.toRat.num)
          (a.value.pow b.value) ↔
        ¬ (a.value.isZero = true ∧ RoundingFlag.exactPowerLimit < b.value.toRat.num.natAbs)) ∧
      (flag = RoundingFlag.ofRedo? .pow a.value b.value (a.value.pow b.value) ↔
        ¬ (a.value.isZero = true ∧ RoundingFlag.exactPowerLimit < b.value.toRat.num.natAbs)) ∧
      (a.value.isZero = true ∧ RoundingFlag.exactPowerLimit < b.value.toRat.num.natAbs →
        flag = some .underflow) := by
  refine ⟨nearest_pow ha hb hresult, _, rfl, ?_⟩
  rw [Operation.rounded, RoundingFlag.ofOperation?_pow ha (isFinite_of_isIntegral hb) hresult,
    RoundingFlag.ofRedo?_pow ha hb hresult]
  have hcomparison := RoundingFlag.ofComparison_ofDifference?
    (a.value.toRat ^ b.value.toRat.num) (a.value.pow b.value)
  by_cases hzero : a.value.isZero = true ∧
      RoundingFlag.exactPowerLimit < b.value.toRat.num.natAbs
  · have hexact := toRat_pow_of_isZero hzero.1 hb hresult
    rw [RoundingFlag.ofPower?_of_isZero hzero.1 hb hresult hzero.2, hcomparison.none_iff.2 hexact]
    refine ⟨iff_of_false (fun h => ?_) (not_not.2 hzero), iff_of_false (fun h => ?_)
      (not_not.2 hzero), fun _ => rfl⟩
    · cases h.none_iff.2 hexact
    · cases h
  · have hbase : RoundingFlag.exactPowerLimit < b.value.toRat.num.natAbs →
        a.value.isZero = false :=
      fun hlarge => Bool.eq_false_of_not_eq_true fun h => hzero ⟨h, hlarge⟩
    rw [RoundingFlag.ofPower?_eq_ofDifference? ha hb hresult hbase]
    exact ⟨iff_of_true hcomparison hzero, iff_of_true rfl hzero, fun h => absurd h hzero⟩

/-- The square of three is exact and adds no event. -/
theorem events_pow_square :
    (Binary64.ofRat 3).isFinite = true ∧ (Binary64.ofRat 2).isIntegral = true ∧
    ((Binary64.ofRat 3).pow (Binary64.ofRat 2)).isFinite = true ∧
    (apply .pow ⟨Binary64.ofRat 3, []⟩ ⟨Binary64.ofRat 2, []⟩).events = [] := by
  have hfinite : (Binary64.ofRat 3).isFinite = true := by decide +kernel
  have hintegral : (Binary64.ofRat 2).isIntegral = true := by decide +kernel
  have hresult : ((Binary64.ofRat 3).pow (Binary64.ofRat 2)).isFinite = true := by decide +kernel
  have hbase : (Binary64.ofRat 3).isZero = false := by decide +kernel
  have hexact : ((Binary64.ofRat 3).pow (Binary64.ofRat 2)).toRat =
      (Binary64.ofRat 3).toRat ^ (Binary64.ofRat 2).toRat.num := by decide +kernel
  obtain ⟨-, flag, hevents, hflag, -⟩ := events_pow ⟨Binary64.ofRat 3, []⟩
    ⟨Binary64.ofRat 2, []⟩ hfinite hintegral hresult
  have hcomparison := hflag.2 fun h => by
    rw [hbase] at h
    cases h.1
  rw [hevents, hcomparison.none_iff.2 hexact]
  exact ⟨hfinite, hintegral, hresult, rfl⟩

/-- **A large power of zero is exact, but adds an underflow.** -/
theorem events_pow_zero :
    (zero false).pow (Binary64.ofRat 4097) = zero false ∧
    (zero false).toRat = (zero false).toRat ^ (Binary64.ofRat 4097).toRat.num ∧
    (apply .pow ⟨zero false, []⟩ ⟨Binary64.ofRat 4097, []⟩).events =
      [⟨.operation .pow (zero false) (Binary64.ofRat 4097), zero false, .underflow⟩] := by
  refine ⟨by decide +kernel, ?_, by decide +kernel⟩
  have hexponent : (Binary64.ofRat 4097).toRat.num = 4097 := by decide +kernel
  rw [hexponent, toRat_eq_zero_iff.2 rfl, zero_zpow _ (by decide)]

end Shadow

end Roundoff
