import Roundoff.Proofs.Binary64.Conversion
import Roundoff.Proofs.Shadow.Step

/-! # Sums never underflow

Every finite value is a whole number of least units, and so is the sum of two of them.  Below the
smallest normal value such a number is a value itself (`exists_toRat_eq_units`), so that a sum which
is tiny after rounding was exact before (`rational_add_of_tiny`).  Underflow is thus recorded where
a rational is rounded and by products, quotients and powers, but by no other step.
-/
namespace Roundoff

namespace Binary64

variable {x y : Binary64}

/-! ## Tiny numbers of least units -/

/-- A sum of finite values is a whole number of least units. -/
theorem exists_add_eq_units (x y : Binary64) :
    ∃ j : ℤ, x.toRat + y.toRat = j / unitDenominator := by
  refine ⟨scaledAt x.ordinal + scaledAt y.ordinal, ?_⟩
  rw [toRat_eq x, toRat_eq y, Int.cast_add, add_div]

/-- **A number of least units below the smallest normal value is a value.** -/
theorem exists_toRat_eq_units {j : ℤ} (h : j.natAbs < normalMagnitude) :
    ∃ z : Binary64, z.isFinite = true ∧ z.toRat = j / unitDenominator := by
  obtain ⟨z, rfl⟩ := exists_ordinal (h.trans (by decide))
  have hexp : biasedExponent z.ordinal.natAbs = 0 := Nat.div_eq_of_lt h
  have hscaled : scaledAt z.ordinal = z.ordinal := by
    rw [scaledAt, scaled, if_pos hexp]
    split <;> omega
  rw [natAbs_ordinal] at h
  exact ⟨z, decide_eq_true (h.trans (by decide)), by rw [toRat_eq, hscaled]⟩

/-- From the smallest normal value on a number of least units is not rounded to a tiny value. -/
theorem not_isTiny_ofRat_units {j : ℤ} (h : normalMagnitude ≤ j.natAbs) :
    (ofRat (j / unitDenominator)).isTiny = false := by
  have hunit : 0 < unitDenominator := Nat.cast_pos.1 unitDenominator_pos
  have hvalue : ((scaled normalMagnitude : ℕ) : ℚ) / unitDenominator ≤
      |(j : ℚ) / unitDenominator| := by
    have hscaled : scaled normalMagnitude = normalMagnitude := by decide
    rw [hscaled, abs_div, abs_of_pos unitDenominator_pos, div_le_div_iff_of_pos_right
      unitDenominator_pos, ← Int.cast_abs, Int.abs_eq_natAbs, Int.cast_natCast, Nat.cast_le]
    exact h
  generalize (j : ℚ) / unitDenominator = r at hvalue
  rw [Exact.abs_eq_div] at hvalue
  have hmono := roundMagnitude_mono hunit r.den_pos hvalue
  rw [roundMagnitude_scaled (by decide)] at hmono
  exact decide_eq_false (not_lt.2 hmono)

/-- **A number of least units that is rounded to a tiny value is this value.** -/
theorem toRat_ofRat_units {j : ℤ} (h : (ofRat (j / unitDenominator)).isTiny = true) :
    (ofRat (j / unitDenominator)).toRat = j / unitDenominator := by
  rcases lt_or_ge j.natAbs normalMagnitude with hsmall | hlarge
  · obtain ⟨z, hz, hvalue⟩ := exists_toRat_eq_units hsmall
    rw [← hvalue, toRat_eq_iff, ordinal_ofRat_toRat hz]
  · rw [not_isTiny_ofRat_units hlarge] at h
    cases h

/-! ## Sums -/

/-- The sum of finite values is the exact sum rounded, the sign of a zero aside. -/
theorem toRat_add (hx : x.isFinite = true) (hy : y.isFinite = true) :
    (x.add y).toRat = (ofRat (x.toRat + y.toRat)).toRat := by
  rw [add, isNaN_of_isFinite hx, isNaN_of_isFinite hy, isInfinite_of_isFinite hx,
    isInfinite_of_isFinite hy]
  by_cases hsum : x.toRat + y.toRat = 0
  · simp only [Bool.or_self, Bool.false_eq_true, if_false, hsum, if_true]
    exact toRat_eq_iff.2 (by cases x.negative && y.negative <;> rfl)
  · simp only [Bool.or_self, Bool.false_eq_true, if_false, hsum]

theorem isFinite_of_isTiny (hx : x.isTiny = true) : x.isFinite = true :=
  decide_eq_true ((of_decide_eq_true hx).trans (by decide))

/-- **A tiny sum is exact.** -/
theorem rational_add_of_tiny (hx : x.isFinite = true) (hy : y.isFinite = true)
    (htiny : |(x.add y).toRat| < 2 ^ (-1022 : ℤ)) :
    (x.add y).rational = .ok (x.toRat + y.toRat) := by
  have hfinite := isFinite_of_isTiny ((isTiny_iff _).2 htiny)
  obtain ⟨j, hj⟩ := exists_add_eq_units x y
  rw [toRat_add hx hy, hj, ← isTiny_iff] at htiny
  refine rational_eq_ok_iff.2 ⟨hfinite, ?_⟩
  rw [toRat_add hx hy, hj]
  exact toRat_ofRat_units htiny

/-- **A tiny difference is exact.** -/
theorem rational_sub_of_tiny (hx : x.isFinite = true) (hy : y.isFinite = true)
    (htiny : |(x.sub y).toRat| < 2 ^ (-1022 : ℤ)) :
    (x.sub y).rational = .ok (x.toRat - y.toRat) := by
  rw [sub_eq_add_neg, ← toRat_neg]
  exact rational_add_of_tiny (y := y.neg) hx hy htiny

end Binary64

open Binary64

namespace Shadow

/-! ## Underflow -/

/-- The operations that can underflow. -/
def scaling : List Operation := [.mul, .div, .pow]

/-- **Sums and differences raise no underflow**, whatever their operands. -/
theorem mem_scaling_of_underflow {op : Operation} {x y : Binary64}
    (h : RoundingFlag.ofOperation? op x y (op.rounded x y) = some .underflow) : op ∈ scaling := by
  by_contra hscaling
  have hpow : op ≠ .pow := by
    rintro rfl
    exact hscaling (by decide)
  obtain ⟨hx, hy, r, hr, -, hne, htiny⟩ := (RoundingFlag.ofOperation?_eq_some_iff hpow _).1 h
  cases op with
  | add =>
    cases hr
    exact hne (rational_eq_ok_iff.1 (rational_add_of_tiny hx hy htiny)).2
  | sub =>
    cases hr
    exact hne (rational_eq_ok_iff.1 (rational_sub_of_tiny hx hy htiny)).2
  | mul | div | pow => exact hscaling (by decide)

/-- The least positive value, squared, halved and squared as a power, and half of it as a
rational: each is too small for a value. -/
theorem exists_records_underflow :
    (∃ r source, (Step.ofRat r source).Records .underflow) ∧
    ∀ op ∈ scaling, ∃ a b, (Step.apply op a b).Records .underflow := by
  constructor
  · exact ⟨1 / 2 ^ 1075, none, (Step.records_ofRat_iff _ _ _).2 (by decide +kernel)⟩
  · intro op hop
    refine ⟨⟨ofBits 1, []⟩, ⟨if op = .mul then ofBits 1 else ofBits 0x4000000000000000, []⟩,
      (Step.records_apply_iff _ _ _ _).2 ?_⟩
    simp only [scaling, List.mem_cons, List.not_mem_nil, or_false] at hop
    rcases hop with rfl | rfl | rfl <;> decide +kernel

/-- **Sums never underflow.**  A sum or a difference of finite values that is below the smallest
normal value after rounding is exact, so neither operation ever records an underflow, whatever the
operands.  The steps that can are the rounding of a rational, products, quotients and powers: any
step that records an underflow is one of these, and each of them does with some operands. -/
theorem sums_never_underflow :
    (∀ x y : Binary64, x.isFinite = true → y.isFinite = true →
      (|(x.add y).toRat| < 2 ^ (-1022 : ℤ) → (x.add y).rational = .ok (x.toRat + y.toRat)) ∧
      (|(x.sub y).toRat| < 2 ^ (-1022 : ℤ) → (x.sub y).rational = .ok (x.toRat - y.toRat))) ∧
    (∀ a b : Shadow, ¬ (Step.apply .add a b).Records .underflow ∧
      ¬ (Step.apply .sub a b).Records .underflow) ∧
    (∀ s : Step, s.Records .underflow →
      (∃ r source, s = .ofRat r source) ∨ ∃ op ∈ scaling, ∃ a b, s = .apply op a b) ∧
    (∃ r source, (Step.ofRat r source).Records .underflow) ∧
    ∀ op ∈ scaling, ∃ a b, (Step.apply op a b).Records .underflow := by
  refine ⟨?_, ?_, ?_, exists_records_underflow⟩
  · intro x y hx hy
    exact ⟨rational_add_of_tiny hx hy, rational_sub_of_tiny hx hy⟩
  · intro a b
    have hnot : ∀ op ∉ scaling, ¬ (Step.apply op a b).Records .underflow := by
      intro op hop hrecords
      exact hop (mem_scaling_of_underflow ((Step.records_apply_iff _ _ _ _).1 hrecords))
    exact ⟨hnot .add (by decide), hnot .sub (by decide)⟩
  · intro s hs
    cases s with
    | ofRat r source => exact Or.inl ⟨r, source, rfl⟩
    | apply op a b =>
      have hop := mem_scaling_of_underflow ((Step.records_apply_iff _ _ _ _).1 hs)
      exact Or.inr ⟨op, hop, a, b, rfl⟩
    | neg | abs | minimum | maximum => exact absurd hs (Step.not_records_of_eq rfl _)

/-- The smallest normal value less the largest subnormal is the least positive value, exactly; the
square of this value records an underflow, and only a product, a quotient or a power does. -/
theorem sums_never_underflow_least :
    (ofBits 0x0010000000000000).isFinite = true ∧ (ofBits 0x000FFFFFFFFFFFFF).isFinite = true ∧
    (ofBits 0x0010000000000000).sub (ofBits 0x000FFFFFFFFFFFFF) = ofBits 1 ∧
    (ofBits 1).rational =
      .ok ((ofBits 0x0010000000000000).toRat - (ofBits 0x000FFFFFFFFFFFFF).toRat) ∧
    (Step.apply .mul ⟨ofBits 1, []⟩ ⟨ofBits 1, []⟩).Records .underflow ∧
    ∃ op ∈ scaling, ∃ a b, Step.apply .mul ⟨ofBits 1, []⟩ ⟨ofBits 1, []⟩ = .apply op a b := by
  obtain ⟨hexact, -, honly, -⟩ := sums_never_underflow
  have hsub : (ofBits 0x0010000000000000).sub (ofBits 0x000FFFFFFFFFFFFF) = ofBits 1 := by
    decide +kernel
  have htiny := (isTiny_iff (ofBits 1)).1 (by decide)
  rw [← hsub] at htiny
  have hdifference := (hexact (ofBits 0x0010000000000000) (ofBits 0x000FFFFFFFFFFFFF)
    (by decide) (by decide)).2 htiny
  rw [hsub] at hdifference
  have hrecords : (Step.apply .mul ⟨ofBits 1, []⟩ ⟨ofBits 1, []⟩).Records .underflow :=
    (Step.records_apply_iff _ _ _ _).2 (by decide +kernel)
  refine ⟨by decide, by decide, hsub, hdifference, hrecords, ?_⟩
  rcases honly _ hrecords with ⟨r, source, hrational⟩ | hscaling
  · cases hrational
  · exact hscaling

end Shadow

end Roundoff
