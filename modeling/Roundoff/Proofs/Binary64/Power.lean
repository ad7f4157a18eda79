import Roundoff.Proofs.Binary64.Enclosure

/-! # Integer powers

A power with an integer exponent is the exact power, rounded once (`pow_eq_ofRat`), whether it is
computed exactly or found between the ends of an enclosure.  Far out no power is a finite value
itself: numerator or denominator of a power of anything but zero, one and minus one grow with the
exponent, and those of finite values are bounded (`toRat_ne_zpow`).
-/
namespace Roundoff.Binary64

/-! ## The magnitude of a power -/

theorem abs_toRat (x : Binary64) : |x.toRat| = scaled x.magnitude / unitDenominator := by
  rw [← toRat_abs, toRat, Rat.mkRat_eq_div]
  rfl

theorem toRat_toPoint (x : Binary64) : x.toPoint.toRat = |x.toRat| := by
  rw [abs_toRat, toPoint, scaled]
  by_cases hexp : biasedExponent x.magnitude = 0
  · have hunit := two_zpow_unit 0
    rw [Nat.cast_zero, zero_add, pow_zero, one_mul] at hunit
    rw [if_pos hexp, if_pos hexp, Point.toRat_eq, hunit, div_eq_mul_inv]
  · obtain ⟨k, hk⟩ := Nat.exists_eq_succ_of_ne_zero hexp
    have hexponent : ((k.succ : ℕ) : ℤ) - 1075 = k + -1074 := by omega
    rw [if_neg hexp, if_neg hexp, Point.toRat_eq, hk, hexponent, two_zpow_unit, Nat.succ_sub_one,
      div_eq_mul_inv]
    push_cast
    ring

theorem mantissa_toPoint_pos {x : Binary64} (hx : x.isZero = false) : 0 < x.toPoint.mantissa := by
  refine Point.mantissa_pos ?_
  rw [toRat_toPoint, abs_pos]
  exact toRat_ne_zero_iff.2 hx

theorem encloses_powerEnclosure {x : Point} (hx : 0 < x.mantissa) {precision : ℕ}
    (hp : 0 < precision) (n : ℤ) : (powerEnclosure x n 0 precision).Encloses (x.toRat ^ n) := by
  have hpower := (Enclosure.Encloses.exactly hx).pow hp n.natAbs
  rw [powerEnclosure, Enclosure.root]
  split
  · rename_i hneg
    have hexp : x.toRat ^ n = (x.toRat ^ n.natAbs)⁻¹ := by
      rw [← zpow_natCast, ← zpow_neg]
      congr 1
      omega
    rw [hexp]
    exact hpower.reciprocal precision
  · rename_i hnonneg
    have hexp : x.toRat ^ n = x.toRat ^ n.natAbs := by
      rw [← zpow_natCast]
      congr 1
      omega
    rw [hexp]
    exact hpower

/-- **The magnitude of an integer power is that of the exact power, rounded.** -/
theorem integerPowerMagnitude_eq {x : Binary64} (hx : x.isZero = false) (n : ℤ) :
    integerPowerMagnitude x n =
      roundMagnitude (x.toRat ^ n).num.natAbs (x.toRat ^ n).den := by
  have hvalue : x.toPoint.toRat ^ n = ((x.toRat ^ n).num.natAbs : ℚ) / (x.toRat ^ n).den := by
    rw [toRat_toPoint, ← abs_zpow, Exact.abs_eq_div]
  have hexact : roundMagnitude (x.abs.toRat ^ n).num.natAbs (x.abs.toRat ^ n).den =
      roundMagnitude (x.toRat ^ n).num.natAbs (x.toRat ^ n).den := by
    rw [toRat_abs, ← abs_zpow]
    generalize x.toRat ^ n = r
    rw [Rat.num_abs_eq_abs_num, Int.natAbs_abs, Rat.den_abs_eq_den]
  unfold integerPowerMagnitude
  dsimp only
  split
  · exact hexact
  · split
    · rename_i m hfound
      obtain ⟨p, hp, hround⟩ := List.exists_of_findSome?_eq_some hfound
      have hprecision : 0 < p := by
        simp only [powerPrecisions, List.mem_cons, List.not_mem_nil, or_false] at hp
        omega
      rw [(encloses_powerEnclosure (mantissa_toPoint_pos hx) hprecision n).round?_eq
        (x.toRat ^ n).den_pos hvalue hround]
      exact Nat.min_eq_left (roundMagnitude_le ..)
    · exact hexact

/-! ## The power -/

theorem toRat_one : one.toRat = 1 := by
  decide +kernel

theorem ofRat_one : ofRat 1 = one := by
  decide +kernel

variable {x y : Binary64}

theorem toRat_neg_iff (hx : x.isZero = false) : x.toRat < 0 ↔ x.negative = true := by
  have hne := toRat_ne_zero_iff.2 hx
  constructor
  · intro h
    by_contra hsign
    exact absurd (toRat_nonneg (Bool.eq_false_of_not_eq_true hsign)) (not_le.2 h)
  · intro hsign
    have hpositive : 0 ≤ x.neg.toRat := toRat_nonneg (by rw [neg, hsign]; rfl)
    rw [toRat_neg] at hpositive
    exact lt_of_le_of_ne (neg_nonneg.1 hpositive) hne

/-- A power is negative for a negative base and an odd exponent. -/
theorem negative_pow (hx : x.isZero = false) (hy : y.isIntegral = true) :
    (x.negative && y.isOddIntegral) = decide (x.toRat ^ y.toRat.num < 0) := by
  rw [isOddIntegral, hy, Bool.true_and, Bool.eq_iff_iff, Bool.and_eq_true, beq_iff_eq,
    decide_eq_true_eq, ← toRat_neg_iff hx]
  rcases Int.even_or_odd y.toRat.num with heven | hodd
  · have hnonneg := heven.zpow_nonneg x.toRat
    rw [Int.even_iff.1 heven]
    exact ⟨fun h => absurd h.2 (by decide), fun h => absurd h (not_lt.2 hnonneg)⟩
  · rw [Int.odd_iff.1 hodd, hodd.zpow_neg_iff]
    exact ⟨fun h => h.1, fun h => ⟨h, rfl⟩⟩

/-- **An integer power is the exact power, rounded once**, for every finite base but zero. -/
theorem pow_eq_ofRat (hx : x.isFinite = true) (hzero : x.isZero = false)
    (hy : y.isIntegral = true) : x.pow y = ofRat (x.toRat ^ y.toRat.num) := by
  obtain ⟨hyfinite, hden⟩ := (Bool.and_eq_true _ _).mp hy
  rw [beq_iff_eq] at hden
  unfold pow
  dsimp only
  split
  · rename_i hone
    have hpower : x.toRat ^ y.toRat.num = 1 := by
      rcases (Bool.or_eq_true _ _).mp hone with hyzero | hxone
      · rw [toRat_eq_zero_iff.2 hyzero, Rat.num_zero, zpow_zero]
      · rw [of_decide_eq_true hxone, toRat_one, one_zpow]
    rw [hpower, ofRat_one]
  · rw [isNaN_of_isFinite hx, isNaN_of_isFinite hyfinite, isInfinite_of_isFinite hyfinite, hzero,
      isInfinite_of_isFinite hx, hy, finitePower]
    simp only [Bool.or_self, Bool.false_eq_true, if_false, Bool.not_true, Bool.and_false, hden,
      if_true, ofRat, ofMagnitude, mk.injEq]
    exact ⟨negative_pow hzero hy, integerPowerMagnitude_eq hzero _⟩

/-- **A power of zero**, other than the zeroth, is zero or infinite by the sign of the exponent. -/
theorem pow_of_isZero (hx : x.isZero = true) (hy : y.isFinite = true) (hyzero : y.isZero = false) :
    x.pow y = if y.toRat < 0 then infinity (x.negative && y.isOddIntegral)
      else zero (x.negative && y.isOddIntegral) := by
  have hmagnitude : x.magnitude = 0 := of_decide_eq_true hx
  have hone : x ≠ one := by
    rintro rfl
    cases hx
  have hnan : x.isNaN = false := by
    rw [isNaN, hmagnitude]
    rfl
  unfold pow
  simp only [toRat_neg_iff hyzero, hyzero, hone, hnan, isNaN_of_isFinite hy,
    isInfinite_of_isFinite hy, hx, Bool.or_self, decide_false, Bool.false_eq_true, if_false,
    if_true]

/-! ## Powers far out -/

theorem scaled_infinityMagnitude : scaled infinityMagnitude = 2 ^ 2098 := by
  decide +kernel

/-- **The numerator and the denominator of a finite value are bounded.** -/
theorem height_toRat_lt (hx : x.isFinite = true) : height x.toRat < 2 ^ 2098 := by
  have hscaled : scaled x.magnitude < scaled infinityMagnitude :=
    scaled_strictMono (of_decide_eq_true hx)
  rw [scaled_infinityMagnitude] at hscaled
  have hunit : unitDenominator < 2 ^ 2098 := by
    obtain ⟨u, hu, hunit⟩ := exists_unitDenominator
    rw [hunit]
    exact pow_lt_pow_right₀ one_lt_two (by omega)
  have hpos : 0 < unitDenominator := Nat.cast_pos.1 unitDenominator_pos
  exact (height_le hpos (abs_toRat x)).trans_lt (max_lt hscaled hunit)

/-- **Far out no power is a finite value**, but those of zero, one and minus one. -/
theorem toRat_ne_zpow {z : Binary64} (hz : z.isFinite = true) (hzero : x.isZero = false)
    (hone : x.magnitude ≠ one.magnitude) {n : ℤ} (hn : 2098 ≤ n.natAbs) :
    z.toRat ≠ x.toRat ^ n := by
  have hne := toRat_ne_zero_iff.2 hzero
  have habs : |x.toRat| ≠ 1 := by
    rw [← toRat_abs, ← toRat_one, Ne, toRat_eq_iff]
    intro heq
    simp only [ordinal, abs] at heq
    exact hone (Int.ofNat_inj.1 heq)
  intro heq
  have hheight : height x.toRat ^ n.natAbs < 2 ^ 2098 := by
    rw [← height_zpow hne, ← heq]
    exact height_toRat_lt hz
  have hlarge : 2 ^ n.natAbs ≤ height x.toRat ^ n.natAbs :=
    Nat.pow_le_pow_left (one_lt_height hne habs) _
  have hlimit : 2 ^ 2098 ≤ 2 ^ n.natAbs := pow_le_pow_right₀ one_le_two hn
  exact absurd hheight (not_lt.2 (hlimit.trans hlarge))

end Roundoff.Binary64
