import Roundoff.Binary64.Rounding
import Roundoff.Proofs.Binary64.Line

/-! # Rounding a fraction

The rounding of a fraction depends on its value only, not on how it is written
(`roundMagnitude_congr`): the exponent of its leading bit is given by the two powers of two that it
lies between, and a common factor drops out of quotient and remainder.  A finite value is rounded to
itself (`roundMagnitude_scaled`).
-/
namespace Roundoff.Binary64

/-! ## Powers and fractions -/

variable {a d : ℕ}

/-- A fraction is compared with a power in integers. -/
theorem div_lt_zpow_iff {b : ℕ} (hb : 0 < b) (hd : 0 < d) (e : ℤ) : (a : ℚ) / d < (b : ℚ) ^ e ↔
    if 0 ≤ e then a < d * b ^ e.toNat else a * b ^ (-e).toNat < d := by
  have hden : (0 : ℚ) < d := Nat.cast_pos.2 hd
  split
  · rename_i he
    obtain ⟨k, rfl⟩ := Int.eq_ofNat_of_zero_le he
    rw [Int.toNat_natCast, div_lt_iff₀ hden, zpow_natCast, mul_comm]
    norm_cast
  · rename_i he
    obtain ⟨k, hk⟩ := Int.eq_ofNat_of_zero_le (Int.neg_nonneg_of_nonpos (not_le.1 he).le)
    rw [hk, Int.toNat_natCast, show e = -(k : ℤ) by omega, zpow_neg, zpow_natCast,
      div_lt_iff₀ hden, inv_mul_eq_div, lt_div_iff₀ (pow_pos (Nat.cast_pos.2 hb) k)]
    norm_cast

/-- A number lies between one pair of neighbouring powers only. -/
theorem exponent_unique {b x : ℚ} (hb : 1 < b) {j k : ℤ} (hj : b ^ j ≤ x) (hj' : x < b ^ (j + 1))
    (hk : b ^ k ≤ x) (hk' : x < b ^ (k + 1)) : j = k := by
  have hjk : j < k + 1 := (zpow_lt_zpow_iff_right₀ hb).1 (hj.trans_lt hk')
  have hkj : k < j + 1 := (zpow_lt_zpow_iff_right₀ hb).1 (hk.trans_lt hj')
  omega

/-! ## The leading bit -/

theorem ltTwoPow_iff (hd : 0 < d) (e : ℤ) : ltTwoPow a d e = true ↔ (a : ℚ) / d < 2 ^ e := by
  have hiff := div_lt_zpow_iff (a := a) two_pos hd e
  rw [Nat.cast_ofNat] at hiff
  rw [ltTwoPow, hiff]
  split <;> exact decide_eq_true_iff

/-- **The exponent of the leading bit.** -/
theorem floorLog2_spec (ha : 0 < a) (hd : 0 < d) :
    (2 : ℚ) ^ floorLog2 a d ≤ a / d ∧ (a : ℚ) / d < 2 ^ (floorLog2 a d + 1) := by
  have hden : (0 : ℚ) < d := Nat.cast_pos.2 hd
  have halow : (2 : ℚ) ^ a.log2 ≤ a := by exact_mod_cast Nat.log2_self_le ha.ne'
  have hahigh : (a : ℚ) < 2 ^ (a.log2 + 1) := by exact_mod_cast Nat.lt_log2_self
  have hdlow : (2 : ℚ) ^ d.log2 ≤ d := by exact_mod_cast Nat.log2_self_le hd.ne'
  have hdhigh : (d : ℚ) < 2 ^ (d.log2 + 1) := by exact_mod_cast Nat.lt_log2_self
  -- The difference of the bit lengths is off by one at most.
  have hlow : (2 : ℚ) ^ ((a.log2 : ℤ) - d.log2 - 1) ≤ a / d := by
    rw [le_div_iff₀ hden]
    calc (2 : ℚ) ^ ((a.log2 : ℤ) - d.log2 - 1) * d
        ≤ 2 ^ ((a.log2 : ℤ) - d.log2 - 1) * 2 ^ (d.log2 + 1) := by gcongr
      _ = 2 ^ a.log2 := by
        rw [← zpow_natCast, ← zpow_natCast, ← zpow_add₀ two_ne_zero]
        congr 1
        push_cast
        ring
      _ ≤ a := halow
  have hhigh : (a : ℚ) / d < 2 ^ ((a.log2 : ℤ) - d.log2 + 1) := by
    rw [div_lt_iff₀ hden]
    calc (a : ℚ) < 2 ^ (a.log2 + 1) := hahigh
      _ = 2 ^ ((a.log2 : ℤ) - d.log2 + 1) * 2 ^ d.log2 := by
        rw [← zpow_natCast, ← zpow_natCast, ← zpow_add₀ two_ne_zero]
        congr 1
        push_cast
        ring
      _ ≤ 2 ^ ((a.log2 : ℤ) - d.log2 + 1) * d := by gcongr
  rw [floorLog2]
  by_cases hlt : ltTwoPow a d (a.log2 - d.log2) = true
  · rw [if_pos hlt, sub_add_cancel]
    exact ⟨hlow, (ltTwoPow_iff hd _).1 hlt⟩
  · rw [if_neg hlt]
    exact ⟨not_lt.1 fun h => hlt ((ltTwoPow_iff hd _).2 h), hhigh⟩

theorem floorLog2_eq (ha : 0 < a) (hd : 0 < d) {e : ℤ} (hlow : (2 : ℚ) ^ e ≤ a / d)
    (hhigh : (a : ℚ) / d < 2 ^ (e + 1)) : floorLog2 a d = e :=
  exponent_unique one_lt_two (floorLog2_spec ha hd).1 (floorLog2_spec ha hd).2 hlow hhigh

/-! ## Fractions of one value -/

theorem roundHalfEven_mul {k : ℕ} (hk : 0 < k) (n d : ℕ) :
    roundHalfEven (k * n) (k * d) = roundHalfEven n d := by
  have hless : k * d < 2 * (k * (n % d)) ↔ d < 2 * (n % d) := by
    rw [Nat.mul_left_comm, Nat.mul_lt_mul_left hk]
  have hhalf : 2 * (k * (n % d)) = k * d ↔ 2 * (n % d) = d := by
    rw [Nat.mul_left_comm, Nat.mul_right_inj hk.ne']
  rw [roundHalfEven, roundHalfEven, Nat.mul_div_mul_left _ _ hk, Nat.mul_mod_mul_left]
  simp only [hless, hhalf]

/-- A fraction without remainder is rounded to its quotient. -/
theorem roundHalfEven_exact (n : ℕ) (hd : 0 < d) : roundHalfEven (n * d) d = n := by
  have hmod : n * d % d = 0 := Nat.mul_mod_left n d
  rw [roundHalfEven, hmod, Nat.mul_div_cancel _ hd]
  exact if_neg (by omega)

theorem roundToUnit_mul {k : ℕ} (hk : 0 < k) (a d : ℕ) (e : ℤ) :
    roundToUnit (k * a) (k * d) e = roundToUnit a d e := by
  rw [roundToUnit, roundToUnit]
  split
  · rw [mul_assoc, roundHalfEven_mul hk]
  · rw [mul_assoc, roundHalfEven_mul hk]

/-- A common factor of a fraction changes nothing. -/
theorem roundMagnitude_mul {k : ℕ} (hk : 0 < k) (a : ℕ) (hd : 0 < d) :
    roundMagnitude (k * a) (k * d) = roundMagnitude a d := by
  by_cases ha : a = 0
  · rw [ha, mul_zero, roundMagnitude, roundMagnitude, if_pos rfl, if_pos rfl]
  · have hpos := Nat.pos_of_ne_zero ha
    have hvalue : ((k * a : ℕ) : ℚ) / (k * d : ℕ) = a / d := by
      push_cast
      exact mul_div_mul_left _ _ (Nat.cast_ne_zero.2 hk.ne')
    obtain ⟨hlow, hhigh⟩ := floorLog2_spec hpos hd
    rw [← hvalue] at hlow hhigh
    have hlast : lastBitExponent (k * a) (k * d) = lastBitExponent a d := by
      rw [lastBitExponent, lastBitExponent,
        floorLog2_eq (Nat.mul_pos hk hpos) (Nat.mul_pos hk hd) hlow hhigh]
    rw [roundMagnitude, roundMagnitude, if_neg (Nat.mul_pos hk hpos).ne', if_neg ha, hlast]
    dsimp only
    rw [roundToUnit_mul hk]

/-- **Fractions of the same value are rounded alike.** -/
theorem roundMagnitude_congr {b c : ℕ} (hd : 0 < d) (hc : 0 < c) (h : a * c = b * d) :
    roundMagnitude a d = roundMagnitude b c := by
  rw [← roundMagnitude_mul hc a hd, ← roundMagnitude_mul hd b hc, mul_comm c a, h, mul_comm b d,
    mul_comm c d]

/-! ## Finite values -/

/-- A finite magnitude counts units of the last place: the significand, of at most 53 bits, and the
exponent of the unit, which is not the least one only if all bits are used. -/
theorem exists_significand (m : ℕ) : ∃ n k, scaled m = n * 2 ^ k ∧ m = n + k * 2 ^ 52 ∧
    n < 2 ^ 53 ∧ (k = 0 ∨ 2 ^ 52 ≤ n) := by
  have hdiv : m = 2 ^ 52 * biasedExponent m + fraction m := (Nat.div_add_mod m (2 ^ 52)).symm
  have hlt : fraction m < 2 ^ 52 := Nat.mod_lt _ (by norm_num)
  by_cases hexp : biasedExponent m = 0
  · refine ⟨m, 0, ?_, by omega, by omega, Or.inl rfl⟩
    rw [scaled, if_pos hexp, pow_zero, mul_one]
  · refine ⟨2 ^ 52 + fraction m, biasedExponent m - 1, ?_, by omega, by omega,
      Or.inr (Nat.le_add_right _ _)⟩
    rw [scaled, if_neg hexp]

theorem roundToUnit_exact (n k u : ℕ) : roundToUnit (n * 2 ^ k) (2 ^ u) (k - u) = n := by
  rw [roundToUnit]
  split
  · rename_i hle
    have hsplit : 2 ^ u * 2 ^ ((k : ℤ) - u).toNat = 2 ^ k := by
      rw [← pow_add]
      congr 1
      omega
    rw [hsplit, roundHalfEven_exact n (Nat.two_pow_pos k)]
  · rename_i hlt
    have hsplit : 2 ^ k * 2 ^ (-((k : ℤ) - u)).toNat = 2 ^ u := by
      rw [← pow_add]
      congr 1
      omega
    rw [mul_assoc, hsplit, roundHalfEven_exact n (Nat.two_pow_pos u)]

/-- The common denominator of all finite values, with its exponent left general. -/
theorem exists_unitDenominator : ∃ u : ℕ, (u : ℤ) = 1074 ∧ unitDenominator = 2 ^ u := by
  obtain ⟨u, hu⟩ : ∃ u, u = 1074 := ⟨_, rfl⟩
  exact ⟨u, by omega, by rw [unitDenominator, ← hu]⟩

theorem lastBitExponent_exact {n k : ℕ} (hn : 0 < n) (hhigh : n < 2 ^ 53)
    (hlow : k = 0 ∨ 2 ^ 52 ≤ n) : lastBitExponent (n * 2 ^ k) unitDenominator = k - 1074 := by
  obtain ⟨u, hu, hunit⟩ := exists_unitDenominator
  have hpos : 0 < n * 2 ^ k := Nat.mul_pos hn (Nat.two_pow_pos k)
  have hvalue : ((n * 2 ^ k : ℕ) : ℚ) / (2 ^ u : ℕ) = n * 2 ^ ((k : ℤ) - u) := by
    rw [zpow_sub₀ two_ne_zero, zpow_natCast, zpow_natCast]
    push_cast
    exact mul_div_assoc _ _ _
  have hsum : ∀ e : ℕ, (2 : ℚ) ^ ((e : ℤ) + (k - u)) = 2 ^ e * 2 ^ ((k : ℤ) - u) := by
    intro e
    rw [zpow_add₀ two_ne_zero, zpow_natCast]
  have hunder : ((n * 2 ^ k : ℕ) : ℚ) / (2 ^ u : ℕ) < 2 ^ (((53 : ℕ) : ℤ) + (k - u)) := by
    rw [hvalue, hsum]
    have hcast : (n : ℚ) < 2 ^ 53 := by exact_mod_cast hhigh
    gcongr
  have hfloor : floorLog2 (n * 2 ^ k) (2 ^ u) ≤ 52 + (k - u) ∧
      (k = 0 ∨ floorLog2 (n * 2 ^ k) (2 ^ u) = 52 + (k - u)) := by
    have hspec := (floorLog2_spec hpos (Nat.two_pow_pos u)).1.trans_lt hunder
    have hlt := (zpow_lt_zpow_iff_right₀ (one_lt_two (α := ℚ))).1 hspec
    refine ⟨by push_cast at hlt; omega, ?_⟩
    rcases hlow with hk | hlow
    · exact Or.inl hk
    · refine Or.inr (floorLog2_eq hpos (Nat.two_pow_pos u) ?_ ?_)
      · have hover := hsum 52
        push_cast at hover
        rw [hover, hvalue]
        have hcast : (2 : ℚ) ^ 52 ≤ n := by exact_mod_cast hlow
        gcongr
      · rwa [show (52 : ℤ) + (k - u) + 1 = ((53 : ℕ) : ℤ) + (k - u) by push_cast; ring]
  obtain ⟨hle, hk⟩ := hfloor
  rw [lastBitExponent, hunit]
  omega

/-- **A finite value is rounded to itself.** -/
theorem roundMagnitude_scaled {m : ℕ} (hm : m < infinityMagnitude) :
    roundMagnitude (scaled m) unitDenominator = m := by
  obtain ⟨n, k, hscaled, hsum, hhigh, hlow⟩ := exists_significand m
  by_cases hn : n = 0
  · have hzero : m = 0 := by omega
    subst hzero
    rfl
  · have hpos := Nat.pos_of_ne_zero hn
    have hne : n * 2 ^ k ≠ 0 := (Nat.mul_pos hpos (Nat.two_pow_pos k)).ne'
    obtain ⟨u, hu, hunit⟩ := exists_unitDenominator
    have hround := roundToUnit_exact n k u
    rw [roundMagnitude, hscaled, if_neg hne, lastBitExponent_exact hpos hhigh hlow]
    dsimp only
    rw [hunit, ← hu, hround, sub_add_cancel, Int.toNat_natCast, ← hsum]
    exact Nat.min_eq_left hm.le

end Roundoff.Binary64
