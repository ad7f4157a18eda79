import Roundoff.Proofs.Binary64.Rounding
import Roundoff.Proofs.Expansion.Rendering

/-! # Rounding is to nearest

A positive rational is rounded to a number of units in its last place, and to the nearest one
(`Rounded`).  This multiple is nearest among all finite values as well: a value of the same or a
higher exponent is a multiple of the unit too, and one of a lower exponent lies below the binade of
the rational (`onGrid_toRat`).  The number of units is carried out of the range of finite values
exactly when the rational is at least half a unit below `2 ^ 1024` (`Rounded.overflows_iff`).
-/
namespace Roundoff.Binary64

/-! ## Nearest integers -/

/-- **An integer is nearest to a rational**, and even if the rational lies half way to another
integer. -/
structure NearestInteger (x : ℚ) (n : ℤ) : Prop where
  le_half : |n - x| ≤ 1 / 2
  even : |n - x| = 1 / 2 → Even n

/-- Different integers are a step apart, so their distances to a rational add up to one at least. -/
theorem one_le_dist_add_dist (x : ℚ) {n k : ℤ} (h : k ≠ n) : 1 ≤ |k - x| + |n - x| := by
  have hstep : (1 : ℚ) ≤ |(k : ℚ) - n| := by
    exact_mod_cast Int.one_le_abs (sub_ne_zero.2 h)
  calc (1 : ℚ) ≤ |(k : ℚ) - n| := hstep
    _ ≤ |k - x| + |x - n| := abs_sub_le _ _ _
    _ = |k - x| + |n - x| := by rw [abs_sub_comm x]

namespace NearestInteger

variable {x : ℚ} {n : ℤ}

theorem le (h : NearestInteger x n) (k : ℤ) : |n - x| ≤ |k - x| := by
  have hhalf := h.le_half
  by_cases hk : k = n
  · rw [hk]
  · have hstep := one_le_dist_add_dist x hk
    linarith

/-- Two integers are equally near only half way between them. -/
theorem even_of_tie (h : NearestInteger x n) {k : ℤ} (hk : k ≠ n) (htie : |k - x| = |n - x|) :
    Even n := by
  have hstep := one_le_dist_add_dist x hk
  refine h.even (le_antisymm h.le_half ?_)
  linarith

end NearestInteger

theorem two_mul_dist_roundHalfEven (n : ℕ) {d : ℕ} (hd : 0 < d) :
    2 * |(roundHalfEven n d : ℤ) * d - n| ≤ d ∧
      (2 * |(roundHalfEven n d : ℤ) * d - n| = d → roundHalfEven n d % 2 = 0) := by
  have hdiv : (d : ℤ) * (n / d : ℕ) + (n % d : ℕ) = n := by exact_mod_cast Nat.div_add_mod n d
  have hmod : n % d < d := Nat.mod_lt n hd
  rw [roundHalfEven]
  generalize n / d = q at hdiv
  generalize n % d = r at hdiv hmod
  split
  · rename_i hup
    have hsub : ((q + 1 : ℕ) : ℤ) * d - n = d - r := by
      rw [← hdiv]
      push_cast
      ring
    rw [hsub, abs_of_nonneg (by omega)]
    omega
  · rename_i hdown
    have hsub : ((q : ℕ) : ℤ) * d - n = -r := by
      rw [← hdiv]
      ring
    rw [hsub, abs_neg, abs_of_nonneg (by omega)]
    omega

/-- **A quotient is rounded to the nearest integer.** -/
theorem nearestInteger_roundHalfEven (n : ℕ) {d : ℕ} (hd : 0 < d) :
    NearestInteger (n / d) (roundHalfEven n d) := by
  have hden : (0 : ℚ) < d := Nat.cast_pos.2 hd
  have hdist : |((roundHalfEven n d : ℤ) : ℚ) - n / d| =
      ((2 * |(roundHalfEven n d : ℤ) * d - n| : ℤ) : ℚ) / (2 * d) := by
    have hsub : ((roundHalfEven n d : ℤ) : ℚ) - n / d = ((roundHalfEven n d : ℤ) * d - n) / d := by
      rw [sub_div, mul_div_cancel_right₀ _ hden.ne']
    rw [hsub, abs_div, abs_of_pos hden]
    push_cast
    rw [mul_div_mul_left _ _ two_ne_zero]
  obtain ⟨hle, heven⟩ := two_mul_dist_roundHalfEven n hd
  constructor
  · rw [hdist, div_le_div_iff₀ (by positivity) two_pos]
    have hcast : ((2 * |(roundHalfEven n d : ℤ) * d - n| : ℤ) : ℚ) ≤ d := by exact_mod_cast hle
    linarith
  · intro heq
    rw [hdist, div_eq_div_iff (by positivity) two_ne_zero] at heq
    have hcast : ((2 * |(roundHalfEven n d : ℤ) * d - n| : ℤ) : ℚ) = d := by linarith
    rw [Int.even_coe_nat, Nat.even_iff]
    exact heven (by exact_mod_cast hcast)

/-! ## Units in the last place -/

/-- **A positive rational is rounded to `n` units of `2 ^ (k - 1074)`**: it lies in the binade of
this unit, or below that of the least unit, and the number of units is nearest. -/
structure Rounded (q : ℚ) (n k : ℕ) : Prop where
  below : q < 2 ^ (k + -1021 : ℤ)
  above : k = 0 ∨ (2 : ℚ) ^ (k + -1022 : ℤ) ≤ q
  nearest : NearestInteger (q / 2 ^ (k + -1074 : ℤ)) n

section Unit

variable {a d : ℕ}

theorem nearestInteger_roundToUnit (a : ℕ) (hd : 0 < d) (e : ℤ) :
    NearestInteger ((a / d : ℚ) / 2 ^ e) (roundToUnit a d e) := by
  rw [roundToUnit]
  split
  · rename_i he
    obtain ⟨k, rfl⟩ := Int.eq_ofNat_of_zero_le he
    have hvalue : (a / d : ℚ) / 2 ^ (k : ℤ) = a / (d * 2 ^ k : ℕ) := by
      rw [zpow_natCast, div_div]
      push_cast
      rfl
    rw [hvalue]
    exact nearestInteger_roundHalfEven a (Nat.mul_pos hd (Nat.two_pow_pos k))
  · rename_i he
    obtain ⟨k, hk⟩ := Int.eq_ofNat_of_zero_le (Int.neg_nonneg_of_nonpos (not_le.1 he).le)
    have hvalue : (a / d : ℚ) / 2 ^ e = (a * 2 ^ k : ℕ) / d := by
      rw [show e = -(k : ℤ) by omega, zpow_neg, zpow_natCast, div_inv_eq_mul, div_mul_eq_mul_div]
      push_cast
      rfl
    rw [hvalue, hk]
    exact nearestInteger_roundHalfEven _ hd

/-- **The significand of a positive rational is rounded to the nearest one**, in units of its last
bit. -/
theorem rounded_lastBit (ha : 0 < a) (hd : 0 < d) : ∃ k : ℕ, lastBitExponent a d = k + -1074 ∧
    Rounded (a / d) (roundToUnit a d (lastBitExponent a d)) k := by
  obtain ⟨hlow, hhigh⟩ := floorLog2_spec ha hd
  have hleast : -1074 ≤ lastBitExponent a d := le_max_right _ _
  obtain ⟨k, hk⟩ := Int.eq_ofNat_of_zero_le (show 0 ≤ lastBitExponent a d + 1074 by omega)
  have hlast : lastBitExponent a d = k + -1074 := by omega
  refine ⟨k, hlast, ?_, ?_, ?_⟩
  · refine hhigh.trans_le (zpow_le_zpow_right₀ one_le_two ?_)
    rw [lastBitExponent] at hlast
    omega
  · by_cases hzero : k = 0
    · exact Or.inl hzero
    · refine Or.inr (le_trans (zpow_le_zpow_right₀ one_le_two ?_) hlow)
      rw [lastBitExponent] at hlast
      omega
  · rw [← hlast]
    exact nearestInteger_roundToUnit a hd _

theorem roundMagnitude_eq_units (ha : 0 < a) {k : ℕ} (hk : lastBitExponent a d = k + -1074) :
    roundMagnitude a d =
      min (roundToUnit a d (lastBitExponent a d) + k * 2 ^ 52) infinityMagnitude := by
  have hunits : (lastBitExponent a d + 1074).toNat = k := by omega
  rw [roundMagnitude, if_neg ha.ne']
  dsimp only
  rw [hunits]

theorem exists_rounded (ha : 0 < a) (hd : 0 < d) : ∃ n k, Rounded (a / d) n k ∧
    roundMagnitude a d = min (n + k * 2 ^ 52) infinityMagnitude := by
  obtain ⟨k, hk, hrounded⟩ := rounded_lastBit ha hd
  exact ⟨_, k, hrounded, roundMagnitude_eq_units ha hk⟩

end Unit

namespace Rounded

variable {q : ℚ} {n k : ℕ}

/-- The number of units is at most half away from the rational. -/
theorem abs_sub_le (h : Rounded q n k) : |n - q / 2 ^ (k + -1074 : ℤ)| ≤ 1 / 2 := by
  have hhalf := h.nearest.le_half
  rwa [Int.cast_natCast] at hhalf

theorem le (h : Rounded q n k) : n ≤ 2 ^ 53 := by
  have hunit : (0 : ℚ) < 2 ^ (k + -1074 : ℤ) := by positivity
  have hquotient : q / 2 ^ (k + -1074 : ℤ) < 2 ^ 53 := by
    rw [div_lt_iff₀ hunit, ← zpow_natCast, ← zpow_add₀ two_ne_zero]
    exact h.below.trans_eq (by congr 1; push_cast; ring)
  have hhalf := (abs_le.1 h.abs_sub_le).2
  have hlt : (n : ℚ) < (2 ^ 53 + 1 : ℕ) := by
    push_cast
    linarith
  have := Nat.cast_lt.1 hlt
  omega

theorem le_of_ne_zero (h : Rounded q n k) (hk : k ≠ 0) : 2 ^ 52 ≤ n := by
  have hunit : (0 : ℚ) < 2 ^ (k + -1074 : ℤ) := by positivity
  have hquotient : 2 ^ 52 ≤ q / 2 ^ (k + -1074 : ℤ) := by
    rw [le_div_iff₀ hunit, ← zpow_natCast, ← zpow_add₀ two_ne_zero]
    exact le_trans (le_of_eq (by congr 1; push_cast; ring)) (h.above.resolve_left hk)
  have hhalf := (abs_le.1 h.abs_sub_le).1
  have hlt : ((2 ^ 52 - 1 : ℕ) : ℚ) < n := by
    push_cast
    linarith
  have := Nat.cast_lt.1 hlt
  omega

/-- **When the units are carried out of the range of finite values**: from half a unit below
`2 ^ 1024` on. -/
theorem overflows_iff (h : Rounded q n k) :
    infinityMagnitude ≤ n + k * 2 ^ 52 ↔ (2 : ℚ) ^ 1024 - 2 ^ 970 ≤ q := by
  have hinfinity : infinityMagnitude = 2047 * 2 ^ 52 := by decide
  have hle := h.le
  have hnormal := h.le_of_ne_zero
  have hsplit : (2 : ℚ) ^ 1024 - 2 ^ 970 = (2 ^ 53 - 1 / 2) * 2 ^ (971 : ℤ) := by
    rw [show (971 : ℤ) = (970 : ℕ) + 1 by norm_num, zpow_add_one₀ two_ne_zero, zpow_natCast]
    rw [show (1024 : ℕ) = 54 + 970 from rfl, pow_add]
    generalize (2 : ℚ) ^ 970 = t
    ring
  have htop : (2 : ℚ) ^ 1024 - 2 ^ 970 ≤ 2 ^ (1024 : ℤ) := by
    rw [show (1024 : ℤ) = (1024 : ℕ) from rfl, zpow_natCast]
    exact sub_le_self _ (by positivity)
  have hbottom : (2 : ℚ) ^ (1023 : ℤ) ≤ 2 ^ 1024 - 2 ^ 970 := by
    rw [hsplit, show (1023 : ℤ) = 52 + 971 by norm_num, zpow_add₀ two_ne_zero]
    gcongr
    norm_num
  constructor
  · intro hover
    by_cases hk : k = 2045
    · -- The significand has been carried to `2 ^ 53`, from at most half a unit below.
      have hcarry : n = 2 ^ 53 := by omega
      have hhalf := (abs_le.1 h.abs_sub_le).2
      rw [hcarry, hk, show ((2045 : ℕ) : ℤ) + -1074 = 971 by norm_num] at hhalf
      rw [hsplit, ← le_div_iff₀ (by positivity)]
      generalize q / (2 : ℚ) ^ (971 : ℤ) = x at hhalf ⊢
      push_cast at hhalf
      linarith
    · have hbinade := h.above.resolve_left (by omega)
      refine htop.trans (le_trans (zpow_le_zpow_right₀ one_le_two ?_) hbinade)
      omega
  · intro hlarge
    have hbinade : (1023 : ℤ) < k + -1021 :=
      (zpow_lt_zpow_iff_right₀ (one_lt_two (α := ℚ))).1
        (hbottom.trans_lt (hlarge.trans_lt h.below))
    have hunits := hnormal (by omega)
    by_cases hk : k = 2045
    · -- Short of a carry the rational lies half way, and the number of units is odd.
      suffices hcarry : 2 ^ 53 ≤ n by omega
      by_contra hshort
      have hquotient : 2 ^ 53 - 1 / 2 ≤ q / 2 ^ (k + -1074 : ℤ) := by
        rwa [le_div_iff₀ (by positivity), hk, show ((2045 : ℕ) : ℤ) + -1074 = 971 by norm_num,
          ← hsplit]
      have hcast : (n : ℚ) ≤ (2 ^ 53 - 1 : ℕ) := Nat.cast_le.2 (by omega)
      have hhalf := (abs_le.1 h.abs_sub_le).1
      push_cast at hcast
      have heven : Even (n : ℤ) := by
        refine h.nearest.even (le_antisymm h.nearest.le_half (le_abs.2 (Or.inr ?_)))
        rw [Int.cast_natCast]
        linarith
      have hlast : ((2 ^ 53 - 2 : ℕ) : ℚ) < n := by
        push_cast
        linarith
      have := Nat.cast_lt.1 hlast
      rw [Int.even_coe_nat, Nat.even_iff] at heven
      omega
    · omega

end Rounded

/-! ## Finite values on a grid -/

/-- The significand of a finite magnitude: the fraction, with a leading one unless the value is
subnormal. -/
def significand (m : ℕ) : ℕ :=
  if biasedExponent m = 0 then fraction m else 2 ^ 52 + fraction m

theorem even_significand_iff {m : ℕ} : Even (significand m) ↔ Even m := by
  rw [significand, Nat.even_iff, Nat.even_iff, fraction]
  split <;> omega

/-- The magnitude that stands for a number of units, also where this number is a power of two too
large for a significand. -/
theorem scaled_units {n k : ℕ} (hn : n ≤ 2 ^ 53) (hk : k ≠ 0 → 2 ^ 52 ≤ n) :
    scaled (n + k * 2 ^ 52) = n * 2 ^ k := by
  by_cases hfraction : n < 2 ^ 52
  · have hzero : k = 0 := by
      by_contra hne
      exact absurd (hk hne) (not_le.2 hfraction)
    subst hzero
    have hexp : biasedExponent (n + 0 * 2 ^ 52) = 0 := by
      rw [biasedExponent]
      omega
    rw [scaled, if_pos hexp]
    omega
  · by_cases hcarry : n = 2 ^ 53
    · have hexp : biasedExponent (n + k * 2 ^ 52) = k + 2 := by
        rw [biasedExponent]
        omega
      have hfrac : fraction (n + k * 2 ^ 52) = 0 := by
        rw [fraction]
        omega
      rw [scaled, if_neg (by omega), hexp, hfrac, hcarry, show k + 2 - 1 = k + 1 from rfl]
      ring
    · have hexp : biasedExponent (n + k * 2 ^ 52) = k + 1 := by
        rw [biasedExponent]
        omega
      have hfrac : fraction (n + k * 2 ^ 52) = n - 2 ^ 52 := by
        rw [fraction]
        omega
      rw [scaled, if_neg (by omega), hexp, hfrac, Nat.add_sub_cancel,
        Nat.add_sub_cancel' (not_lt.1 hfraction)]

/-- A magnitude in units of `2 ^ (k - 1074)`. -/
theorem units_div (n k : ℕ) :
    ((n * 2 ^ k : ℕ) : ℚ) / unitDenominator = n * 2 ^ (k + -1074 : ℤ) := by
  rw [two_zpow_unit, ← mul_assoc, ← div_eq_mul_inv]
  push_cast
  rfl

/-- The value that stands for a number of units. -/
theorem Rounded.toRat_eq {q : ℚ} {n k : ℕ} (h : Rounded q n k) {x : Binary64}
    (hsign : x.negative = false) (hmagnitude : x.magnitude = n + k * 2 ^ 52) :
    x.toRat = n * 2 ^ (k + -1074 : ℤ) := by
  rw [toRat, hsign, hmagnitude, scaled_units h.le h.le_of_ne_zero, if_neg Bool.false_ne_true,
    Rat.mkRat_eq_div, ← units_div]
  rfl

/-- A rational is a multiple of the unit `2 ^ (k - 1074)`, or lies below the binade of this unit. -/
def OnGrid (k : ℕ) (z : ℚ) : Prop :=
  (∃ j : ℤ, z = j * 2 ^ (k + -1074 : ℤ)) ∨ k ≠ 0 ∧ |z| < 2 ^ (k + -1022 : ℤ)

/-- **Every value is on the grid of every unit.** -/
theorem onGrid_toRat (x : Binary64) (k : ℕ) : OnGrid k x.toRat := by
  obtain ⟨n, l, hscaled, -, hn, -⟩ := exists_significand x.magnitude
  obtain ⟨s, hs, hvalue⟩ : ∃ s : ℤ, |s| = 1 ∧ x.toRat = (s * n : ℤ) * 2 ^ (l + -1074 : ℤ) := by
    rw [toRat, Rat.mkRat_eq_div, hscaled]
    cases x.negative with
    | false =>
      refine ⟨1, rfl, ?_⟩
      rw [one_mul, Int.cast_natCast, ← units_div]
      rfl
    | true =>
      refine ⟨-1, rfl, ?_⟩
      rw [neg_one_mul, Int.cast_neg, Int.cast_natCast, neg_mul, ← units_div, if_pos rfl,
        Int.cast_neg, neg_div]
      rfl
  by_cases hle : k ≤ l
  · have hshift : (2 : ℚ) ^ (l + -1074 : ℤ) = 2 ^ (l - k) * 2 ^ (k + -1074 : ℤ) := by
      rw [show (l + -1074 : ℤ) = (l - k : ℕ) + (k + -1074) by omega,
        zpow_add₀ two_ne_zero ((l - k : ℕ) : ℤ), zpow_natCast]
    refine Or.inl ⟨s * n * 2 ^ (l - k), ?_⟩
    rw [hvalue, hshift, ← mul_assoc, Int.cast_mul (s * n), Int.cast_pow, Int.cast_ofNat]
  · refine Or.inr ⟨by omega, ?_⟩
    have habs : |x.toRat| = n * 2 ^ (l + -1074 : ℤ) := by
      rw [hvalue, abs_mul, ← Int.cast_abs, abs_mul, hs, one_mul, Nat.abs_cast, Int.cast_natCast,
        abs_of_pos (by positivity)]
    have hcast : (n : ℚ) < 2 ^ (53 : ℤ) := by exact_mod_cast hn
    calc |x.toRat| = n * 2 ^ (l + -1074 : ℤ) := habs
      _ < 2 ^ (53 : ℤ) * 2 ^ (l + -1074 : ℤ) := by gcongr
      _ = 2 ^ (53 + (l + -1074) : ℤ) := (zpow_add₀ two_ne_zero _ _).symm
      _ ≤ 2 ^ (k + -1022 : ℤ) := zpow_le_zpow_right₀ one_le_two (by omega)

namespace Rounded

variable {q : ℚ} {n k : ℕ}

/-- Distances in units. -/
theorem dist_eq (q : ℚ) (k : ℕ) (j : ℤ) : |j * 2 ^ (k + -1074 : ℤ) - q| =
    |j - q / 2 ^ (k + -1074 : ℤ)| * 2 ^ (k + -1074 : ℤ) := by
  have hunit : (0 : ℚ) < 2 ^ (k + -1074 : ℤ) := by positivity
  generalize (2 : ℚ) ^ (k + -1074 : ℤ) = u at hunit
  rw [← abs_of_pos hunit, ← abs_mul, abs_of_pos hunit, sub_mul, div_mul_cancel₀ _ hunit.ne']

/-- A value below the binade is farther away than the lower end of the binade. -/
theorem dist_lt (h : Rounded q n k) {z : ℚ} (hk : k ≠ 0) (hz : |z| < 2 ^ (k + -1022 : ℤ)) :
    |n * 2 ^ (k + -1074 : ℤ) - q| < |z - q| := by
  have hbinade := h.above.resolve_left hk
  have hend : ((2 ^ 52 : ℤ) : ℚ) * 2 ^ (k + -1074 : ℤ) = 2 ^ (k + -1022 : ℤ) := by
    rw [show (k + -1022 : ℤ) = (52 : ℕ) + (k + -1074) by push_cast; ring,
      zpow_add₀ two_ne_zero ((52 : ℕ) : ℤ), zpow_natCast, Int.cast_pow, Int.cast_ofNat]
  have hle : |((n : ℤ) : ℚ) * 2 ^ (k + -1074 : ℤ) - q| ≤ q - 2 ^ (k + -1022 : ℤ) := by
    calc |((n : ℤ) : ℚ) * 2 ^ (k + -1074 : ℤ) - q|
        = |(n : ℤ) - q / 2 ^ (k + -1074 : ℤ)| * 2 ^ (k + -1074 : ℤ) := dist_eq q k n
      _ ≤ |((2 ^ 52 : ℤ) : ℚ) - q / 2 ^ (k + -1074 : ℤ)| * 2 ^ (k + -1074 : ℤ) :=
        mul_le_mul_of_nonneg_right (h.nearest.le _) (by positivity)
      _ = |((2 ^ 52 : ℤ) : ℚ) * 2 ^ (k + -1074 : ℤ) - q| := (dist_eq q k (2 ^ 52)).symm
      _ = q - 2 ^ (k + -1022 : ℤ) := by
        rw [hend, abs_sub_comm, abs_of_nonneg (sub_nonneg.2 hbinade)]
  rw [Int.cast_natCast] at hle
  have hself := le_abs_self z
  have hfar := neg_le_abs (z - q)
  linarith

/-- **The rounded multiple is nearest on the grid.** -/
theorem dist_le (h : Rounded q n k) {z : ℚ} (hz : OnGrid k z) :
    |n * 2 ^ (k + -1074 : ℤ) - q| ≤ |z - q| := by
  rcases hz with ⟨j, rfl⟩ | ⟨hk, hlow⟩
  · rw [← Int.cast_natCast, dist_eq, dist_eq]
    exact mul_le_mul_of_nonneg_right (h.nearest.le j) (by positivity)
  · exact (h.dist_lt hk hlow).le

/-- Another point of the grid is as near only if the number of units is even. -/
theorem even_of_tie (h : Rounded q n k) {z : ℚ} (hz : OnGrid k z)
    (hne : z ≠ n * 2 ^ (k + -1074 : ℤ)) (htie : |z - q| = |n * 2 ^ (k + -1074 : ℤ) - q|) :
    Even n := by
  rcases hz with ⟨j, rfl⟩ | ⟨hk, hlow⟩
  · have hunit : (2 : ℚ) ^ (k + -1074 : ℤ) ≠ 0 := by positivity
    rw [← Int.cast_natCast n, dist_eq, dist_eq] at htie
    rw [← Int.even_coe_nat]
    refine h.nearest.even_of_tie ?_ (mul_right_cancel₀ hunit htie)
    rintro rfl
    exact hne (by rw [Int.cast_natCast])
  · exact absurd htie (h.dist_lt hk hlow).ne'

end Rounded

/-! ## The nearest value -/

/-- **A value is nearest to a rational**: it is finite, no finite value is nearer, and its
significand is even if another one is as near. -/
structure Nearest (x : Binary64) (r : ℚ) : Prop where
  finite : x.isFinite = true
  dist_le : ∀ y : Binary64, y.isFinite = true → |x.toRat - r| ≤ |y.toRat - r|
  even_of_tie : ∀ y : Binary64, y.isFinite = true → y.toRat ≠ x.toRat →
    |y.toRat - r| = |x.toRat - r| → Even (significand x.magnitude)

theorem Nearest.neg {x : Binary64} {r : ℚ} (h : Nearest x r) : Nearest x.neg (-r) := by
  have hdist : ∀ y : Binary64, |y.toRat - -r| = |y.neg.toRat - r| := by
    intro y
    rw [toRat_neg, ← abs_neg]
    congr 1
    ring
  refine ⟨h.finite, fun y hy => ?_, fun y hy hne htie => ?_⟩
  · rw [hdist, hdist, neg_neg]
    exact h.dist_le y.neg hy
  · rw [hdist, hdist, neg_neg] at htie
    refine h.even_of_tie y.neg hy (fun heq => hne ?_) htie
    rw [toRat_neg, ← heq, toRat_neg, Rat.neg_neg]

theorem exists_rounded_ofRat {r : ℚ} (hr : 0 < r) : ∃ n k, Rounded r n k ∧
    (ofRat r).negative = false ∧ (ofRat r).magnitude = min (n + k * 2 ^ 52) infinityMagnitude := by
  have hnum : 0 < r.num.natAbs := Int.natAbs_pos.2 (Rat.num_pos.2 hr).ne'
  obtain ⟨n, k, hrounded, hmagnitude⟩ := exists_rounded hnum r.den_pos
  rw [← Exact.abs_eq_div, abs_of_pos hr] at hrounded
  exact ⟨n, k, hrounded, decide_eq_false (not_lt.2 hr.le), hmagnitude⟩

theorem ofRat_of_overflow {r : ℚ} (hr : 0 < r) (hlarge : 2 ^ 1024 - 2 ^ 970 ≤ r) :
    ofRat r = infinity false := by
  obtain ⟨n, k, hrounded, hsign, hmagnitude⟩ := exists_rounded_ofRat hr
  rw [min_eq_right (hrounded.overflows_iff.2 hlarge)] at hmagnitude
  generalize ofRat r = x at hsign hmagnitude
  obtain ⟨negative, m, hm⟩ := x
  subst hsign hmagnitude
  rfl

theorem nearest_of_pos {r : ℚ} (hr : 0 < r) (hsmall : r < 2 ^ 1024 - 2 ^ 970) :
    Nearest (ofRat r) r := by
  obtain ⟨n, k, hrounded, hsign, hmagnitude⟩ := exists_rounded_ofRat hr
  have hfinite : n + k * 2 ^ 52 < infinityMagnitude :=
    not_le.1 fun hover => absurd hsmall (not_lt.2 (hrounded.overflows_iff.1 hover))
  rw [min_eq_left hfinite.le] at hmagnitude
  have hvalue := hrounded.toRat_eq hsign hmagnitude
  constructor
  · rw [isFinite, hmagnitude, decide_eq_true hfinite]
  · intro y _
    rw [hvalue]
    exact hrounded.dist_le (onGrid_toRat y k)
  · intro y _ hne htie
    rw [hvalue] at hne htie
    have heven := hrounded.even_of_tie (onGrid_toRat y k) hne htie
    -- The weight of the unit is an even number of magnitudes.
    have hweight : Even (k * 2 ^ 52) := (Nat.even_pow.2 ⟨even_two, by decide⟩).mul_left k
    rw [even_significand_iff, hmagnitude]
    exact heven.add hweight

/-- A rational beyond the range is rounded to the infinity of its sign. -/
theorem ofRat_eq_infinity {r : ℚ} (hlarge : 2 ^ 1024 - 2 ^ 970 ≤ |r|) :
    ofRat r = infinity (decide (r < 0)) := by
  rcases lt_trichotomy r 0 with hneg | rfl | hpos
  · have hopposite := ofRat_of_overflow (neg_pos.2 hneg) (by rwa [abs_of_neg hneg] at hlarge)
    rw [ofRat_neg hneg.ne] at hopposite
    rw [← neg_neg (ofRat r), hopposite, decide_eq_true hneg]
    rfl
  · have hpositive : (2 : ℚ) ^ 970 < 2 ^ 1024 := pow_lt_pow_right₀ one_lt_two (by decide)
    rw [abs_zero] at hlarge
    exact absurd hlarge (not_le.2 (sub_pos.2 hpositive))
  · rw [abs_of_pos hpos] at hlarge
    rw [ofRat_of_overflow hpos hlarge, decide_eq_false (not_lt.2 hpos.le)]

/-- A rational within the range is rounded to a nearest value. -/
theorem nearest_of_abs_lt {r : ℚ} (hsmall : |r| < 2 ^ 1024 - 2 ^ 970) : Nearest (ofRat r) r := by
  rcases lt_trichotomy r 0 with hneg | rfl | hpos
  · have hopposite := (nearest_of_pos (neg_pos.2 hneg) (by rwa [abs_of_neg hneg] at hsmall)).neg
    rwa [ofRat_neg hneg.ne, neg_neg, Rat.neg_neg] at hopposite
  · have hvalue : (ofRat 0).toRat = 0 := toRat_eq_zero_iff.2 rfl
    refine ⟨rfl, fun y _ => ?_, fun y _ hne htie => ?_⟩
    · rw [hvalue, sub_zero, abs_zero]
      exact abs_nonneg _
    · rw [hvalue, sub_zero, sub_zero, abs_zero, abs_eq_zero] at htie
      exact absurd htie (hvalue ▸ hne)
  · rw [abs_of_pos hpos] at hsmall
    exact nearest_of_pos hpos hsmall

/-- **A rational is rounded to the nearest binary64 value, and to the one with an even significand
where two are as near.**  From half a unit below `2 ^ 1024` on it is rounded to infinity.  The
result has the sign of the rational, also where it is zero or infinite, and zero becomes the
positive zero. -/
theorem nearest_ofRat (r : ℚ) :
    (2 ^ 1024 - 2 ^ 970 ≤ |r| → ofRat r = infinity (decide (r < 0))) ∧
      (|r| < 2 ^ 1024 - 2 ^ 970 → Nearest (ofRat r) r) ∧
      (ofRat r).negative = decide (r < 0) ∧ ofRat 0 = zero false :=
  ⟨ofRat_eq_infinity, nearest_of_abs_lt, rfl, rfl⟩

/-- The least rational that overflows lies half way between the greatest finite value and the next
power of two; one third has a nearest value. -/
theorem nearest_ofRat_bound :
    ofRat (2 ^ 1024 - 2 ^ 970) = infinity false ∧ Nearest (ofRat (1 / 3)) (1 / 3) := by
  have hroom : (1 : ℚ) ≤ 2 ^ 1024 - 2 ^ 970 := by
    rw [le_sub_iff_add_le]
    calc (1 : ℚ) + 2 ^ 970 ≤ 2 ^ 970 + 2 ^ 970 := add_le_add (one_le_pow₀ one_le_two) le_rfl
      _ = 2 ^ 971 := by rw [← mul_two, ← pow_succ]
      _ ≤ 2 ^ 1024 := pow_le_pow_right₀ one_le_two (by decide)
  constructor
  · have hoverflow := (nearest_ofRat (2 ^ 1024 - 2 ^ 970)).1 (le_abs_self _)
    rwa [decide_eq_false (not_lt.2 (zero_le_one.trans hroom))] at hoverflow
  · have hthird : |(1 / 3 : ℚ)| < 1 := by norm_num
    exact (nearest_ofRat (1 / 3)).2.1 (hthird.trans_le hroom)

end Roundoff.Binary64
