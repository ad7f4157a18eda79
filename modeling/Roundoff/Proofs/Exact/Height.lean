import Mathlib
import Roundoff.Exact

/-! # The height of a rational

Numerator and denominator of a rational are at most its height.  The height of a power is the power
of the height, also for a negative exponent, where the two only change places (`height_zpow`).  So a
power of a rational has at most as many binary digits as the exponent times those of the rational,
or one (`bitLength_zpow_le`), and more than the exponent times one digit less
(`lt_bitLength_zpow`).
-/
namespace Roundoff

namespace Numeral

theorem lt_two_pow_bitLength (n : ℕ) : n < 2 ^ bitLength n :=
  bitLength_le_iff.1 le_rfl

theorem two_pow_le_of_lt_bitLength {n k : ℕ} (h : k < bitLength n) : 2 ^ k ≤ n :=
  not_lt.1 fun hlt => absurd (bitLength_le_iff.2 hlt) (not_le.2 h)

theorem bitLength_mono : Monotone bitLength := fun _ n h =>
  bitLength_le_iff.2 (h.trans_lt (lt_two_pow_bitLength n))

/-- The zeroth power has one digit, whatever the base. -/
theorem bitLength_pow_le (m k : ℕ) : bitLength (m ^ k) ≤ max 1 (bitLength m * k) := by
  refine bitLength_le_iff.2 ?_
  rcases Nat.eq_zero_or_pos k with rfl | hk
  · rw [pow_zero, Nat.mul_zero, max_eq_left (Nat.zero_le 1)]
    exact one_lt_two
  · calc m ^ k < (2 ^ bitLength m) ^ k := Nat.pow_lt_pow_left (lt_two_pow_bitLength m) hk.ne'
      _ = 2 ^ (bitLength m * k) := (pow_mul 2 _ _).symm
      _ ≤ 2 ^ max 1 (bitLength m * k) := Nat.pow_le_pow_right two_pos (le_max_right ..)

theorem bitLength_pos {m : ℕ} (hm : 0 < m) : 0 < bitLength m := by
  rw [bitLength_of_ne_zero hm.ne']
  exact Nat.succ_pos _

/-- Each factor but one adds all of its digits but one. -/
theorem lt_bitLength_pow {m : ℕ} (hm : 0 < m) (k : ℕ) :
    (bitLength m - 1) * k < bitLength (m ^ k) := by
  have hdigits : bitLength m - 1 < bitLength m := Nat.sub_one_lt (bitLength_pos hm).ne'
  refine not_le.1 fun hle => absurd (bitLength_le_iff.1 hle) (not_lt.2 ?_)
  calc 2 ^ ((bitLength m - 1) * k) = (2 ^ (bitLength m - 1)) ^ k := pow_mul 2 _ _
    _ ≤ m ^ k := Nat.pow_le_pow_left (two_pow_le_of_lt_bitLength hdigits) k

end Numeral

theorem Exact.abs_eq_div (r : ℚ) : |r| = (r.num.natAbs : ℚ) / r.den := by
  rw [Rat.abs_def, Rat.divInt_eq_div]
  simp

/-! ## Heights -/

/-- Numerator and denominator of a rational are at most this. -/
def height (r : ℚ) : ℕ := max r.num.natAbs r.den

theorem height_pow (r : ℚ) (k : ℕ) : height (r ^ k) = height r ^ k := by
  rw [height, height, Rat.num_pow, Rat.den_pow, Int.natAbs_pow]
  exact (Monotone.map_max fun a b hab => Nat.pow_le_pow_left hab k).symm

theorem height_inv {r : ℚ} (hr : r ≠ 0) : height r⁻¹ = height r := by
  have hnum : r.num ≠ 0 := Rat.num_ne_zero.2 hr
  rw [height, height, Rat.num_inv, Rat.den_inv_of_ne_zero hr, Int.natAbs_mul,
    Int.natAbs_sign_of_ne_zero hnum, one_mul, Int.natAbs_natCast, max_comm]

theorem height_zpow {r : ℚ} (hr : r ≠ 0) (n : ℤ) : height (r ^ n) = height r ^ n.natAbs := by
  rcases Int.natAbs_eq n with hn | hn
  · rw [hn, zpow_natCast, height_pow, Int.natAbs_natCast]
  · rw [hn, zpow_neg, zpow_natCast, height_inv (pow_ne_zero _ hr), height_pow, Int.natAbs_neg,
      Int.natAbs_natCast]

/-- Only zero, one and minus one are not larger than one in this sense. -/
theorem one_lt_height {r : ℚ} (hzero : r ≠ 0) (hone : |r| ≠ 1) : 1 < height r := by
  by_contra hle
  have hmax := not_lt.1 hle
  rw [height, max_le_iff] at hmax
  have hnum : r.num.natAbs = 1 :=
    le_antisymm hmax.1 (Int.natAbs_pos.2 (Rat.num_ne_zero.2 hzero))
  have hden : r.den = 1 := le_antisymm hmax.2 r.den_pos
  rw [Exact.abs_eq_div, hnum, hden] at hone
  exact hone (by norm_num)

/-- A fraction need not be in lowest terms to bound them. -/
theorem height_le {r : ℚ} {a d : ℕ} (hd : 0 < d) (h : |r| = a / d) : height r ≤ max a d := by
  have hden : r.den ≤ d := by
    have hdvd := Rat.den_dvd a d
    rw [Rat.divInt_eq_div, Int.cast_natCast, Int.cast_natCast, ← h, Rat.den_abs_eq_den,
      Int.natCast_dvd_natCast] at hdvd
    exact Nat.le_of_dvd hd hdvd
  have hnum : r.num.natAbs * d = a * r.den := by
    rw [Exact.abs_eq_div, div_eq_div_iff (by exact_mod_cast r.den_nz) (by positivity)] at h
    exact_mod_cast h
  refine max_le_max ?_ hden
  refine Nat.le_of_mul_le_mul_right ?_ hd
  rw [hnum]
  exact Nat.mul_le_mul_left a hden

/-! ## Binary digits -/

theorem bitLength_height (r : ℚ) : Numeral.bitLength (height r) = Exact.bitLength r :=
  Numeral.bitLength_mono.map_max

theorem bitLength_parts_pow_le (r : ℚ) (k : ℕ) :
    Numeral.bitLength (r.num.natAbs ^ k) ≤ max 1 (Exact.bitLength r * k) ∧
      Numeral.bitLength (r.den ^ k) ≤ max 1 (Exact.bitLength r * k) := by
  have hpart : ∀ {m : ℕ}, Numeral.bitLength m ≤ Exact.bitLength r →
      Numeral.bitLength (m ^ k) ≤ max 1 (Exact.bitLength r * k) := fun hm =>
    (Numeral.bitLength_pow_le ..).trans (max_le_max le_rfl (Nat.mul_le_mul_right k hm))
  exact ⟨hpart (Nat.le_max_left ..), hpart (Nat.le_max_right ..)⟩

/-- **A power is not much larger than its base and its exponent.** -/
theorem bitLength_zpow_le (r : ℚ) (n : ℤ) :
    Exact.bitLength (r ^ n) ≤ max 1 (Exact.bitLength r * n.natAbs) := by
  by_cases hr : r = 0
  · -- The powers of zero are zero and one.
    have hsmall : Exact.bitLength ((0 : ℚ) ^ n) ≤ 1 := by
      rcases eq_or_ne n 0 with rfl | hn
      · rw [zpow_zero]
        decide
      · rw [zero_zpow n hn]
        decide
    rw [hr]
    exact hsmall.trans (le_max_left ..)
  · rw [← bitLength_height, ← bitLength_height, height_zpow hr]
    exact Numeral.bitLength_pow_le ..

/-- **Nor is it much smaller.** -/
theorem lt_bitLength_zpow (r : ℚ) (n : ℤ) :
    (Exact.bitLength r - 1) * n.natAbs < Exact.bitLength (r ^ n) := by
  by_cases hr : r = 0
  · have hone : Exact.bitLength 0 = 1 := by decide
    rw [hr, hone, Nat.sub_self, Nat.zero_mul]
    exact (Numeral.bitLength_pos (Rat.den_pos _)).trans_le (le_max_right ..)
  · rw [← bitLength_height, ← bitLength_height, height_zpow hr]
    exact Numeral.lt_bitLength_pow ((Rat.den_pos r).trans_le (le_max_right ..)) n.natAbs

end Roundoff
