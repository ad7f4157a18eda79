import Roundoff.Binary64.Power
import Roundoff.Proofs.Binary64.Monotone

/-! # Enclosures enclose

Cutting a point down to a precision never passes it, so products, powers and reciprocals of
enclosures enclose those of the enclosed numbers (`Encloses.pow`, `Encloses.reciprocal`).  Both ends
of an enclosure are rounded as fractions are, and rounding preserves order: where both round to one
magnitude, the enclosed number does too (`Encloses.round?_eq`).
-/
namespace Roundoff.Binary64

open Numeral (bitLength bitLength_le_iff lt_two_pow_bitLength two_pow_le_of_lt_bitLength)

/-- A quotient that is rounded up unless it is exact is not below the fraction. -/
theorem le_quotientUp_mul (n : ℕ) {k : ℕ} (hk : 0 < k) :
    n ≤ (n / k + if n % k = 0 then 0 else 1) * k := by
  have hdiv := Nat.div_add_mod' n k
  have hmod := Nat.mod_lt n hk
  split
  · rename_i hexact
    rw [hexact] at hdiv
    rw [Nat.add_zero]
    exact hdiv.ge
  · rw [Nat.add_mul, one_mul]
    omega

namespace Point

/-! ## Points -/

theorem toRat_eq (x : Point) : x.toRat = x.mantissa * (2 : ℚ) ^ x.exponent := rfl

theorem toRat_nonneg (x : Point) : 0 ≤ x.toRat := by
  rw [toRat_eq]
  positivity

theorem toRat_pos {x : Point} (h : 0 < x.mantissa) : 0 < x.toRat := by
  rw [toRat_eq]
  positivity

theorem mantissa_pos {x : Point} (h : 0 < x.toRat) : 0 < x.mantissa := by
  rcases Nat.eq_zero_or_pos x.mantissa with hzero | hpos
  · rw [toRat_eq, hzero, Nat.cast_zero, zero_mul] at h
    exact absurd h (lt_irrefl 0)
  · exact hpos

theorem toRat_mul (x y : Point) : (x.mul y).toRat = x.toRat * y.toRat := by
  rw [toRat_eq, toRat_eq, toRat_eq, mul, zpow_add₀ two_ne_zero]
  push_cast
  ring

/-- A point with `s` bits less, in the units of the point. -/
theorem toRat_shifted (n s : ℕ) (e : ℤ) : (⟨n, e + s⟩ : Point).toRat = (n * 2 ^ s : ℕ) * 2 ^ e := by
  rw [toRat_eq, zpow_add₀ two_ne_zero, zpow_natCast]
  push_cast
  ring

theorem toRat_down_le (precision : ℕ) (x : Point) : (x.down precision).toRat ≤ x.toRat := by
  rw [down, toRat_shifted, toRat_eq]
  gcongr
  exact Nat.div_mul_le_self _ _

theorem le_toRat_up (precision : ℕ) (x : Point) : x.toRat ≤ (x.up precision).toRat := by
  rw [up, toRat_shifted, toRat_eq]
  gcongr
  exact le_quotientUp_mul _ (Nat.two_pow_pos _)

/-- Cutting down leaves a leading bit. -/
theorem down_pos {precision : ℕ} (hp : 0 < precision) {x : Point} (hx : 0 < x.mantissa) :
    0 < (x.down precision).mantissa := by
  have hbits : bitLength x.mantissa ≠ 0 := by
    rw [Numeral.bitLength_of_ne_zero hx.ne']
    exact Nat.succ_ne_zero _
  refine Nat.div_pos (two_pow_le_of_lt_bitLength ?_) (Nat.two_pow_pos _)
  rw [excess]
  omega

/-! ## Reciprocals -/

/-- A fraction of the reciprocal of a point, in units of its own. -/
theorem toRat_reciprocal {x : Point} (n s : ℕ) :
    (⟨n, -x.exponent - s⟩ : Point).toRat = n / (2 ^ s * 2 ^ x.exponent) := by
  rw [toRat_eq, sub_eq_add_neg, zpow_add₀ two_ne_zero, zpow_neg, zpow_neg, zpow_natCast, ← mul_inv,
    mul_comm ((2 : ℚ) ^ x.exponent), ← div_eq_mul_inv]

theorem toRat_reciprocalDown_le (precision : ℕ) {x : Point} (hx : 0 < x.mantissa) :
    (x.reciprocalDown precision).toRat ≤ x.toRat⁻¹ := by
  have hpositive := toRat_pos hx
  rw [reciprocalDown]
  generalize precision + bitLength x.mantissa = s
  rw [toRat_reciprocal, inv_eq_one_div, div_le_div_iff₀ (by positivity) hpositive, one_mul,
    toRat_eq, ← mul_assoc]
  gcongr
  exact_mod_cast Nat.div_mul_le_self (2 ^ s) x.mantissa

theorem le_toRat_reciprocalUp (precision : ℕ) {x : Point} (hx : 0 < x.mantissa) :
    x.toRat⁻¹ ≤ (x.reciprocalUp precision).toRat := by
  have hpositive := toRat_pos hx
  rw [reciprocalUp]
  generalize precision + bitLength x.mantissa = s
  rw [toRat_reciprocal, inv_eq_one_div, div_le_div_iff₀ hpositive (by positivity), one_mul,
    toRat_eq, ← mul_assoc]
  gcongr
  exact_mod_cast le_quotientUp_mul (2 ^ s) hx

theorem reciprocalDown_pos (precision : ℕ) {x : Point} (hx : 0 < x.mantissa) :
    0 < (x.reciprocalDown precision).mantissa := by
  refine Nat.div_pos ?_ hx
  exact (lt_two_pow_bitLength x.mantissa).le.trans
    (Nat.pow_le_pow_right Nat.two_pos (Nat.le_add_left _ _))

/-! ## Rounding a point -/

theorem toRat_lt (x : Point) : x.toRat < 2 ^ (bitLength x.mantissa + x.exponent : ℤ) := by
  have hlt : (x.mantissa : ℚ) < 2 ^ bitLength x.mantissa := by
    exact_mod_cast lt_two_pow_bitLength x.mantissa
  rw [toRat_eq, zpow_add₀ two_ne_zero, zpow_natCast]
  gcongr

theorem le_toRat {x : Point} (hx : x.mantissa ≠ 0) :
    2 ^ (bitLength x.mantissa + x.exponent - 1 : ℤ) ≤ x.toRat := by
  have hbits := Numeral.bitLength_of_ne_zero hx
  have hle : (2 : ℚ) ^ x.mantissa.log2 ≤ x.mantissa := by
    exact_mod_cast Nat.log2_self_le hx
  have hexp : (bitLength x.mantissa + x.exponent - 1 : ℤ) = x.mantissa.log2 + x.exponent := by
    omega
  rw [toRat_eq, hexp, zpow_add₀ two_ne_zero, zpow_natCast]
  gcongr

/-- The fraction of a point is rounded as any other fraction of its value. -/
theorem roundMagnitude_fraction {x : Point} {a d : ℕ} (hd : 0 < d) (h : x.toRat = a / d) :
    (if 0 ≤ x.exponent then roundMagnitude (x.mantissa * 2 ^ x.exponent.toNat) 1
      else roundMagnitude x.mantissa (2 ^ (-x.exponent).toNat)) = roundMagnitude a d := by
  have hden : (d : ℚ) ≠ 0 := Nat.cast_ne_zero.2 hd.ne'
  split
  · rename_i hexp
    obtain ⟨k, hk⟩ := Int.eq_ofNat_of_zero_le hexp
    rw [toRat_eq, hk, zpow_natCast, eq_div_iff hden] at h
    rw [hk, Int.toNat_natCast]
    refine roundMagnitude_congr Nat.one_pos hd ?_
    rw [mul_one]
    exact_mod_cast h
  · rename_i hexp
    obtain ⟨k, hk⟩ := Int.eq_ofNat_of_zero_le (Int.neg_nonneg_of_nonpos (not_le.1 hexp).le)
    have hexponent : x.exponent = -(k : ℤ) := by omega
    rw [toRat_eq, hexponent, zpow_neg, zpow_natCast, ← div_eq_mul_inv,
      div_eq_div_iff (by positivity) hden] at h
    rw [hk, Int.toNat_natCast]
    exact roundMagnitude_congr (Nat.two_pow_pos k) hd (by exact_mod_cast h)

/-- **A point is rounded as any fraction of its value.**  What is settled by the size of the point
alone lies well outside the range. -/
theorem round_eq {x : Point} {a d : ℕ} (hd : 0 < d) (h : x.toRat = a / d) :
    x.round = roundMagnitude a d := by
  rw [round]
  by_cases hzero : x.mantissa = 0
  · have ha : a = 0 := by
      rw [toRat_eq, hzero, Nat.cast_zero, zero_mul, eq_comm, div_eq_zero_iff] at h
      exact_mod_cast h.resolve_right (Nat.cast_ne_zero.2 hd.ne')
    rw [if_pos (Or.inl hzero), ha, roundMagnitude, if_pos rfl]
  · by_cases hsmall : bitLength x.mantissa + x.exponent < -1100
    · rw [if_pos (Or.inr hsmall), roundMagnitude_eq_zero hd]
      rw [← h]
      exact x.toRat_lt.trans_le (zpow_le_zpow_right₀ one_le_two (by omega))
    · rw [if_neg (not_or.2 ⟨hzero, hsmall⟩)]
      by_cases hlarge : 1100 < bitLength x.mantissa + x.exponent
      · rw [if_pos hlarge, roundMagnitude_eq_infinity hd]
        rw [← h]
        calc (2 : ℚ) ^ 1024 - 2 ^ 970 ≤ 2 ^ 1024 := sub_le_self _ (by positivity)
          _ = 2 ^ ((1024 : ℕ) : ℤ) := (zpow_natCast 2 1024).symm
          _ ≤ 2 ^ (bitLength x.mantissa + x.exponent - 1 : ℤ) :=
            zpow_le_zpow_right₀ one_le_two (by push_cast; omega)
          _ ≤ x.toRat := le_toRat hzero
      · rw [if_neg hlarge]
        exact roundMagnitude_fraction hd h

end Point

namespace Enclosure

/-! ## Enclosures -/

/-- **An enclosure of a positive number**, with a lower end that is not zero. -/
structure Encloses (e : Enclosure) (q : ℚ) : Prop where
  low_pos : 0 < e.low.mantissa
  low_le : e.low.toRat ≤ q
  le_high : q ≤ e.high.toRat

namespace Encloses

variable {e f : Enclosure} {q r : ℚ} {precision : ℕ}

theorem pos (h : e.Encloses q) : 0 < q :=
  (Point.toRat_pos h.low_pos).trans_le h.low_le

theorem exactly {x : Point} (hx : 0 < x.mantissa) : (exactly x).Encloses x.toRat :=
  ⟨hx, le_rfl, le_rfl⟩

theorem mul (hp : 0 < precision) (he : e.Encloses q) (hf : f.Encloses r) :
    (mul precision e f).Encloses (q * r) := by
  refine ⟨Point.down_pos hp (Nat.mul_pos he.low_pos hf.low_pos), ?_, ?_⟩
  · refine (Point.toRat_down_le _ _).trans ?_
    rw [Point.toRat_mul]
    exact mul_le_mul he.low_le hf.low_le (Point.toRat_nonneg _) he.pos.le
  · refine le_trans ?_ (Point.le_toRat_up _ _)
    rw [Point.toRat_mul]
    exact mul_le_mul he.le_high hf.le_high hf.pos.le (Point.toRat_nonneg _)

/-- **A power of an enclosure encloses the power.** -/
theorem pow (hp : 0 < precision) (he : e.Encloses q) (n : ℕ) :
    (pow precision e n).Encloses (q ^ n) := by
  induction n using Nat.strongRecOn with
  | _ n ih =>
    rw [Enclosure.pow]
    split
    · rename_i hzero
      have hone : (⟨1, 0⟩ : Point).toRat = 1 := by
        rw [Point.toRat_eq]
        simp
      rw [hzero, pow_zero, ← hone]
      exact exactly Nat.one_pos
    · have hhalf := ih (n / 2) (by omega)
      have hsquare := hhalf.mul hp hhalf
      dsimp only
      split
      -- The square of the half, and for an odd exponent once more the base.
      · have hsplit : q ^ n = q ^ (n / 2) * q ^ (n / 2) := by
          rw [← pow_add]
          congr 1
          omega
        rw [hsplit]
        exact hsquare
      · have hsplit : q ^ n = q ^ (n / 2) * q ^ (n / 2) * q := by
          rw [← pow_add, ← pow_succ]
          congr 1
          omega
        rw [hsplit]
        exact hsquare.mul hp he

theorem reciprocal (precision : ℕ) (he : e.Encloses q) :
    (reciprocal precision e).Encloses q⁻¹ := by
  have hhigh : 0 < e.high.mantissa := Point.mantissa_pos (he.pos.trans_le he.le_high)
  refine ⟨Point.reciprocalDown_pos precision hhigh, ?_, ?_⟩
  · exact (Point.toRat_reciprocalDown_le precision hhigh).trans
      (inv_anti₀ he.pos he.le_high)
  · exact (inv_anti₀ (Point.toRat_pos he.low_pos) he.low_le).trans
      (Point.le_toRat_reciprocalUp precision he.low_pos)

/-- A point has a fraction. -/
theorem exists_fraction (x : Point) : ∃ a d : ℕ, 0 < d ∧ x.toRat = a / d := by
  refine ⟨x.toRat.num.natAbs, x.toRat.den, x.toRat.den_pos, ?_⟩
  rw [← Exact.abs_eq_div, abs_of_nonneg x.toRat_nonneg]

/-- **Where both ends round to one magnitude, the enclosed number does.** -/
theorem round?_eq (he : e.Encloses q) {a d : ℕ} (hd : 0 < d) (hq : q = a / d) {m : ℕ}
    (h : e.round? = some m) : m = roundMagnitude a d := by
  obtain ⟨b, c, hc, hlow⟩ := exists_fraction e.low
  obtain ⟨b', c', hc', hhigh⟩ := exists_fraction e.high
  rw [round?, Point.round_eq hc hlow, Point.round_eq hc' hhigh] at h
  split at h
  · rename_i hsame
    obtain rfl := Option.some.inj h
    refine le_antisymm (roundMagnitude_mono hc hd ?_) (hsame ▸ roundMagnitude_mono hd hc' ?_)
    · rw [← hlow, ← hq]
      exact he.low_le
    · rw [← hhigh, ← hq]
      exact he.le_high
  · cases h

end Encloses

end Enclosure

end Roundoff.Binary64
