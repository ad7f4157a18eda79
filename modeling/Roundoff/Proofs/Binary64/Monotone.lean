import Roundoff.Proofs.Binary64.Nearest

/-! # Rounding preserves order

A larger fraction is never rounded to a smaller magnitude (`roundMagnitude_mono`).  In one binade
the nearest numbers of units are ordered as the fractions; two that lie at the same tie are rounded
to the same even number.  A fraction of a higher binade has at least as many units of its larger
weight as fill the lower one.
-/
namespace Roundoff.Binary64

/-- **Nearest integers are ordered as the numbers they are nearest to.** -/
theorem NearestInteger.mono {x y : ℚ} {n m : ℤ} (hn : NearestInteger x n)
    (hm : NearestInteger y m) (h : x ≤ y) : n ≤ m := by
  by_contra hlt
  have hnhalf := (abs_le.1 hn.le_half).2
  have hmhalf := (abs_le.1 hm.le_half).1
  have hstep : (m : ℚ) + 1 ≤ n := by exact_mod_cast not_le.1 hlt
  -- The two numbers are one, half way between neighbours that would both be even.
  have hnext : (n : ℚ) = m + 1 := by linarith
  have hneven := hn.even (le_antisymm hn.le_half (le_abs.2 (Or.inl (by linarith))))
  have hmeven := hm.even (le_antisymm hm.le_half (le_abs.2 (Or.inr (by linarith))))
  have hsucc : n = m + 1 := by exact_mod_cast hnext
  rw [hsucc, Int.even_add_one] at hneven
  exact hneven hmeven

/-- **Units are ordered as the rationals rounded to them.** -/
theorem Rounded.mono {p q : ℚ} {n k m l : ℕ} (hp : Rounded p n k) (hq : Rounded q m l)
    (h : p ≤ q) : n + k * 2 ^ 52 ≤ m + l * 2 ^ 52 := by
  rcases lt_trichotomy k l with hlt | rfl | hgt
  · have hn := hp.le
    have hm := hq.le_of_ne_zero (by omega)
    omega
  · have hunit : (0 : ℚ) < 2 ^ (k + -1074 : ℤ) := by positivity
    have hle := hp.nearest.mono hq.nearest (div_le_div_of_nonneg_right h hunit.le)
    omega
  · -- The smaller rational would lie in the higher binade.
    have hbinade := (hp.above.resolve_left (by omega)).trans_lt (h.trans_lt hq.below)
    have := (zpow_lt_zpow_iff_right₀ (one_lt_two (α := ℚ))).1 hbinade
    omega

/-- **Fractions are rounded in order.** -/
theorem roundMagnitude_mono {a d b c : ℕ} (hd : 0 < d) (hc : 0 < c)
    (h : (a : ℚ) / d ≤ b / c) : roundMagnitude a d ≤ roundMagnitude b c := by
  rcases Nat.eq_zero_or_pos a with rfl | ha
  · rw [roundMagnitude, if_pos rfl]
    exact Nat.zero_le _
  · have hden : (0 : ℚ) < d := Nat.cast_pos.2 hd
    have hpositive : (0 : ℚ) < b / c := (div_pos (Nat.cast_pos.2 ha) hden).trans_le h
    have hb : 0 < b := by
      rcases Nat.eq_zero_or_pos b with rfl | hb
      · rw [Nat.cast_zero, zero_div] at hpositive
        exact absurd hpositive (lt_irrefl 0)
      · exact hb
    obtain ⟨n, k, hleft, hleftMagnitude⟩ := exists_rounded ha hd
    obtain ⟨m, l, hright, hrightMagnitude⟩ := exists_rounded hb hc
    rw [hleftMagnitude, hrightMagnitude]
    exact min_le_min_right _ (hleft.mono hright h)

/-! ## Outside the range -/

/-- Below half of the least positive value a fraction is rounded to zero. -/
theorem roundMagnitude_eq_zero {a d : ℕ} (hd : 0 < d) (h : (a : ℚ) / d < 2 ^ (-1075 : ℤ)) :
    roundMagnitude a d = 0 := by
  rcases Nat.eq_zero_or_pos a with rfl | ha
  · rw [roundMagnitude, if_pos rfl]
  · obtain ⟨n, k, hrounded, hmagnitude⟩ := exists_rounded ha hd
    have hk : k = 0 := by
      by_contra hne
      have hbinade := (hrounded.above.resolve_left hne).trans_lt h
      have := (zpow_lt_zpow_iff_right₀ (one_lt_two (α := ℚ))).1 hbinade
      omega
    have hunit : (0 : ℚ) < 2 ^ (k + -1074 : ℤ) := by positivity
    have hhalf : (a / d : ℚ) / 2 ^ (k + -1074 : ℤ) < 1 / 2 := by
      rw [div_lt_iff₀ hunit, hk, one_div, ← zpow_neg_one, ← zpow_add₀ two_ne_zero]
      exact h
    have hn : (n : ℚ) < (1 : ℕ) := by
      have := (abs_le.1 hrounded.abs_sub_le).2
      push_cast
      linarith
    have hzero : n = 0 := Nat.lt_one_iff.1 (Nat.cast_lt.1 hn)
    rw [hmagnitude, hk, hzero]
    rfl

/-- From half a unit below `2 ^ 1024` on a fraction is rounded to infinity. -/
theorem roundMagnitude_eq_infinity {a d : ℕ} (hd : 0 < d)
    (h : (2 : ℚ) ^ 1024 - 2 ^ 970 ≤ a / d) : roundMagnitude a d = infinityMagnitude := by
  have hpositive : (2 : ℚ) ^ 970 < 2 ^ 1024 := pow_lt_pow_right₀ one_lt_two (by decide)
  have ha : 0 < a := by
    rcases Nat.eq_zero_or_pos a with rfl | ha
    · rw [Nat.cast_zero, zero_div] at h
      exact absurd h (not_le.2 (sub_pos.2 hpositive))
    · exact ha
  obtain ⟨n, k, hrounded, hmagnitude⟩ := exists_rounded ha hd
  rw [hmagnitude, min_eq_right (hrounded.overflows_iff.2 h)]

end Roundoff.Binary64
