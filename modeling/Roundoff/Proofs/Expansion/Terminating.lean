import Roundoff.Proofs.Binary64.Conversion
import Roundoff.Proofs.Expansion.Budget

/-! # Expansions that end

The division by a divisor of a power of ten ends, and it ends after as many digits as the least such
power has zeros (`ofRat_of_dvd`).  A binary64 value is a fraction over a power of two, which divides
a power of ten exactly from its own exponent on.  So the expansion of a finite value has as many
digits as its denominator has factors of two, at most 1074, and the default budget leaves room for
every one of them.
-/
namespace Roundoff.Expansion

variable {r d : ℕ}

/-- The remainders of a fraction in lowest terms vanish where its denominator divides a power of
ten. -/
theorem remainderAt_eq_zero_iff_dvd (h : Nat.Coprime d r) {k : ℕ} :
    remainderAt r d k = 0 ↔ d ∣ 10 ^ k := by
  rw [remainderAt, ← Nat.dvd_iff_mod_eq_zero]
  exact ⟨fun hdvd => h.dvd_of_dvd_mul_left hdvd, fun hdvd => hdvd.mul_left r⟩

theorem coprime_den_remainder (x : ℚ) : Nat.Coprime x.den (x.num.natAbs % x.den) := by
  rw [Nat.Coprime, Nat.gcd_comm, ← Nat.gcd_rec]
  exact x.reduced.symm

/-- **A fraction over a divisor of a power of ten has an expansion that ends**, and the expansion
has exactly the digits that are needed to bring the fraction over a power of ten. -/
theorem ofRat_of_dvd {x : ℚ} {m n : ℕ} (hdvd : x.den ∣ 10 ^ m) (hle : m ≤ n) :
    (ofRat x n).truncated = false ∧ (ofRat x n).repeating = [] ∧
      ∀ k, (ofRat x n).fixed.length ≤ k ↔ x.den ∣ 10 ^ k := by
  have hcoprime := coprime_den_remainder x
  have hdivided := divided_ofRat x n
  have hrepeating := hdivided.repeating_eq_nil hdvd
  obtain ⟨j, -, hdigits, hfresh, -⟩ := exists_digits x n
  rw [digits, hrepeating, List.append_nil] at hdigits
  generalize ofRat x n = e at hdivided hrepeating hdigits
  cases hdivided with
  | @ended k _ hzero =>
    refine ⟨rfl, rfl, fun i => ?_⟩
    obtain rfl : k = j := by simpa using congrArg List.length hdigits
    rw [List.length_map, List.length_range, ← remainderAt_eq_zero_iff_dvd hcoprime]
    refine ⟨fun hi => ?_, hfresh.le_of_remainderAt_eq_zero⟩
    have hpower := (remainderAt_eq_zero_iff_dvd hcoprime).1 hzero
    exact remainderAt_eq_zero_of_dvd hpower hi
  | @periodic s k hlt _ _ _ =>
    rw [List.map_eq_nil_iff, List.range_eq_nil] at hrepeating
    omega
  | cut hne => exact absurd (remainderAt_eq_zero_of_dvd hdvd hle) hne

/-! ## Fractions over powers of two -/

theorem two_pow_dvd_ten_pow_iff {k m : ℕ} : 2 ^ k ∣ 10 ^ m ↔ k ≤ m := by
  have hodd : Nat.Coprime (2 ^ k) (5 ^ m) := Nat.Coprime.pow k m (by decide)
  have hten : 10 ^ m = 2 ^ m * 5 ^ m := by rw [← Nat.mul_pow]
  rw [hten, hodd.dvd_mul_right, Nat.pow_dvd_pow_iff_le_right (by decide)]

/-- The denominator of a binary64 value is a power of two. -/
theorem exists_den_toRat (x : Binary64) : ∃ k ≤ 1074, x.toRat.den = 2 ^ k := by
  have hdvd : x.toRat.den ∣ Binary64.unitDenominator := by
    rw [Binary64.toRat, Rat.mkRat_eq_divInt]
    exact Int.natCast_dvd_natCast.1 (Rat.den_dvd _ _)
  obtain ⟨u, hu, hunit⟩ := Binary64.exists_unitDenominator
  rw [hunit] at hdvd
  obtain ⟨k, hk, hden⟩ := (Nat.dvd_prime_pow Nat.prime_two).1 hdvd
  exact ⟨k, by omega, hden⟩

/-- **The default budget covers every binary64 value.**  The expansion of a finite value ends; it
has as many digits as the reduced denominator has factors of two, which are 1074 at most, and no
period.  Its value is that of the binary64 value and is rounded to the bits of this value again, but
for the negative zero, which comes back as the positive one. -/
theorem default_budget_covers (x : Binary64) (hx : x.isFinite = true) :
    ∃ r, x.rational = .ok r ∧ (ofRat r).truncated = false ∧ (ofRat r).isRepeating = false ∧
      (ofRat r).fixed.length ≤ 1074 ∧ r.den = 2 ^ (ofRat r).fixed.length ∧
      ∃ q, (ofRat r).value = .ok q ∧ (Binary64.ofRat q).bits =
        if x.isZero then (Binary64.zero false).bits else x.bits := by
  obtain ⟨k, hk, hden⟩ := exists_den_toRat x
  have hroom : k ≤ defaultBudget := hk.trans (by decide)
  have hpower : x.toRat.den ∣ 10 ^ k := hden ▸ two_pow_dvd_ten_pow_iff.2 le_rfl
  obtain ⟨hend, hrepeating, hlength⟩ := ofRat_of_dvd hpower hroom
  have hdigits : (ofRat x.toRat).fixed.length = k := by
    refine eq_of_forall_ge_iff fun m => ?_
    rw [hlength, hden, two_pow_dvd_ten_pow_iff]
  refine ⟨x.toRat, Binary64.rational_eq_ok_iff.2 ⟨hx, rfl⟩, hend, ?_, hdigits.trans_le hk, ?_,
    x.toRat, value_ofRat hend, ?_⟩
  · rw [isRepeating, hrepeating]
    rfl
  · rw [hdigits, hden]
  · rw [Binary64.ofRat_toRat hx, apply_ite Binary64.bits]

/-- The least positive value needs all of the 1074 digits; the negative zero needs none and loses
its sign. -/
theorem default_budget_covers_least :
    (∃ r, (Binary64.ofBits 1).rational = .ok r ∧ (ofRat r).truncated = false ∧
      (ofRat r).fixed.length = 1074 ∧
      ∃ q, (ofRat r).value = .ok q ∧ (Binary64.ofRat q).bits = 1) ∧
    ∃ r, (Binary64.zero true).rational = .ok r ∧
      ∃ q, (ofRat r).value = .ok q ∧ (Binary64.ofRat q).bits = 0 := by
  constructor
  · obtain ⟨r, hr, hend, -, -, hden, q, hq, hbits⟩ :=
      default_budget_covers (Binary64.ofBits 1) (by decide)
    have hvalue : (Binary64.ofBits 1).toRat.den = 2 ^ 1074 := by decide +kernel
    refine ⟨r, hr, hend, ?_, q, hq, hbits⟩
    rw [(Binary64.rational_eq_ok_iff.1 hr).2, hden] at hvalue
    -- The two powers are compared by their exponents, without running the division.
    generalize (ofRat r).fixed.length = k at hvalue
    exact pow_right_injective₀ two_pos (by decide) hvalue
  · obtain ⟨r, hr, -, -, -, -, q, hq, hbits⟩ :=
      default_budget_covers (Binary64.zero true) (by decide)
    exact ⟨r, hr, q, hq, hbits⟩

end Roundoff.Expansion
