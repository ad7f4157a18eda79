import Roundoff.Proofs.Expansion.Period

/-! # Long division with a budget of digits

Whatever the budget, a division finds the first digits of its rational, and stops before a remainder
would come twice (`exists_digits`).  It is cut short exactly when neither the end of the digits nor
the end of their first period lies within the budget (`truncated_ofRat_iff`); what is found then are
the digits of the rational shifted by the budget and cut to a whole number (`floor_shift`).  A
larger budget therefore finds the same digits and possibly more (`digits_isPrefix`).
-/
namespace Roundoff.Expansion

/-- The digits after the point that an expansion holds. -/
def digits (e : Expansion) : List ℕ := e.fixed ++ e.repeating

/-- The digits of a rational come to their end within the first `n`: there are only zeros behind. -/
def EndsWithin (x : ℚ) (n : ℕ) : Prop :=
  ∃ k ≤ n, ∀ i, k ≤ i → pointDigit x i = 0

/-- A period of the digits of a rational, and so the first one, is over within the first `n`. -/
def RepeatsWithin (x : ℚ) (n : ℕ) : Prop :=
  ∃ s p, 0 < p ∧ s + p ≤ n ∧ PeriodicFrom (pointDigit x) s p

/-! ## The digits of a rational -/

section
variable (x : ℚ)

theorem pointDigit_eq_digitAt : pointDigit x = digitAt (x.num.natAbs % x.den) x.den :=
  funext (pointDigit_eq x)

/-- **The digits of a rational are those of its shifted whole parts.** -/
theorem floor_shift (k : ℕ) : ⌊|x|⌋₊ * 10 ^ k +
    Nat.ofDigits 10 ((List.range k).map (pointDigit x)).reverse = ⌊|x| * 10 ^ k⌋₊ := by
  induction k with
  | zero => simp
  | succ k ih =>
    have hshift : ⌊|x| * 10 ^ (k + 1)⌋₊ / 10 = ⌊|x| * 10 ^ k⌋₊ := by
      rw [← Nat.floor_div_ofNat, pow_succ, ← mul_assoc, mul_div_cancel_right₀ _ (by norm_num)]
    have hlast : 10 * ⌊|x| * 10 ^ k⌋₊ + pointDigit x k = ⌊|x| * 10 ^ (k + 1)⌋₊ := by
      rw [← hshift, pointDigit, Nat.div_add_mod]
    rw [← hlast, ← ih, List.range_succ, List.map_append, List.reverse_append, List.map_singleton,
      List.reverse_singleton, List.singleton_append, Nat.ofDigits_cons]
    ring

theorem negative_ofRat (n : ℕ) : (ofRat x n).negative = decide (x < 0) := by
  have hdivided := divided_ofRat x n
  generalize ofRat x n = e at hdivided
  cases hdivided <;> rfl

/-! ## What is found -/

/-- Every digit that a division found stands in the expansion. -/
theorem Division.digits_expansion (negative : Bool) (whole : ℤ) (s : Division) :
    (s.expansion negative whole).digits = s.digits.reverse := by
  unfold Division.expansion
  dsimp only
  split
  · exact List.append_nil _
  · split
    · exact List.take_append_drop _ _
    · exact List.append_nil _

/-- **A division finds the first digits of its rational**, as long as its remainders are fresh.
Where it is cut short, the remainder it was left with is fresh too. -/
theorem exists_digits (n : ℕ) : ∃ k ≤ n,
    (ofRat x n).digits = (List.range k).map (pointDigit x) ∧
      Fresh (x.num.natAbs % x.den) x.den k ∧
      ((ofRat x n).truncated = true → Fresh (x.num.natAbs % x.den) x.den (n + 1)) := by
  obtain ⟨k, -, hk, hrun, hbefore, hstop⟩ := Division.run_after (x.num.natAbs % x.den) x.den 0 n
  rw [zero_add] at hk hstop
  have hopen : ∀ i < k, (Division.after (x.num.natAbs % x.den) x.den i).settled = false :=
    fun i hi => hbefore i (Nat.zero_le i) hi
  refine ⟨k, hk, ?_, fresh_of_not_settled hopen, fun hcut => fresh_of_not_settled fun i hi => ?_⟩
  · rw [ofRat_eq_expansion, hrun, Division.digits_expansion, pointDigit_eq_digitAt, Division.after,
      List.reverse_reverse]
  · have hlast : (Division.after (x.num.natAbs % x.den) x.den k).settled = false := by
      by_contra hsettled
      rw [ofRat_eq_expansion, hrun,
        Division.truncated_expansion.2 (Bool.eq_true_of_not_eq_false hsettled)] at hcut
      cases hcut
    obtain rfl := hstop hlast
    rcases Nat.lt_succ_iff_lt_or_eq.1 hi with hlt | rfl
    · exact hopen i hlt
    · exact hlast

theorem digit_lt_ofRat (n : ℕ) : ∀ q ∈ (ofRat x n).digits, q < 10 := by
  intro q hq
  obtain ⟨k, -, hdigits, -⟩ := exists_digits x n
  rw [hdigits] at hq
  obtain ⟨i, -, rfl⟩ := List.mem_map.1 hq
  exact pointDigit_lt x i

/-- **A larger budget finds the same digits first.** -/
theorem digits_isPrefix {n m : ℕ} (hle : n ≤ m) : (ofRat x n).digits <+: (ofRat x m).digits := by
  obtain ⟨t, rfl⟩ := Nat.exists_eq_add_of_le hle
  obtain ⟨k, -, -, hrun, -⟩ := Division.run_after (x.num.natAbs % x.den) x.den 0 n
  obtain ⟨j, hkj, -, hmore, -⟩ := Division.run_after (x.num.natAbs % x.den) x.den k t
  obtain ⟨l, rfl⟩ := Nat.exists_eq_add_of_le hkj
  rw [ofRat_eq_expansion, ofRat_eq_expansion x (n + t), Division.run_add, hrun, hmore,
    Division.digits_expansion, Division.digits_expansion, Division.after, Division.after,
    List.reverse_reverse, List.reverse_reverse, List.range_add, List.map_append]
  exact List.prefix_append _ _

/-! ## Where a division is cut short -/

/-- **An expansion is truncated when neither the end of its digits nor the end of their first period
lies within the budget.** -/
theorem truncated_ofRat_iff (n : ℕ) :
    (ofRat x n).truncated = true ↔ ¬ EndsWithin x n ∧ ¬ RepeatsWithin x n := by
  rw [EndsWithin, RepeatsWithin, pointDigit_eq_digitAt]
  constructor
  · intro hcut
    obtain ⟨-, -, -, -, hfresh⟩ := exists_digits x n
    constructor
    · rintro ⟨k, hk, hzeros⟩
      have := (hfresh hcut).le_of_remainderAt_eq_zero ((remainderAt_eq_zero_iff x.den_pos).2 hzeros)
      omega
    · rintro ⟨s, p, hp, hle, hperiodic⟩
      have := (hfresh hcut).le_of_remainderAt_eq hp
        ((periodicFrom_digitAt_iff x.den_pos).1 hperiodic)
      omega
  · rintro ⟨hends, hrepeats⟩
    have hdivided := divided_ofRat x n
    generalize ofRat x n = e at hdivided
    cases hdivided with
    | @ended k hk hzero => exact absurd ⟨k, hk, (remainderAt_eq_zero_iff x.den_pos).1 hzero⟩ hends
    | @periodic s k hlt hk heq _ =>
      have hsum : s + (k - s) = k := Nat.add_sub_cancel' hlt.le
      refine absurd ⟨s, k - s, Nat.sub_pos_of_lt hlt, hsum.trans_le hk, ?_⟩ hrepeats
      rw [periodicFrom_digitAt_iff x.den_pos, hsum, heq]
    | cut _ => rfl

/-- A truncated expansion uses its budget up. -/
theorem fixed_of_truncated {n : ℕ} (hcut : (ofRat x n).truncated = true) :
    (ofRat x n).fixed = (List.range n).map (pointDigit x) ∧ (ofRat x n).repeating = [] := by
  have hdivided := divided_ofRat x n
  rw [pointDigit_eq_digitAt]
  generalize ofRat x n = e at hdivided hcut
  cases hdivided with
  | ended _ _ => cases hcut
  | periodic _ _ _ _ => cases hcut
  | cut _ => exact ⟨rfl, rfl⟩

/-- **Long division finds the digits of a rational**, within every budget.  Sign, whole part and
digits are those of the rational; an expansion that is not truncated has its value; it is truncated
exactly when neither the end of the digits nor that of their first period lies within the budget,
and then it holds as many digits as the budget allows, those of the whole part of `|x| * 10 ^ n`.
So a larger budget leaves an expansion alone that is not truncated, and only extends a truncated
one. -/
theorem ofRat_expands (n : ℕ) :
    ofRatWithin x n = .ok (ofRat x n) ∧
      ((ofRat x n).negative = true ↔ x < 0) ∧ (ofRat x n).whole = ⌊|x|⌋₊ ∧
      (∀ q ∈ (ofRat x n).digits, q < 10) ∧
      ((ofRat x n).truncated = false → (ofRat x n).value = .ok x) ∧
      ((ofRat x n).truncated = true ↔ ¬ EndsWithin x n ∧ ¬ RepeatsWithin x n) ∧
      ((ofRat x n).truncated = true →
        (ofRat x n).fixed.length = n ∧ (ofRat x n).repeating = [] ∧
          ⌊|x|⌋₊ * 10 ^ n + Nat.ofDigits 10 (ofRat x n).fixed.reverse = ⌊|x| * 10 ^ n⌋₊) ∧
      ∀ m, n ≤ m →
        ((ofRat x n).truncated = false → ofRat x m = ofRat x n) ∧
        ((ofRat x n).truncated = true → (ofRat x m).negative = (ofRat x n).negative ∧
          (ofRat x m).whole = (ofRat x n).whole ∧ (ofRat x n).fixed <+: (ofRat x m).digits) := by
  refine ⟨?_, ?_, ?_, digit_lt_ofRat x n, value_ofRat, truncated_ofRat_iff x n, ?_, ?_⟩
  · rw [ofRatWithin, if_neg (Int.not_lt.2 (Int.natCast_nonneg n)), Int.toNat_natCast]
  · rw [negative_ofRat, decide_eq_true_eq]
  · rw [whole_ofRat, floor_abs]
  · intro hcut
    obtain ⟨hfixed, hrepeating⟩ := fixed_of_truncated x hcut
    refine ⟨by rw [hfixed, List.length_map, List.length_range], hrepeating, ?_⟩
    rw [hfixed, floor_shift]
  · intro m hle
    refine ⟨fun hend => ofRat_of_le hend hle, fun hcut => ⟨?_, ?_, ?_⟩⟩
    · rw [negative_ofRat, negative_ofRat]
    · rw [whole_ofRat, whole_ofRat]
    · have hprefix := digits_isPrefix x hle
      rwa [digits, (fixed_of_truncated x hcut).2, List.append_nil] at hprefix

end

/-- The first period of one sixth is over after two digits and not after one; one ninety-seventh has
a period of 96 digits. -/
theorem ofRat_expands_sixth :
    (ofRat (1 / 6) 1).truncated = true ∧ (ofRat (1 / 6) 2).truncated = false ∧
      (ofRat (1 / 6) 2).value = .ok (1 / 6) ∧ ofRat (1 / 6) 64 = ofRat (1 / 6) 2 ∧
      (ofRat (1 / 97) 5).truncated = true ∧
      (ofRat (1 / 97) 5).fixed <+: (ofRat (1 / 97) 96).digits := by
  have hcut : (ofRat (1 / 97) 5).truncated = true := by decide +kernel
  have hend : (ofRat (1 / 6) 2).truncated = false := by decide +kernel
  obtain ⟨-, -, -, -, hvalue, -, -, hsixth⟩ := ofRat_expands (1 / 6) 2
  obtain ⟨-, -, -, -, -, -, -, hmore⟩ := ofRat_expands (1 / 97) 5
  exact ⟨by decide +kernel, hend, hvalue hend, (hsixth 64 (by decide)).1 hend, hcut,
    ((hmore 96 (by decide)).2 hcut).2.2⟩

end Roundoff.Expansion
