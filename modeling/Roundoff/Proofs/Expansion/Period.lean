import Roundoff.Proofs.Expansion.Comparison
import Roundoff.Proofs.Expansion.Value

/-! # The first period of a division

The digits of a division determine its remainders: two remainders with the same digits for ever are
the same (`eq_of_digitAt_eq`).  So the digits are zero from some number on exactly where the
remainder is zero, and they repeat themselves exactly where a remainder comes back
(`remainderAt_eq_zero_iff`, `periodicFrom_digitAt_iff`).  As long as no remainder is zero or comes
twice (`Fresh`), no end and no period is behind; the first remainder that comes back therefore
closes the shortest period, behind the fewest digits (`Fresh.least_period`).
-/
namespace Roundoff.Expansion

variable {r d : ℕ}

/-! ## Digits determine remainders -/

/-- **Remainders with the same digits are the same.** -/
theorem eq_of_digitAt_eq {q : ℕ} (hr : r < d) (hq : q < d)
    (h : ∀ i, digitAt r d i = digitAt q d i) : r = q := by
  have hd : 0 < d := Nat.zero_lt_of_lt hr
  have htext : digitText r d 0 d = digitText q d 0 d := by
    rw [digitText, digitText]
    exact List.map_congr_left fun i _ => by rw [h]
  have hrsum := digitText_equation hd r 0 d
  have hqsum := digitText_equation hd q 0 d
  rw [remainderAt_zero hr, htext] at hrsum
  rw [remainderAt_zero hq] at hqsum
  -- After `d` digits a difference of the remainders has grown beyond `d`.
  have hgrown : d < 10 ^ d := Nat.lt_pow_self (by decide)
  have hrlast : remainderAt r d (0 + d) < d := Nat.mod_lt _ hd
  have hqlast : remainderAt q d (0 + d) < d := Nat.mod_lt _ hd
  rcases lt_trichotomy r q with hlt | heq | hlt
  · have := Nat.mul_le_mul_right (10 ^ d) (Nat.succ_le_of_lt hlt)
    rw [Nat.succ_mul] at this
    omega
  · exact heq
  · have := Nat.mul_le_mul_right (10 ^ d) (Nat.succ_le_of_lt hlt)
    rw [Nat.succ_mul] at this
    omega

theorem remainderAt_lt (hd : 0 < d) (r k : ℕ) : remainderAt r d k < d :=
  Nat.mod_lt _ hd

theorem digitAt_zero (d i : ℕ) : digitAt 0 d i = 0 := by
  simp [digitAt, remainderAt]

/-- **A division ends where its digits do.** -/
theorem remainderAt_eq_zero_iff (hd : 0 < d) {k : ℕ} :
    remainderAt r d k = 0 ↔ ∀ i, k ≤ i → digitAt r d i = 0 := by
  refine ⟨fun h i hi => digitAt_of_remainderAt_eq_zero h hi, fun h => ?_⟩
  refine eq_of_digitAt_eq (remainderAt_lt hd r k) hd fun i => ?_
  rw [← digitAt_add, digitAt_zero]
  exact h _ (Nat.le_add_right _ _)

/-- **Digits repeat themselves where a remainder comes back.** -/
theorem periodicFrom_digitAt_iff (hd : 0 < d) {s p : ℕ} :
    PeriodicFrom (digitAt r d) s p ↔ remainderAt r d (s + p) = remainderAt r d s := by
  constructor
  · intro h
    refine eq_of_digitAt_eq (remainderAt_lt hd r _) (remainderAt_lt hd r _) fun i => ?_
    rw [← digitAt_add, ← digitAt_add, Nat.add_right_comm]
    exact h _ (Nat.le_add_right _ _)
  · intro h i hi
    obtain ⟨j, rfl⟩ := Nat.exists_eq_add_of_le hi
    rw [Nat.add_right_comm, digitAt_add, h, ← digitAt_add]

/-- A remainder behind the start of a period is one of the period. -/
theorem remainderAt_reduce {s k i : ℕ} (hlt : s < k) (h : remainderAt r d s = remainderAt r d k)
    (hi : s ≤ i) : remainderAt r d i = remainderAt r d (s + (i - s) % (k - s)) := by
  have hperiod := (remainderAt_periodic hlt h).map_mod_nat (i - s)
  rw [hperiod, Nat.add_sub_cancel' hi]

theorem reduce_lt {s k : ℕ} (hlt : s < k) (i : ℕ) : s + (i - s) % (k - s) < k := by
  have := Nat.mod_lt (i - s) (Nat.sub_pos_of_lt hlt)
  omega

/-! ## Remainders before the first period -/

/-- **Before the digit with number `k`** no remainder is zero, and none comes twice. -/
structure Fresh (r d k : ℕ) : Prop where
  ne_zero : ∀ i < k, remainderAt r d i ≠ 0
  ne_earlier : ∀ i < k, ∀ j < i, remainderAt r d j ≠ remainderAt r d i

theorem fresh_of_not_settled {k : ℕ}
    (h : ∀ i < k, (Division.after r d i).settled = false) : Fresh r d k := by
  have hopen : ∀ i < k, remainderAt r d i ≠ 0 ∧
      ¬ ∃ j < i, remainderAt r d j = remainderAt r d i := by
    intro i hi
    rw [← not_or, ← Division.settled_after_iff, h i hi]
    exact Bool.false_ne_true
  exact ⟨fun i hi => (hopen i hi).1, fun i hi j hj heq => (hopen i hi).2 ⟨j, hj, heq⟩⟩

namespace Fresh

variable {k : ℕ}

theorem inj (h : Fresh r d k) {i j : ℕ} (hi : i < k) (hj : j < k)
    (heq : remainderAt r d i = remainderAt r d j) : i = j := by
  rcases lt_trichotomy i j with hlt | rfl | hlt
  · exact absurd heq (h.ne_earlier j hj i hlt)
  · rfl
  · exact absurd heq.symm (h.ne_earlier i hi j hlt)

theorem le_of_remainderAt_eq_zero (h : Fresh r d k) {i : ℕ} (hi : remainderAt r d i = 0) : k ≤ i :=
  not_lt.1 fun hlt => h.ne_zero i hlt hi

theorem le_of_remainderAt_eq (h : Fresh r d k) {s p : ℕ} (hp : 0 < p)
    (heq : remainderAt r d (s + p) = remainderAt r d s) : k ≤ s + p :=
  not_lt.1 fun hlt => h.ne_earlier _ hlt s (Nat.lt_add_of_pos_right hp) heq.symm

/-- A division that ends has no shorter run of digits before a period either. -/
theorem le_of_ended (h : Fresh r d k) (hend : remainderAt r d k = 0) {s p : ℕ} (hp : 0 < p)
    (heq : remainderAt r d (s + p) = remainderAt r d s) : k ≤ s := by
  refine h.le_of_remainderAt_eq_zero ?_
  -- Periods later the division has ended.
  have hback : remainderAt r d (s + k * p) = remainderAt r d s := by
    have hperiod := (remainderAt_periodic (Nat.lt_add_of_pos_right hp) heq.symm).nat_mul k 0
    rwa [Nat.add_sub_cancel_left, zero_add] at hperiod
  have hlate : k ≤ s + k * p := (Nat.le_mul_of_pos_right k hp).trans (Nat.le_add_left _ _)
  obtain ⟨j, hj⟩ := Nat.exists_eq_add_of_le hlate
  rw [← hback, hj, remainderAt_add, hend, remainderAt, zero_mul, Nat.zero_mod]

section
variable {s : ℕ} (h : Fresh r d k) (hlt : s < k) (hclosed : remainderAt r d s = remainderAt r d k)
include h hlt hclosed

theorem remainderAt_ne_zero (i : ℕ) : remainderAt r d i ≠ 0 := by
  by_cases hi : i < k
  · exact h.ne_zero i hi
  · rw [remainderAt_reduce hlt hclosed (by omega)]
    exact h.ne_zero _ (reduce_lt hlt i)

/-- **The first remainder that comes back closes the shortest period behind the fewest digits.** -/
theorem least_period {t p : ℕ} (hp : 0 < p)
    (heq : remainderAt r d (t + p) = remainderAt r d t) : s ≤ t ∧ k - s ≤ p := by
  have hfirst : s ≤ t := by
    by_contra hbefore
    have hbeyond : s ≤ t + p := by
      have := h.le_of_remainderAt_eq hp heq
      omega
    have hsame := h.inj (reduce_lt hlt (t + p)) (by omega)
      ((remainderAt_reduce hlt hclosed hbeyond).symm.trans heq)
    omega
  refine ⟨hfirst, Nat.le_of_dvd hp ?_⟩
  have hsame : s + (t + p - s) % (k - s) = s + (t - s) % (k - s) := by
    refine h.inj (reduce_lt hlt _) (reduce_lt hlt _) ?_
    rw [← remainderAt_reduce hlt hclosed (by omega), ← remainderAt_reduce hlt hclosed hfirst, heq]
  have hmod : (t - s) + p ≡ (t - s) + 0 [MOD k - s] := by
    have hsum : t - s + p = t + p - s := by omega
    rw [hsum]
    exact Nat.add_left_cancel hsame
  exact (Nat.modEq_zero_iff_dvd).1 (Nat.ModEq.add_left_cancel' _ hmod)

end

end Fresh

end Roundoff.Expansion
