import Roundoff.Expansion.Basic
import Mathlib

/-! # Long division

The digits and remainders of a long division in closed form, the states that the division goes
through (`Division.after`), and what it ends in: a remainder of zero, a remainder that came before,
or as many digits as were asked for (`Divided`).
-/
namespace Roundoff.Expansion

variable {r d : ℕ}

/-! ## Remainders and digits -/

/-- The remainder of a division of `r` by `d` after a number of digits. -/
def remainderAt (r d k : ℕ) : ℕ := r * 10 ^ k % d

/-- The digits of a division of `r` by `d`, counted from zero. -/
def digitAt (r d k : ℕ) : ℕ := remainderAt r d k * 10 / d

theorem remainderAt_succ (r d k : ℕ) : remainderAt r d (k + 1) = remainderAt r d k * 10 % d := by
  rw [remainderAt, remainderAt, Nat.mod_mul_mod, pow_succ, mul_assoc]

theorem remainderAt_zero (h : r < d) : remainderAt r d 0 = r := by
  rw [remainderAt, pow_zero, mul_one, Nat.mod_eq_of_lt h]

theorem remainderAt_add (r d k j : ℕ) :
    remainderAt r d (k + j) = remainderAt (remainderAt r d k) d j := by
  rw [remainderAt, remainderAt, remainderAt, Nat.mod_mul_mod, pow_add, mul_assoc]

/-- From some digit on, a division goes on as the division of its remainder does. -/
theorem digitAt_add (r d k j : ℕ) : digitAt r d (k + j) = digitAt (remainderAt r d k) d j := by
  rw [digitAt, digitAt, remainderAt_add]

theorem digitAt_of_remainderAt_eq_zero {k i : ℕ} (h : remainderAt r d k = 0) (hi : k ≤ i) :
    digitAt r d i = 0 := by
  obtain ⟨j, rfl⟩ := Nat.exists_eq_add_of_le hi
  rw [digitAt_add, h]
  simp [digitAt, remainderAt]

section
variable {s k : ℕ} (hlt : s < k) (h : remainderAt r d s = remainderAt r d k)
include hlt h

/-- Between two equal remainders lies a period of the remainders. -/
theorem remainderAt_periodic : Function.Periodic (fun i => remainderAt r d (s + i)) (k - s) := by
  intro i
  have hsum : s + (i + (k - s)) = k + i := by omega
  dsimp only
  rw [hsum, remainderAt_add, remainderAt_add r d s, h]

theorem digitAt_of_remainderAt_eq (i : ℕ) :
    digitAt r d (s + i) = digitAt r d (s + i % (k - s)) := by
  rw [digitAt, digitAt]
  exact congrArg (· * 10 / d) ((remainderAt_periodic hlt h).map_mod_nat i).symm

end

/-- A divisor of a power of ten divides without remainder in the end. -/
theorem remainderAt_eq_zero_of_dvd {m i : ℕ} (h : d ∣ 10 ^ m) (hi : m ≤ i) :
    remainderAt r d i = 0 :=
  Nat.mod_eq_zero_of_dvd ((h.trans (pow_dvd_pow 10 hi)).mul_left r)

theorem digitAt_lt (hd : 0 < d) (k : ℕ) : digitAt r d k < 10 := by
  rw [digitAt, Nat.div_lt_iff_lt_mul hd, mul_comm 10 d]
  exact Nat.mul_lt_mul_of_pos_right (Nat.mod_lt _ hd) (by decide)

/-- A digit is the last one of the whole part of the dividend shifted to it. -/
theorem digitAt_eq (hd : 0 < d) (k : ℕ) : digitAt r d k = r * 10 ^ (k + 1) / d % 10 := by
  have hsplit : r * 10 ^ (k + 1) = d * (r * 10 ^ k / d * 10) + remainderAt r d k * 10 := by
    calc r * 10 ^ (k + 1) = r * 10 ^ k * 10 := by rw [pow_succ, mul_assoc]
      _ = (d * (r * 10 ^ k / d) + r * 10 ^ k % d) * 10 := by rw [Nat.div_add_mod]
      _ = d * (r * 10 ^ k / d * 10) + remainderAt r d k * 10 := by rw [remainderAt]; ring
  rw [hsplit, Nat.mul_add_div hd, add_comm, Nat.add_mul_mod_self_right, ← digitAt,
    Nat.mod_eq_of_lt (digitAt_lt hd k)]

/-! ## The run -/

/-- Where the division of `r` by `d` stands after a number of digits. -/
def Division.after (r d k : ℕ) : Division :=
  ⟨((List.range k).map (digitAt r d)).reverse, ((List.range k).map (remainderAt r d)).reverse,
    remainderAt r d k⟩

theorem Division.step_after (r d k : ℕ) : (after r d k).step d = after r d (k + 1) := by
  simp [step, after, List.range_succ, remainderAt_succ, digitAt]

/-- A run passes states that are not settled, and stops early only where the division is settled. -/
theorem Division.run_after (r d k budget : ℕ) :
    ∃ j, k ≤ j ∧ j ≤ k + budget ∧ run d budget (after r d k) = after r d j ∧
      (∀ i, k ≤ i → i < j → (after r d i).settled = false) ∧
      ((after r d j).settled = false → j = k + budget) := by
  induction budget generalizing k with
  | zero =>
    exact ⟨k, le_rfl, le_rfl, rfl, fun i hi hlt => absurd hlt (not_lt.2 hi), fun _ => rfl⟩
  | succ budget ih =>
    rw [run]
    split
    · rename_i hsettled
      refine ⟨k, le_rfl, by omega, rfl, fun i hi hlt => absurd hlt (not_lt.2 hi), fun h => ?_⟩
      rw [hsettled] at h
      cases h
    · rename_i hunsettled
      obtain ⟨j, hlow, hhigh, hrun, hbefore, hstop⟩ := ih (k + 1)
      rw [step_after, hrun]
      refine ⟨j, by omega, by omega, rfl, fun i hi hlt => ?_, fun h => by rw [hstop h]; omega⟩
      rcases hi.eq_or_lt with rfl | hlater
      · exact Bool.eq_false_of_not_eq_true hunsettled
      · exact hbefore i hlater hlt

/-- A division is settled by a remainder of zero, or by one that came before. -/
theorem Division.settled_after_iff {r d k : ℕ} : (after r d k).settled = true ↔
    remainderAt r d k = 0 ∨ ∃ i < k, remainderAt r d i = remainderAt r d k := by
  simp only [settled, after, Bool.or_eq_true, beq_iff_eq, List.contains_iff_mem, List.mem_reverse,
    List.mem_map, List.mem_range]

/-- **What a division of `r` by `d` with `n` digits at most ends in.** -/
inductive Divided (r d n : ℕ) (negative : Bool) (whole : ℤ) : Expansion → Prop
  | ended {k : ℕ} : k ≤ n → remainderAt r d k = 0 →
      Divided r d n negative whole ⟨negative, whole, (List.range k).map (digitAt r d), [], false⟩
  | periodic {s k : ℕ} : s < k → k ≤ n → remainderAt r d s = remainderAt r d k →
      remainderAt r d k ≠ 0 → Divided r d n negative whole
        ⟨negative, whole, (List.range s).map (digitAt r d),
          (List.range (k - s)).map fun i => digitAt r d (s + i), false⟩
  | cut : remainderAt r d n ≠ 0 →
      Divided r d n negative whole ⟨negative, whole, (List.range n).map (digitAt r d), [], true⟩

theorem drop_map_range (f : ℕ → ℕ) (k s : ℕ) :
    ((List.range k).map f).drop s = (List.range (k - s)).map fun i => f (s + i) := by
  refine List.ext_getElem (by simp) fun i _ _ => ?_
  simp

theorem divided_expansion {n j : ℕ} (negative : Bool) (whole : ℤ) (hj : j ≤ n)
    (hstop : (Division.after r d j).settled = false → j = n) :
    Divided r d n negative whole ((Division.after r d j).expansion negative whole) := by
  unfold Division.expansion Division.after
  simp only [List.reverse_reverse]
  split
  · rename_i hzero
    exact .ended hj hzero
  · rename_i hne
    split
    · rename_i s hs
      obtain ⟨hlt, heq, -⟩ := List.idxOf?_eq_some_iff.1 hs
      simp only [List.length_map, List.length_range] at hlt
      simp only [List.getElem_map, List.getElem_range] at heq
      have htake :
          ((List.range j).map (digitAt r d)).take s = (List.range s).map (digitAt r d) := by
        rw [← List.map_take, List.take_range, Nat.min_eq_left hlt.le]
      rw [htake, drop_map_range]
      exact .periodic hlt hj heq hne
    · rename_i hnone
      have hfresh : remainderAt r d j ∉ (List.range j).map (remainderAt r d) :=
        List.idxOf?_eq_none_iff.1 hnone
      have hsettled : (Division.after r d j).settled = false := by
        rw [← Bool.not_eq_true, Division.settled_after_iff, not_or]
        exact ⟨hne, fun ⟨i, hi, heq⟩ => hfresh (List.mem_map.2 ⟨i, List.mem_range.2 hi, heq⟩)⟩
      obtain rfl := hstop hsettled
      exact .cut hne

/-- Division by a divisor of a power of ten never runs into a period. -/
theorem Divided.repeating_eq_nil {n m : ℕ} {negative : Bool} {whole : ℤ} {e : Expansion}
    (h : Divided r d n negative whole e) (hdvd : d ∣ 10 ^ m) : e.repeating = [] := by
  cases h with
  | ended _ _ | cut _ => rfl
  | @periodic s k hlt _ heq hne =>
    have hback : remainderAt r d (s + m * (k - s)) = remainderAt r d s := by
      have hperiod := (remainderAt_periodic hlt heq).nat_mul m 0
      rwa [zero_add] at hperiod
    have hlate : m ≤ s + m * (k - s) :=
      (Nat.le_mul_of_pos_right m (Nat.sub_pos_of_lt hlt)).trans (Nat.le_add_left _ _)
    rw [remainderAt_eq_zero_of_dvd hdvd hlate, heq] at hback
    exact absurd hback.symm hne

theorem Divided.length_fixed_le {n : ℕ} {negative : Bool} {whole : ℤ} {e : Expansion}
    (h : Divided r d n negative whole e) : e.fixed.length ≤ n := by
  cases h with
  | ended hk _ => simpa using hk
  | periodic hlt hk _ _ =>
    simp only [List.length_map, List.length_range]
    omega
  | cut _ => simp

theorem Divided.digit_lt {n : ℕ} {negative : Bool} {whole : ℤ} {e : Expansion}
    (h : Divided r d n negative whole e) (hd : 0 < d) : ∀ q ∈ e.fixed, q < 10 := by
  intro q hq
  have hmap : ∃ k, q ∈ (List.range k).map (digitAt r d) := by
    cases h with
    | ended _ _ | periodic _ _ _ _ | cut _ => exact ⟨_, hq⟩
  obtain ⟨k, hk⟩ := hmap
  obtain ⟨i, -, rfl⟩ := List.mem_map.1 hk
  exact digitAt_lt hd i

/-- The expansion of a rational is what the division of its fraction stops at. -/
theorem ofRat_eq_expansion (x : ℚ) (n : ℕ) : ofRat x n =
    (Division.run x.den n (Division.after (x.num.natAbs % x.den) x.den 0)).expansion
      (decide (x < 0)) ((x.num.natAbs / x.den : ℕ) : ℤ) := by
  have hstart : Division.after (x.num.natAbs % x.den) x.den 0 =
      ⟨[], [], x.num.natAbs % x.den⟩ := by
    rw [Division.after, remainderAt_zero (Nat.mod_lt _ x.den_pos)]
    rfl
  rw [hstart]
  rfl

/-- The expansion of a rational comes from the division of its fraction. -/
theorem divided_ofRat (x : ℚ) (n : ℕ) :
    Divided (x.num.natAbs % x.den) x.den n (decide (x < 0)) ((x.num.natAbs / x.den : ℕ) : ℤ)
      (ofRat x n) := by
  obtain ⟨k, -, hk, hrun, -, hstop⟩ := Division.run_after (x.num.natAbs % x.den) x.den 0 n
  rw [zero_add] at hk hstop
  rw [ofRat_eq_expansion, hrun]
  exact divided_expansion _ _ hk hstop

end Roundoff.Expansion
