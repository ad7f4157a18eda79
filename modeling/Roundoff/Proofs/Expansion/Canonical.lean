import Roundoff.Proofs.Expansion.Budget

/-! # Expansions are canonical

An expansion that is not truncated stops at the first remainder that is zero or comes back
(`Settled`).  So it has the fewest fixed digits and the shortest period that the digits of its
rational can be written with (`Settled.least`), a period has other digits than zeros and than nines,
and rationals are equal exactly when their expansions are.
-/
namespace Roundoff.Expansion

/-- **What a division of `r` by `d` ends in that is not cut short**: its remainders are fresh up to
one of zero, or up to one that came before. -/
inductive Settled (r d : ℕ) : Expansion → Prop
  | ended {k : ℕ} {negative : Bool} {whole : ℤ} : Fresh r d k → remainderAt r d k = 0 →
      Settled r d ⟨negative, whole, (List.range k).map (digitAt r d), [], false⟩
  | periodic {s k : ℕ} {negative : Bool} {whole : ℤ} : Fresh r d k → s < k →
      remainderAt r d s = remainderAt r d k →
      Settled r d ⟨negative, whole, (List.range s).map (digitAt r d),
        (List.range (k - s)).map fun i => digitAt r d (s + i), false⟩

/-- The digits of an expansion, continued for ever, are those of a rational after the point. -/
def Writes (e : Expansion) (x : ℚ) : Prop :=
  ∀ i, e.fractionDigit i = pointDigit x i

theorem settled_ofRat {x : ℚ} {n : ℕ} (h : (ofRat x n).truncated = false) :
    Settled (x.num.natAbs % x.den) x.den (ofRat x n) := by
  have hdivided := divided_ofRat x n
  obtain ⟨j, -, hdigits, hfresh, -⟩ := exists_digits x n
  have hlength := congrArg List.length hdigits
  rw [List.length_map, List.length_range] at hlength
  generalize ofRat x n = e at hdivided hlength h
  cases hdivided with
  | @ended k _ hzero =>
    obtain rfl : k = j := by simpa [digits] using hlength
    exact .ended hfresh hzero
  | @periodic s k hlt _ heq _ =>
    obtain rfl : k = j := by
      rw [← hlength]
      simp only [digits, List.length_append, List.length_map, List.length_range]
      omega
    exact .periodic hfresh hlt heq
  | cut _ => cases h

namespace Settled

variable {r d : ℕ} {e : Expansion}

/-- **The digits of the division, for ever.** -/
theorem fractionDigit_eq (h : Settled r d e) (i : ℕ) : e.fractionDigit i = digitAt r d i := by
  cases h with
  | @ended k _ _ _ hzero =>
    rw [fractionDigit, List.length_map, List.length_range]
    split
    · rename_i hlt
      simp [hlt]
    · rename_i hbeyond
      rw [digitAt_of_remainderAt_eq_zero hzero (not_lt.1 hbeyond), List.getD_nil]
  | @periodic s k _ _ _ hlt heq =>
    have hpos : 0 < k - s := Nat.sub_pos_of_lt hlt
    rw [fractionDigit, List.length_map, List.length_range]
    split
    · rename_i hfixed
      simp [hfixed]
    · rename_i hbeyond
      have hperiod := digitAt_of_remainderAt_eq hlt heq (i - s)
      rw [Nat.add_sub_cancel' (not_lt.1 hbeyond)] at hperiod
      simp [Nat.mod_lt _ hpos, hperiod]

/-- **No way to write the same digits has fewer fixed ones or a shorter period.** -/
theorem least (h : Settled r d e) (hd : 0 < d) {f : Expansion}
    (hf : ∀ i, f.fractionDigit i = digitAt r d i) :
    e.fixed.length ≤ f.fixed.length ∧ e.repeating.length ≤ f.repeating.length := by
  have hback : remainderAt r d (f.fixed.length + max 1 f.repeating.length) =
      remainderAt r d f.fixed.length := by
    rw [← periodicFrom_digitAt_iff hd, ← funext hf]
    exact f.fractionDigit_periodic
  have hpos : 0 < max 1 f.repeating.length := Nat.lt_of_lt_of_le Nat.one_pos (le_max_left _ _)
  cases h with
  | @ended k _ _ hfresh hzero =>
    rw [List.length_map, List.length_range]
    exact ⟨hfresh.le_of_ended hzero hpos hback, Nat.zero_le _⟩
  | @periodic s k _ _ hfresh hlt heq =>
    obtain ⟨hfixed, hperiod⟩ := hfresh.least_period hlt heq hpos hback
    rw [List.length_map, List.length_range, List.length_map, List.length_range]
    refine ⟨hfixed, ?_⟩
    by_cases hnil : f.repeating = []
    · -- Without a period there are only zeros behind, and the division would have ended.
      have hzero : remainderAt r d f.fixed.length = 0 := by
        refine (remainderAt_eq_zero_iff hd).2 fun i hi => ?_
        rw [← hf, fractionDigit, if_neg (not_lt.2 hi), hnil, List.getD_nil]
      exact absurd hzero (hfresh.remainderAt_ne_zero hlt heq _)
    · rwa [max_eq_right (List.length_pos_iff.2 hnil)] at hperiod

/-- A division that ends has no period. -/
theorem repeating_eq_nil_iff (h : Settled r d e) (hd : 0 < d) :
    e.repeating = [] ↔ ∃ k, ∀ i, k ≤ i → digitAt r d i = 0 := by
  cases h with
  | @ended k _ _ _ hzero =>
    exact ⟨fun _ => ⟨k, fun i hi => digitAt_of_remainderAt_eq_zero hzero hi⟩, fun _ => rfl⟩
  | @periodic s k _ _ hfresh hlt heq =>
    constructor
    · intro hnil
      rw [List.map_eq_nil_iff, List.range_eq_nil] at hnil
      omega
    · rintro ⟨m, hzeros⟩
      exact absurd ((remainderAt_eq_zero_iff hd).2 hzeros) (hfresh.remainderAt_ne_zero hlt heq m)

/-- The last digit of a division that ends is not zero. -/
theorem getLast?_ne_zero (h : Settled r d e) (hd : 0 < d) (hnil : e.repeating = []) :
    e.fixed.getLast? ≠ some 0 := by
  cases h with
  | @ended k _ _ hfresh hzero =>
    cases k with
    | zero => simp
    | succ k =>
      rw [List.range_succ, List.map_append, List.map_singleton, List.getLast?_concat]
      intro hdigit
      -- Behind a last digit of zero the remainder would have been zero before it.
      refine hfresh.ne_zero k (Nat.lt_succ_self k) ((remainderAt_eq_zero_iff hd).2 fun i hi => ?_)
      rcases hi.eq_or_lt with rfl | hlt
      · exact Option.some.inj hdigit
      · exact digitAt_of_remainderAt_eq_zero hzero hlt
  | @periodic s k _ _ _ hlt _ =>
    rw [List.map_eq_nil_iff, List.range_eq_nil] at hnil
    omega

/-- **A period is neither all zeros nor all nines.** -/
theorem exists_mem_repeating_ne (h : Settled r d e) (hd : 0 < d) (hperiod : e.repeating ≠ [])
    {c : ℕ} (hc : c = 0 ∨ c = 9) : ∃ q ∈ e.repeating, q ≠ c := by
  by_contra hall
  push Not at hall
  cases h with
  | ended _ _ => exact hperiod rfl
  | @periodic s k _ _ hfresh hlt heq =>
    have hdigit : ∀ i, s ≤ i → digitAt r d i = c := by
      intro i hi
      have hreduce := digitAt_of_remainderAt_eq hlt heq (i - s)
      rw [Nat.add_sub_cancel' hi] at hreduce
      rw [hreduce]
      refine hall _ (List.mem_map.2 ⟨(i - s) % (k - s), List.mem_range.2 ?_, rfl⟩)
      exact Nat.mod_lt _ (Nat.sub_pos_of_lt hlt)
    rcases hc with rfl | rfl
    · exact hfresh.ne_zero s hlt ((remainderAt_eq_zero_iff hd).2 hdigit)
    · -- Nines for ever repeat themselves at once, and the remainder would be the divisor.
      have hback : remainderAt r d (s + 1) = remainderAt r d s := by
        refine (periodicFrom_digitAt_iff hd).1 fun i hi => ?_
        rw [hdigit i hi, hdigit _ (Nat.le_succ_of_le hi)]
      have hstep : d * digitAt r d s + remainderAt r d (s + 1) = remainderAt r d s * 10 := by
        rw [remainderAt_succ, digitAt, Nat.div_add_mod]
      rw [hdigit s le_rfl, hback] at hstep
      have := remainderAt_lt hd r s
      omega

end Settled

/-- **Expansions are canonical.**  An expansion that is not truncated writes the digits of its
rational, and no other way to write them has fewer fixed digits or a shorter period.  It has no
period exactly if the digits end, and then no zero stands at the end; a period is neither all zeros
nor all nines.  So expansions that are not truncated are equal exactly if their rationals are. -/
theorem ofRat_canonical {x : ℚ} {n : ℕ} (h : (ofRat x n).truncated = false) :
    (ofRat x n).Writes x ∧
      (∀ e : Expansion, e.Writes x → (ofRat x n).fixed.length ≤ e.fixed.length ∧
        (ofRat x n).repeating.length ≤ e.repeating.length) ∧
      ((ofRat x n).repeating = [] ↔ ∃ k, EndsWithin x k) ∧
      ((ofRat x n).repeating = [] → (ofRat x n).fixed.getLast? ≠ some 0) ∧
      ((ofRat x n).repeating ≠ [] →
        (∃ q ∈ (ofRat x n).repeating, q ≠ 0) ∧ ∃ q ∈ (ofRat x n).repeating, q ≠ 9) ∧
      ∀ y m, (ofRat y m).truncated = false → (ofRat x n = ofRat y m ↔ x = y) := by
  have hsettled := settled_ofRat h
  have hends : (∃ k, EndsWithin x k) ↔ ∃ k, ∀ i, k ≤ i → pointDigit x i = 0 :=
    ⟨fun ⟨_, k, _, hzeros⟩ => ⟨k, hzeros⟩, fun ⟨k, hzeros⟩ => ⟨k, k, le_rfl, hzeros⟩⟩
  refine ⟨fun i => ?_, fun e he => ?_, ?_, hsettled.getLast?_ne_zero x.den_pos, fun hperiod => ?_,
    fun y m hy => ⟨fun heq => ?_, ?_⟩⟩
  · rw [hsettled.fractionDigit_eq, pointDigit_eq_digitAt]
  · refine hsettled.least x.den_pos fun i => ?_
    rw [he, pointDigit_eq_digitAt]
  · rw [hends, pointDigit_eq_digitAt, hsettled.repeating_eq_nil_iff x.den_pos]
  · exact ⟨hsettled.exists_mem_repeating_ne x.den_pos hperiod (Or.inl rfl),
      hsettled.exists_mem_repeating_ne x.den_pos hperiod (Or.inr rfl)⟩
  · have hvalue := value_ofRat h
    rw [heq, value_ofRat hy] at hvalue
    exact (Except.ok.inj hvalue).symm
  · rintro rfl
    -- The larger of the two budgets changes neither expansion.
    rcases le_total n m with hle | hle
    · exact (ofRat_of_le h hle).symm
    · exact ofRat_of_le hy hle

/-- One sixth has one fixed digit and a period of one, whatever the budget from two digits on. -/
theorem ofRat_canonical_sixth :
    (ofRat (1 / 6) 2).truncated = false ∧ (ofRat (1 / 6) 2).Writes (1 / 6) ∧
      (ofRat (1 / 3) 64).truncated = false ∧ ofRat (1 / 6) 2 ≠ ofRat (1 / 3) 64 := by
  have hsixth : (ofRat (1 / 6) 2).truncated = false := by decide +kernel
  have hthird : (ofRat (1 / 3) 64).truncated = false := by decide +kernel
  obtain ⟨hwrites, -, -, -, -, hequal⟩ := ofRat_canonical hsixth
  refine ⟨hsixth, hwrites, hthird, fun h => ?_⟩
  exact absurd ((hequal (1 / 3) 64 hthird).1 h) (by norm_num)

end Roundoff.Expansion
