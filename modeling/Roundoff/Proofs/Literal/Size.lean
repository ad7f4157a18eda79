import Roundoff.Proofs.Literal.Value
import Roundoff.Proofs.Numeral.Written

/-! # The size of a literal

The digits of a literal make a numerator and a denominator of no more digits than the text has
characters, and the power of ten adds its exponent to one of them.  So the binary digits of the
value are at most four times as many, and one (`bitLength_worth_le`).
-/
namespace Roundoff

theorem Exact.bitLength_div_le {n : ℤ} {d k : ℕ} (hd : d ≠ 0) (hn : n.natAbs < 2 ^ k)
    (hdk : d < 2 ^ k) : Exact.bitLength ((n : ℚ) / d) ≤ k := by
  have hcast : (n : ℚ) / d = Rat.divInt n d := by
    rw [Rat.divInt_eq_div, Int.cast_natCast]
  rw [hcast, Exact.bitLength]
  refine Nat.max_le.2 ⟨Numeral.bitLength_le_iff.2 ?_, Numeral.bitLength_le_iff.2 ?_⟩
  · by_cases hzero : n = 0
    · subst hzero
      simp
    · have hdvd : (Rat.divInt n d).num ∣ n := Rat.num_dvd n (Int.natCast_ne_zero.2 hd)
      exact (Nat.le_of_dvd (Int.natAbs_pos.2 hzero) (Int.natAbs_dvd_natAbs.2 hdvd)).trans_lt hn
  · have hdvd : ((Rat.divInt n d).den : ℤ) ∣ d := Rat.den_dvd n d
    exact (Nat.le_of_dvd (Nat.pos_of_ne_zero hd) (Int.natCast_dvd_natCast.1 hdvd)).trans_lt hdk

theorem ten_pow_lt (m : ℕ) : 10 ^ m < 2 ^ (4 * m + 1) := by
  calc 10 ^ m ≤ (2 ^ 4) ^ m := Nat.pow_le_pow_left (by decide) m
    _ = 2 ^ (4 * m) := (pow_mul 2 4 m).symm
    _ < 2 ^ (4 * m + 1) := Nat.pow_lt_pow_succ (by decide)

namespace Literal

open Text (isAsciiDigit)
open Numeral (Digits positional)

/-- A text has a character for each digit of its literal. -/
theorem Spells.length_le {cs : List Char} {l : Literal} (h : Spells cs l) :
    l.integer.length + l.fixed.length + l.repeating.length ≤ cs.length := by
  obtain @⟨sgn, m, g, e, i, f, r, negative, point, x, -, hm, hg, -, -⟩ := h
  have hmantissa : i.length + f.length ≤ m.length := by
    cases hm with
    | whole _ => exact le_rfl
    | pointed _ _ =>
      rw [List.length_append, List.length_cons]
      omega
    | leading _ =>
      simp only [List.length_cons, List.length_nil]
      omega
  have hgroup : r.length ≤ g.length := by
    cases hg with
    | none => exact le_rfl
    | plain _ | dotted _ =>
      rw [List.length_cons, List.length_append]
      omega
  simp only [List.length_append]
  omega

/-- The digit groups as one fraction. -/
theorem Spells.exists_ratio {cs : List Char} {l : Literal} (h : Spells cs l) :
    ∃ n d : ℕ, d ≠ 0 ∧ n < 10 ^ cs.length ∧ d ≤ 10 ^ cs.length ∧
      (n : ℚ) / d = positional (l.integer ++ l.fixed) / 10 ^ l.fixed.length
        + positional l.repeating / (10 ^ l.fixed.length * (10 ^ l.repeating.length - 1)) := by
  have hlength := h.length_le
  have hpow : ∀ {a : ℕ}, a ≤ cs.length → 10 ^ a ≤ 10 ^ cs.length :=
    Nat.pow_le_pow_right (by decide)
  have hwhole : positional (l.integer ++ l.fixed) < 10 ^ (l.integer.length + l.fixed.length) := by
    rw [← List.length_append]
    exact Numeral.positional_lt fun c hc =>
      (List.mem_append.1 hc).elim (h.integer.all c) (h.fixed c)
  by_cases hnil : l.repeating = []
  · refine ⟨positional (l.integer ++ l.fixed), 10 ^ l.fixed.length, by positivity,
      hwhole.trans_le (hpow (by omega)), hpow (by omega), ?_⟩
    simp [hnil, positional]
  · have hcycle : 1 < 10 ^ l.repeating.length :=
      Nat.one_lt_pow (by simpa using hnil) (by decide)
    have hperiod := Numeral.positional_lt (h.repeating hnil).all
    refine ⟨positional (l.integer ++ l.fixed) * (10 ^ l.repeating.length - 1)
      + positional l.repeating, 10 ^ l.fixed.length * (10 ^ l.repeating.length - 1), ?_, ?_, ?_, ?_⟩
    · exact (Nat.mul_pos (by positivity) (by omega)).ne'
    · -- The whole part is one less than a power of ten at most, and so is the period.
      refine lt_of_lt_of_le ?_ (hpow hlength)
      rw [pow_add _ _ l.repeating.length]
      obtain ⟨c, hc⟩ := Nat.exists_eq_add_of_lt hcycle
      rw [hc] at hperiod ⊢
      rw [show 1 + c + 1 - 1 = c + 1 by omega]
      nlinarith
    · refine le_trans (Nat.mul_le_mul_left _ (Nat.sub_le _ 1)) ?_
      rw [← pow_add]
      exact hpow (by omega)
    · have hne : (10 : ℚ) ^ l.repeating.length - 1 ≠ 0 := by
        have : (1 : ℚ) < 10 ^ l.repeating.length := by exact_mod_cast hcycle
        linarith
      push_cast [Nat.cast_sub hcycle.le]
      field_simp

/-- **The value of a literal is not much larger than its text and its exponent.** -/
theorem bitLength_worth_le {cs : List Char} {l : Literal} (h : Spells cs l) :
    Exact.bitLength l.worth ≤ 4 * (cs.length + l.exponent.natAbs) + 1 := by
  obtain ⟨n, d, hd, hn, hdle, hratio⟩ := h.exists_ratio
  have key := mkRat_eq_worth l n d hratio
  dsimp only at key
  have hlt := ten_pow_lt (cs.length + l.exponent.natAbs)
  rw [pow_add] at hlt
  have hone : 1 ≤ 10 ^ l.exponent.natAbs := Nat.one_le_pow _ _ (by decide)
  have hsigned : ∀ {x : ℤ} {m : ℕ}, x.natAbs = m →
      (if l.negative then -x else x).natAbs = m := by
    intro x m hx
    split
    · rw [Int.natAbs_neg, hx]
    · exact hx
  rw [← key, Rat.mkRat_eq_div]
  by_cases hexp : 0 ≤ l.exponent
  · have htoNat : l.exponent.toNat = l.exponent.natAbs := by omega
    simp only [if_pos hexp, htoNat]
    refine Exact.bitLength_div_le hd ?_ ?_
    · rw [hsigned (m := n * 10 ^ l.exponent.natAbs) (by simp [Int.natAbs_mul, Int.natAbs_pow])]
      nlinarith
    · nlinarith
  · have htoNat : (-l.exponent).toNat = l.exponent.natAbs := by omega
    simp only [if_neg hexp, htoNat]
    refine Exact.bitLength_div_le (Nat.mul_ne_zero hd (by omega)) ?_ ?_
    · rw [hsigned (Int.natAbs_natCast n)]
      nlinarith
    · nlinarith

/-- The parts of a fraction have no more digits than the text. -/
theorem SpellsFraction.lt {cs : List Char} {n : ℤ} {d : ℕ} (h : SpellsFraction cs n d) :
    n.natAbs < 10 ^ cs.length ∧ d < 10 ^ cs.length := by
  obtain @⟨sgn, num, u, v, den, negative, -, hnum, -, -, hden⟩ := h
  have hnat : (signed negative (positional num)).natAbs = positional num := by
    rw [signed]
    split
    · exact (Int.natAbs_neg _).trans (Int.natAbs_natCast _)
    · exact Int.natAbs_natCast _
  have hlt : ∀ {ds : List Char}, Digits ds →
      ds.length ≤ (sgn ++ (num ++ (u ++ '/' :: (v ++ den)))).length →
      positional ds < 10 ^ (sgn ++ (num ++ (u ++ '/' :: (v ++ den)))).length :=
    fun hds hle => (Numeral.positional_lt hds.all).trans_le (Nat.pow_le_pow_right (by decide) hle)
  rw [hnat]
  refine ⟨hlt hnum ?_, hlt hden ?_⟩ <;>
  · simp only [List.length_append, List.length_cons]
    omega

end Literal

end Roundoff
