import Roundoff.Binary64.Text
import Roundoff.Proofs.Binary64.Line
import Roundoff.Proofs.Literal.Value
import Roundoff.Proofs.Numeral.Written

/-! # Texts of finite values are literals

The text of a finite value, written positionally or in scientific notation, spells a decimal literal
without repeating digits that stands for the shortest decimal (`spells_text`).  All that is needed
of the shortest decimal is that it is not zero, since zero does not read back as another value.
-/
namespace Roundoff

open Text (isAsciiDigit)
open Literal (SignText MantissaText Spells)
open Numeral (Digits)

/-! ## Significant digits -/

/-- The significant digits of a decimal that is not zero are a digit string. -/
theorem Decimal.digits_significantDigits {x : Decimal} (h : x.coefficient ≠ 0) :
    Digits x.significantDigits := by
  have hdigits := Numeral.digits_natural x.coefficient
  refine ⟨fun hnil => h ?_, fun c hc => hdigits.all c ?_⟩
  · rw [significantDigits, List.reverse_eq_nil_iff, List.dropWhile_eq_nil_iff] at hnil
    rw [← Numeral.positional_natural x.coefficient]
    exact Numeral.positional_zeros fun c hc => beq_iff_eq.1 (hnil c (List.mem_reverse.2 hc))
  · exact List.mem_reverse.1 ((List.dropWhile_suffix _).mem (List.mem_reverse.1 hc))

/-- **A decimal is its significant digits**, the first of which counts a power of ten. -/
theorem Decimal.toRat_eq (x : Decimal) : x.toRat =
    Numeral.positional x.significantDigits *
      (10 : ℚ) ^ (x.firstExponent + 1 - x.significantDigits.length) := by
  obtain ⟨t, ht⟩ : ∃ t, Numeral.natural x.coefficient =
      x.significantDigits ++ List.replicate t '0' := by
    have hsplit : (Numeral.natural x.coefficient).reverse.takeWhile (· == '0') ++
        (Numeral.natural x.coefficient).reverse.dropWhile (· == '0') =
          (Numeral.natural x.coefficient).reverse := List.takeWhile_append_dropWhile
    have hzeros : ∀ c ∈ (Numeral.natural x.coefficient).reverse.takeWhile (· == '0'), c = '0' :=
      fun c hc => beq_iff_eq.1 (List.mem_takeWhile_imp (p := (· == '0')) hc)
    have hreverse := congrArg List.reverse hsplit
    rw [List.reverse_append, List.reverse_reverse, List.eq_replicate_of_mem hzeros,
      List.reverse_replicate] at hreverse
    exact ⟨_, hreverse.symm⟩
  have hcoefficient : x.coefficient = Numeral.positional x.significantDigits * 10 ^ t := by
    rw [← Numeral.positional_append_replicate, ← ht, Numeral.positional_natural]
  have hexponent : x.firstExponent + 1 - x.significantDigits.length = t + x.exponent := by
    rw [firstExponent, ht, List.length_append, List.length_replicate]
    push_cast
    ring
  rw [hexponent, zpow_add₀ (by norm_num), zpow_natCast, toRat, hcoefficient]
  push_cast
  ring

namespace Binary64

theorem readsBack_of_neighbour? {m : ℕ} {e : ℤ} {x : Decimal} (h : neighbour? m e = some x) :
    readsBack m x = true := by
  -- Either neighbour may be the nearer one.
  have hpair : ∀ near far : Decimal, (if readsBack m near then some near
      else if readsBack m far then some far else none) = some x → readsBack m x = true := by
    intro near far heq
    split at heq
    · rename_i hnear
      cases heq
      exact hnear
    · split at heq
      · rename_i hfar
        cases heq
        exact hfar
      · cases heq
  exact hpair _ _ h

theorem coefficient_ne_zero_of_readsBack {m : ℕ} {x : Decimal} (hm : m ≠ 0)
    (h : readsBack m x = true) : x.coefficient ≠ 0 := by
  intro hzero
  rw [readsBack, beq_iff_eq, Decimal.numerator, hzero, Nat.zero_mul] at h
  exact hm h.symm

theorem coefficient_exactDecimal_ne_zero {m : ℕ} (hm : m ≠ 0) :
    (exactDecimal m).coefficient ≠ 0 := by
  have hscaled : scaled 0 < scaled m := scaled_strictMono (Nat.pos_of_ne_zero hm)
  rw [scaled_zero] at hscaled
  obtain ⟨u, hu⟩ : ∃ u, u = 1074 := ⟨_, rfl⟩
  rw [exactDecimal, ← hu]
  exact Nat.mul_ne_zero hscaled.ne' (pow_ne_zero u (by decide))

theorem coefficient_shortest_ne_zero {m : ℕ} (hm : m ≠ 0) : (shortest m).coefficient ≠ 0 := by
  rw [shortest]
  cases hfind : (List.range 17).findSome? fun k : ℕ =>
      neighbour? m (Decimal.leadingExponent (scaled m) unitDenominator - k) with
  | some x =>
    obtain ⟨k, -, hk⟩ := List.exists_of_findSome?_eq_some hfind
    exact coefficient_ne_zero_of_readsBack hm (readsBack_of_neighbour? hk)
  | none => exact coefficient_exactDecimal_ne_zero hm

/-! ## The two written forms -/

/-- Without repeating digits a literal stands for its digits over a power of ten, scaled. -/
theorem worth_plain (negative : Bool) (i f : List Char) (x : ℤ) :
    Literal.worth ⟨negative, i, f, [], x⟩ = (if negative then -1 else 1) *
      ((Numeral.positional (i ++ f) : ℚ) / 10 ^ f.length * (10 : ℚ) ^ x) := by
  have hperiod : Numeral.positional [] = 0 := rfl
  rw [Literal.worth, hperiod]
  simp only [Nat.cast_zero, zero_div, add_zero, mul_assoc]

theorem mantissaText_positional {ds : List Char} (h : Digits ds) (p : ℤ) :
    ∃ i f, MantissaText (positional ds p) i f true ∧
      (Numeral.positional (i ++ f) : ℚ) / 10 ^ f.length =
        Numeral.positional ds * (10 : ℚ) ^ (p + 1 - ds.length) := by
  rw [positional]
  split
  · rename_i hp
    refine ⟨_, _, .pointed Numeral.digits_zero
      (List.forall_mem_append.2 ⟨Numeral.isAsciiDigit_zeros _, h.all⟩), ?_⟩
    have hlength : p + 1 - ds.length =
        -((List.replicate (-p - 1).toNat '0' ++ ds).length : ℤ) := by
      rw [List.length_append, List.length_replicate]
      omega
    have hdigits : Numeral.positional (['0'] ++ (List.replicate (-p - 1).toNat '0' ++ ds)) =
        Numeral.positional ds :=
      (Numeral.positional_replicate_append 1 _).trans (Numeral.positional_replicate_append _ _)
    rw [hdigits, hlength, zpow_neg, zpow_natCast, div_eq_mul_inv]
  · rename_i hp
    obtain ⟨k, rfl⟩ := Int.eq_ofNat_of_zero_le (not_lt.1 hp)
    dsimp only
    rw [Int.toNat_natCast]
    have hwhole : Digits (ds.take (k + 1) ++ List.replicate (k + 1 - ds.length) '0') :=
      ⟨by simp [h.ne_nil], List.forall_mem_append.2
        ⟨fun c hc => h.all c (List.mem_of_mem_take hc), Numeral.isAsciiDigit_zeros _⟩⟩
    by_cases hshort : ds.length ≤ k + 1
    · -- All digits stand before the point.
      rw [List.take_of_length_le hshort] at hwhole ⊢
      rw [List.drop_of_length_le hshort]
      refine ⟨_, ['0'], .pointed hwhole Numeral.digits_zero.all, ?_⟩
      have hlength : (k : ℤ) + 1 - ds.length = (k + 1 - ds.length : ℕ) := by omega
      have hdigits : Numeral.positional
          (ds ++ List.replicate (k + 1 - ds.length) '0' ++ ['0']) =
          Numeral.positional ds * 10 ^ (k + 1 - ds.length) * 10 ^ 1 :=
        (Numeral.positional_append_replicate _ 1).trans
          (congrArg (· * 10 ^ 1) (Numeral.positional_append_replicate _ _))
      rw [hdigits, hlength, zpow_natCast]
      push_cast
      simp
    · have hfraction : (ds.drop (k + 1)).isEmpty = false := by
        rw [List.isEmpty_eq_false_iff, ne_eq, List.drop_eq_nil_iff]
        exact hshort
      rw [hfraction, if_neg Bool.false_ne_true]
      refine ⟨_, _, .pointed hwhole fun c hc => h.all c (List.mem_of_mem_drop hc), ?_⟩
      have hlength : (k : ℤ) + 1 - ds.length = -((ds.drop (k + 1)).length : ℤ) := by
        rw [List.length_drop]
        omega
      have hnone : k + 1 - ds.length = 0 := by omega
      rw [hlength, zpow_neg, zpow_natCast, div_eq_mul_inv, hnone, List.replicate_zero,
        List.append_nil, List.take_append_drop]

theorem mantissaText_scientific {ds : List Char} (h : Digits ds) :
    ∃ i f point, MantissaText (Decimal.scientificMantissa ds) i f point ∧
      (Numeral.positional (i ++ f) : ℚ) / 10 ^ f.length =
        Numeral.positional ds * (10 : ℚ) ^ (1 - (ds.length : ℤ)) := by
  obtain ⟨hne, hall⟩ := h
  match ds with
  | [] => exact absurd rfl hne
  | [d] =>
    refine ⟨[d], [], false, .whole ⟨hne, hall⟩, ?_⟩
    simp
  | d :: e :: ds =>
    rw [List.forall_mem_cons] at hall
    have hfirst : Digits [d] := ⟨List.cons_ne_nil _ _, List.forall_mem_singleton.2 hall.1⟩
    refine ⟨_, _, _, .pointed hfirst hall.2, ?_⟩
    have hlength : (1 : ℤ) - ((d :: e :: ds).length : ℕ) = -((e :: ds).length : ℤ) := by
      rw [List.length_cons]
      push_cast
      ring
    rw [hlength, zpow_neg, zpow_natCast, div_eq_mul_inv]
    rfl

theorem scaleText_exponentText (p : ℤ) :
    Literal.ScaleText ('e' :: Decimal.exponentText p) p := by
  have hdigits := Numeral.digits_padZeros (Numeral.digits_natural p.natAbs) 2
  have hvalue : Numeral.positional (Numeral.padZeros 2 (Numeral.natural p.natAbs)) = p.natAbs := by
    rw [Numeral.padZeros, Numeral.positional_replicate_append, Numeral.positional_natural]
  rw [Decimal.exponentText]
  split
  · have hscale := Literal.ScaleText.power (c := 'e') (Or.inl rfl) .minus hdigits
    rwa [hvalue, Literal.signed, if_pos rfl, show -(p.natAbs : ℤ) = p by omega] at hscale
  · have hscale := Literal.ScaleText.power (c := 'e') (Or.inl rfl) .plus hdigits
    rwa [hvalue, Literal.signed, if_neg Bool.false_ne_true,
      show (p.natAbs : ℤ) = p by omega] at hscale

theorem signText_signText (negative : Bool) : SignText (signText negative) negative := by
  cases negative
  · exact .none
  · exact .minus

/-- The number that the text of a finite magnitude spells. -/
def spelledValue (m : ℕ) : ℚ :=
  if m = 0 then 0 else (shortest m).toRat

theorem spells_magnitudeText (negative : Bool) (m : ℕ) :
    ∃ l, Spells (signText negative ++ magnitudeText m) l ∧ l.repeating = [] ∧
      l.worth = (if negative then -1 else 1) * spelledValue m := by
  have hsign := signText_signText negative
  have hplain : ∀ {cs i f : List Char} {point : Bool}, MantissaText cs i f point →
      Spells (signText negative ++ cs) ⟨negative, i, f, [], 0⟩ := by
    intro cs i f point hm
    have hspell := Spells.mk hsign hm .none (fun _ => rfl) .none
    rwa [List.nil_append, List.append_nil] at hspell
  rw [magnitudeText, spelledValue]
  split
  · refine ⟨_, hplain (.pointed Numeral.digits_zero Numeral.digits_zero.all), rfl, ?_⟩
    have hzero : Numeral.positional (['0'] ++ ['0']) = 0 := rfl
    rw [worth_plain, hzero]
    simp
  · rename_i hm
    have hdigits := Decimal.digits_significantDigits (coefficient_shortest_ne_zero hm)
    dsimp only
    rw [Decimal.toRat_eq]
    split
    · obtain ⟨i, f, hmantissa, hvalue⟩ := mantissaText_positional hdigits (shortest m).firstExponent
      refine ⟨_, hplain hmantissa, rfl, ?_⟩
      rw [worth_plain, hvalue, zpow_zero, mul_one]
    · obtain ⟨i, f, point, hmantissa, hvalue⟩ := mantissaText_scientific hdigits
      refine ⟨_, .mk hsign hmantissa .none (fun _ => rfl)
        (scaleText_exponentText (shortest m).firstExponent), rfl, ?_⟩
      rw [worth_plain, hvalue, mul_assoc, ← zpow_add₀ (by norm_num)]
      congr 3
      ring

/-- **The text of a finite value spells a literal without repeating digits**, which stands for the
shortest decimal with the sign of the value. -/
theorem spells_text {x : Binary64} (hx : x.isFinite = true) :
    ∃ l, Spells (Text.trim x.text.toList) l ∧ l.repeating = [] ∧
      l.worth = (if x.negative then -1 else 1) * spelledValue x.magnitude := by
  obtain ⟨l, hspell, hl⟩ := spells_magnitudeText x.negative x.magnitude
  have htext : x.text.toList = signText x.negative ++ magnitudeText x.magnitude := by
    rw [text, isNaN_of_isFinite hx, isInfinite_of_isFinite hx, if_neg Bool.false_ne_true,
      if_neg Bool.false_ne_true, String.toList_ofList]
  refine ⟨l, ?_, hl⟩
  rw [htext, Text.trim, Text.trimAll_eq_self hspell.not_blank]
  exact hspell

end Binary64

/-- Without repeating digits a literal stands for a fraction over a power of ten. -/
theorem Literal.exists_worth_eq {l : Literal} (h : l.repeating = []) :
    ∃ (c : ℤ) (m : ℕ), l.worth = c / 10 ^ m := by
  have hsign : ∃ s : ℤ, (if l.negative then -1 else 1 : ℚ) = s := by
    split
    · exact ⟨-1, by norm_num⟩
    · exact ⟨1, by norm_num⟩
  obtain ⟨s, hs⟩ := hsign
  have hperiod : Numeral.positional l.repeating = 0 := by rw [h]; rfl
  rw [worth, hs, hperiod, Nat.cast_zero, zero_div, add_zero]
  by_cases hexp : 0 ≤ l.exponent
  · obtain ⟨e, he⟩ := Int.eq_ofNat_of_zero_le hexp
    refine ⟨s * Numeral.positional (l.integer ++ l.fixed) * 10 ^ e, l.fixed.length, ?_⟩
    rw [he, zpow_natCast]
    push_cast
    ring
  · obtain ⟨e, he⟩ := Int.eq_ofNat_of_zero_le (Int.neg_nonneg_of_nonpos (not_le.1 hexp).le)
    refine ⟨s * Numeral.positional (l.integer ++ l.fixed), l.fixed.length + e, ?_⟩
    rw [show l.exponent = -(e : ℤ) by omega, zpow_neg, zpow_natCast, pow_add]
    push_cast
    field_simp

end Roundoff
