import Roundoff.Literal
import Roundoff.Operation
import Mathlib

/-! # Fractions in lowest terms

The exact numbers of the library are kept in lowest terms by their type.  This module does the same
arithmetic on bare pairs of integers, by cross multiplication: every result is reduced by moving the
sign to the numerator and dividing out the greatest common divisor.  A number has only one reduced
fraction (`eq_ofRat_iff`), so the reduced fraction of two integers is that of their quotient
(`reduce_eq`), a text and a binary64 value have the fractions of their numbers (`parse_eq`,
`ofBinary64_eq`), and each operation on fractions is the library's operation on the numbers they
stand for, with the same errors (`binary_ofRat`, `reciprocal_ofRat`).
-/
namespace Roundoff

/-- An integer over an integer. -/
structure Fraction where
  num : ℤ
  den : ℤ
  deriving DecidableEq, Repr

namespace Fraction

/-- The number a fraction stands for. -/
def value (a : Fraction) : ℚ := a.num / a.den

/-- Lowest terms over a positive denominator. -/
structure Canonical (a : Fraction) : Prop where
  den_pos : 0 < a.den
  gcd_eq_one : Int.gcd a.num a.den = 1

/-- The numerator and the denominator of a number. -/
def ofRat (x : ℚ) : Fraction := ⟨x.num, x.den⟩

/-! ## Arithmetic -/

/-- The sign goes to the numerator, and the greatest common divisor is divided out. -/
def lowest (n d : ℤ) : Fraction :=
  let (n, d) := if d < 0 then (-n, -d) else (n, d)
  let divisor : ℤ := Int.gcd n d
  ⟨n / divisor, d / divisor⟩

/-- The reduced fraction of two integers. -/
def reduce (n d : ℤ) : Except ArithmeticError Fraction :=
  if d = 0 then .error .zeroDenominator else .ok (lowest n d)

/-- The fraction of a literal text.  A decimal literal always has a denominator. -/
def parse (text : String) : Except LiteralError Fraction :=
  match Literal.fraction? (Text.trim text.toList) with
  | some (sgn, num, den) => do
    let n ← (Numeral.read num).mapError .unreadable
    let d ← (Numeral.read den).mapError .unreadable
    (reduce (if sgn = ['-'] then -n else n) d).mapError fun _ => .zeroDenominator
  | none => do
    let l ← Literal.split text
    let (n, d) ← l.ratio.mapError .unreadable
    return lowest n d

/-- The fraction of a binary64 value. -/
def ofBinary64 (x : Binary64) : Except Binary64.NotFinite Fraction :=
  if x.isFinite then
    .ok (lowest (if x.negative then -(Binary64.scaled x.magnitude) else Binary64.scaled x.magnitude)
      Binary64.unitDenominator)
  else .error ⟨x⟩

def add (a b : Fraction) : Except ArithmeticError Fraction :=
  reduce (a.num * b.den + b.num * a.den) (a.den * b.den)

def sub (a b : Fraction) : Except ArithmeticError Fraction :=
  reduce (a.num * b.den - b.num * a.den) (a.den * b.den)

def mul (a b : Fraction) : Except ArithmeticError Fraction :=
  reduce (a.num * b.num) (a.den * b.den)

def div (a b : Fraction) : Except ArithmeticError Fraction :=
  if b.num = 0 then .error .zeroDivisor else reduce (a.num * b.den) (a.den * b.num)

/-- An integer power.  A negative power turns the fraction over. -/
def pow (a b : Fraction) : Except ArithmeticError Fraction :=
  if b.den ≠ 1 then .error .fractionalExponent
  else if 0 ≤ b.num then reduce (a.num ^ b.num.toNat) (a.den ^ b.num.toNat)
  else if a.num = 0 then .error .zeroToNegativePower
  else reduce (a.den ^ (-b.num).toNat) (a.num ^ (-b.num).toNat)

def neg (a : Fraction) : Except ArithmeticError Fraction := reduce (-a.num) a.den

def abs (a : Fraction) : Except ArithmeticError Fraction := reduce |a.num| a.den

def reciprocal (a : Fraction) : Except ArithmeticError Fraction :=
  if a.num = 0 then .error .zeroReciprocal else reduce a.den a.num

/-- A binary operation on fractions. -/
def binary : Operation → Fraction → Fraction → Except ArithmeticError Fraction
  | .add => add
  | .sub => sub
  | .mul => mul
  | .div => div
  | .pow => pow

/-- How two fractions are ordered, by their cross products. -/
def compare (a b : Fraction) : Ordering :=
  let left := a.num * b.den
  let right := b.num * a.den
  if left < right then .lt else if right < left then .gt else .eq

/-! ## The fraction of a number -/

variable {a b : Fraction} {n d : ℤ} {x y : ℚ}

@[simp] theorem num_ofRat (x : ℚ) : (ofRat x).num = x.num := rfl

@[simp] theorem den_ofRat (x : ℚ) : (ofRat x).den = x.den := rfl

theorem canonical_ofRat (x : ℚ) : (ofRat x).Canonical :=
  ⟨Int.natCast_pos.2 x.den_pos, x.reduced⟩

@[simp] theorem value_ofRat (x : ℚ) : (ofRat x).value = x := by
  rw [value, ofRat, Int.cast_natCast, Rat.num_div_den]

/-- **A number has only one fraction in lowest terms.** -/
theorem eq_ofRat_iff : a = ofRat x ↔ a.Canonical ∧ a.value = x := by
  constructor
  · rintro rfl
    exact ⟨canonical_ofRat x, value_ofRat x⟩
  · rintro ⟨ha, rfl⟩
    obtain ⟨n, d⟩ := a
    have hcoprime : Nat.Coprime n.natAbs d.natAbs := ha.gcd_eq_one
    have hnum : (n / d : ℚ).num = n := Rat.num_div_eq_of_coprime ha.den_pos hcoprime
    have hden : ((n / d : ℚ).den : ℤ) = d := Rat.den_div_eq_of_coprime ha.den_pos hcoprime
    rw [ofRat, value, hnum, hden]

/-- A fraction in lowest terms is the fraction of its value. -/
theorem Canonical.eq_ofRat (ha : a.Canonical) : a = ofRat a.value :=
  eq_ofRat_iff.2 ⟨ha, rfl⟩

theorem Canonical.eq_zero (ha : a.Canonical) (h : a.value = 0) : a = ⟨0, 1⟩ := by
  rw [ha.eq_ofRat, h]
  rfl

/-- **Fractions in lowest terms are equal when their values are.** -/
theorem Canonical.eq_iff (ha : a.Canonical) (hb : b.Canonical) : a = b ↔ a.value = b.value := by
  constructor
  · rintro rfl
    rfl
  · intro h
    rw [ha.eq_ofRat, hb.eq_ofRat, h]

/-! ## Reduction -/

/-- Over a positive denominator, dividing out the common divisor leaves lowest terms. -/
theorem divide_out (hd : 0 < d) :
    Canonical ⟨n / Int.gcd n d, d / Int.gcd n d⟩ ∧
      value ⟨n / Int.gcd n d, d / Int.gcd n d⟩ = n / d := by
  have hgcd : 0 < Int.gcd n d := Int.gcd_pos_of_ne_zero_right n hd.ne'
  have hgcd' : ((Int.gcd n d : ℤ) : ℚ) ≠ 0 := by
    exact_mod_cast hgcd.ne'
  have hdvd : (Int.gcd n d : ℤ) ∣ d := Int.gcd_dvd_right ..
  refine ⟨⟨?_, ?_⟩, ?_⟩
  · exact Int.ediv_pos_of_pos_of_dvd hd (Int.natCast_nonneg _) hdvd
  · rw [Int.gcd_ediv_gcd_ediv_gcd hgcd]
  · rw [value, Int.cast_div (Int.gcd_dvd_left ..) hgcd', Int.cast_div hdvd hgcd',
      div_div_div_cancel_right₀ hgcd']

/-- **The reduced fraction of two integers is that of their quotient.** -/
theorem lowest_eq (hd : d ≠ 0) : lowest n d = ofRat (n / d) := by
  unfold lowest
  by_cases hneg : d < 0
  · have h := divide_out (n := -n) (show 0 < -d by omega)
    have hvalue : ((-n : ℤ) : ℚ) / (-d : ℤ) = n / d := by
      push_cast
      exact neg_div_neg_eq _ _
    rw [if_pos hneg, ← hvalue]
    exact eq_ofRat_iff.2 h
  · rw [if_neg hneg]
    exact eq_ofRat_iff.2 (divide_out (by omega))

theorem reduce_of_ne_zero (hd : d ≠ 0) : reduce n d = .ok (ofRat (n / d)) := by
  rw [reduce, if_neg hd, lowest_eq hd]

/-- The reduced fraction is that of the library's fraction of two integers, with the same error. -/
theorem reduce_eq (n d : ℤ) : reduce n d = (Exact.ratio n d).map ofRat := by
  unfold Exact.ratio
  by_cases hd : d = 0
  · rw [if_pos hd, reduce, if_pos hd]
    rfl
  · rw [if_neg hd, reduce_of_ne_zero hd, Rat.divInt_eq_div]
    rfl

/-! ## Texts and binary64 values -/

theorem lowest_eq_mkRat {d : ℕ} (hd : d ≠ 0) : lowest n d = ofRat (mkRat n d) := by
  rw [lowest_eq (Int.natCast_ne_zero.2 hd), Rat.mkRat_eq_div, Int.cast_natCast]

/-- The denominator of a literal is a product of powers of ten and of a number written with nines
only. -/
theorem den_ne_zero_of_ratio {l : Literal} {p : ℤ × ℕ} (h : l.ratio = .ok p) : p.2 ≠ 0 := by
  have hten : ∀ k : ℕ, 10 ^ k ≠ 0 := fun k => pow_ne_zero k (by decide)
  have hscale : ∀ (n : ℤ) (d : ℕ), d ≠ 0 →
      (if 0 ≤ l.exponent then (n * 10 ^ l.exponent.toNat, d)
        else (n, d * 10 ^ (-l.exponent).toNat)).2 ≠ 0 := by
    intro n d hd
    split
    · exact hd
    · exact Nat.mul_ne_zero hd (hten _)
  unfold Literal.ratio at h
  cases hwhole : Numeral.read (l.integer ++ l.fixed) with
  | error e =>
    rw [hwhole] at h
    cases h
  | ok whole =>
    rw [hwhole] at h
    by_cases hnil : l.repeating.isEmpty = true
    · simp only [hnil, if_true] at h
      cases h
      exact hscale _ _ (hten _)
    · simp only [hnil] at h
      cases hperiod : Numeral.read l.repeating with
      | error e =>
        rw [hperiod] at h
        cases h
      | ok period =>
        rw [hperiod] at h
        cases h
        refine hscale _ _ (Nat.mul_ne_zero (hten _) ?_)
        have hone : 1 < 10 ^ l.repeating.length :=
          Nat.one_lt_pow (by simpa using hnil) (by decide)
        omega

theorem parse_eq (text : String) : parse text = (Literal.parse text).map ofRat := by
  unfold parse Literal.parse
  cases Literal.fraction? (Text.trim text.toList) with
  | some parts =>
    obtain ⟨sgn, num, den⟩ := parts
    dsimp only
    cases Numeral.read num with
    | error e => rfl
    | ok n =>
      cases Numeral.read den with
      | error e => rfl
      | ok d =>
        show (reduce _ d).mapError _ = _
        rw [reduce_eq]
        dsimp only
        cases Exact.ratio (if sgn = ['-'] then -n else n) d <;> rfl
  | none =>
    dsimp only
    cases Literal.split text with
    | error e => rfl
    | ok l =>
      simp only [bind, Except.bind, Literal.value]
      cases hratio : l.ratio with
      | error e => rfl
      | ok p => exact congrArg Except.ok (lowest_eq_mkRat (den_ne_zero_of_ratio hratio))

theorem ofBinary64_eq (x : Binary64) : ofBinary64 x = x.rational.map ofRat := by
  have hunit : Binary64.unitDenominator ≠ 0 := by
    rw [Binary64.unitDenominator]
    positivity
  unfold ofBinary64 Binary64.rational
  by_cases h : x.isFinite = true
  · rw [if_pos h, if_pos h, lowest_eq_mkRat hunit]
    rfl
  · rw [if_neg h, if_neg h]
    rfl

/-! ## Operations -/

theorem num_cast (x : ℚ) : (x.num : ℚ) = x * x.den := (Rat.mul_den_eq_num x).symm

theorem den_cast_ne_zero (x : ℚ) : (x.den : ℚ) ≠ 0 := Nat.cast_ne_zero.2 x.den_nz

theorem add_ofRat (x y : ℚ) : add (ofRat x) (ofRat y) = .ok (ofRat (x + y)) := by
  have hvalue : ((x.num * y.den + y.num * x.den : ℤ) : ℚ) / (x.den * y.den : ℤ) = x + y := by
    have hx := den_cast_ne_zero x
    have hy := den_cast_ne_zero y
    push_cast
    rw [num_cast x, num_cast y]
    field_simp
  rw [add, ofRat, ofRat, reduce_of_ne_zero (by simp), hvalue]

theorem sub_ofRat (x y : ℚ) : sub (ofRat x) (ofRat y) = .ok (ofRat (x - y)) := by
  have hvalue : ((x.num * y.den - y.num * x.den : ℤ) : ℚ) / (x.den * y.den : ℤ) = x - y := by
    have hx := den_cast_ne_zero x
    have hy := den_cast_ne_zero y
    push_cast
    rw [num_cast x, num_cast y]
    field_simp
  rw [sub, ofRat, ofRat, reduce_of_ne_zero (by simp), hvalue]

theorem mul_ofRat (x y : ℚ) : mul (ofRat x) (ofRat y) = .ok (ofRat (x * y)) := by
  have hvalue : ((x.num * y.num : ℤ) : ℚ) / (x.den * y.den : ℤ) = x * y := by
    push_cast
    rw [← div_mul_div_comm, Rat.num_div_den, Rat.num_div_den]
  rw [mul, ofRat, ofRat, reduce_of_ne_zero (by simp), hvalue]

theorem div_ofRat (x y : ℚ) : div (ofRat x) (ofRat y) = (Exact.div x y).map ofRat := by
  simp only [div, Exact.div, num_ofRat, den_ofRat, Rat.num_eq_zero]
  by_cases hy : y = 0
  · rw [if_pos hy, if_pos hy]
    rfl
  · have hnum : y.num ≠ 0 := Rat.num_ne_zero.2 hy
    have hvalue : ((x.num * y.den : ℤ) : ℚ) / (x.den * y.num : ℤ) = x / y := by
      push_cast
      rw [← div_div_div_eq, Rat.num_div_den, Rat.num_div_den]
    rw [if_neg hy, if_neg hy, reduce_of_ne_zero (by simp [hnum]), hvalue]
    rfl

/-- A power with a negative exponent divides by the numerator, whose sign goes back to the
numerator when the result is reduced. -/
theorem pow_ofRat (x y : ℚ) : pow (ofRat x) (ofRat y) = (Exact.pow x y).map ofRat := by
  simp only [pow, Exact.pow, num_ofRat, den_ofRat, Rat.num_eq_zero, ne_eq, Nat.cast_eq_one]
  by_cases hden : y.den = 1
  · rw [if_neg (not_not.2 hden), if_neg (not_not.2 hden)]
    by_cases hexp : 0 ≤ y.num
    · obtain ⟨k, hk⟩ := Int.eq_ofNat_of_zero_le hexp
      have hvalue : ((x.num ^ k : ℤ) : ℚ) / ((x.den : ℤ) ^ k : ℤ) = x ^ y.num := by
        push_cast
        rw [← div_pow, Rat.num_div_den, hk, zpow_natCast]
      rw [if_pos hexp, if_neg (by omega), ← hvalue, hk, Int.toNat_natCast,
        reduce_of_ne_zero (by simp)]
      rfl
    · by_cases hx : x = 0
      · rw [if_neg hexp, if_pos hx, if_pos ⟨by omega, hx⟩]
        rfl
      · obtain ⟨k, hk⟩ := Int.eq_ofNat_of_zero_le (show 0 ≤ -y.num by omega)
        have hnum : x.num ≠ 0 := Rat.num_ne_zero.2 hx
        have hvalue : (((x.den : ℤ) ^ k : ℤ) : ℚ) / (x.num ^ k : ℤ) = x ^ y.num := by
          push_cast
          rw [← div_pow, ← inv_div, Rat.num_div_den, show y.num = -(k : ℤ) by omega, zpow_neg,
            zpow_natCast, inv_pow]
        rw [if_neg hexp, if_neg hx, if_neg (fun h => hx h.2), ← hvalue, hk, Int.toNat_natCast,
          reduce_of_ne_zero (pow_ne_zero k hnum)]
        rfl
  · rw [if_pos hden, if_pos hden]
    rfl

/-- **An operation on fractions is the library's operation on their numbers**, errors included. -/
theorem binary_ofRat (op : Operation) (x y : ℚ) :
    binary op (ofRat x) (ofRat y) = (op.exact x y).map ofRat := by
  cases op with
  | add => exact add_ofRat x y
  | sub => exact sub_ofRat x y
  | mul => exact mul_ofRat x y
  | div => exact div_ofRat x y
  | pow => exact pow_ofRat x y

theorem neg_ofRat (x : ℚ) : neg (ofRat x) = .ok (ofRat (-x)) := by
  have hvalue : ((-x.num : ℤ) : ℚ) / (x.den : ℤ) = -x := by
    push_cast
    rw [neg_div, Rat.num_div_den]
  rw [neg, ofRat, reduce_of_ne_zero (by simp), hvalue]

theorem abs_ofRat (x : ℚ) : abs (ofRat x) = .ok (ofRat |x|) := by
  have hvalue : ((|x.num| : ℤ) : ℚ) / (x.den : ℤ) = |x| := by
    push_cast
    rw [← Nat.abs_cast x.den, ← abs_div, Rat.num_div_den]
  rw [abs, ofRat, reduce_of_ne_zero (by simp), hvalue]

theorem reciprocal_ofRat (x : ℚ) :
    reciprocal (ofRat x) = (Exact.reciprocal x).map ofRat := by
  simp only [reciprocal, Exact.reciprocal, num_ofRat, den_ofRat, Rat.num_eq_zero]
  by_cases hx : x = 0
  · rw [if_pos hx, if_pos hx]
    rfl
  · have hnum : x.num ≠ 0 := Rat.num_ne_zero.2 hx
    have hvalue : ((x.den : ℤ) : ℚ) / (x.num : ℤ) = x⁻¹ := by
      push_cast
      rw [← inv_div, Rat.num_div_den]
    rw [if_neg hx, if_neg hx, reduce_of_ne_zero hnum, hvalue]
    rfl

/-! ## Order -/

theorem exact_compare_eq (x y : ℚ) : Exact.compare x y = cmp (x - y) 0 := by
  unfold Exact.compare cmp cmpUsing
  simp only [sub_neg, sub_pos]

/-- **The cross products of fractions are ordered as their numbers.** -/
theorem compare_ofRat (x y : ℚ) : compare (ofRat x) (ofRat y) = Exact.compare x y := by
  simp only [compare, Exact.compare, num_ofRat, den_ofRat, ← Rat.lt_iff]

end Fraction

end Roundoff
