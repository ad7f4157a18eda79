import Roundoff.Proofs.Binary64.Conversion
import Roundoff.Proofs.Sequence
import Roundoff.Proofs.Shadow.Power

/-! # Arithmetic that traps

The arithmetic underneath does not always answer as the standard does.  A quotient by zero, a power
that is too large or has no value, the integer part of an infinity, and a number scaled beyond the
finite values make it trap (`Trap`, `Trapping`).  The standard's operations are built from it by
testing the operands first, or by handling the trap (`Handled`).  Here they are shown to be the
operations of this library (`Handled.div_eq`, `Handled.pow_eq`, `Handled.ofRat_eq`): every trap is
avoided or handled, and what takes its place is the standard's result.
-/
namespace Roundoff.Binary64

/-- Why an operation traps. -/
inductive Trap where
  /-- The divisor is zero. -/
  | zeroDivisor
  /-- The result is beyond the finite values. -/
  | overflow
  /-- The operands are outside the domain of the operation. -/
  | domain
  deriving DecidableEq

/-- The result of a computation, with a value in its place if it traps for a given reason. -/
def handling (t : Trap) (z : Binary64) : Except Trap Binary64 → Except Trap Binary64
  | .ok r => .ok r
  | .error t' => if t' = t then .ok z else .error t'

@[simp] theorem handling_ok (t : Trap) (z r : Binary64) : handling t z (.ok r) = .ok r := rfl

@[simp] theorem handling_self (t : Trap) (z : Binary64) : handling t z (.error t) = .ok z :=
  if_pos rfl

/-! ## Operations that trap -/

namespace Trapping

/-- The quotient. -/
def div (x y : Binary64) : Except Trap Binary64 :=
  if y.isZero then .error .zeroDivisor else .ok (x.div y)

/-- The power.  Between finite values it traps instead of giving an infinity or a NaN. -/
def pow (x y : Binary64) : Except Trap Binary64 :=
  let z := x.pow y
  if !(x.isFinite && y.isFinite) then .ok z
  else if z.isNaN then .error .domain
  else if z.isInfinite then .error (if x.isZero then .domain else .overflow)
  else .ok z

/-- The greatest integer up to a value. -/
def floor (x : Binary64) : Except Trap ℤ :=
  if x.isNaN then .error .domain
  else if x.isInfinite then .error .overflow
  else .ok ⌊x.toRat⌋

/-- The number `n * 2 ^ e`, rounded. -/
def scale (n : ℕ) (e : ℤ) : Except Trap Binary64 :=
  let z := ofRat (n * 2 ^ e)
  if z.isInfinite then .error .overflow else .ok z

end Trapping

/-! ## The standard's operations -/

/-- A number less than zero; neither a zero nor a NaN is. -/
def isBelowZero (x : Binary64) : Bool :=
  x.compare? (zero false) == some .lt

/-- The part of a number before its point. -/
def truncate (q : ℚ) : ℤ :=
  if q < 0 then ⌈q⌉ else ⌊q⌋

/-- What a number leaves when it is divided by another with a truncated quotient. -/
def remainder (q m : ℚ) : ℚ :=
  q - m * truncate (q / m)

namespace Handled

/-- The test for an odd integer, one condition after the other. -/
def isOdd (y : Binary64) : Except Trap Bool :=
  if !y.isFinite then .ok false
  else do
    let n ← Trapping.floor y
    if y.toRat = n then return decide (remainder y.toRat 2 ≠ 0) else return false

/-- The quotient.  A zero divisor is tested for. -/
def div (x y : Binary64) : Except Trap Binary64 :=
  if !y.isZero then Trapping.div x y
  else if x.isNaN || x.isZero then .ok nan
  else .ok (infinity (x.negative != y.negative))

/-- The power.  A zero base with an exponent below zero is tested for, and the traps of the other
powers are handled. -/
def pow (x y : Binary64) : Except Trap Binary64 := do
  let odd ← isOdd y
  if x.isZero && y.isBelowZero then
    return infinity (odd && x.negative)
  handling .domain nan
    (handling .overflow (infinity (x.isBelowZero && odd)) (Trapping.pow x y))

/-- The value nearest to a rational: its significand is rounded to an integer and scaled. -/
def ofRat (r : ℚ) : Except Trap Binary64 :=
  let a := r.num.natAbs
  if a = 0 then .ok (zero false)
  else if 1023 < floorLog2 a r.den then .ok (infinity (decide (r < 0)))
  else do
    let e := lastBitExponent a r.den
    let z ← handling .overflow (infinity false) (Trapping.scale (roundToUnit a r.den e) e)
    return if r < 0 then z.neg else z

end Handled

/-! ## Quotients -/

variable {x y : Binary64}

namespace Handled

/-- **The quotient never traps**: the tests give the standard's results. -/
theorem div_eq (x y : Binary64) : div x y = .ok (x.div y) := by
  rw [div, Trapping.div]
  cases hy : y.isZero with
  | false => rfl
  | true =>
    have hyfinite := isFinite_of_isZero hy
    rw [Bool.not_true, if_neg Bool.false_ne_true, Binary64.div, isNaN_of_isFinite hyfinite,
      isInfinite_of_isFinite hyfinite, hy]
    cases hnan : x.isNaN with
    | true => rfl
    | false =>
      cases hzero : x.isZero with
      | true =>
        rw [isInfinite_of_isFinite (isFinite_of_isZero hzero)]
        rfl
      | false => cases x.isInfinite <;> rfl

end Handled

/-! ## Odd exponents -/

theorem truncate_intCast (n : ℤ) : truncate n = n := by
  rw [truncate, Int.ceil_intCast, Int.floor_intCast, ite_self]

/-- An integer leaves something when it is halved exactly if it is odd. -/
theorem remainder_two_ne_zero_iff (n : ℤ) : remainder n 2 ≠ 0 ↔ n % 2 = 1 := by
  rw [← Int.odd_iff, ← Int.not_even_iff_odd, not_iff_not, remainder, sub_eq_zero]
  constructor
  · intro h
    refine even_iff_two_dvd.2 ⟨truncate (n / 2), ?_⟩
    exact_mod_cast h
  · rintro ⟨k, rfl⟩
    have hhalf : ((k + k : ℤ) : ℚ) / 2 = k := by
      push_cast
      ring
    rw [hhalf, truncate_intCast]
    push_cast
    ring

theorem isIntegral_iff_floor (hy : y.isFinite = true) :
    y.isIntegral = true ↔ y.toRat = ⌊y.toRat⌋ := by
  rw [isIntegral_iff hy]
  constructor
  · intro hden
    rw [← Rat.coe_int_num_of_den_eq_one hden, Int.floor_intCast]
  · intro h
    rw [h, Rat.den_intCast]

/-- **The test for an odd integer never traps**, and is right for exponents of any size. -/
theorem Handled.isOdd_eq (y : Binary64) : isOdd y = .ok y.isOddIntegral := by
  rw [isOdd, isOddIntegral]
  cases hy : y.isFinite with
  | false =>
    rw [isIntegral, hy]
    rfl
  | true =>
    rw [Bool.not_true, if_neg Bool.false_ne_true, Trapping.floor, isNaN_of_isFinite hy,
      isInfinite_of_isFinite hy, if_neg Bool.false_ne_true, if_neg Bool.false_ne_true, ok_bind]
    by_cases hint : y.isIntegral = true
    · have hodd := remainder_two_ne_zero_iff y.toRat.num
      rw [Rat.coe_int_num_of_den_eq_one ((isIntegral_iff hy).1 hint)] at hodd
      rw [if_pos ((isIntegral_iff_floor hy).1 hint), hint, Bool.true_and, decide_eq_decide.2 hodd]
      rfl
    · rw [if_neg fun h => hint ((isIntegral_iff_floor hy).2 h),
        Bool.eq_false_of_not_eq_true hint]
      rfl

/-! ## Powers -/

theorem isBelowZero_eq (hx : x.isNaN = false) : x.isBelowZero = (x.negative && !x.isZero) := by
  have hzero : (zero false).isNaN = false := by decide
  rw [isBelowZero, compare?_of_numbers hx hzero, Bool.eq_iff_iff, beq_iff_eq, Option.some_inj,
    compare_lt_iff_lt, Bool.and_eq_true, Bool.not_eq_true', isZero, decide_eq_false_iff_not]
  change x.ordinal < 0 ↔ _
  rw [ordinal]
  split
  · simp_all
    omega
  · simp_all

theorem finitePower_fields (negative : Bool) (x y : Binary64) :
    (finitePower negative x y).negative = negative ∧
      (finitePower negative x y).magnitude ≤ infinityMagnitude := by
  unfold finitePower
  dsimp only
  split
  · dsimp only
    exact ⟨rfl, integerPowerMagnitude_le x _⟩
  · dsimp only
    exact ⟨rfl, rootPowerMagnitude_le x _ _⟩

/-- A power of a finite base but zero is one, or not a number, or has the sign of the base for an
odd exponent. -/
theorem pow_of_isFinite (hx : x.isFinite = true) (hzero : x.isZero = false)
    (hy : y.isFinite = true) : x.pow y = one ∨ x.pow y = nan ∨
      (x.pow y).negative = (x.negative && y.isOddIntegral) ∧
        (x.pow y).magnitude ≤ infinityMagnitude := by
  unfold pow
  rw [isNaN_of_isFinite hx, isNaN_of_isFinite hy, isInfinite_of_isFinite hy, hzero,
    isInfinite_of_isFinite hx]
  dsimp only
  split
  · exact Or.inl rfl
  · rw [Bool.or_self, if_neg Bool.false_ne_true, if_neg Bool.false_ne_true,
      if_neg Bool.false_ne_true, if_neg Bool.false_ne_true]
    split
    · exact Or.inr (Or.inl rfl)
    · exact Or.inr (Or.inr (finitePower_fields _ _ _))

theorem eq_infinity (hx : x.isInfinite = true) : x = infinity x.negative := by
  obtain ⟨s, m, hm⟩ := x
  have hmagnitude : m = infinityMagnitude := of_decide_eq_true hx
  subst hmagnitude
  rfl

namespace Handled

/-- A trap of a power of a finite base but zero is handled. -/
theorem pow_handles (hx : x.isFinite = true) (hzero : x.isZero = false) (hy : y.isFinite = true) :
    handling .domain nan
      (handling .overflow (infinity (x.isBelowZero && y.isOddIntegral)) (Trapping.pow x y)) =
      .ok (x.pow y) := by
  rw [Trapping.pow, hx, hy, hzero, isBelowZero_eq (isNaN_of_isFinite hx), hzero]
  rcases pow_of_isFinite hx hzero hy with hone | hnan | ⟨hsign, hle⟩
  · rw [hone]
    rfl
  · rw [hnan]
    rfl
  · have hnan : (x.pow y).isNaN = false := decide_eq_false (not_lt.2 hle)
    cases hinf : (x.pow y).isInfinite with
    | true =>
      -- The infinity of the handler has the sign of the result.
      have hinfinity := eq_infinity hinf
      rw [hsign] at hinfinity
      simp only [hnan, Bool.and_self, Bool.not_true, Bool.false_eq_true, if_false, if_true,
        Bool.not_false, Bool.and_true]
      rw [← hinfinity, handling_self, handling_ok]
    | false =>
      simp only [hnan, Bool.and_self, Bool.not_true, Bool.false_eq_true, if_false, handling_ok]

end Handled

/-- A power does not trap unless finite operands have a result that is not finite. -/
theorem Trapping.pow_eq
    (h : x.isFinite = true → y.isFinite = true → (x.pow y).isFinite = true) :
    Trapping.pow x y = .ok (x.pow y) := by
  rw [Trapping.pow]
  by_cases hfinite : (x.isFinite && y.isFinite) = true
  · obtain ⟨hx, hy⟩ := (Bool.and_eq_true _ _).mp hfinite
    have hresult := h hx hy
    simp only [hfinite, isNaN_of_isFinite hresult, isInfinite_of_isFinite hresult, Bool.not_true,
      Bool.false_eq_true, if_false]
  · simp only [hfinite, Bool.not_false, if_true]

theorem isNaN_of_isBelowZero (hy : y.isBelowZero = true) : y.isNaN = false := by
  by_contra hnan
  rw [isBelowZero, compare?, Bool.eq_true_of_not_eq_false hnan] at hy
  cases hy

/-- A power of zero with an exponent below zero is infinite. -/
theorem pow_of_isBelowZero (hx : x.isZero = true) (hy : y.isBelowZero = true) :
    x.pow y = infinity (y.isOddIntegral && x.negative) := by
  have hnan := isNaN_of_isBelowZero hy
  rw [isBelowZero_eq hnan, Bool.and_eq_true, Bool.not_eq_true'] at hy
  obtain ⟨hnegative, hzero⟩ := hy
  rw [Bool.and_comm]
  cases hinf : y.isInfinite with
  | false =>
    rw [pow_of_isZero hx (isFinite_of_not hnan hinf) hzero,
      if_pos ((toRat_neg_iff hzero).2 hnegative)]
  | true =>
    -- The exponent is minus infinity: it is not odd, and the base is closer to zero than one.
    have hodd : y.isOddIntegral = false := by
      rw [isOddIntegral, isIntegral, isFinite_of_isInfinite hinf]
      rfl
    have hmagnitude : x.magnitude = 0 := of_decide_eq_true hx
    have hone : x ≠ one := by
      rintro rfl
      cases hx
    have hunit : x.magnitude ≠ one.magnitude ∧ ¬ one.magnitude < x.magnitude := by
      rw [hmagnitude]
      decide
    unfold pow
    simp only [isNaN_of_isFinite (isFinite_of_isZero hx), hnan, hzero, hinf, hone, hunit, hnegative,
      hodd, Bool.or_self, Bool.and_false, decide_false, Bool.false_eq_true, if_false, if_true]
    rfl

/-- A power of zero is finite, unless the exponent is below zero. -/
theorem isFinite_pow_of_isZero (hx : x.isZero = true) (hy : y.isFinite = true)
    (hbelow : y.isBelowZero = false) : (x.pow y).isFinite = true := by
  cases hzero : y.isZero with
  | true =>
    rw [pow, hzero, Bool.true_or, if_pos rfl]
    decide
  | false =>
    have hsign : y.negative = false := by
      rwa [isBelowZero_eq (isNaN_of_isFinite hy), hzero, Bool.not_false, Bool.and_true] at hbelow
    have hnonneg : ¬ y.toRat < 0 := not_lt.2 (toRat_nonneg hsign)
    rw [pow_of_isZero hx hy hzero, if_neg hnonneg]
    exact isFinite_of_isZero rfl

/-- **The power never traps**: the test and the handler give the standard's results. -/
theorem Handled.pow_eq (x y : Binary64) : pow x y = .ok (x.pow y) := by
  rw [pow, isOdd_eq, ok_bind]
  by_cases hpole : (x.isZero && y.isBelowZero) = true
  · obtain ⟨hx, hy⟩ := (Bool.and_eq_true _ _).mp hpole
    rw [if_pos hpole, pow_of_isBelowZero hx hy]
    rfl
  · rw [if_neg hpole]
    by_cases hfinite : x.isFinite = true ∧ x.isZero = false ∧ y.isFinite = true
    · exact pow_handles hfinite.1 hfinite.2.1 hfinite.2.2
    · have heq : Trapping.pow x y = .ok (x.pow y) := Trapping.pow_eq fun hx hy => by
        have hzero : x.isZero = true := by
          by_contra hzero
          exact hfinite ⟨hx, Bool.eq_false_of_not_eq_true hzero, hy⟩
        refine isFinite_pow_of_isZero hzero hy ?_
        rw [hzero, Bool.true_and] at hpole
        exact Bool.eq_false_of_not_eq_true hpole
      rw [heq, handling_ok, handling_ok]

/-! ## Rationals -/

/-- From `2 ^ 1024` on a rational is rounded to infinity. -/
theorem ofRat_of_two_pow_le {r : ℚ} (h : 2 ^ 1024 ≤ |r|) : ofRat r = infinity (decide (r < 0)) :=
  ofRat_eq_infinity ((sub_le_self _ (by positivity)).trans h)

/-- The units of infinity are those of `2 ^ 1024`. -/
theorem scaled_infinityMagnitude_div :
    ((scaled infinityMagnitude : ℕ) : ℚ) / unitDenominator = 2 ^ 1024 := by
  have hunit := two_zpow_unit 2098
  rw [show ((2098 : ℕ) + -1074 : ℤ) = (1024 : ℕ) by norm_num, zpow_natCast] at hunit
  rw [scaled_infinityMagnitude, hunit, div_eq_mul_inv, Nat.cast_pow, Nat.cast_ofNat]

/-- **A number of units in the last place stands for a value, or for infinity.** -/
theorem Rounded.ofRat_units {q : ℚ} {n k : ℕ} (h : Rounded q n k) :
    (ofRat (n * 2 ^ (k + -1074 : ℤ))).negative = false ∧
      (ofRat (n * 2 ^ (k + -1074 : ℤ))).magnitude = min (n + k * 2 ^ 52) infinityMagnitude := by
  have hpositive : (0 : ℚ) ≤ n * 2 ^ (k + -1074 : ℤ) := by positivity
  refine ⟨decide_eq_false (not_lt.2 hpositive), ?_⟩
  rcases lt_or_ge (n + k * 2 ^ 52) infinityMagnitude with hfinite | hinfinite
  · -- The value with this number of units is rounded to itself.
    have hvalue := h.toRat_eq (x := ⟨false, n + k * 2 ^ 52, hfinite.trans (by decide)⟩) rfl rfl
    have hself := ordinal_ofRat_toRat (x := ⟨false, n + k * 2 ^ 52, hfinite.trans (by decide)⟩)
      (decide_eq_true hfinite)
    rw [← hvalue, ← natAbs_ordinal, hself, natAbs_ordinal, min_eq_left hfinite.le]
  · have hscaled : scaled infinityMagnitude ≤ n * 2 ^ k := by
      rw [← scaled_units h.le h.le_of_ne_zero]
      exact scaled_strictMono.monotone hinfinite
    have hlarge : (2 : ℚ) ^ 1024 ≤ n * 2 ^ (k + -1074 : ℤ) := by
      rw [← units_div, ← scaled_infinityMagnitude_div]
      exact div_le_div_of_nonneg_right (Nat.cast_le.2 hscaled) unitDenominator_pos.le
    rw [← abs_of_nonneg hpositive] at hlarge
    rw [ofRat_of_two_pow_le hlarge, min_eq_right hinfinite]
    rfl

theorem eq_of_fields {negative : Bool} (hsign : x.negative = negative)
    (hmagnitude : x.magnitude = y.magnitude) : x = { y with negative } := by
  obtain ⟨s, m, hm⟩ := x
  obtain ⟨t, n, hn⟩ := y
  subst hsign hmagnitude
  rfl

namespace Handled

variable {r : ℚ}

/-- The significand of a rational, rounded and scaled: a trap is handled as infinity. -/
theorem scale_handles (hr : r ≠ 0) :
    handling .overflow (infinity false)
      (Trapping.scale (roundToUnit r.num.natAbs r.den (lastBitExponent r.num.natAbs r.den))
        (lastBitExponent r.num.natAbs r.den)) = .ok (ofMagnitude false r) := by
  have hnum : 0 < r.num.natAbs := Int.natAbs_pos.2 (Rat.num_ne_zero.2 hr)
  obtain ⟨k, hk, hrounded⟩ := rounded_lastBit hnum r.den_pos
  have hmagnitude := roundMagnitude_eq_units hnum hk
  obtain ⟨hsign, hunits⟩ := hrounded.ofRat_units
  rw [← hk] at hsign hunits
  have heq : Binary64.ofRat
      ((roundToUnit r.num.natAbs r.den (lastBitExponent r.num.natAbs r.den) : ℕ) *
        2 ^ lastBitExponent r.num.natAbs r.den) = ofMagnitude false r := by
    rw [← hmagnitude] at hunits
    exact eq_of_fields (y := ofMagnitude false r) hsign hunits
  rw [Trapping.scale, heq]
  cases hinf : (ofMagnitude false r).isInfinite with
  | true =>
    rw [eq_infinity hinf]
    rfl
  | false => rfl

/-- **The value nearest to a rational is found without a trap**: the test of the exponent and the
handler give the standard's infinities. -/
theorem ofRat_eq (r : ℚ) : ofRat r = .ok (Binary64.ofRat r) := by
  rw [ofRat]
  by_cases hr : r = 0
  · subst hr
    rfl
  · have hnum : r.num.natAbs ≠ 0 := Int.natAbs_ne_zero.2 (Rat.num_ne_zero.2 hr)
    have hpositive := Nat.pos_of_ne_zero hnum
    dsimp only
    rw [if_neg hnum]
    by_cases hlarge : 1023 < floorLog2 r.num.natAbs r.den
    · have hbinade : (2 : ℚ) ^ 1024 ≤ |r| := by
        rw [Exact.abs_eq_div, ← zpow_natCast]
        refine le_trans (zpow_le_zpow_right₀ one_le_two ?_) (floorLog2_spec hpositive r.den_pos).1
        omega
      rw [if_pos hlarge, ofRat_of_two_pow_le hbinade]
    · rw [if_neg hlarge, scale_handles hr, ok_bind, Binary64.ofRat]
      by_cases hneg : r < 0
      · rw [if_pos hneg, decide_eq_true hneg]
        rfl
      · rw [if_neg hneg, decide_eq_false hneg]
        rfl

end Handled

end Roundoff.Binary64
