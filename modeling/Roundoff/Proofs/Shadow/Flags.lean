import Roundoff.Proofs.Binary64.Nearest
import Roundoff.Proofs.Shadow.Exactness

/-! # Events follow the standard's flags

The flag of an operation other than a power, and that of a literal, are those of the standard
(`events_follow_flags`).  On finite operands with an exact result the operation is this result
rounded once, with the sign of a zero aside (`exists_ofMagnitude`), so its flag is that of the
rounding (`ofOperation?_eq_ofRounding?`); what is left are the quotients by zero, and operands that
are not finite.
-/
namespace Roundoff

namespace Binary64

/-- The smallest normal value. -/
theorem toRat_normal :
    (⟨false, normalMagnitude, by decide⟩ : Binary64).toRat = 2 ^ (-1022 : ℤ) := by
  have hunit := two_zpow_unit 52
  rw [show ((52 : ℕ) + -1074 : ℤ) = -1022 by norm_num] at hunit
  have hscaled : scaled normalMagnitude = 2 ^ 52 := by decide
  rw [hunit, toRat, Rat.mkRat_eq_div, if_neg Bool.false_ne_true, hscaled, div_eq_mul_inv]
  push_cast
  rfl

/-- **A value is tiny below the smallest normal value.** -/
theorem isTiny_iff (x : Binary64) : x.isTiny = true ↔ |x.toRat| < 2 ^ (-1022 : ℤ) := by
  rw [← toRat_abs, ← toRat_normal, toRat_lt_iff, isTiny, decide_eq_true_eq]
  simp [ordinal, abs]

/-- **A rational is rounded to infinity** from half a unit below `2 ^ 1024` on. -/
theorem isInfinite_ofMagnitude_iff (negative : Bool) (r : ℚ) :
    (ofMagnitude negative r).isInfinite = true ↔ 2 ^ 1024 - 2 ^ 970 ≤ |r| := by
  rw [isInfinite, decide_eq_true_eq]
  by_cases hr : r = 0
  · have hpositive : (2 : ℚ) ^ 970 < 2 ^ 1024 := pow_lt_pow_right₀ one_lt_two (by decide)
    rw [hr, abs_zero]
    exact ⟨fun h => (by cases h), fun h => absurd h (not_le.2 (sub_pos.2 hpositive))⟩
  · have hnum : 0 < r.num.natAbs := Int.natAbs_pos.2 (Rat.num_ne_zero.2 hr)
    obtain ⟨n, k, hrounded, hmagnitude⟩ := exists_rounded hnum r.den_pos
    rw [← Exact.abs_eq_div] at hrounded
    rw [ofMagnitude]
    dsimp only
    rw [hmagnitude, min_eq_right_iff, hrounded.overflows_iff]

theorem not_isNaN_infinity (negative : Bool) : (infinity negative).isNaN = false := by
  cases negative <;> decide

/-! ## Operations as rounded exact results -/

theorem ofMagnitude_zero (negative : Bool) : ofMagnitude negative 0 = zero negative := rfl

variable {x y : Binary64}

theorem exists_ofMagnitude_add (hx : x.isFinite = true) (hy : y.isFinite = true) :
    ∃ negative, x.add y = ofMagnitude negative (x.toRat + y.toRat) := by
  unfold add
  rw [isNaN_of_isFinite hx, isNaN_of_isFinite hy, isInfinite_of_isFinite hx,
    isInfinite_of_isFinite hy]
  by_cases hsum : x.toRat + y.toRat = 0
  · refine ⟨x.negative && y.negative, ?_⟩
    simp only [hsum, ofMagnitude_zero]
    rfl
  · refine ⟨decide (x.toRat + y.toRat < 0), ?_⟩
    simp only [hsum, if_false]
    rfl

/-- **An operation on finite values is the exact result, rounded**, if there is one. -/
theorem exists_ofMagnitude {op : Operation} (hop : op ≠ .pow) (hx : x.isFinite = true)
    (hy : y.isFinite = true) {r : ℚ} (hr : op.exact x.toRat y.toRat = .ok r) :
    ∃ negative, op.rounded x y = ofMagnitude negative r := by
  cases op with
  | add =>
    cases hr
    exact exists_ofMagnitude_add hx hy
  | sub =>
    cases hr
    obtain ⟨negative, hsum⟩ := exists_ofMagnitude_add (y := y.neg) hx hy
    rw [toRat_neg, ← sub_eq_add_neg] at hsum
    exact ⟨negative, hsum⟩
  | mul =>
    cases hr
    refine ⟨x.negative != y.negative, ?_⟩
    rw [Operation.rounded, mul, isNaN_of_isFinite hx, isNaN_of_isFinite hy,
      isInfinite_of_isFinite hx, isInfinite_of_isFinite hy]
    rfl
  | div =>
    obtain ⟨hne, rfl⟩ := Exact.div_eq_ok_iff.1 hr
    have hzero := toRat_ne_zero_iff.1 hne
    refine ⟨x.negative != y.negative, ?_⟩
    rw [Operation.rounded, div, isNaN_of_isFinite hx, isNaN_of_isFinite hy,
      isInfinite_of_isFinite hx, isInfinite_of_isFinite hy, hzero]
    rfl
  | pow => exact absurd rfl hop

/-- The only operation without an exact result is a quotient by zero. -/
theorem exact_eq_error_of_ne_pow {op : Operation} (hop : op ≠ .pow) {e : ArithmeticError}
    (he : op.exact x.toRat y.toRat = .error e) : op = .div ∧ y.isZero = true := by
  cases op with
  | add | sub | mul => cases he
  | div =>
    refine ⟨rfl, toRat_eq_zero_iff.1 ?_⟩
    by_contra hne
    rw [Operation.exact, Exact.div, if_neg hne] at he
    cases he
  | pow => exact absurd rfl hop

theorem isFinite_of_isZero (hx : x.isZero = true) : x.isFinite = true := by
  have hmagnitude : x.magnitude = 0 := of_decide_eq_true hx
  rw [isFinite, hmagnitude]
  rfl

/-- A quotient by zero is infinite, unless the dividend is zero too. -/
theorem div_of_isZero (hx : x.isFinite = true) (hy : y.isZero = true) :
    x.div y = if x.isZero then nan else infinity (x.negative != y.negative) := by
  have hfinite := isFinite_of_isZero hy
  unfold div
  rw [isNaN_of_isFinite hx, isNaN_of_isFinite hfinite, isInfinite_of_isFinite hx,
    isInfinite_of_isFinite hfinite, hy]
  rfl

end Binary64

open Binary64

namespace RoundingFlag

/-! ## The flags of the standard -/

/-- **When rounding an exact result raises a flag.** -/
def RaisedByRounding (exact : ℚ) (result : Binary64) : RoundingFlag → Prop
  | overflow => 2 ^ 1024 - 2 ^ 970 ≤ |exact|
  | underflow =>
    result.isFinite = true ∧ result.toRat ≠ exact ∧ |result.toRat| < 2 ^ (-1022 : ℤ)
  | inexact =>
    result.isFinite = true ∧ result.toRat ≠ exact ∧ 2 ^ (-1022 : ℤ) ≤ |result.toRat|
  | divideByZero => False
  | invalid => False

/-- **When an operation raises a flag.**  Overflow, underflow and inexactness are those of rounding
the exact result of finite operands. -/
def RaisedBy (op : Operation) (x y : Binary64) : RoundingFlag → Prop
  | invalid => (op.rounded x y).isNaN = true ∧ x.isNaN = false ∧ y.isNaN = false
  | divideByZero => op = .div ∧ x.isFinite = true ∧ x.isZero = false ∧ y.isZero = true
  | f => x.isFinite = true ∧ y.isFinite = true ∧
    ∃ r, op.exact x.toRat y.toRat = .ok r ∧ RaisedByRounding r (op.rounded x y) f

theorem ofInexact_eq_underflow_iff (x : Binary64) :
    ofInexact x = underflow ↔ |x.toRat| < 2 ^ (-1022 : ℤ) := by
  rw [ofInexact, ← isTiny_iff]
  cases x.isTiny <;> simp

theorem ofInexact_eq_inexact_iff (x : Binary64) :
    ofInexact x = inexact ↔ 2 ^ (-1022 : ℤ) ≤ |x.toRat| := by
  rw [ofInexact, ← not_lt, ← isTiny_iff]
  cases x.isTiny <;> simp

theorem ofDifference?_eq_some_iff {r : ℚ} {x : Binary64} {f : RoundingFlag} :
    ofDifference? r x = some f ↔ x.toRat ≠ r ∧ ofInexact x = f := by
  rw [ofDifference?]
  split <;> simp_all

/-- **The flag of a rounded rational.** -/
theorem ofRounding?_eq_some_iff (negative : Bool) (r : ℚ) (f : RoundingFlag) :
    ofRounding? r (ofMagnitude negative r) = some f ↔
      RaisedByRounding r (ofMagnitude negative r) f := by
  have hinfinite := isInfinite_ofMagnitude_iff negative r
  have hnan := isNaN_ofMagnitude negative r
  generalize ofMagnitude negative r = x at hinfinite hnan
  rw [ofRounding?]
  by_cases hover : x.isInfinite = true
  · have hfinite : x.isFinite ≠ true := fun h => by
      rw [isInfinite_of_isFinite h] at hover
      cases hover
    rw [if_pos hover, Option.some.injEq]
    cases f with
    | overflow => exact ⟨fun _ => hinfinite.1 hover, fun _ => rfl⟩
    | underflow | inexact => exact ⟨fun h => (by cases h), fun h => absurd h.1 hfinite⟩
    | divideByZero | invalid => exact ⟨fun h => (by cases h), False.elim⟩
  · have hfinite : x.isFinite = true :=
      isFinite_of_not hnan (Bool.eq_false_of_not_eq_true hover)
    rw [if_neg hover, ofDifference?_eq_some_iff]
    cases f with
    | overflow =>
      refine ⟨fun h => ?_, fun h => absurd (hinfinite.2 h) hover⟩
      rw [ofInexact] at h
      split at h <;> cases h.2
    | underflow =>
      rw [ofInexact_eq_underflow_iff]
      exact ⟨fun h => ⟨hfinite, h⟩, fun h => h.2⟩
    | inexact =>
      rw [ofInexact_eq_inexact_iff]
      exact ⟨fun h => ⟨hfinite, h⟩, fun h => h.2⟩
    | divideByZero | invalid =>
      refine ⟨fun h => ?_, False.elim⟩
      rw [ofInexact] at h
      split at h <;> cases h.2

/-! ## The flag of an operation -/

section
variable {op : Operation} (hop : op ≠ .pow) {x y : Binary64}

theorem ofOperation?_of_isNaN {result : Binary64} (h : result.isNaN = true) :
    ofOperation? op x y result = if x.isNaN || y.isNaN then none else some invalid := by
  rw [ofOperation?, if_pos h]

theorem ofOperation?_of_not_isFinite {result : Binary64} (hnan : result.isNaN = false)
    (h : ¬ (x.isFinite = true ∧ y.isFinite = true)) : ofOperation? op x y result = none := by
  rw [← Bool.and_eq_true] at h
  rw [ofOperation?, hnan, if_neg Bool.false_ne_true, Bool.eq_false_of_not_eq_true h,
    Bool.not_false, if_pos rfl]

include hop in
/-- **On finite operands with an exact result the flag is that of rounding it.** -/
theorem ofOperation?_eq_ofRounding? (hx : x.isFinite = true) (hy : y.isFinite = true) {r : ℚ}
    (hr : op.exact x.toRat y.toRat = .ok r) {result : Binary64} (hresult : result.isNaN = false) :
    ofOperation? op x y result = ofRounding? r result := by
  have hdiv : ((op == .div && y.isZero) || (op == .pow && x.isZero)) = false := by
    have hpow : (op == .pow) = false := beq_eq_false_iff_ne.2 hop
    rw [hpow, Bool.false_and, Bool.or_false, Bool.and_eq_false_iff]
    by_cases hdiv : op = .div
    · subst hdiv
      exact Or.inr (toRat_ne_zero_iff.1 (Exact.div_eq_ok_iff.1 hr).1)
    · exact Or.inl (beq_eq_false_iff_ne.2 hdiv)
  unfold ofOperation? ofRounding?
  dsimp only
  rw [hresult, hx, hy, hdiv, if_neg Bool.false_ne_true, Bool.and_self, Bool.not_true,
    if_neg Bool.false_ne_true, if_neg Bool.false_ne_true, if_neg hop, ofRedo?, hr]

/-- With operands that are not both finite an operation can only be invalid. -/
theorem raisedBy_of_not_isFinite (h : ¬ (x.isFinite = true ∧ y.isFinite = true))
    {f : RoundingFlag} : RaisedBy op x y f ↔
      f = invalid ∧ (op.rounded x y).isNaN = true ∧ x.isNaN = false ∧ y.isNaN = false := by
  cases f with
  | invalid => exact ⟨fun hraised => ⟨rfl, hraised⟩, fun hraised => hraised.2⟩
  | divideByZero =>
    refine ⟨fun hraised => absurd ⟨hraised.2.1, isFinite_of_isZero hraised.2.2.2⟩ h, fun heq => ?_⟩
    cases heq.1
  | inexact | underflow | overflow =>
    refine ⟨fun hraised => absurd ⟨hraised.1, hraised.2.1⟩ h, fun heq => ?_⟩
    cases heq.1

include hop in
/-- With an exact result the flags are those of rounding it. -/
theorem raisedBy_of_exact (hx : x.isFinite = true) (hy : y.isFinite = true) {r : ℚ}
    (hr : op.exact x.toRat y.toRat = .ok r) {f : RoundingFlag} :
    RaisedBy op x y f ↔ RaisedByRounding r (op.rounded x y) f := by
  cases f with
  | invalid =>
    obtain ⟨negative, hrounded⟩ := exists_ofMagnitude hop hx hy hr
    refine ⟨fun h => ?_, False.elim⟩
    have hnan := h.1
    rw [hrounded, isNaN_ofMagnitude] at hnan
    cases hnan
  | divideByZero =>
    refine ⟨fun h => ?_, False.elim⟩
    obtain ⟨rfl, -, -, hzero⟩ := h
    exact (Exact.div_eq_ok_iff.1 hr).1 (toRat_eq_zero_iff.2 hzero)
  | inexact | underflow | overflow =>
    constructor
    · rintro ⟨-, -, r', hr', h⟩
      obtain rfl := Except.ok.inj (hr.symm.trans hr')
      exact h
    · intro h
      exact ⟨hx, hy, r, hr, h⟩

/-- A quotient by zero is invalid or a division by zero. -/
theorem raisedBy_div_zero (hx : x.isFinite = true) (hy : y.isZero = true) {f : RoundingFlag} :
    RaisedBy .div x y f ↔ f = if x.isZero then invalid else divideByZero := by
  have hyfinite := isFinite_of_isZero hy
  have hexact : ∀ r, Operation.div.exact x.toRat y.toRat ≠ .ok r := by
    intro r hr
    exact (Exact.div_eq_ok_iff.1 hr).1 (toRat_eq_zero_iff.2 hy)
  cases f with
  | invalid =>
    rw [RaisedBy, isNaN_of_isFinite hx, isNaN_of_isFinite hyfinite, Operation.rounded,
      div_of_isZero hx hy]
    cases x.isZero with
    | true => exact ⟨fun _ => rfl, fun _ => ⟨rfl, rfl, rfl⟩⟩
    | false =>
      refine ⟨fun h => ?_, fun h => (by cases h)⟩
      rw [if_neg Bool.false_ne_true, not_isNaN_infinity] at h
      cases h.1
  | divideByZero =>
    rw [RaisedBy]
    cases x.isZero with
    | true => exact ⟨fun h => (by cases h.2.2.1), fun h => (by cases h)⟩
    | false => exact ⟨fun _ => rfl, fun _ => ⟨rfl, hx, rfl, hy⟩⟩
  | inexact | underflow | overflow =>
    constructor
    · rintro ⟨-, -, r, hr, -⟩
      exact absurd hr (hexact r)
    · intro h
      split at h <;> cases h

theorem ofOperation?_div_zero (hx : x.isFinite = true) (hy : y.isZero = true) :
    ofOperation? .div x y (x.div y) = some (if x.isZero then invalid else divideByZero) := by
  have hyfinite := isFinite_of_isZero hy
  rw [div_of_isZero hx hy]
  cases x.isZero with
  | true =>
    rw [if_pos rfl, ofOperation?_of_isNaN rfl, isNaN_of_isFinite hx, isNaN_of_isFinite hyfinite]
    rfl
  | false =>
    rw [if_neg Bool.false_ne_true, ofOperation?, not_isNaN_infinity, hx, hyfinite, hy]
    rfl

include hop in
/-- **The flag of an operation is that of the standard.** -/
theorem ofOperation?_eq_some_iff (f : RoundingFlag) :
    ofOperation? op x y (op.rounded x y) = some f ↔ RaisedBy op x y f := by
  by_cases hfinite : x.isFinite = true ∧ y.isFinite = true
  · obtain ⟨hx, hy⟩ := hfinite
    cases hexact : op.exact x.toRat y.toRat with
    | ok r =>
      rw [raisedBy_of_exact hop hx hy hexact]
      obtain ⟨negative, hrounded⟩ := exists_ofMagnitude hop hx hy hexact
      have hnan := isNaN_ofMagnitude negative r
      rw [hrounded, ofOperation?_eq_ofRounding? hop hx hy hexact hnan, ofRounding?_eq_some_iff]
    | error e =>
      obtain ⟨rfl, hzero⟩ := exact_eq_error_of_ne_pow hop hexact
      rw [Operation.rounded, ofOperation?_div_zero hx hzero, raisedBy_div_zero hx hzero,
        Option.some.injEq, eq_comm]
  · rw [raisedBy_of_not_isFinite hfinite]
    cases hnan : (op.rounded x y).isNaN with
    | true =>
      rw [ofOperation?_of_isNaN hnan]
      cases x.isNaN <;> cases y.isNaN <;> simp [eq_comm]
    | false =>
      rw [ofOperation?_of_not_isFinite hnan hfinite]
      simp

end

end RoundingFlag

namespace Shadow

/-- **Events follow the flags of the standard.**  An operation other than a power adds one event at
most to the trails of its operands, with the operands, the result and the flag that the standard
raises there; a literal has an event exactly if rounding it raises a flag. -/
theorem events_follow_flags :
    (∀ op ≠ Operation.pow, ∀ a b : Shadow, ∃ flag : Option RoundingFlag,
      (apply op a b).events = a.events ++ b.events ++
        event? (.operation op a.value b.value) (op.rounded a.value b.value) flag ∧
      ∀ f, flag = some f ↔ RoundingFlag.RaisedBy op a.value b.value f) ∧
    ∀ (r : ℚ) (source : Option String), ∃ flag : Option RoundingFlag,
      (ofRat r source).events = event? (.literal source) (Binary64.ofRat r) flag ∧
      ∀ f, flag = some f ↔ RoundingFlag.RaisedByRounding r (Binary64.ofRat r) f := by
  refine ⟨fun op hop a b => ⟨_, rfl, fun f => ?_⟩, fun r source => ⟨_, rfl, fun f => ?_⟩⟩
  · exact RoundingFlag.ofOperation?_eq_some_iff hop f
  · exact RoundingFlag.ofRounding?_eq_some_iff _ r f

/-- One over the negative zero is a division by zero. -/
theorem events_follow_flags_division :
    Operation.div ≠ .pow ∧ (apply .div ⟨one, []⟩ ⟨zero true, []⟩).events =
      [⟨.operation .div one (zero true), infinity true, .divideByZero⟩] := by
  obtain ⟨flag, hevents, hflag⟩ := events_follow_flags.1 .div (by decide) ⟨one, []⟩ ⟨zero true, []⟩
  have hraised : flag = some .divideByZero :=
    (hflag .divideByZero).2 ⟨rfl, by decide, by decide, by decide⟩
  rw [hraised] at hevents
  exact ⟨by decide, hevents⟩

end Shadow

end Roundoff
