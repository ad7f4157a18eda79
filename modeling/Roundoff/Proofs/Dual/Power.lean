import Roundoff.Proofs.Dual.Faults
import Roundoff.Proofs.Dual.Operands
import Roundoff.Proofs.Exact.Height
import Roundoff.Proofs.Operation
import Roundoff.Proofs.Record.Settings

/-! # Powers behind their guard

The guard of a power compares the binary digits of the base, times the exponent, with the size limit
before the power is computed.  What it lets pass fits into the limit (`bitLength_of_checkPower`), so
the check of the size that follows on each exact operation is of no effect after a power: a power is
its guard, and then its value as it is (`binary_power`).  No walk ever stops for the size of one.

The guard is an estimate and refuses more than it has to.  A power that it refuses is larger than
the limit or short of it by less than the exponent, and every other power has its exact value
(`power_refused_iff`).  So `1^3` is refused where numbers may have two binary digits.

All that is asked of the settings is what every record of settings gives them
(`Record.withinBounds_of_settingsOf`).
-/
namespace Roundoff

namespace DualValue

variable {s : Settings} {p : ℤ}

/-- What the guard of a power asks of an exact base and an integer exponent. -/
theorem checkPower_eq_ok_iff {b : ℚ} {n : ℤ} :
    checkPower s p (.ok b) (.ok n) = .ok () ↔
      n.natAbs ≤ s.maxExponent ∧ Exact.bitLength b * n.natAbs ≤ s.maxRationalBits := by
  unfold checkPower
  dsimp only
  rw [Rat.num_intCast, Rat.den_intCast, if_neg (not_not_intro rfl)]
  split
  · rename_i hexponent
    simp [hexponent]
  · rename_i hexponent
    split
    · rename_i hsize
      simp [hsize]
    · rename_i hsize
      simp [not_lt.1 hexponent, not_lt.1 hsize]

/-- **What the guard of a power lets pass fits into the size limit.**  The bound is one where a
power has one digit although the product is zero, and every limit is at least one. -/
theorem bitLength_of_checkPower (hs : 0 < s.maxRationalBits) {b : ℚ} {n : ℤ}
    (h : checkPower s p (.ok b) (.ok n) = .ok ()) :
    Exact.bitLength (b ^ n) ≤ max 1 (Exact.bitLength b * n.natAbs) ∧
      max 1 (Exact.bitLength b * n.natAbs) ≤ s.maxRationalBits :=
  ⟨bitLength_zpow_le b n, Nat.max_le.2 ⟨hs, (checkPower_eq_ok_iff.1 h).2⟩⟩

/-- The exact side of a power whose size nobody checks. -/
def uncheckedPower (p : ℤ) : Except ℤ ℚ → Except ℤ ℚ → Except ℤ ℚ
  | .error q, _ => .error q
  | .ok _, .error q => .error q
  | .ok a, .ok e => if a = 0 ∧ e.num < 0 then .error p else .ok (a ^ e.num)

/-- Behind the guard, the check of the size lets every power pass. -/
theorem settle_power (hs : 0 < s.maxRationalBits) {a e : ℚ}
    (h : checkPower s p (.ok a) (.ok e) = .ok ()) :
    settle s p ((Exact.pow a e).mapError .arithmetic) = .ok (uncheckedPower p (.ok a) (.ok e)) := by
  have hden := den_eq_one_of_checkPower h
  by_cases hzero : a = 0 ∧ e.num < 0
  · rw [uncheckedPower, if_pos hzero, Exact.pow, if_neg (not_not_intro hden),
      if_pos ⟨hzero.2, hzero.1⟩]
    rfl
  · have hpow : Exact.pow a e = .ok (a ^ e.num) :=
      Exact.pow_eq_ok_iff.2 ⟨hden, fun hneg ha => hzero ⟨ha, hneg⟩, rfl⟩
    have hinteger : ((e.num : ℤ) : ℚ) = e := (Rat.den_eq_one_iff e).1 hden
    rw [← hinteger] at h
    obtain ⟨hfits, hlimit⟩ := bitLength_of_checkPower hs h
    have hsize : checkSize s p (a ^ e.num) = .ok (a ^ e.num) :=
      checkSize_eq_ok_iff.2 ⟨hfits.trans hlimit, rfl⟩
    rw [uncheckedPower, if_neg hzero, hpow, mapError_ok, settle, hsize]
    rfl

/-- **A power is its guard and its value.** -/
theorem binary_power (hs : 0 < s.maxRationalBits) (p : ℤ) (x y : DualValue) :
    binary s "^" p x y = checkPower s p x.exact y.exact >>= fun _ =>
      .ok ⟨uncheckedPower p x.exact y.exact, Shadow.apply .pow x.shadow y.shadow,
        mergeApproximations [x, y]⟩ := by
  have hsymbol : Operation.ofSymbol? "^" = some .pow := Operation.ofSymbol?_symbol .pow
  rw [binary_eq hsymbol, if_pos rfl]
  cases hguard : checkPower s p x.exact y.exact with
  | error z => rfl
  | ok u =>
    rw [ok_bind, ok_bind, combine]
    cases hx : x.exact with
    | error q => rfl
    | ok a =>
      cases hy : y.exact with
      | error q => rfl
      | ok e =>
        rw [hx, hy] at hguard
        have hexact : Operation.pow.exact a e = Exact.pow a e := rfl
        simp only [hexact, settle_power hs hguard]
        rfl

end DualValue

namespace Walk

open DualValue (checkPower binary uncheckedPower mergeApproximations)

variable {s : Settings}

/-- Applying a power stops a walk by the guard, or for want of an operand. -/
theorem step_power (hs : 0 < s.maxRationalBits) {p : ℤ} {ts : List Task} {vs : List DualValue}
    {z : Stop} (h : step s (.apply (.binary "^" p)) ts vs = .error z) :
    z = .defect .missingOperand ∨ DualValue.PowerStop s p z := by
  rcases bind_eq_error.1 h with h | ⟨_, -, h⟩
  · match vs with
    | [] | [_] =>
      cases h
      exact Or.inl rfl
    | y :: x :: vs =>
      rcases bind_eq_error.1 h with h | ⟨_, -, h⟩
      · rw [DualValue.binary_power hs] at h
        rcases bind_eq_error.1 h with hguard | ⟨_, -, h⟩
        · exact Or.inr (DualValue.checkPower_eq_error hguard)
        · cases h
      · cases h
  · cases h

theorem step_power_ne (hs : 0 < s.maxRationalBits) (p : ℤ) (ts : List Task) (vs : List DualValue)
    (m : ℕ) (q : ℤ) :
    step s (.apply (.binary "^" p)) ts vs ≠ .error (.error (.valueTooLarge m q)) := by
  intro h
  rcases step_power hs h with hdefect | hstop
  · cases hdefect
  · cases hstop

/-- **The guard of a power is enough.**  Under limits as settings that are read from a record have
them, what it lets pass has no more binary digits than the product it has compared with the limit,
or one, in its numerator and its denominator, and neither have the powers of numerator and
denominator that it is made from.  So a power is its guard and then its value, and the check of
the size after it never stops a walk: a walk that stops for the size of a value has stopped at
something else. -/
theorem guarded_powers_fit (hs : s.WithinBounds) :
    (∀ p b (n : ℤ), checkPower s p (.ok b) (.ok n) = .ok () →
      Numeral.bitLength (b ^ n).num.natAbs ≤ max 1 (Exact.bitLength b * n.natAbs) ∧
      Numeral.bitLength (b ^ n).den ≤ max 1 (Exact.bitLength b * n.natAbs) ∧
      Numeral.bitLength (b.num.natAbs ^ n.natAbs) ≤ max 1 (Exact.bitLength b * n.natAbs) ∧
      Numeral.bitLength (b.den ^ n.natAbs) ≤ max 1 (Exact.bitLength b * n.natAbs) ∧
      max 1 (Exact.bitLength b * n.natAbs) ≤ s.maxRationalBits) ∧
    (∀ p x y, binary s "^" p x y = checkPower s p x.exact y.exact >>= fun _ =>
      .ok ⟨uncheckedPower p x.exact y.exact, Shadow.apply .pow x.shadow y.shadow,
        mergeApproximations [x, y]⟩) ∧
    (∀ p ts vs m q,
      step s (.apply (.binary "^" p)) ts vs ≠ .error (.error (.valueTooLarge m q))) ∧
    ∀ root m q, run s [.enter root] [] = .error (.error (.valueTooLarge m q)) →
      ∃ t ts vs, Reaches s root (t :: ts) vs ∧ (∀ p, t ≠ .apply (.binary "^" p)) ∧
        step s t ts vs = .error (.error (.valueTooLarge m q)) := by
  have hbits := hs.rationalBits
  refine ⟨fun p b n h => ?_, DualValue.binary_power hbits, step_power_ne hbits,
    fun root m q h => ?_⟩
  · obtain ⟨hfits, hlimit⟩ := DualValue.bitLength_of_checkPower hbits h
    obtain ⟨hnum, hden⟩ := bitLength_parts_pow_le b n.natAbs
    exact ⟨(le_max_left ..).trans hfits, (le_max_right ..).trans hfits, hnum, hden, hlimit⟩
  · obtain ⟨t, ts, vs, hreaches, hstep⟩ := run_eq_error_iff.1 h
    refine ⟨t, ts, vs, hreaches, ?_, hstep⟩
    rintro p rfl
    exact step_power_ne hbits p ts vs m q hstep

/-- Settings under which values have four binary digits. -/
def fourBits : Settings where
  maxRationalBits := 4

theorem fourBits_withinBounds : fourBits.WithinBounds :=
  @Record.withinBounds_of_settingsOf .default (.object [("max_rational_bits", .int 4)]) fourBits rfl

/-- The tree of `3^2*2`. -/
def doubledSquare : Expr :=
  .binary "*" (.binary "^" (.number "3" 0) (.number "2" 2) 1) (.number "2" 4) 3

/-- A negative power that just fits, and a walk that stops for the size of a product with a square
that fits. -/
theorem guarded_powers_fit_four :
    checkPower fourBits 3 (.ok (2 / 3)) (.ok ((-2 : ℤ) : ℚ)) = .ok () ∧
    Numeral.bitLength ((2 / 3 : ℚ) ^ (-2 : ℤ)).num.natAbs ≤ 4 ∧
    Numeral.bitLength ((2 / 3 : ℚ) ^ (-2 : ℤ)).den ≤ 4 ∧
    run fourBits [.enter doubledSquare] [] = .error (.error (.valueTooLarge 4 3)) ∧
    ∃ t ts vs, Reaches fourBits doubledSquare (t :: ts) vs ∧ ∀ p, t ≠ .apply (.binary "^" p) := by
  have hguard : checkPower fourBits 3 (.ok (2 / 3)) (.ok ((-2 : ℤ) : ℚ)) = .ok () := by
    decide +kernel
  have hexact : (DualValue.ofExpr fourBits doubledSquare).map (·.exact) =
      .error (.error (.valueTooLarge 4 3)) := by
    decide +kernel
  have hrun : run fourBits [.enter doubledSquare] [] = .error (.error (.valueTooLarge 4 3)) := by
    rw [run_enter]
    cases hvalue : DualValue.ofExpr fourBits doubledSquare with
    | error x =>
      rw [hvalue] at hexact
      cases hexact
      rfl
    | ok v =>
      rw [hvalue] at hexact
      cases hexact
  obtain ⟨hfits, -, -, hstops⟩ := guarded_powers_fit fourBits_withinBounds
  obtain ⟨hnum, hden, -, -, hlimit⟩ := hfits 3 (2 / 3) (-2) hguard
  obtain ⟨t, ts, vs, hreaches, hother, -⟩ := hstops _ _ _ hrun
  exact ⟨hguard, hnum.trans hlimit, hden.trans hlimit, hrun, t, ts, vs, hreaches, hother⟩

end Walk

/-! ## What the guard refuses -/

variable {s : Settings} {p : ℤ}

theorem DualValue.checkPower_of_le {b : ℚ} {n : ℤ} (hn : n.natAbs ≤ s.maxExponent) :
    checkPower s p (.ok b) (.ok n) =
      if s.maxRationalBits < Exact.bitLength b * n.natAbs then
        .error (.error (.powerTooLarge s.maxRationalBits p))
      else .ok () := by
  have hinteger : ¬ ((n : ℚ).den ≠ 1) := not_not_intro (Rat.den_intCast n)
  unfold checkPower
  dsimp only
  rw [if_neg hinteger, Rat.num_intCast, if_neg (not_lt.2 hn)]

/-- The guard decides alone whether a power of two results is refused. -/
theorem evaluate_power (hs : 0 < s.maxRationalBits) {l r : Expr} {x y : Evaluation} {n : ℤ}
    (hl : evaluate s l = .ok x) (hr : evaluate s r = .ok y) (hy : y.exact = n)
    (hn : n.natAbs ≤ s.maxExponent) (hdefined : n < 0 → x.exact ≠ 0) :
    ∃ shadow names, evaluate s (.binary "^" l r p) =
      if s.maxRationalBits < Exact.bitLength x.exact * n.natAbs then
        .error (.error (.powerTooLarge s.maxRationalBits p))
      else .ok ⟨x.exact ^ n, shadow, names⟩ := by
  have hpower : DualValue.uncheckedPower p (.ok x.exact) (.ok n) = .ok (x.exact ^ n) := by
    rw [DualValue.uncheckedPower, Rat.num_intCast, if_neg fun h => hdefined h.2 h.1]
  refine ⟨Shadow.apply .pow x.shadow y.shadow, DualValue.mergeApproximations
    [⟨.ok x.exact, x.shadow, x.approximations⟩, ⟨.ok y.exact, y.shadow, y.approximations⟩], ?_⟩
  rw [evaluate_eq, DualValue.ofExpr, evaluate_eq_ok hl, evaluate_eq_ok hr, ok_bind, ok_bind,
    DualValue.binary_power hs]
  dsimp only
  rw [hy, DualValue.checkPower_of_le hn, hpower]
  split <;> rfl

/-- **What the guard of a power refuses.**  Take two results, the second one an integer within the
limit of exponents, such that the power is defined.  It is refused exactly when the exponent times
the binary digits of the base exceeds the limit of sizes, and otherwise it has its exact value.  A
power that is refused may have no more digits than the limit, but then it has fewer to spare than
its exponent less one; with as many to spare no power is refused. -/
theorem power_refused_iff (s : Settings) (hs : s.WithinBounds) {l r : Expr}
    {x y : Evaluation} {n : ℤ} (p : ℤ) (hl : evaluate s l = .ok x) (hr : evaluate s r = .ok y)
    (hy : y.exact = n) (hn : n.natAbs ≤ s.maxExponent) (hdefined : n < 0 → x.exact ≠ 0) :
    ((∃ e, evaluate s (.binary "^" l r p) = .error (.error e) ∧ e.kind = .resourceExhausted) ↔
      s.maxRationalBits < Exact.bitLength x.exact * n.natAbs) ∧
    (∀ z, evaluate s (.binary "^" l r p) = .error z →
      z = .error (.powerTooLarge s.maxRationalBits p) ∧
        s.maxRationalBits + 1 < Exact.bitLength (x.exact ^ n) + n.natAbs) ∧
    (Exact.bitLength x.exact * n.natAbs ≤ s.maxRationalBits →
      ∃ v, evaluate s (.binary "^" l r p) = .ok v ∧ v.exact = x.exact ^ n) ∧
    (Exact.bitLength (x.exact ^ n) + n.natAbs ≤ s.maxRationalBits + 1 →
      Exact.bitLength x.exact * n.natAbs ≤ s.maxRationalBits) := by
  obtain ⟨shadow, names, heval⟩ := evaluate_power (p := p) hs.rationalBits hl hr hy hn hdefined
  -- A product beyond the limit leaves a power that is short of it by less than the exponent.
  have hclose : s.maxRationalBits < Exact.bitLength x.exact * n.natAbs →
      s.maxRationalBits + 1 < Exact.bitLength (x.exact ^ n) + n.natAbs := by
    intro hlimit
    have hlarge := lt_bitLength_zpow x.exact n
    rw [Nat.sub_mul, Nat.one_mul] at hlarge
    omega
  rw [heval]
  refine ⟨?_, ?_, ?_, fun hfits => not_lt.1 fun hlimit => (hclose hlimit).not_ge hfits⟩
  · split
    · rename_i hlimit
      exact ⟨fun _ => hlimit, fun _ => ⟨_, rfl, rfl⟩⟩
    · rename_i hlimit
      refine ⟨?_, fun h => absurd h hlimit⟩
      rintro ⟨e, ⟨⟩, -⟩
  · intro z hz
    split at hz
    · rename_i hlimit
      cases hz
      exact ⟨rfl, hclose hlimit⟩
    · cases hz
  · intro hlimit
    rw [if_neg (not_lt.2 hlimit)]
    exact ⟨_, rfl, rfl⟩

/-- `3^2` counts as many binary digits as the limit of four allows: it is computed, and no other
value than nine comes of it. -/
theorem power_refused_iff_square :
    (¬ ∃ e, evaluate Walk.fourBits (.binary "^" (.number "3" 0) (.number "2" 2) 1) =
      .error (.error e) ∧ e.kind = .resourceExhausted) ∧
    (∀ z, evaluate Walk.fourBits (.binary "^" (.number "3" 0) (.number "2" 2) 1) = .error z →
      Walk.fourBits.maxRationalBits + 1 < Exact.bitLength ((3 : ℚ) ^ (2 : ℤ)) + 2) ∧
    ∃ v, evaluate Walk.fourBits (.binary "^" (.number "3" 0) (.number "2" 2) 1) = .ok v ∧
      v.exact = 9 := by
  have hbase : evaluate Walk.fourBits (.number "3" 0) =
      .ok ⟨3, ⟨.ofBits 0x4008000000000000, []⟩, []⟩ := by decide +kernel
  have hexponent : evaluate Walk.fourBits (.number "2" 2) =
      .ok ⟨2, ⟨.ofBits 0x4000000000000000, []⟩, []⟩ := by decide +kernel
  obtain ⟨hrefused, hclose, hcomputed, -⟩ := power_refused_iff Walk.fourBits (n := 2)
    Walk.fourBits_withinBounds 1 hbase hexponent (by norm_num) (by decide) (by decide)
  obtain ⟨v, hv, hexact⟩ := hcomputed (by decide)
  exact ⟨fun h => absurd (hrefused.1 h) (by decide), fun z hz => (hclose z hz).2, v, hv,
    hexact.trans (by norm_num)⟩

/-- Settings under which values have two binary digits. -/
def twoBits : Settings where
  maxRationalBits := 2

/-- `1^3` is refused under a limit of two binary digits, although it has a single one: the guard
counts the digits of the base three times. -/
theorem power_of_one_refused :
    evaluate twoBits (.number "1" 0) = .ok ⟨1, ⟨.one, []⟩, []⟩ ∧
    evaluate twoBits (.number "3" 2) = .ok ⟨3, ⟨.ofBits 0x4008000000000000, []⟩, []⟩ ∧
    (3 : ℤ).natAbs ≤ twoBits.maxExponent ∧
    Exact.bitLength ((1 : ℚ) ^ (3 : ℤ)) ≤ twoBits.maxRationalBits ∧
    evaluate twoBits (.binary "^" (.number "1" 0) (.number "3" 2) 1) =
      .error (.error (.powerTooLarge 2 1)) ∧
    (EvalError.powerTooLarge 2 1).kind = .resourceExhausted := by
  decide +kernel

end Roundoff
