import Roundoff.Proofs.Binary64.Line
import Roundoff.Proofs.Dual.Meaning
import Roundoff.Proofs.Exact.Fraction

/-! # Calculations with exact numbers

A calculation is a sequence of steps, each of which forms a number (from two integers, from a text,
from a binary64 value) or applies an operation to results of earlier steps.  It runs on the
library's exact numbers and on fractions, and the two runs correspond result by result, errors
included; the numbers come out as in the rationals, where the number of a text or of a binary64
value is a definition of its own.  So every fraction that a calculation produces is in lowest terms
and denotes its result, whatever the steps were (`run_canonical`).
-/
namespace Roundoff

/-! ## The number of a binary64 value -/

namespace Binary64

/-- **The number of a binary64 value**: a significand of 53 bits, or of 52 for the smallest
exponent, times a power of two.  The largest exponent is that of the infinities and NaNs. -/
def number? (x : Binary64) : Option ℚ :=
  let e := biasedExponent x.magnitude
  if e = 2047 then none
  else some ((if x.negative then -1 else 1)
    * ((if e = 0 then 0 else 2 ^ 52) + fraction x.magnitude) * 2 ^ ((max e 1 : ℕ) - 1075 : ℤ))

theorem isFinite_iff (x : Binary64) : x.isFinite = true ↔ biasedExponent x.magnitude ≠ 2047 := by
  have hlt := x.magnitude_lt
  rw [isFinite, decide_eq_true_eq, infinityMagnitude, biasedExponent]
  omega

/-- A magnitude counts units of the last place of the smallest exponent. -/
theorem scaled_div (m : ℕ) : (scaled m : ℚ) / unitDenominator =
    ((if biasedExponent m = 0 then 0 else 2 ^ 52) + fraction m)
      * 2 ^ ((max (biasedExponent m) 1 : ℕ) - 1075 : ℤ) := by
  unfold scaled
  by_cases hexp : biasedExponent m = 0
  · have hm : fraction m = m := Nat.mod_eq_of_lt (by unfold biasedExponent at hexp; omega)
    have hsum : ((max 0 1 : ℕ) - 1075 : ℤ) = (0 : ℕ) + -1074 := by omega
    rw [if_pos hexp, if_pos hexp, hm, hexp, hsum, two_zpow_unit, pow_zero, one_mul, zero_add,
      div_eq_mul_inv]
  · obtain ⟨k, hk⟩ := Nat.exists_eq_succ_of_ne_zero hexp
    have hsum : ((max (k + 1) 1 : ℕ) - 1075 : ℤ) = k + -1074 := by omega
    rw [if_neg hexp, if_neg hexp, hk, Nat.succ_eq_add_one, hsum, two_zpow_unit,
      Nat.add_sub_cancel]
    push_cast
    ring

theorem rational_toOption (x : Binary64) : x.rational.toOption = x.number? := by
  have hfinite := isFinite_iff x
  unfold rational number?
  by_cases h : biasedExponent x.magnitude = 2047
  · have hnot : x.isFinite ≠ true := fun hx => hfinite.1 hx h
    rw [if_neg hnot]
    simp only [h, if_true]
    rfl
  · rw [if_pos (hfinite.2 h)]
    simp only [h, if_false]
    refine congrArg some ?_
    rw [toRat, Rat.mkRat_eq_div, mul_assoc, ← scaled_div]
    split <;> push_cast <;> ring

end Binary64

/-! ## Undefined operations -/

namespace Operation

/-- The operation divides by zero, openly or by a negative power of zero. -/
def DividesByZero (op : Operation) (x y : ℚ) : Prop :=
  (op = .div ∧ y = 0) ∨ (op = .pow ∧ x = 0 ∧ ∃ n : ℤ, n < 0 ∧ y = n)

/-- The operation is a power whose exponent is no integer. -/
def LeavesDomain (op : Operation) (y : ℚ) : Prop :=
  op = .pow ∧ ¬ ∃ n : ℤ, y = n

theorem den_eq_one_iff {y : ℚ} : y.den = 1 ↔ ∃ n : ℤ, y = n :=
  ⟨fun h => ⟨y.num, ((Rat.den_eq_one_iff y).1 h).symm⟩, by rintro ⟨n, rfl⟩; exact Rat.den_intCast n⟩

theorem exact_eq_error_iff {op : Operation} {x y : ℚ} {e : ArithmeticError} :
    op.exact x y = .error e ↔
      (op = .div ∧ y = 0 ∧ e = .zeroDivisor) ∨
      (op = .pow ∧ (¬ ∃ n : ℤ, y = n) ∧ e = .fractionalExponent) ∨
      (op = .pow ∧ x = 0 ∧ (∃ n : ℤ, n < 0 ∧ y = n) ∧ e = .zeroToNegativePower) := by
  cases op with
  | add => simp [exact]
  | sub => simp [exact]
  | mul => simp [exact]
  | div =>
    rw [exact, Exact.div]
    by_cases hy : y = 0
    · simp [hy, eq_comm]
    · simp [hy]
  | pow =>
    rw [exact, Exact.pow]
    by_cases hint : ∃ n : ℤ, y = n
    · obtain ⟨n, rfl⟩ := hint
      by_cases hzero : n < 0 ∧ x = 0
      · simp [hzero, eq_comm]
      · have hpow : ¬ (x = 0 ∧ n < 0) := fun h => hzero h.symm
        simp [hzero]
        tauto
    · have hden : y.den ≠ 1 := fun h => hint (den_eq_one_iff.1 h)
      rw [if_pos hden]
      constructor
      · rintro ⟨⟩
        exact Or.inr (Or.inl ⟨rfl, hint, rfl⟩)
      · rintro (⟨h, -⟩ | ⟨-, -, rfl⟩ | ⟨-, -, ⟨n, -, hn⟩, -⟩)
        · cases h
        · rfl
        · exact absurd ⟨n, hn⟩ hint

/-- **An operation fails exactly where it has no result**: with a division by zero when it divides
by zero, and with a domain error when its exponent is no integer. -/
theorem exact_fails_iff (op : Operation) (x y : ℚ) :
    ((∃ e, op.exact x y = .error e ∧ e.isDivisionByZero = true) ↔ op.DividesByZero x y) ∧
      ((∃ e, op.exact x y = .error e ∧ e.isDivisionByZero = false) ↔ op.LeavesDomain y) := by
  unfold DividesByZero LeavesDomain
  simp only [exact_eq_error_iff]
  refine ⟨⟨?_, ?_⟩, ⟨?_, ?_⟩⟩
  · rintro ⟨e, ⟨hop, hy, -⟩ | ⟨-, -, rfl⟩ | ⟨hop, hx, hn, -⟩, he⟩
    · exact Or.inl ⟨hop, hy⟩
    · cases he
    · exact Or.inr ⟨hop, hx, hn⟩
  · rintro (⟨hop, hy⟩ | ⟨hop, hx, hn⟩)
    · exact ⟨_, Or.inl ⟨hop, hy, rfl⟩, rfl⟩
    · exact ⟨_, Or.inr (Or.inr ⟨hop, hx, hn, rfl⟩), rfl⟩
  · rintro ⟨e, ⟨-, -, rfl⟩ | ⟨hop, hn, -⟩ | ⟨-, -, -, rfl⟩, he⟩
    · cases he
    · exact ⟨hop, hn⟩
    · cases he
  · rintro ⟨hop, hn⟩
    exact ⟨_, Or.inr (Or.inl ⟨hop, hn, rfl⟩), rfl⟩

end Operation

/-! ## Calculations -/

namespace Calculation

/-- One step of a calculation.  An operand is the number of an earlier step, counted from zero. -/
inductive Step where
  | ratio (n d : ℤ)
  | literal (text : String)
  | float (x : Binary64)
  | binary (op : Operation) (i j : ℕ)
  | neg (i : ℕ)
  | abs (i : ℕ)
  | reciprocal (i : ℕ)

/-- Why a step has no result.  An operand without a result passes its own reason on. -/
inductive StepError where
  | arithmetic (cause : ArithmeticError)
  | literal (cause : LiteralError)
  | notFinite (cause : Binary64.NotFinite)
  | noOperand (i : ℕ)
  deriving DecidableEq

/-- The operations of a calculation. -/
structure Arithmetic (α : Type) where
  ratio : ℤ → ℤ → Except ArithmeticError α
  literal : String → Except LiteralError α
  float : Binary64 → Except Binary64.NotFinite α
  binary : Operation → α → α → Except ArithmeticError α
  neg : α → Except ArithmeticError α
  abs : α → Except ArithmeticError α
  reciprocal : α → Except ArithmeticError α

/-- The library's arithmetic. -/
def Arithmetic.exact : Arithmetic ℚ where
  ratio := Exact.ratio
  literal text := Literal.parse text
  float := Binary64.rational
  binary := Operation.exact
  neg x := .ok (-x)
  abs x := .ok (Exact.abs x)
  reciprocal := Exact.reciprocal

/-- The arithmetic of fractions. -/
def Arithmetic.fractions : Arithmetic Fraction where
  ratio := Fraction.reduce
  literal := Fraction.parse
  float := Fraction.ofBinary64
  binary := Fraction.binary
  neg := Fraction.neg
  abs := Fraction.abs
  reciprocal := Fraction.reciprocal

variable {α β γ : Type}

/-- The result of an earlier step. -/
def operand (done : List (Except StepError α)) (i : ℕ) : Except StepError α :=
  done[i]?.getD (.error (.noOperand i))

/-- The result of a step after others. -/
def Arithmetic.perform (A : Arithmetic α) (done : List (Except StepError α)) :
    Step → Except StepError α
  | .ratio n d => (A.ratio n d).mapError .arithmetic
  | .literal text => (A.literal text).mapError .literal
  | .float x => (A.float x).mapError .notFinite
  | .binary op i j => do
    let x ← operand done i
    let y ← operand done j
    (A.binary op x y).mapError .arithmetic
  | .neg i => do
    let x ← operand done i
    (A.neg x).mapError .arithmetic
  | .abs i => do
    let x ← operand done i
    (A.abs x).mapError .arithmetic
  | .reciprocal i => do
    let x ← operand done i
    (A.reciprocal x).mapError .arithmetic

/-- The results of all steps, if each one follows from those before it. -/
def results (f : List β → Step → β) (steps : List Step) : List β :=
  steps.foldl (fun done step => done ++ [f done step]) []

/-- The run of a calculation. -/
def run (A : Arithmetic α) (steps : List Step) : List (Except StepError α) :=
  results A.perform steps

/-- **The number that a step forms** in the field of the rationals, if it is defined there. -/
noncomputable def meaning (done : List (Option ℚ)) : Step → Option ℚ
  | .ratio n d => if d = 0 then none else some (n / d)
  | .literal text => Literal.number? text
  | .float x => x.number?
  | .binary op i j => do exactBinary? op.symbol (← done[i]?.join) (← done[j]?.join)
  | .neg i => do return -(← done[i]?.join)
  | .abs i => do return |← done[i]?.join|
  | .reciprocal i => do
    let x ← done[i]?.join
    if x = 0 then none else some x⁻¹

/-- The numbers of a calculation. -/
noncomputable def numbers (steps : List Step) : List (Option ℚ) :=
  results meaning steps

/-! ## Runs in step -/

theorem results_snoc (f : List β → Step → β) (steps : List Step) (step : Step) :
    results f (steps ++ [step]) = results f steps ++ [f (results f steps) step] := by
  simp [results]

/-- Two kinds of results that agree after every step agree in every calculation. -/
theorem results_map {f : List β → Step → β} {f' : List γ → Step → γ} {g : β → γ}
    (h : ∀ done step, g (f done step) = f' (done.map g) step) (steps : List Step) :
    (results f steps).map g = results f' steps := by
  induction steps using List.reverseRecOn with
  | nil => rfl
  | append_singleton steps step ih =>
    rw [results_snoc, results_snoc, List.map_append, ih, List.map_singleton, h, ih]

section

variable (done : List (Except StepError ℚ))

theorem operand_map (f : α → β) (done : List (Except StepError α)) (i : ℕ) :
    operand (done.map (Except.map f)) i = (operand done i).map f := by
  unfold operand
  rw [List.getElem?_map]
  cases done[i]? <;> rfl

theorem operand_toOption (i : ℕ) :
    (done.map Except.toOption)[i]?.join = (operand done i).toOption := by
  unfold operand
  rw [List.getElem?_map]
  cases done[i]? <;> rfl

/-- A step on fractions is the step on the numbers they stand for. -/
theorem perform_ofRat (step : Step) :
    (Arithmetic.exact.perform done step).map Fraction.ofRat =
      Arithmetic.fractions.perform (done.map (Except.map Fraction.ofRat)) step := by
  cases step with
  | ratio n d =>
    simp only [Arithmetic.perform, Arithmetic.exact, Arithmetic.fractions, mapError_map,
      Fraction.reduce_eq]
  | literal text =>
    simp only [Arithmetic.perform, Arithmetic.exact, Arithmetic.fractions, mapError_map,
      Fraction.parse_eq]
  | float x =>
    simp only [Arithmetic.perform, Arithmetic.exact, Arithmetic.fractions, mapError_map,
      Fraction.ofBinary64_eq]
  | binary op i j =>
    simp only [Arithmetic.perform, Arithmetic.exact, Arithmetic.fractions, operand_map]
    cases operand done i with
    | error e => rfl
    | ok x =>
      cases operand done j with
      | error e => rfl
      | ok y =>
        show ((op.exact x y).mapError _).map _ = (Fraction.binary op _ _).mapError _
        rw [mapError_map, Fraction.binary_ofRat]
  | neg i =>
    simp only [Arithmetic.perform, Arithmetic.exact, Arithmetic.fractions, operand_map]
    cases operand done i with
    | error e => rfl
    | ok x =>
      show _ = (Fraction.neg _).mapError _
      rw [Fraction.neg_ofRat]
      rfl
  | abs i =>
    simp only [Arithmetic.perform, Arithmetic.exact, Arithmetic.fractions, operand_map]
    cases operand done i with
    | error e => rfl
    | ok x =>
      show _ = (Fraction.abs _).mapError _
      rw [Fraction.abs_ofRat, ← DualValue.abs_eq]
      rfl
  | reciprocal i =>
    simp only [Arithmetic.perform, Arithmetic.exact, Arithmetic.fractions, operand_map]
    cases operand done i with
    | error e => rfl
    | ok x =>
      show ((Exact.reciprocal x).mapError _).map _ = (Fraction.reciprocal _).mapError _
      rw [mapError_map, Fraction.reciprocal_ofRat]

/-- A step of the library's arithmetic forms the number that the field gives it. -/
theorem perform_toOption (step : Step) :
    (Arithmetic.exact.perform done step).toOption = meaning (done.map Except.toOption) step := by
  cases step with
  | ratio n d =>
    simp only [Arithmetic.perform, Arithmetic.exact, meaning, mapError_toOption, Exact.ratio]
    split
    · rfl
    · rw [Rat.divInt_eq_div]
      rfl
  | literal text =>
    simp only [Arithmetic.perform, Arithmetic.exact, meaning, mapError_toOption,
      Literal.parse_toOption]
  | float x =>
    simp only [Arithmetic.perform, Arithmetic.exact, meaning, mapError_toOption,
      Binary64.rational_toOption]
  | binary op i j =>
    simp only [Arithmetic.perform, Arithmetic.exact, meaning, operand_toOption]
    cases operand done i with
    | error e => rfl
    | ok x =>
      cases operand done j with
      | error e => rfl
      | ok y =>
        show ((op.exact x y).mapError _).toOption = exactBinary? op.symbol x y
        rw [mapError_toOption, Operation.exactBinary?_symbol]
  | neg i =>
    simp only [Arithmetic.perform, Arithmetic.exact, meaning, operand_toOption]
    cases operand done i <;> rfl
  | abs i =>
    simp only [Arithmetic.perform, Arithmetic.exact, meaning, operand_toOption, DualValue.abs_eq]
    cases operand done i <;> rfl
  | reciprocal i =>
    simp only [Arithmetic.perform, Arithmetic.exact, meaning, operand_toOption]
    cases operand done i with
    | error e => rfl
    | ok x =>
      show ((Exact.reciprocal x).mapError _).toOption = if x = 0 then none else some x⁻¹
      rw [mapError_toOption, Exact.reciprocal]
      split <;> rfl

end

/-! ## The results of a calculation -/

variable {steps : List Step}

theorem run_fractions (steps : List Step) :
    run .fractions steps = (run .exact steps).map (Except.map Fraction.ofRat) :=
  (results_map perform_ofRat steps).symm

theorem run_numbers (steps : List Step) : (run .exact steps).map Except.toOption = numbers steps :=
  results_map perform_toOption steps

/-- A fraction comes out of a calculation only as the fraction of a number. -/
theorem eq_ofRat_of_mem {a : Fraction} (h : .ok a ∈ run .fractions steps) :
    ∃ x, a = Fraction.ofRat x := by
  rw [run_fractions] at h
  obtain ⟨r, -, hr⟩ := List.mem_map.1 h
  cases r with
  | error e => cases hr
  | ok x =>
    cases hr
    exact ⟨x, rfl⟩

theorem value_toOption (r : Except StepError ℚ) :
    ((r.map Fraction.ofRat).toOption).map Fraction.value = r.toOption := by
  cases r with
  | error e => rfl
  | ok x => exact congrArg some (Fraction.value_ofRat x)

/-- **Calculations are those of an ordered field in canonical form.**  The run on fractions is the
run of the library's exact arithmetic, with the same errors, and both denote the numbers of the
calculation; every fraction is in lowest terms over a positive denominator, zero being `0 / 1`;
fractions are equal when their numbers are and ordered by the sign of the difference; and an
operation fails exactly where it has no result. -/
theorem run_canonical (steps : List Step) :
    (run .fractions steps = (run .exact steps).map (Except.map Fraction.ofRat) ∧
      (run .exact steps).map Except.toOption = numbers steps ∧
      (run .fractions steps).map (fun r => r.toOption.map Fraction.value) = numbers steps) ∧
    (∀ a, .ok a ∈ run .fractions steps → a.Canonical ∧ (a.value = 0 → a = ⟨0, 1⟩)) ∧
    (∀ a b, .ok a ∈ run .fractions steps → .ok b ∈ run .fractions steps →
      (a = b ↔ a.value = b.value) ∧ a.compare b = Exact.compare a.value b.value ∧
        a.compare b = cmp (a.value - b.value) 0) ∧
    (∀ op x y, Fraction.binary op (.ofRat x) (.ofRat y) = (op.exact x y).map .ofRat ∧
      ((∃ e, op.exact x y = .error e ∧ e.isDivisionByZero = true) ↔ op.DividesByZero x y) ∧
      ((∃ e, op.exact x y = .error e ∧ e.isDivisionByZero = false) ↔ op.LeavesDomain y)) ∧
    (∀ x, Fraction.reciprocal (.ofRat x) = (Exact.reciprocal x).map .ofRat ∧
      (Exact.reciprocal x = .error .zeroReciprocal ↔ x = 0) ∧
      (x ≠ 0 → Exact.reciprocal x = .ok x⁻¹)) ∧
    (∀ n d, Fraction.reduce n d = (Exact.ratio n d).map .ofRat ∧
      (Exact.ratio n d = .error .zeroDenominator ↔ d = 0) ∧
      (d ≠ 0 → Exact.ratio n d = .ok (n / d))) := by
  refine ⟨⟨run_fractions steps, run_numbers steps, ?_⟩, ?_, ?_, ?_, ?_, ?_⟩
  · rw [run_fractions, List.map_map, ← run_numbers]
    exact List.map_congr_left fun r _ => value_toOption r
  · intro a ha
    obtain ⟨x, rfl⟩ := eq_ofRat_of_mem ha
    exact ⟨Fraction.canonical_ofRat x, (Fraction.canonical_ofRat x).eq_zero⟩
  · intro a b ha hb
    obtain ⟨x, rfl⟩ := eq_ofRat_of_mem ha
    obtain ⟨y, rfl⟩ := eq_ofRat_of_mem hb
    refine ⟨(Fraction.canonical_ofRat x).eq_iff (Fraction.canonical_ofRat y), ?_, ?_⟩
    · rw [Fraction.compare_ofRat, Fraction.value_ofRat, Fraction.value_ofRat]
    · rw [Fraction.compare_ofRat, Fraction.value_ofRat, Fraction.value_ofRat,
        Fraction.exact_compare_eq]
  · intro op x y
    exact ⟨Fraction.binary_ofRat op x y, op.exact_fails_iff x y⟩
  · intro x
    refine ⟨Fraction.reciprocal_ofRat x, ?_, fun hx => Exact.reciprocal_eq_ok_iff.2 ⟨hx, rfl⟩⟩
    rw [Exact.reciprocal]
    by_cases hx : x = 0
    · simp [hx]
    · simp [hx]
  · intro n d
    refine ⟨Fraction.reduce_eq n d, ?_, fun hd => ?_⟩
    · rw [Exact.ratio]
      by_cases hd : d = 0
      · simp [hd]
      · simp [hd]
    · exact Exact.ratio_eq_ok_iff.2 ⟨hd, (Rat.divInt_eq_div n d).symm⟩

/-- Six over minus four, its square to a negative power, a division by zero on the way, and the
numbers of a text and of a binary64 value. -/
theorem canonical_of_signs :
    let steps : List Step := [.ratio 6 (-4), .ratio (-2) 1, .binary .pow 0 1, .ratio 0 (-7),
      .binary .div 0 3, .neg 4, .reciprocal 0, .literal "0.1(6)",
      .float (Binary64.ofBits 0xBFE8000000000000), .binary .mul 7 8]
    run .fractions steps = [.ok ⟨-3, 2⟩, .ok ⟨-2, 1⟩, .ok ⟨4, 9⟩, .ok ⟨0, 1⟩,
      .error (.arithmetic .zeroDivisor), .error (.arithmetic .zeroDivisor), .ok ⟨-2, 3⟩,
      .ok ⟨1, 6⟩, .ok ⟨-3, 4⟩, .ok ⟨-1, 8⟩] ∧
    (⟨4, 9⟩ : Fraction).Canonical ∧ (⟨-1, 8⟩ : Fraction).Canonical ∧
    Fraction.compare ⟨-3, 2⟩ ⟨-2, 3⟩ =
      cmp ((⟨-3, 2⟩ : Fraction).value - (⟨-2, 3⟩ : Fraction).value) 0 := by
  intro steps
  have hrun : run .fractions steps = [.ok ⟨-3, 2⟩, .ok ⟨-2, 1⟩, .ok ⟨4, 9⟩, .ok ⟨0, 1⟩,
      .error (.arithmetic .zeroDivisor), .error (.arithmetic .zeroDivisor), .ok ⟨-2, 3⟩,
      .ok ⟨1, 6⟩, .ok ⟨-3, 4⟩, .ok ⟨-1, 8⟩] := by
    decide +kernel
  obtain ⟨-, hcanonical, hcompare, -⟩ := run_canonical steps
  rw [hrun] at hcanonical hcompare
  refine ⟨hrun, (hcanonical _ ?_).1, (hcanonical _ ?_).1, (hcompare _ _ ?_ ?_).2.2⟩ <;> simp

end Calculation

end Roundoff
