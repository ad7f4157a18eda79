import Roundoff.Proofs.Dual.Recursion
import Roundoff.Proofs.Dual.Steps
import Roundoff.Proofs.Line.Stages

/-! # The size of exact results

The values of literals, of operations and of calls are checked against the size limit; the value of
a name is taken from the symbol table as it is, and a sign does not change the size of a number.  So
a result exceeds the limit exactly when its line is the name of too large a constant with any number
of signs before it (`Line.bitLength_exceeds_iff`).  Nothing that is computed from such a constant
gets through.
-/
namespace Roundoff

/-- The name that a tree consists of, signs apart. -/
def Expr.signedName? : Expr → Option String
  | name n _ => some n
  | unary _ e _ => e.signedName?
  | number _ _ | binary _ _ _ _ | call _ _ _ => none

theorem Exact.bitLength_neg (x : ℚ) : bitLength (-x) = bitLength x := by
  rw [bitLength, bitLength, Rat.neg_num, Rat.neg_den, Int.natAbs_neg]

namespace DualValue

variable {s : Settings}

theorem Settled.bitLength_le {p : ℤ} {a : Except RuleError ℚ} {r : ℚ}
    (h : Settled s p a (.ok r)) : Exact.bitLength r ≤ s.maxRationalBits := by
  cases h with
  | value hbits => exact hbits

theorem BinaryExact.bitLength_le {op : Operation} {p : ℤ} {x y : Except ℤ ℚ} {r : ℚ}
    (h : BinaryExact s op p x y (.ok r)) : Exact.bitLength r ≤ s.maxRationalBits := by
  cases h with
  | settled h => exact h.bitLength_le

theorem CallExact.bitLength_le {f : FunctionRule} {p : ℤ} {xs : Except ℤ (List ℚ)} {r : ℚ}
    (h : CallExact s f p xs (.ok r)) : Exact.bitLength r ≤ s.maxRationalBits := by
  cases h with
  | settled h => exact h.bitLength_le

/-- An exact value comes from a constant, its sign apart, or is within the size limit. -/
def Sized (s : Settings) (e : Expr) (v : DualValue) : Prop :=
  ∀ r, v.exact = .ok r →
    (∃ n c, e.signedName? = some n ∧ s.symbols.constant? n = some c ∧
      (r = c.exact ∨ r = -c.exact)) ∨
    (e.signedName? = none ∧ Exact.bitLength r ≤ s.maxRationalBits)

theorem Sized.neg {op : String} {e : Expr} {p : ℤ} {v : DualValue} (h : Sized s e v) :
    Sized s (.unary op e p) (DualValue.unary op v) := by
  intro r hr
  unfold DualValue.unary at hr
  split at hr
  · exact h r hr
  · cases hv : v.exact with
    | error q =>
      rw [hv] at hr
      cases hr
    | ok x =>
      rw [hv] at hr
      cases hr
      rcases h x hv with ⟨n, c, hn, hc, rfl | rfl⟩ | ⟨hn, hbits⟩
      · exact Or.inl ⟨n, c, hn, hc, Or.inr rfl⟩
      · exact Or.inl ⟨n, c, hn, hc, Or.inl (neg_neg _)⟩
      · exact Or.inr ⟨hn, (Exact.bitLength_neg x).trans_le hbits⟩

theorem hereditary_sized : Hereditary s (Sized s) where
  number text p v h r hr := by
    obtain ⟨q, -, hbits, rfl⟩ := ofLiteral_eq_ok h
    cases hr
    exact Or.inr ⟨rfl, hbits⟩
  name n p v h r hr := by
    obtain ⟨c, hc, rfl⟩ := ofName_eq_ok h
    cases hr
    exact Or.inl ⟨n, c, rfl, hc, Or.inl rfl⟩
  unary _ _ _ _ h := h.neg
  binary op l e p x y v _ _ h r hr := by
    obtain ⟨o, exact, -, -, hexact, rfl⟩ := binary_eq_ok h
    dsimp only at hr
    subst hr
    exact Or.inr ⟨rfl, hexact.bitLength_le⟩
  call n args p vs v _ h r hr := by
    obtain ⟨f, exact, _, -, hexact, rfl⟩ := call_eq_ok h
    dsimp only at hr
    subst hr
    exact Or.inr ⟨rfl, hexact.bitLength_le⟩

end DualValue

namespace Line

variable {s : Settings} {line : String} {v : Evaluation} {m : Metrics}

/-- **Only a constant by itself exceeds the size limit.**  The exact value of a line has more binary
digits than the limit, in its numerator or its denominator, exactly if the line is, signs apart, the
name of a constant that has more, and then it is this constant or its negative. -/
theorem bitLength_exceeds_iff (h : evaluate s line = .ok (.success v m)) :
    s.maxRationalBits < Exact.bitLength v.exact ↔
      ∃ e n c, tree s line = .ok e ∧ e.signedName? = some n ∧ s.symbols.constant? n = some c ∧
        (v.exact = c.exact ∨ v.exact = -c.exact) ∧
        s.maxRationalBits < Exact.bitLength c.exact := by
  obtain ⟨e, htree, hvalue, -⟩ := evaluate_eq_success h
  have hsized := DualValue.hereditary_sized.ofExpr e _ (evaluate_eq_ok hvalue) v.exact rfl
  have hsize : ∀ c : NamedConstant, v.exact = c.exact ∨ v.exact = -c.exact →
      Exact.bitLength v.exact = Exact.bitLength c.exact := by
    rintro c (hc | hc)
    · rw [hc]
    · rw [hc, Exact.bitLength_neg]
  constructor
  · intro hlarge
    rcases hsized with ⟨n, c, hn, hc, hexact⟩ | ⟨-, hbits⟩
    · exact ⟨e, n, c, htree, hn, hc, hexact, hsize c hexact ▸ hlarge⟩
    · exact absurd hlarge (not_lt.2 hbits)
  · rintro ⟨-, -, c, -, -, -, hexact, hlarge⟩
    rw [hsize c hexact]
    exact hlarge

/-- Settings whose size limit the circle constant exceeds. -/
def eightBits : Settings where
  maxRationalBits := 8

/-- What is computed from the constant is within the limit. -/
theorem bitLength_le_computed :
    evaluate eightBits "3-pi*0" = .ok (.success ⟨3, ⟨.ofBits 0x4008000000000000, []⟩, ["pi"]⟩
      (Metrics.compute 3 (.ofBits 0x4008000000000000))) ∧
    (8 < Exact.bitLength 3 ↔ ∃ e n c, tree eightBits "3-pi*0" = .ok e ∧
      e.signedName? = some n ∧ SymbolTable.default.constant? n = some c ∧
      ((3 : ℚ) = c.exact ∨ (3 : ℚ) = -c.exact) ∧ 8 < Exact.bitLength c.exact) := by
  have heval : evaluate eightBits "3-pi*0" = .ok (.success
      ⟨3, ⟨.ofBits 0x4008000000000000, []⟩, ["pi"]⟩
      (Metrics.compute 3 (.ofBits 0x4008000000000000))) := by
    decide +kernel
  exact ⟨heval, bitLength_exceeds_iff heval⟩

/-- The name of the circle constant gets its value through, however small the limit. -/
theorem not_bitLength_le : ¬ ∀ (s : Settings) (line : String) (v : Evaluation) (m : Metrics),
    evaluate s line = .ok (.success v m) → Exact.bitLength v.exact ≤ s.maxRationalBits := by
  let c : ℚ := 3.14159265358979323846264338327950288419716939937510
  intro h
  have heval : evaluate eightBits "pi" = .ok (.success ⟨c, ⟨Binary64.ofRat c, []⟩, ["pi"]⟩
      (Metrics.compute c (Binary64.ofRat c))) := by
    decide +kernel
  have hbits : eightBits.maxRationalBits < Exact.bitLength c := by
    decide +kernel
  exact absurd (h eightBits "pi" _ _ heval) (not_le.2 hbits)

end Line

end Roundoff
