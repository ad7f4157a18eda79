import Roundoff.Proofs.Dual.Recursion
import Roundoff.Proofs.Dual.Steps
import Roundoff.Proofs.Exact.Calculation

/-! # Where the exact side fails

A power with a fractional exponent is refused by its guard before it is computed, so what an
operation itself stops the evaluation by is the size of its value (`binary_stops`).  A value without
an exact side carries the position of a node of its tree: of a quotient or a power, or of a call the
function of which divides by zero (`faultSite_of_ofExpr`).
-/
namespace Roundoff.DualValue

variable {s : Settings}

/-! ## Powers behind their guard -/

/-- The guard lets only integer exponents pass. -/
theorem den_eq_one_of_checkPower {p : ℤ} {a : Except ℤ ℚ} {b : ℚ}
    (h : checkPower s p a (.ok b) = .ok ()) : b.den = 1 := by
  by_contra hden
  unfold checkPower at h
  dsimp only at h
  rw [if_pos hden] at h
  cases h

theorem combine_eq_valueTooLarge {op : Operation} {p : ℤ} {v w : DualValue} {x : Stop}
    (hguard : op = .pow → checkPower s p v.exact w.exact = .ok ())
    (h : combine s op p v w = .error x) : x = .error (.valueTooLarge s.maxRationalBits p) := by
  unfold combine at h
  cases hv : v.exact with
  | error q =>
    rw [hv] at h
    cases h
  | ok a =>
    cases hw : w.exact with
    | error q =>
      rw [hv, hw] at h
      cases h
    | ok b =>
      rw [hv, hw] at h
      rcases bind_eq_error.1 h with hsettle | ⟨_, -, h⟩
      · generalize hexact : (op.exact a b).mapError RuleError.arithmetic = c at hsettle
        cases settle_eq_error hsettle with
        | size _ => rfl
        | ending hending =>
          obtain ⟨cause, hcause, rfl⟩ := mapError_eq_error.1 hexact
          rcases Operation.exact_eq_error_iff.1 hcause with
            ⟨-, -, rfl⟩ | ⟨hop, hint, -⟩ | ⟨-, -, -, rfl⟩
          · cases hending
          · have hpass := hguard hop
            rw [hw] at hpass
            exact absurd (Operation.den_eq_one_iff.1 (den_eq_one_of_checkPower hpass)) hint
          · cases hending
      · cases h

/-- **What stops a binary operation**: its symbol, the guard of a power, or the size of its
value. -/
theorem binary_stops {symbol : String} {p : ℤ} {v w : DualValue} {x : Stop}
    (h : binary s symbol p v w = .error x) :
    (Operation.ofSymbol? symbol = none ∧ x = .defect (.unknownOperator symbol)) ∨
      PowerStop s p x ∨ x = .error (.valueTooLarge s.maxRationalBits p) := by
  cases hop : Operation.ofSymbol? symbol with
  | none =>
    rw [binary, hop] at h
    cases h
    exact Or.inl ⟨rfl, rfl⟩
  | some op =>
    rw [binary_eq hop] at h
    split at h
    · rcases bind_eq_error.1 h with hguard | ⟨_, hguard, h⟩
      · exact Or.inr (Or.inl (checkPower_eq_error hguard))
      · exact Or.inr (Or.inr (combine_eq_valueTooLarge (fun _ => hguard) h))
    · rename_i hpow
      exact Or.inr (Or.inr (combine_eq_valueTooLarge (fun hop => absurd hop hpow) h))

/-! ## Faults -/

/-- An operation settles in a fault only by an error that is a division by zero. -/
theorem Settled.eq_error {p q : ℤ} {a : Except RuleError ℚ} (h : Settled s p a (.error q)) :
    ∃ e, a = .error e ∧ e.isDivisionByZero = true ∧ q = p := by
  cases h with
  | fault hzero => exact ⟨_, rfl, hzero, rfl⟩

theorem div_or_pow_of_exact {op : Operation} {x y : ℚ} {e : ArithmeticError}
    (h : op.exact x y = .error e) : op = .div ∨ op = .pow := by
  rcases Operation.exact_eq_error_iff.1 h with ⟨hop, -⟩ | ⟨hop, -⟩ | ⟨hop, -⟩
  · exact Or.inl hop
  · exact Or.inr hop
  · exact Or.inr hop

theorem exactAll_eq_error {vs : List DualValue} {q : ℤ} (h : exactAll vs = .error q) :
    ∃ v ∈ vs, v.exact = .error q := by
  induction vs with
  | nil => cases h
  | cons v vs ih =>
    rw [exactAll] at h
    rcases bind_eq_error.1 h with h | ⟨r, -, h⟩
    · exact ⟨v, List.mem_cons_self .., h⟩
    · rcases bind_eq_error.1 h with h | ⟨rs, -, h⟩
      · obtain ⟨w, hw, hq⟩ := ih h
        exact ⟨w, List.mem_cons_of_mem _ hw, hq⟩
      · cases h

/-- A node that divides by zero: a quotient or a power, or a call of a function that does so at the
exact values of the arguments. -/
inductive FaultSite (s : Settings) : Expr → Prop
  | operation {symbol : String} {op : Operation} {l r : Expr} {p : ℤ} :
      Operation.ofSymbol? symbol = some op → op = .div ∨ op = .pow →
      FaultSite s (.binary symbol l r p)
  | call {n : String} {args : List Expr} {p : ℤ} {f : FunctionRule} {vs : List DualValue}
      {rs : List ℚ} {e : RuleError} : ofExprs s args = .ok vs → exactAll vs = .ok rs →
      s.symbols.function? n = some f → (f.exact fun i => rs.getD i 0) = .error e →
      e.isDivisionByZero = true → FaultSite s (.call n args p)

theorem exact_of_unary {op : String} {v : DualValue} {q : ℤ}
    (h : (DualValue.unary op v).exact = .error q) : v.exact = .error q := by
  unfold DualValue.unary at h
  split at h
  · exact h
  · cases hv : v.exact with
    | error q' =>
      rw [hv] at h
      exact h
    | ok r =>
      rw [hv] at h
      cases h

mutual

/-- **The exact side is missing only for a division by zero at a node of the tree.** -/
theorem faultSite_of_ofExpr : ∀ (e : Expr) (v : DualValue) (q : ℤ), ofExpr s e = .ok v →
    v.exact = .error q → ∃ n ∈ e.preorder, n.position = q ∧ FaultSite s n
  | .number text p, v, q, h, hq => by
    rw [ofExpr] at h
    obtain ⟨r, -, -, rfl⟩ := ofLiteral_eq_ok h
    cases hq
  | .name n p, v, q, h, hq => by
    rw [ofExpr] at h
    obtain ⟨c, -, rfl⟩ := ofName_eq_ok h
    cases hq
  | .unary op e p, v, q, h, hq => by
    rw [ofExpr] at h
    obtain ⟨w, hw, ⟨⟩⟩ := bind_eq_ok.1 h
    obtain ⟨n, hn, hfault⟩ := faultSite_of_ofExpr e w q hw (exact_of_unary hq)
    exact ⟨n, List.mem_cons_of_mem _ hn, hfault⟩
  | .binary op l r p, u, q, h, hq => by
    rw [ofExpr] at h
    obtain ⟨v, hv, h⟩ := bind_eq_ok.1 h
    obtain ⟨w, hw, h⟩ := bind_eq_ok.1 h
    obtain ⟨o, exact, hop, -, hexact, rfl⟩ := binary_eq_ok h
    dsimp only at hq
    subst hq
    generalize hx : v.exact = a at hexact
    generalize hy : w.exact = b at hexact
    cases hexact with
    | left =>
      obtain ⟨n, hn, hfault⟩ := faultSite_of_ofExpr l v q hv hx
      exact ⟨n, List.mem_cons_of_mem _ (List.mem_append_left _ hn), hfault⟩
    | right =>
      obtain ⟨n, hn, hfault⟩ := faultSite_of_ofExpr r w q hw hy
      exact ⟨n, List.mem_cons_of_mem _ (List.mem_append_right _ hn), hfault⟩
    | settled hsettled =>
      obtain ⟨e, he, -, rfl⟩ := hsettled.eq_error
      obtain ⟨cause, hcause, -⟩ := mapError_eq_error.1 he
      exact ⟨_, Expr.self_mem_preorder _, rfl, .operation hop (div_or_pow_of_exact hcause)⟩
  | .call n args p, v, q, h, hq => by
    rw [ofExpr] at h
    obtain ⟨-, -, h⟩ := bind_eq_ok.1 h
    obtain ⟨vs, hvs, h⟩ := bind_eq_ok.1 h
    obtain ⟨f, exact, hf, hfunction, hexact, rfl⟩ := call_eq_ok h
    dsimp only at hq
    subst hq
    generalize hall : exactAll vs = rs at hexact
    cases hexact with
    | fault =>
      obtain ⟨w, hw, hexact⟩ := exactAll_eq_error hall
      obtain ⟨m, hm, hfault⟩ := faultSite_of_ofExprs args vs w q hvs hw hexact
      exact ⟨m, List.mem_cons_of_mem _ hm, hfault⟩
    | settled hsettled =>
      obtain ⟨e, he, hzero, rfl⟩ := hsettled.eq_error
      exact ⟨_, Expr.self_mem_preorder _, rfl, .call hvs hall hfunction he hzero⟩

theorem faultSite_of_ofExprs : ∀ (es : List Expr) (vs : List DualValue) (v : DualValue) (q : ℤ),
    ofExprs s es = .ok vs → v ∈ vs → v.exact = .error q →
    ∃ n ∈ Expr.preorderList es, n.position = q ∧ FaultSite s n
  | [], vs, v, q, h, hv, _ => by
    cases h
    cases hv
  | e :: es, vs, v, q, h, hv, hq => by
    obtain ⟨w, us, hw, hus, rfl⟩ := (ofExprs_cons_eq_ok s).1 h
    rcases List.mem_cons.1 hv with rfl | hv
    · obtain ⟨n, hn, hfault⟩ := faultSite_of_ofExpr e v q hw hq
      exact ⟨n, List.mem_append_left _ hn, hfault⟩
    · obtain ⟨n, hn, hfault⟩ := faultSite_of_ofExprs es us v q hus hv hq
      exact ⟨n, List.mem_append_right _ hn, hfault⟩

end

end Roundoff.DualValue
