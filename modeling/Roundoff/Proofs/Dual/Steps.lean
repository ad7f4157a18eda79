import Roundoff.Dual.Basic
import Roundoff.Proofs.Sequence

/-! # What a node does

One lemma for each kind of node, saying all that is known once the node has a value: where the
value comes from, what its shadow is, and which of the ways an exact operation can end has been
taken.  Later proofs cite these and open no definition of a node.
-/
namespace Roundoff.DualValue

variable {s : Settings}

theorem checkSize_eq_ok_iff {p : Int} {r q : Rat} :
    checkSize s p r = .ok q ↔ Exact.bitLength r ≤ s.maxRationalBits ∧ q = r := by
  rw [checkSize]
  split
  · rename_i h
    simp only [reduceCtorEq, false_iff, not_and]
    intro hle
    exact absurd hle (not_le.2 h)
  · rename_i h
    constructor
    · rintro ⟨⟩
      exact ⟨not_lt.1 h, rfl⟩
    · rintro ⟨-, rfl⟩
      rfl

theorem ofLiteral_eq_ok {text : String} {p : Int} {v : DualValue}
    (h : ofLiteral s text p = .ok v) :
    ∃ r, Literal.parse text (some s.maxLiteralExponent) = .ok r ∧
      Exact.bitLength r ≤ s.maxRationalBits ∧ v = ⟨.ok r, Shadow.ofRat r (some text), []⟩ := by
  unfold ofLiteral at h
  split at h
  · cases h
  · cases h
  · cases h
  · rename_i r hr
    obtain ⟨q, hsize, ⟨⟩⟩ := bind_eq_ok.1 h
    obtain ⟨hbits, rfl⟩ := checkSize_eq_ok_iff.1 hsize
    exact ⟨q, hr, hbits, rfl⟩

theorem ofName_eq_ok {n : String} {p : Int} {v : DualValue} (h : ofName s n p = .ok v) :
    ∃ c, s.symbols.constant? n = some c ∧
      v = ⟨.ok c.exact, c.shadow, if c.approximate then [n] else []⟩ := by
  unfold ofName at h
  split at h
  · rename_i c hc
    cases h
    exact ⟨c, hc, rfl⟩
  · split at h <;> cases h

/-! ## Exact operations -/

/-- How the exact side of an operation ends: in a value that is not too large, or, for a division
by zero, in the position of the operation. -/
inductive Settled (s : Settings) (p : Int) : Except RuleError Rat → Except Int Rat → Prop
  | value {r : Rat} : Exact.bitLength r ≤ s.maxRationalBits → Settled s p (.ok r) (.ok r)
  | fault {e : RuleError} : e.isDivisionByZero = true → Settled s p (.error e) (.error p)

theorem settle_eq_ok {p : Int} {x : Except RuleError Rat} {y : Except Int Rat}
    (h : settle s p x = .ok y) : Settled s p x y := by
  cases x with
  | ok r =>
    rw [settle] at h
    cases hsize : checkSize s p r with
    | error e =>
      rw [hsize] at h
      cases h
    | ok q =>
      rw [hsize] at h
      obtain ⟨hbits, rfl⟩ := checkSize_eq_ok_iff.1 hsize
      cases h
      exact .value hbits
  | error e =>
    rw [settle] at h
    split at h
    · cases h
    · rename_i hnone
      cases h
      exact .fault (RuleError.ending?_eq_none_iff.1 hnone)

/-- How a binary operation ends on the exact side: the first fault of an operand is kept, and
without one the operation itself settles. -/
inductive BinaryExact (s : Settings) (op : Operation) (p : Int) :
    Except Int Rat → Except Int Rat → Except Int Rat → Prop
  | left {q : Int} {y : Except Int Rat} : BinaryExact s op p (.error q) y (.error q)
  | right {a : Rat} {q : Int} : BinaryExact s op p (.ok a) (.error q) (.error q)
  | settled {a b : Rat} {z : Except Int Rat} : Settled s p ((op.exact a b).mapError .arithmetic) z →
      BinaryExact s op p (.ok a) (.ok b) z

/-- A binary operation behind the guard of a power. -/
def combine (s : Settings) (op : Operation) (p : Int) (x y : DualValue) :
    Except Stop DualValue := do
  let exact ←
    match x.exact, y.exact with
    | .error p, _ => .ok (.error p)
    | .ok _, .error p => .ok (.error p)
    | .ok a, .ok b => settle s p ((op.exact a b).mapError .arithmetic)
  return ⟨exact, Shadow.apply op x.shadow y.shadow, mergeApproximations [x, y]⟩

theorem binary_eq {symbol : String} {op : Operation} (h : Operation.ofSymbol? symbol = some op)
    (p : Int) (x y : DualValue) : binary s symbol p x y =
      if op = .pow then checkPower s p x.exact y.exact >>= fun _ => combine s op p x y
      else combine s op p x y := by
  rw [binary, h]
  rfl

theorem combine_eq_ok {op : Operation} {p : Int} {x y v : DualValue}
    (h : combine s op p x y = .ok v) : BinaryExact s op p x.exact y.exact v.exact ∧
      v = ⟨v.exact, Shadow.apply op x.shadow y.shadow, mergeApproximations [x, y]⟩ := by
  unfold combine at h
  cases hx : x.exact with
  | error q =>
    rw [hx] at h
    cases h
    exact ⟨.left, rfl⟩
  | ok a =>
    cases hy : y.exact with
    | error q =>
      rw [hx, hy] at h
      cases h
      exact ⟨.right, rfl⟩
    | ok b =>
      rw [hx, hy] at h
      obtain ⟨z, hsettle, ⟨⟩⟩ := bind_eq_ok.1 h
      exact ⟨.settled (settle_eq_ok hsettle), rfl⟩

theorem binary_eq_ok {symbol : String} {p : Int} {x y v : DualValue}
    (h : binary s symbol p x y = .ok v) :
    ∃ op exact, Operation.ofSymbol? symbol = some op ∧
      (op = .pow → checkPower s p x.exact y.exact = .ok ()) ∧
      BinaryExact s op p x.exact y.exact exact ∧
      v = ⟨exact, Shadow.apply op x.shadow y.shadow, mergeApproximations [x, y]⟩ := by
  cases hop : Operation.ofSymbol? symbol with
  | none =>
    rw [binary, hop] at h
    cases h
  | some op =>
    rw [binary_eq hop] at h
    split at h
    · obtain ⟨_, hguard, h⟩ := bind_eq_ok.1 h
      exact ⟨op, v.exact, rfl, fun _ => hguard, combine_eq_ok h⟩
    · rename_i hpow
      exact ⟨op, v.exact, rfl, fun hop => absurd hop hpow, combine_eq_ok h⟩

/-! ## Calls -/

theorem resolve_eq_ok {n : String} {count : Nat} {p : Int}
    {f : { f : FunctionRule // f.arity = count }} (h : resolve s n count p = .ok f) :
    s.symbols.function? n = some f.1 := by
  unfold resolve at h
  split at h
  · split at h
    · cases h
      assumption
    · cases h
  · split at h <;> cases h

/-- How a call ends on the exact side. -/
inductive CallExact (s : Settings) (f : FunctionRule) (p : Int) :
    Except Int (List Rat) → Except Int Rat → Prop
  | fault {q : Int} : CallExact s f p (.error q) (.error q)
  | settled {rs : List Rat} {z : Except Int Rat} : Settled s p (f.exact fun i => rs.getD i 0) z →
      CallExact s f p (.ok rs) z

theorem call_eq_ok {n : String} {p : Int} {vs : List DualValue} {v : DualValue}
    (h : call s n p vs = .ok v) :
    ∃ f exact, ∃ hf : f.arity = vs.length, s.symbols.function? n = some f ∧
      CallExact s f p (exactAll vs) exact ∧
      v = ⟨exact, f.shadow fun i => (vs.get (i.cast hf)).shadow, mergeApproximations vs⟩ := by
  unfold call at h
  obtain ⟨⟨f, hf⟩, hresolve, h⟩ := bind_eq_ok.1 h
  refine ⟨f, v.exact, hf, resolve_eq_ok hresolve, ?_⟩
  dsimp only [applyRule] at h
  cases hrs : exactAll vs with
  | error q =>
    rw [hrs] at h
    cases h
    exact ⟨.fault, rfl⟩
  | ok rs =>
    rw [hrs] at h
    obtain ⟨z, hsettle, ⟨⟩⟩ := bind_eq_ok.1 h
    exact ⟨.settled (settle_eq_ok hsettle), rfl⟩

/-! ## Reasons to stop -/

theorem checkSize_eq_error {p : Int} {r : Rat} {x : Stop} (h : checkSize s p r = .error x) :
    s.maxRationalBits < Exact.bitLength r ∧ x = .error (.valueTooLarge s.maxRationalBits p) := by
  rw [checkSize] at h
  split at h <;> cases h
  rename_i hsize
  exact ⟨hsize, rfl⟩

/-- Why a literal has no value. -/
inductive LiteralStop (s : Settings) (text : String) (p : Int) : Stop → Prop
  | exponent {e limit : Int} :
      Literal.parse text (some s.maxLiteralExponent) = .error (.exponentTooLarge e limit) →
      LiteralStop s text p (.error (.literalExponent e limit p))
  | zeroDenominator :
      Literal.parse text (some s.maxLiteralExponent) = .error .zeroDenominator →
      LiteralStop s text p (.error .zeroDenominator)
  | malformed {e : LiteralError} : Literal.parse text (some s.maxLiteralExponent) = .error e →
      LiteralStop s text p (.defect (.literal e))
  | size {r : Rat} : Literal.parse text (some s.maxLiteralExponent) = .ok r →
      s.maxRationalBits < Exact.bitLength r →
      LiteralStop s text p (.error (.valueTooLarge s.maxRationalBits p))

theorem ofLiteral_eq_error {text : String} {p : Int} {x : Stop}
    (h : ofLiteral s text p = .error x) : LiteralStop s text p x := by
  unfold ofLiteral at h
  split at h
  · rename_i he
    cases h
    exact .exponent he
  · rename_i he
    cases h
    exact .zeroDenominator he
  · rename_i he
    cases h
    exact .malformed he
  · rename_i r hr
    rcases bind_eq_error.1 h with h | ⟨q, -, h⟩
    · obtain ⟨hsize, rfl⟩ := checkSize_eq_error h
      exact .size hr hsize
    · cases h

/-- Why a name has no value. -/
inductive NameStop (n : String) (p : Int) : Stop → Prop
  | function : NameStop n p (.error (.functionAsConstant n p))
  | unknown : NameStop n p (.error (.unknownName n p))

theorem ofName_eq_error {n : String} {p : Int} {x : Stop} (h : ofName s n p = .error x) :
    NameStop n p x := by
  unfold ofName at h
  split at h
  · cases h
  · split at h <;> cases h
    · exact .function
    · exact .unknown

/-- Why an exact operation on values stops the evaluation: by the size of its value, or as it fails
itself. -/
inductive SettleStop (s : Settings) (p : Int) : Except RuleError Rat → Stop → Prop
  | size {r : Rat} : s.maxRationalBits < Exact.bitLength r →
      SettleStop s p (.ok r) (.error (.valueTooLarge s.maxRationalBits p))
  | ending {e : RuleError} {x : EvalError} : e.ending? = some x →
      SettleStop s p (.error e) (.error x)

theorem settle_eq_error {p : Int} {a : Except RuleError Rat} {x : Stop}
    (h : settle s p a = .error x) : SettleStop s p a x := by
  cases a with
  | ok r =>
    rw [settle] at h
    cases hsize : checkSize s p r with
    | error y =>
      rw [hsize] at h
      cases h
      obtain ⟨hbits, rfl⟩ := checkSize_eq_error hsize
      exact .size hbits
    | ok q =>
      rw [hsize] at h
      cases h
  | error e =>
    rw [settle] at h
    split at h
    · rename_i hending
      cases h
      exact .ending hending
    · cases h

/-- An exact operation that divides by zero settles in a fault; it stops nothing. -/
theorem SettleStop.kind_ne {p : Int} {a : Except RuleError Rat} {x : EvalError}
    (h : SettleStop s p a (.error x)) : x.kind ≠ .divisionByZero := by
  cases h with
  | size _ => exact nofun
  | ending h => exact RuleError.kind_ne_of_ending? h

/-- Why the guard of a power stops the evaluation. -/
inductive PowerStop (s : Settings) (p : Int) : Stop → Prop
  | fractional : PowerStop s p (.error (.fractionalExponent p))
  | exponent : PowerStop s p (.error (.exponentTooLarge s.maxExponent p))
  | size : PowerStop s p (.error (.powerTooLarge s.maxRationalBits p))

theorem checkPower_eq_error {p : Int} {x y : Except Int Rat} {z : Stop}
    (h : checkPower s p x y = .error z) : PowerStop s p z := by
  unfold checkPower at h
  split at h
  · cases h
  · dsimp only at h
    split at h
    · cases h
      exact .fractional
    · split at h
      · cases h
        exact .exponent
      · split at h
        · cases h
        · split at h <;> cases h
          exact .size

/-- Why a binary operation has no value. -/
inductive BinaryStop (s : Settings) (symbol : String) (p : Int) : Stop → Prop
  | unknown : Operation.ofSymbol? symbol = none →
      BinaryStop s symbol p (.defect (.unknownOperator symbol))
  | guard {x : Stop} : PowerStop s p x → BinaryStop s symbol p x
  | settle {op : Operation} {a b : Rat} {x : Stop} : Operation.ofSymbol? symbol = some op →
      SettleStop s p ((op.exact a b).mapError .arithmetic) x → BinaryStop s symbol p x

theorem combine_eq_error {op : Operation} {p : Int} {x y : DualValue} {z : Stop}
    (h : combine s op p x y = .error z) :
    ∃ a b, SettleStop s p ((op.exact a b).mapError .arithmetic) z := by
  unfold combine at h
  cases hx : x.exact with
  | error q =>
    rw [hx] at h
    cases h
  | ok a =>
    cases hy : y.exact with
    | error q =>
      rw [hx, hy] at h
      cases h
    | ok b =>
      rw [hx, hy] at h
      rcases bind_eq_error.1 h with hsettle | ⟨_, -, h⟩
      · exact ⟨a, b, settle_eq_error hsettle⟩
      · cases h

theorem binary_eq_error {symbol : String} {p : Int} {x y : DualValue} {z : Stop}
    (h : binary s symbol p x y = .error z) : BinaryStop s symbol p z := by
  cases hop : Operation.ofSymbol? symbol with
  | none =>
    rw [binary, hop] at h
    cases h
    exact .unknown hop
  | some op =>
    have hcombine : combine s op p x y = .error z → BinaryStop s symbol p z := by
      intro h
      obtain ⟨a, b, hsettle⟩ := combine_eq_error h
      exact .settle hop hsettle
    rw [binary_eq hop] at h
    split at h
    · rcases bind_eq_error.1 h with hguard | ⟨_, -, h⟩
      · exact .guard (checkPower_eq_error hguard)
      · exact hcombine h
    · exact hcombine h

/-- Why a name cannot be called with a number of arguments. -/
inductive ResolveStop (n : String) (count : Nat) (p : Int) : Stop → Prop
  | arity {arity : Nat} : arity ≠ count →
      ResolveStop n count p (.error (.wrongArity n arity count p))
  | constant : ResolveStop n count p (.error (.constantAsFunction n p))
  | unknown : ResolveStop n count p (.error (.unknownName n p))

theorem resolve_eq_error {n : String} {count : Nat} {p : Int} {x : Stop}
    (h : resolve s n count p = .error x) : ResolveStop n count p x := by
  unfold resolve at h
  split at h
  · split at h <;> cases h
    rename_i harity
    exact .arity harity
  · split at h <;> cases h
    · exact .constant
    · exact .unknown

/-- Why a call has no value. -/
inductive CallStop (s : Settings) (n : String) (vs : List DualValue) (p : Int) : Stop → Prop
  | resolve {x : Stop} : ResolveStop n vs.length p x → CallStop s n vs p x
  | settle {f : FunctionRule} {rs : List Rat} {x : Stop} : s.symbols.function? n = some f →
      exactAll vs = .ok rs → SettleStop s p (f.exact fun i => rs.getD i 0) x → CallStop s n vs p x

theorem call_eq_error {n : String} {p : Int} {vs : List DualValue} {x : Stop}
    (h : call s n p vs = .error x) : CallStop s n vs p x := by
  unfold call at h
  rcases bind_eq_error.1 h with h | ⟨⟨f, hf⟩, hresolve, h⟩
  · exact .resolve (resolve_eq_error h)
  · dsimp only [applyRule] at h
    cases hrs : exactAll vs with
    | error q =>
      rw [hrs] at h
      cases h
    | ok rs =>
      rw [hrs] at h
      rcases bind_eq_error.1 h with hsettle | ⟨_, -, h⟩
      · exact .settle (resolve_eq_ok hresolve) hrs (settle_eq_error hsettle)
      · cases h

/-! ## The default functions -/

theorem abs_eq (x : Rat) : Exact.abs x = |x| := by
  rw [Exact.abs]
  split
  · rename_i h
    rw [abs_of_neg h]
  · rename_i h
    rw [abs_of_nonneg (not_lt.1 h)]

theorem min_eq (x y : Rat) : Exact.min x y = min x y := by
  rw [Exact.min, min_def]

theorem max_eq (x y : Rat) : Exact.max x y = max x y := by
  rw [Exact.max, max_def']

/-- **What a call of a default function gives.**  The exact side is lost only with an operand's. -/
inductive DefaultCall : String → List DualValue → DualValue → Prop
  | abs {x : DualValue} :
      DefaultCall "abs" [x] ⟨x.exact.map fun a => |a|, x.shadow.abs, mergeApproximations [x]⟩
  | min {x y : DualValue} :
      DefaultCall "min" [x, y] ⟨x.exact.bind fun a => y.exact.map fun b => min a b,
        x.shadow.minimum y.shadow, mergeApproximations [x, y]⟩
  | max {x y : DualValue} :
      DefaultCall "max" [x, y] ⟨x.exact.bind fun a => y.exact.map fun b => max a b,
        x.shadow.maximum y.shadow, mergeApproximations [x, y]⟩

theorem function?_eq_some (htable : s.symbols.functions = SymbolTable.default.functions)
    {n : String} {f : FunctionRule} (h : s.symbols.function? n = some f) :
    (n = "abs" ∧ f = SymbolTable.absRule) ∨ (n = "min" ∧ f = SymbolTable.minRule) ∨
      (n = "max" ∧ f = SymbolTable.maxRule) := by
  rw [SymbolTable.function?, htable] at h
  have hmem := List.mem_of_find?_eq_some h
  have hname : f.name = n := by simpa using List.find?_some h
  subst hname
  rcases List.mem_cons.1 hmem with rfl | hmem
  · exact Or.inl ⟨rfl, rfl⟩
  · rcases List.mem_cons.1 hmem with rfl | hmem
    · exact Or.inr (Or.inl ⟨rfl, rfl⟩)
    · rw [List.mem_singleton.1 hmem]
      exact Or.inr (Or.inr ⟨rfl, rfl⟩)

/-- An exact function without errors settles in its value. -/
theorem CallExact.eq_map {f : FunctionRule} {p : Int} {xs : Except Int (List Rat)}
    {z : Except Int Rat} {g : List Rat → Rat} (h : CallExact s f p xs z)
    (hg : ∀ rs, (f.exact fun i => rs.getD i 0) = .ok (g rs)) : z = xs.map g := by
  cases h with
  | fault => rfl
  | settled hz =>
    rw [hg] at hz
    cases hz
    rfl

theorem map_exactAll_one (g : Rat → Rat) (x : DualValue) :
    (exactAll [x]).map (fun rs => g (rs.getD 0 0)) = x.exact.map g := by
  cases hx : x.exact <;> simp [exactAll, hx, bind, Except.bind, pure, Except.pure, Except.map]

theorem map_exactAll_two (g : Rat → Rat → Rat) (x y : DualValue) :
    (exactAll [x, y]).map (fun rs => g (rs.getD 0 0) (rs.getD 1 0)) =
      x.exact.bind fun a => y.exact.map fun b => g a b := by
  cases hx : x.exact <;> cases hy : y.exact <;>
    simp [exactAll, hx, hy, bind, Except.bind, pure, Except.pure, Except.map]

theorem call_default (htable : s.symbols.functions = SymbolTable.default.functions)
    {n : String} {p : Int} {vs : List DualValue} {v : DualValue} (h : call s n p vs = .ok v) :
    DefaultCall n vs v := by
  obtain ⟨f, exact, hf, hfunction, hexact, rfl⟩ := call_eq_ok h
  rcases function?_eq_some htable hfunction with ⟨rfl, rfl⟩ | ⟨rfl, rfl⟩ | ⟨rfl, rfl⟩
  · obtain ⟨x, rfl⟩ := List.length_eq_one_iff.1 hf.symm
    rw [hexact.eq_map (g := fun rs => |rs.getD 0 0|) fun rs => by rw [← abs_eq]; rfl,
      map_exactAll_one]
    exact .abs
  · obtain ⟨x, y, rfl⟩ := List.length_eq_two.1 hf.symm
    rw [hexact.eq_map (g := fun rs => min (rs.getD 0 0) (rs.getD 1 0)) fun rs => by
      rw [← min_eq]; rfl, map_exactAll_two]
    exact .min
  · obtain ⟨x, y, rfl⟩ := List.length_eq_two.1 hf.symm
    rw [hexact.eq_map (g := fun rs => max (rs.getD 0 0) (rs.getD 1 0)) fun rs => by
      rw [← max_eq]; rfl, map_exactAll_two]
    exact .max

end Roundoff.DualValue
