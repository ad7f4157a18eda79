import Roundoff.Proofs.Dual.Meaning
import Roundoff.Proofs.Metrics.Consistency
import Roundoff.Proofs.Symbols

/-! # An empty trail means an exact result

The trail of a value holds those of its operands, so that an event, once recorded, is never lost.
As long as there is none, each step so far has been exact, and the two sides of a value agree
(`DualValue.Faithful`); in particular the exact side is there.  Approximate constants are outside
of this, because rounding them leaves no event.
-/
namespace Roundoff

namespace DualValue

variable {s : Settings}

/-- **Without an event both sides agree.** -/
def Faithful (v : DualValue) : Prop :=
  v.shadow.events = [] → ∃ r, v.exact = .ok r ∧ v.shadow.value.rational = .ok r

/-- The names of a tree that stand for constants stand for exact ones. -/
def NamesExact (table : SymbolTable) (e : Expr) : Prop :=
  ∀ n p c, .name n p ∈ e.preorder → table.constant? n = some c → c.approximate = false

theorem faithful_literal {text : String} {p : Int} {v : DualValue}
    (h : ofLiteral s text p = .ok v) : v.Faithful := by
  obtain ⟨r, -, -, rfl⟩ := ofLiteral_eq_ok h
  intro hevents
  exact ⟨r, rfl, Shadow.rational_ofRat hevents⟩

theorem faithful_name (htable : s.symbols.ExactExtension) {n : String} {p : Int} {v : DualValue}
    (hnames : NamesExact s.symbols (.name n p)) (h : ofName s n p = .ok v) : v.Faithful := by
  obtain ⟨c, hc, rfl⟩ := ofName_eq_ok h
  have happrox := hnames n p c (Expr.self_mem_preorder _) hc
  obtain ⟨source, hshadow⟩ := htable.shadow_eq (List.mem_of_find?_eq_some hc) happrox
  intro hevents
  refine ⟨c.exact, rfl, ?_⟩
  dsimp only at hevents ⊢
  rw [hshadow] at hevents ⊢
  exact Shadow.rational_ofRat hevents

theorem faithful_unary {op : String} {v : DualValue} (h : v.Faithful) :
    (unary op v).Faithful := by
  rw [unary]
  split
  · exact h
  · intro hevents
    obtain ⟨r, hexact, hvalue⟩ := h hevents
    exact ⟨-r, by rw [hexact]; rfl, Binary64.rational_neg hvalue⟩

theorem faithful_binary {symbol : String} {p : Int} {x y v : DualValue} (hx : x.Faithful)
    (hy : y.Faithful) (h : binary s symbol p x y = .ok v) : v.Faithful := by
  obtain ⟨op, exact, -, -, hexact, rfl⟩ := binary_eq_ok h
  intro hevents
  obtain ⟨hxevents, hyevents, hflag⟩ := Shadow.events_apply_eq_nil.1 hevents
  obtain ⟨a, ha, hxvalue⟩ := hx hxevents
  obtain ⟨b, hb, hyvalue⟩ := hy hyevents
  obtain ⟨r, hr, hvalue⟩ := RoundingFlag.exact_of_ofOperation? hxvalue hyvalue hflag
  -- Neither operand has lost its exact side, and the operation itself has an exact result.
  rw [ha, hb] at hexact
  cases hexact with
  | settled hz =>
    rw [hr] at hz
    cases hz
    exact ⟨r, rfl, hvalue⟩

theorem faithful_call (htable : s.symbols.functions = SymbolTable.default.functions)
    {n : String} {p : Int} {vs : List DualValue} {v : DualValue} (hvs : ∀ x ∈ vs, x.Faithful)
    (h : call s n p vs = .ok v) : v.Faithful := by
  have hcall := call_default htable h
  intro hevents
  -- The functions add no event of their own, so the trail is that of the arguments.
  cases hcall with
  | @abs x =>
    obtain ⟨a, ha, hvalue⟩ := hvs x (by simp) hevents
    exact ⟨|a|, by rw [ha]; rfl, Binary64.rational_abs hvalue⟩
  | @min x y =>
    obtain ⟨hxevents, hyevents⟩ := List.append_eq_nil_iff.1 hevents
    obtain ⟨a, ha, hxvalue⟩ := hvs x (by simp) hxevents
    obtain ⟨b, hb, hyvalue⟩ := hvs y (by simp) hyevents
    exact ⟨min a b, by rw [ha, hb]; rfl, Binary64.rational_minimum hxvalue hyvalue⟩
  | @max x y =>
    obtain ⟨hxevents, hyevents⟩ := List.append_eq_nil_iff.1 hevents
    obtain ⟨a, ha, hxvalue⟩ := hvs x (by simp) hxevents
    obtain ⟨b, hb, hyvalue⟩ := hvs y (by simp) hyevents
    exact ⟨max a b, by rw [ha, hb]; rfl, Binary64.rational_maximum hxvalue hyvalue⟩

/-- **Every tree without approximate constants has a faithful value.** -/
theorem faithful_of_ofExpr (htable : s.symbols.ExactExtension) {e : Expr} {v : DualValue}
    (hnames : NamesExact s.symbols e) (h : ofExpr s e = .ok v) : v.Faithful := by
  refine Hereditary.ofExpr (P := fun e v => NamesExact s.symbols e → v.Faithful) ?_ e v h hnames
  refine ⟨fun _ _ _ h _ => faithful_literal h, fun _ _ _ h hnames => faithful_name htable hnames h,
    ?_, ?_, ?_⟩
  · intro op e p v ih hnames
    exact faithful_unary (ih fun n q c hn => hnames n q c (List.mem_cons_of_mem _ hn))
  · intro op l r p x y v ihl ihr h hnames
    refine faithful_binary (ihl ?_) (ihr ?_) h
    · intro n q c hn
      exact hnames n q c (List.mem_cons_of_mem _ (List.mem_append_left _ hn))
    · intro n q c hn
      exact hnames n q c (List.mem_cons_of_mem _ (List.mem_append_right _ hn))
  · intro n args p vs v ih h hnames
    refine faithful_call htable.functions_eq ?_ h
    intro x hx
    obtain ⟨e, he, hfaithful⟩ := exists_mem_of_forall₂ ih hx
    refine hfaithful fun m q c hm => hnames m q c (List.mem_cons_of_mem _ ?_)
    exact Expr.mem_preorderList he hm

end DualValue

/-- A shadow that denotes the exact value is classified as exact and has no error. -/
theorem Metrics.compute_of_rational {r : ℚ} {x : Binary64} (h : x.rational = .ok r) :
    (compute r x).accuracy = .exact ∧ (compute r x).absoluteError = some 0 := by
  obtain ⟨hfin, rfl⟩ := Binary64.rational_eq_ok_iff.1 h
  rw [compute_of_isFinite hfin]
  dsimp only
  rw [if_pos rfl, sub_self, abs_zero]
  exact ⟨rfl, rfl⟩

/-- **The trail is sound.**  Take a tree without approximate constants, over the default symbols or
an extension of them by rational constants.  A result with an empty trail has a finite shadow that
denotes its exact value, so that it is classified as exact, with no error.  A division by zero
carries a trail that is not empty; it carries no shadow at all only if a literal of the tree is
itself a fraction over zero. -/
theorem evaluate_trail (s : Settings) (htable : s.symbols.ExactExtension) (e : Expr)
    (hnames : DualValue.NamesExact s.symbols e) :
    (∀ v, evaluate s e = .ok v → v.shadow.events = [] →
      v.shadow.value.isFinite = true ∧ v.shadow.value.rational = .ok v.exact ∧
        (Metrics.compute v.exact v.shadow.value).accuracy = .exact ∧
        (Metrics.compute v.exact v.shadow.value).absoluteError = some 0) ∧
    (∀ x, evaluate s e = .error (.error x) → x.kind = .divisionByZero →
      (∃ shadow, x.shadow? = some shadow ∧ shadow.events ≠ []) ∨
      (x.shadow? = none ∧ ∃ text p n, .number text p ∈ e.preorder ∧
        Literal.SpellsFraction (Text.trim text.toList) n 0)) := by
  refine ⟨?_, ?_⟩
  · intro v h hevents
    obtain ⟨r, hexact, hvalue⟩ :=
      DualValue.faithful_of_ofExpr htable hnames (evaluate_eq_ok h) hevents
    cases hexact
    exact ⟨(Binary64.rational_eq_ok_iff.1 hvalue).1, hvalue, Metrics.compute_of_rational hvalue⟩
  · intro x h hkind
    rcases DualValue.dividedByZero_of_evaluate h hkind with ⟨v, p, hv, hp, rfl⟩ | ⟨rfl, hliteral⟩
    · -- With an empty trail the exact side would be there, and nothing would have divided by zero.
      refine Or.inl ⟨v.shadow, rfl, fun hevents => ?_⟩
      obtain ⟨r, hexact, -⟩ := DualValue.faithful_of_ofExpr htable hnames hv hevents
      rw [hp] at hexact
      cases hexact
    · exact Or.inr ⟨rfl, hliteral⟩

/-- The default symbols and a constant `half`. -/
def halves : SymbolTable :=
  ⟨SymbolTable.defaultConstants ++ [.rational "half" (1 / 2)], SymbolTable.default.functions⟩

theorem halves_extension : halves.ExactExtension := by
  have hmerge : SymbolTable.merge NamedConstant.name halves.constants = halves.constants := by
    decide +kernel
  have hclashes : SymbolTable.clashes halves.constants halves.functions = [] := by decide +kernel
  have hwith : SymbolTable.default.withConstants [.rational "half" (1 / 2)] = .ok halves := by
    show SymbolTable.ofEntries halves.constants halves.functions = _
    have hfunctions : SymbolTable.merge FunctionRule.name halves.functions = halves.functions := rfl
    rw [SymbolTable.ofEntries, hmerge, hfunctions, hclashes]
    rfl
  exact .extend .default (fun _ hc => ⟨_, _, _, List.mem_singleton.1 hc⟩) hwith

theorem namesExact_halves {e : Expr} (h : ∀ n p, .name n p ∈ e.preorder → n = "half") :
    DualValue.NamesExact halves e := by
  intro n p c hname hc
  have hhalf : halves.constant? "half" = some (.rational "half" (1 / 2)) := by decide +kernel
  rw [h n p hname, hhalf] at hc
  cases hc
  rfl

/-- Over a table with a constant `half`, the product `half * 3` leaves no event and is exact, and
the quotient `3 / (half - half)` leaves one. -/
theorem trail_of_halves :
    (Metrics.compute (3 / 2) (.ofBits 0x3FF8000000000000)).accuracy = .exact ∧
    ∃ x shadow, evaluate { symbols := halves } (.binary "/" (.number "3" 0)
      (.binary "-" (.name "half" 5) (.name "half" 12) 10) 2) = .error (.error x) ∧
      x.shadow? = some shadow ∧ shadow.events ≠ [] := by
  have hproduct : evaluate { symbols := halves } (.binary "*" (.name "half" 0) (.number "3" 7) 5) =
      .ok ⟨3 / 2, ⟨.ofBits 0x3FF8000000000000, []⟩, []⟩ := by
    decide +kernel
  have hfault : evaluate { symbols := halves } (.binary "/" (.number "3" 0)
      (.binary "-" (.name "half" 5) (.name "half" 12) 10) 2) =
      .error (.error (.dividedByZero 2 ⟨.infinity false, [⟨.operation .div
        (.ofBits 0x4008000000000000) (.zero false), .infinity false, .divideByZero⟩]⟩)) := by
    decide +kernel
  refine ⟨?_, ?_⟩
  · refine ((evaluate_trail { symbols := halves } halves_extension _ ?_).1 _ hproduct rfl).2.2.1
    refine namesExact_halves fun n p hn => ?_
    simp only [Expr.preorder, List.mem_cons, List.mem_append, reduceCtorEq, false_or, or_false,
      Expr.name.injEq, List.not_mem_nil] at hn
    exact hn.1
  · have htrail := (evaluate_trail { symbols := halves } halves_extension _ ?_).2 _ hfault rfl
    · rcases htrail with ⟨shadow, hshadow, hevents⟩ | ⟨⟨⟩, -⟩
      exact ⟨_, shadow, hfault, hshadow, hevents⟩
    · refine namesExact_halves fun n p hn => ?_
      simp only [Expr.preorder, List.mem_cons, List.mem_append, reduceCtorEq, false_or, or_false,
        Expr.name.injEq, List.not_mem_nil] at hn
      rcases hn with ⟨rfl, -⟩ | ⟨rfl, -⟩ <;> rfl

end Roundoff
