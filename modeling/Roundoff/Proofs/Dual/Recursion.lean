import Roundoff.Dual.Recursive
import Roundoff.Dual.Walk
import Roundoff.Proofs.Sequence

/-! # The walk and the recursion

The walk with its two stacks computes what the recursion on the tree computes: entering a tree
pushes the value of the tree, or stops for the reason the recursion stops (`Walk.run_enter`).  So
the walk ends with exactly one value, and no operand is ever missing (`Walk.values_eq`).

Facts about evaluations follow the recursion.  `DualValue.Hereditary.ofExpr` is the induction
over the trees that have a value, and `DualValue.raised_of_ofExpr` says at which node of the tree an
evaluation without a value stopped.
-/
namespace Roundoff

namespace DualValue

variable (s : Settings)

theorem ofExprs_cons_eq_ok {e : Expr} {es : List Expr} {vs : List DualValue} :
    ofExprs s (e :: es) = .ok vs ↔
      ∃ v us, ofExpr s e = .ok v ∧ ofExprs s es = .ok us ∧ vs = v :: us := by
  rw [ofExprs, bind_eq_ok]
  constructor
  · rintro ⟨v, hv, h⟩
    obtain ⟨us, hus, ⟨⟩⟩ := bind_eq_ok.1 h
    exact ⟨v, us, hv, hus, rfl⟩
  · rintro ⟨v, us, hv, hus, rfl⟩
    exact ⟨v, hv, bind_eq_ok.2 ⟨us, hus, rfl⟩⟩

theorem length_ofExprs {es : List Expr} {vs : List DualValue} (h : ofExprs s es = .ok vs) :
    vs.length = es.length := by
  induction es generalizing vs with
  | nil =>
    cases h
    rfl
  | cons e es ih =>
    obtain ⟨v, us, -, hus, rfl⟩ := (ofExprs_cons_eq_ok s).1 h
    rw [List.length_cons, ih hus, List.length_cons]

end DualValue

namespace Walk

variable (s : Settings)

/-- The operands of a call lie on the stack in reverse, above the values of earlier nodes. -/
theorem apply_call (n : String) (p : Int) (us vs : List DualValue) :
    apply s (.call n us.length p) (us.reverse ++ vs) =
      (DualValue.call s n p us).bind fun v => .ok (v :: vs) := by
  have hlen : us.reverse.length = us.length := List.length_reverse
  rw [apply, if_neg (by simp), ← hlen, List.take_left, List.drop_left, List.reverse_reverse]
  rfl

mutual

/-- **Entering a tree pushes its value**, or stops as the recursion does. -/
theorem run_enter : ∀ (e : Expr) (ts : List Task) (vs : List DualValue),
    run s (.enter e :: ts) vs = (DualValue.ofExpr s e).bind fun v => run s ts (v :: vs)
  | .number text p, ts, vs => by
    rw [run, DualValue.ofExpr]
    cases DualValue.ofLiteral s text p <;> rfl
  | .name n p, ts, vs => by
    rw [run, DualValue.ofExpr]
    cases DualValue.ofName s n p <;> rfl
  | .unary op e p, ts, vs => by
    rw [run, run_enter e, DualValue.ofExpr]
    cases DualValue.ofExpr s e with
    | error x => rfl
    | ok v =>
      show run s (.apply (.unary op) :: ts) (v :: vs) = _
      rw [run]
      rfl
  | .binary op l r p, ts, vs => by
    rw [run, run_enter l, DualValue.ofExpr]
    cases DualValue.ofExpr s l with
    | error x => rfl
    | ok x =>
      show run s (.enter r :: .apply (.binary op p) :: ts) (x :: vs) = _
      rw [run_enter r]
      cases hr : DualValue.ofExpr s r with
      | error y => rfl
      | ok y =>
        show run s (.apply (.binary op p) :: ts) (y :: x :: vs)
          = (DualValue.binary s op p x y).bind fun v => run s ts (v :: vs)
        rw [run, apply]
        cases DualValue.binary s op p x y <;> rfl
  | .call n args p, ts, vs => by
    rw [run, DualValue.ofExpr]
    -- The name is resolved before the arguments are entered, in the walk and in the recursion.
    cases DualValue.resolve s n args.length p with
    | error x => rfl
    | ok f =>
      show run s (args.map .enter ++ .apply (.call n args.length p) :: ts) vs
        = ((DualValue.ofExprs s args).bind fun us => DualValue.call s n p us).bind
            fun v => run s ts (v :: vs)
      rw [run_enters args]
      cases hus : DualValue.ofExprs s args with
      | error x => rfl
      | ok us =>
        show run s (.apply (.call n args.length p) :: ts) (us.reverse ++ vs)
          = (DualValue.call s n p us).bind fun v => run s ts (v :: vs)
        rw [run, ← DualValue.length_ofExprs s hus, apply_call]
        cases DualValue.call s n p us <;> rfl

/-- Entering trees pushes their values, the last one uppermost. -/
theorem run_enters : ∀ (es : List Expr) (ts : List Task) (vs : List DualValue),
    run s (es.map .enter ++ ts) vs =
      (DualValue.ofExprs s es).bind fun us => run s ts (us.reverse ++ vs)
  | [], ts, vs => rfl
  | e :: es, ts, vs => by
    rw [List.map_cons, List.cons_append, run_enter e, DualValue.ofExprs]
    cases DualValue.ofExpr s e with
    | error x => rfl
    | ok v =>
      show run s (es.map .enter ++ ts) (v :: vs) = _
      rw [run_enters es]
      cases DualValue.ofExprs s es with
      | error x => rfl
      | ok us =>
        show run s ts (us.reverse ++ v :: vs) = run s ts ((v :: us).reverse ++ vs)
        rw [List.reverse_cons, List.append_assoc]
        rfl

end

/-- **The walk computes the value that the recursion gives.** -/
theorem values_eq (e : Expr) : values s e = DualValue.ofExpr s e := by
  rw [values, run_enter]
  cases DualValue.ofExpr s e with
  | error x => rfl
  | ok v =>
    show ((run s [] [v]).bind _ : Except Stop DualValue) = _
    rw [run]
    rfl

end Walk

theorem evaluate_eq (s : Settings) (e : Expr) :
    evaluate s e = (DualValue.ofExpr s e).bind DualValue.toEvaluation := by
  rw [evaluate, Walk.values_eq]
  rfl

/-- A result is the value of the tree, with both of its sides. -/
theorem evaluate_eq_ok {s : Settings} {e : Expr} {v : Evaluation} (h : evaluate s e = .ok v) :
    DualValue.ofExpr s e = .ok ⟨.ok v.exact, v.shadow, v.approximations⟩ := by
  rw [evaluate_eq] at h
  obtain ⟨⟨exact, shadow, names⟩, hw, h⟩ := bind_eq_ok.1 h
  cases exact with
  | error p => cases h
  | ok r =>
    cases h
    exact hw

/-! ## Induction over evaluations -/

namespace Expr

theorem self_mem_preorder (e : Expr) : e ∈ e.preorder := by
  cases e <;> simp [preorder]

theorem mem_preorderList {e x : Expr} {es : List Expr} (he : e ∈ es) (hx : x ∈ e.preorder) :
    x ∈ preorderList es := by
  induction es with
  | nil => cases he
  | cons e' es ih =>
    rw [preorderList, List.mem_append]
    rcases List.mem_cons.1 he with rfl | he
    · exact Or.inl hx
    · exact Or.inr (ih he)

mutual

/-- The nodes of a tree of nodes are nodes of the whole tree. -/
theorem mem_preorder_trans : ∀ (root : Expr) {e n : Expr}, e ∈ root.preorder → n ∈ e.preorder →
    n ∈ root.preorder
  | .number text p, e, n, he, hn => by
    rw [List.mem_singleton.1 he] at hn
    exact hn
  | .name m p, e, n, he, hn => by
    rw [List.mem_singleton.1 he] at hn
    exact hn
  | .unary op x p, e, n, he, hn => by
    rcases List.mem_cons.1 he with rfl | he
    · exact hn
    · exact List.mem_cons_of_mem _ (mem_preorder_trans x he hn)
  | .binary op l r p, e, n, he, hn => by
    rcases List.mem_cons.1 he with rfl | he
    · exact hn
    · refine List.mem_cons_of_mem _ (List.mem_append.2 ?_)
      rcases List.mem_append.1 he with he | he
      · exact Or.inl (mem_preorder_trans l he hn)
      · exact Or.inr (mem_preorder_trans r he hn)
  | .call m args p, e, n, he, hn => by
    rcases List.mem_cons.1 he with rfl | he
    · exact hn
    · exact List.mem_cons_of_mem _ (mem_preorderList_trans args he hn)

theorem mem_preorderList_trans : ∀ (es : List Expr) {e n : Expr}, e ∈ preorderList es →
    n ∈ e.preorder → n ∈ preorderList es
  | [], e, n, he, hn => by cases he
  | x :: es, e, n, he, hn => by
    rw [preorderList] at he ⊢
    rcases List.mem_append.1 he with he | he
    · exact List.mem_append_left _ (mem_preorder_trans x he hn)
    · exact List.mem_append_right _ (mem_preorderList_trans es he hn)

end

/-- The operands of a node are nodes of the tree. -/
theorem mem_preorder_of_mem_children {root e c : Expr} (he : e ∈ root.preorder)
    (hc : c ∈ e.children) : c ∈ root.preorder := by
  refine mem_preorder_trans root he ?_
  cases e with
  | number | name => cases hc
  | unary op x p =>
    rw [List.mem_singleton.1 hc]
    exact List.mem_cons_of_mem _ (self_mem_preorder x)
  | binary op l r p =>
    refine List.mem_cons_of_mem _ (List.mem_append.2 ?_)
    rcases List.mem_pair.1 hc with rfl | rfl
    · exact Or.inl (self_mem_preorder _)
    · exact Or.inr (self_mem_preorder _)
  | call n args p => exact List.mem_cons_of_mem _ (mem_preorderList hc (self_mem_preorder c))

end Expr

namespace DualValue

variable {s : Settings}

theorem exists_mem_of_forall₂ {P : Expr → DualValue → Prop} {es : List Expr}
    {vs : List DualValue} (h : List.Forall₂ P es vs) {v : DualValue} (hv : v ∈ vs) :
    ∃ e ∈ es, P e v := by
  induction h with
  | nil => cases hv
  | cons he _ ih =>
    rcases List.mem_cons.1 hv with rfl | hv
    · exact ⟨_, List.mem_cons_self .., he⟩
    · obtain ⟨e, hmem, he⟩ := ih hv
      exact ⟨e, List.mem_cons_of_mem _ hmem, he⟩

/-- A property of trees and their values that every node has if its operands have it. -/
structure Hereditary (s : Settings) (P : Expr → DualValue → Prop) : Prop where
  number : ∀ text p v, ofLiteral s text p = .ok v → P (.number text p) v
  name : ∀ n p v, ofName s n p = .ok v → P (.name n p) v
  unary : ∀ op e p v, P e v → P (.unary op e p) (DualValue.unary op v)
  binary : ∀ op l r p x y v, P l x → P r y → DualValue.binary s op p x y = .ok v →
    P (.binary op l r p) v
  call : ∀ n args p vs v, List.Forall₂ P args vs → DualValue.call s n p vs = .ok v →
    P (.call n args p) v

mutual

/-- **Induction over the trees that have a value**: a property that every node has if its operands
have it holds of every tree and its value. -/
theorem Hereditary.ofExpr {P : Expr → DualValue → Prop} (hP : Hereditary s P) :
    ∀ (e : Expr) (v : DualValue), ofExpr s e = .ok v → P e v
  | .number text p, v, h => hP.number text p v (by rw [DualValue.ofExpr] at h; exact h)
  | .name n p, v, h => hP.name n p v (by rw [DualValue.ofExpr] at h; exact h)
  | .unary op e p, v, h => by
    rw [DualValue.ofExpr] at h
    obtain ⟨x, he, ⟨⟩⟩ := bind_eq_ok.1 h
    exact hP.unary op e p x (hP.ofExpr e x he)
  | .binary op l r p, v, h => by
    rw [DualValue.ofExpr] at h
    obtain ⟨x, hl, h⟩ := bind_eq_ok.1 h
    obtain ⟨y, hr, h⟩ := bind_eq_ok.1 h
    exact hP.binary op l r p x y v (hP.ofExpr l x hl) (hP.ofExpr r y hr) h
  | .call n args p, v, h => by
    rw [DualValue.ofExpr] at h
    obtain ⟨f, -, h⟩ := bind_eq_ok.1 h
    obtain ⟨vs, hvs, h⟩ := bind_eq_ok.1 h
    exact hP.call n args p vs v (hP.ofExprs args vs hvs) h

theorem Hereditary.ofExprs {P : Expr → DualValue → Prop} (hP : Hereditary s P) :
    ∀ (es : List Expr) (vs : List DualValue), ofExprs s es = .ok vs → List.Forall₂ P es vs
  | [], vs, h => by
    cases h
    exact .nil
  | e :: es, vs, h => by
    obtain ⟨v, us, hv, hus, rfl⟩ := (ofExprs_cons_eq_ok s).1 h
    exact .cons (hP.ofExpr e v hv) (hP.ofExprs es us hus)

end

/-! ## Where an evaluation stops -/

/-- A node stops the evaluation for a reason, its operands having values. -/
inductive RaisedAt (s : Settings) : Expr → Stop → Prop
  | number {text : String} {p : Int} {x : Stop} : ofLiteral s text p = .error x →
      RaisedAt s (.number text p) x
  | name {n : String} {p : Int} {x : Stop} : ofName s n p = .error x → RaisedAt s (.name n p) x
  | binary {op : String} {l r : Expr} {p : Int} {v w : DualValue} {x : Stop} :
      ofExpr s l = .ok v → ofExpr s r = .ok w → DualValue.binary s op p v w = .error x →
      RaisedAt s (.binary op l r p) x
  | resolve {n : String} {args : List Expr} {p : Int} {x : Stop} :
      DualValue.resolve s n args.length p = .error x → RaisedAt s (.call n args p) x
  | call {n : String} {args : List Expr} {p : Int} {vs : List DualValue} {x : Stop} :
      ofExprs s args = .ok vs → DualValue.call s n p vs = .error x → RaisedAt s (.call n args p) x

mutual

/-- **An evaluation without a value stopped at a node of the tree.** -/
theorem raised_of_ofExpr : ∀ (e : Expr) (x : Stop), ofExpr s e = .error x →
    ∃ node ∈ e.preorder, RaisedAt s node x
  | .number text p, x, h => ⟨_, Expr.self_mem_preorder _, .number (by rw [ofExpr] at h; exact h)⟩
  | .name n p, x, h => ⟨_, Expr.self_mem_preorder _, .name (by rw [ofExpr] at h; exact h)⟩
  | .unary op e p, x, h => by
    rw [ofExpr] at h
    rcases bind_eq_error.1 h with h | ⟨v, -, h⟩
    · obtain ⟨node, hnode, hr⟩ := raised_of_ofExpr e x h
      exact ⟨node, List.mem_cons_of_mem _ hnode, hr⟩
    · cases h
  | .binary op l r p, x, h => by
    rw [ofExpr] at h
    rcases bind_eq_error.1 h with h | ⟨v, hv, h⟩
    · obtain ⟨node, hnode, hr⟩ := raised_of_ofExpr l x h
      exact ⟨node, List.mem_cons_of_mem _ (List.mem_append_left _ hnode), hr⟩
    · rcases bind_eq_error.1 h with h | ⟨w, hw, h⟩
      · obtain ⟨node, hnode, hr⟩ := raised_of_ofExpr r x h
        exact ⟨node, List.mem_cons_of_mem _ (List.mem_append_right _ hnode), hr⟩
      · exact ⟨_, Expr.self_mem_preorder _, .binary hv hw h⟩
  | .call n args p, x, h => by
    rw [ofExpr] at h
    rcases bind_eq_error.1 h with h | ⟨f, -, h⟩
    · exact ⟨_, Expr.self_mem_preorder _, .resolve h⟩
    · rcases bind_eq_error.1 h with h | ⟨vs, hvs, h⟩
      · obtain ⟨node, hnode, hr⟩ := raised_of_ofExprs args x h
        exact ⟨node, List.mem_cons_of_mem _ hnode, hr⟩
      · exact ⟨_, Expr.self_mem_preorder _, .call hvs h⟩

theorem raised_of_ofExprs : ∀ (es : List Expr) (x : Stop), ofExprs s es = .error x →
    ∃ node ∈ Expr.preorderList es, RaisedAt s node x
  | [], x, h => by cases h
  | e :: es, x, h => by
    rw [ofExprs] at h
    rcases bind_eq_error.1 h with h | ⟨v, -, h⟩
    · obtain ⟨node, hnode, hr⟩ := raised_of_ofExpr e x h
      exact ⟨node, List.mem_append_left _ hnode, hr⟩
    · rcases bind_eq_error.1 h with h | ⟨us, -, h⟩
      · obtain ⟨node, hnode, hr⟩ := raised_of_ofExprs es x h
        exact ⟨node, List.mem_append_right _ hnode, hr⟩
      · cases h

end

end DualValue

/-- **How an evaluation stops**: at a node of the tree, or at its end because the exact side divided
by zero. -/
theorem evaluate_eq_error {s : Settings} {e : Expr} {x : Stop} (h : evaluate s e = .error x) :
    (∃ node ∈ e.preorder, DualValue.RaisedAt s node x) ∨
      ∃ v p, DualValue.ofExpr s e = .ok v ∧ v.exact = .error p ∧
        x = .error (.dividedByZero p v.shadow) := by
  rw [evaluate_eq] at h
  rcases bind_eq_error.1 h with h | ⟨v, hv, h⟩
  · exact Or.inl (DualValue.raised_of_ofExpr e x h)
  · rw [DualValue.toEvaluation] at h
    split at h
    · cases h
    · rename_i p hp
      cases h
      exact Or.inr ⟨v, p, hv, hp, rfl⟩

end Roundoff
