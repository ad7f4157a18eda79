import Roundoff.Proofs.Dual.Recursion

/-! # The stack in the course of a walk

A walk goes on in steps (`Walk.step`), from the root alone and an empty stack.  Whenever a node is
to be applied, the values of its operands lie on top of the stack, the last one uppermost, and there
are as many as the node has operands, none for a call without arguments.  The invariant
(`Walk.Provided`) follows the tasks that remain: once the recursion gives the next operand a value,
then with this value on the stack the later tasks find theirs.
-/
namespace Roundoff

open DualValue (ofExpr ofExprs)

/-- What waits for the operands of a node. -/
def Expr.pending? : Expr → Option Pending
  | number _ _ => none
  | name _ _ => none
  | unary op _ _ => some (.unary op)
  | binary op _ _ p => some (.binary op p)
  | call n args p => some (.call n args.length p)

namespace Walk

variable (s : Settings)

/-- One step of a walk: what the next task puts on the stack, or leaves to do before the others. -/
def step : Task → List Task → List DualValue → Except Stop (List Task × List DualValue)
  | .enter (.number text p), ts, vs => do
    let v ← DualValue.ofLiteral s text p
    return (ts, v :: vs)
  | .enter (.name n p), ts, vs => do
    let v ← DualValue.ofName s n p
    return (ts, v :: vs)
  | .enter (.unary op e _), ts, vs => return (.enter e :: .apply (.unary op) :: ts, vs)
  | .enter (.binary op l r p), ts, vs =>
    return (.enter l :: .enter r :: .apply (.binary op p) :: ts, vs)
  | .enter (.call n args p), ts, vs => do
    let _ ← DualValue.resolve s n args.length p
    return (args.map .enter ++ .apply (.call n args.length p) :: ts, vs)
  | .apply f, ts, vs => do
    let vs ← apply s f vs
    return (ts, vs)

/-- A walk over a tree comes to these tasks, with these values on the stack. -/
inductive Reaches (root : Expr) : List Task → List DualValue → Prop
  | start : Reaches root [.enter root] []
  | next {t : Task} {ts ts' : List Task} {vs vs' : List DualValue} : Reaches root (t :: ts) vs →
      step s t ts vs = .ok (ts', vs') → Reaches root ts' vs'

/-! ## Steps and runs -/

theorem run_cons (t : Task) (ts : List Task) (vs : List DualValue) :
    run s (t :: ts) vs = step s t ts vs >>= fun c => run s c.1 c.2 := by
  cases t with
  | enter e =>
    cases e with
    | number text p =>
      rw [run, step]
      cases DualValue.ofLiteral s text p <;> rfl
    | name n p =>
      rw [run, step]
      cases DualValue.ofName s n p <;> rfl
    | unary op e p =>
      rw [run]
      rfl
    | binary op l r p =>
      rw [run]
      rfl
    | call n args p =>
      rw [run, step]
      cases DualValue.resolve s n args.length p <;> rfl
  | apply f =>
    rw [run, step]
    cases apply s f vs <;> rfl

variable {s} {root : Expr}

/-- The rest of a walk gives what the whole walk gives. -/
theorem Reaches.run_eq {ts : List Task} {vs : List DualValue} (h : Reaches s root ts vs) :
    run s [.enter root] [] = run s ts vs := by
  induction h with
  | start => rfl
  | next _ hstep ih => rw [ih, run_cons, hstep, ok_bind]

theorem totalWeight_step {t : Task} {ts ts' : List Task} {vs vs' : List DualValue}
    (h : step s t ts vs = .ok (ts', vs')) :
    Task.totalWeight ts' < Task.totalWeight (t :: ts) := by
  cases t with
  | enter e =>
    cases e with
    | number text p =>
      obtain ⟨v, -, ⟨⟩⟩ := bind_eq_ok.1 h
      simp [Task.weight, Expr.size]
    | name n p =>
      obtain ⟨v, -, ⟨⟩⟩ := bind_eq_ok.1 h
      simp [Task.weight, Expr.size]
    | unary op e p =>
      cases h
      simp only [Task.totalWeight_cons, Task.weight, Expr.size]
      omega
    | binary op l r p =>
      cases h
      simp only [Task.totalWeight_cons, Task.weight, Expr.size]
      omega
    | call n args p =>
      obtain ⟨f, -, ⟨⟩⟩ := bind_eq_ok.1 h
      simp only [Task.totalWeight_append, Task.totalWeight_map_enter, Task.totalWeight_cons,
        Task.weight, Expr.size]
      omega
  | apply f =>
    obtain ⟨us, -, ⟨⟩⟩ := bind_eq_ok.1 h
    simp [Task.weight]

/-- A walk ends without tasks, or at a task whose step stops. -/
theorem Reaches.ends {ts : List Task} {vs : List DualValue} (h : Reaches s root ts vs) :
    (∃ us, Reaches s root [] us) ∨
      ∃ t ts vs x, Reaches s root (t :: ts) vs ∧ step s t ts vs = .error x := by
  induction hn : Task.totalWeight ts using Nat.strong_induction_on generalizing ts vs with
  | _ n ih =>
    subst hn
    cases ts with
    | nil => exact Or.inl ⟨vs, h⟩
    | cons t ts =>
      cases hstep : step s t ts vs with
      | error x => exact Or.inr ⟨t, ts, vs, x, h, hstep⟩
      | ok c => exact ih _ (totalWeight_step hstep) (h.next hstep) rfl

theorem run_eq_ok_iff {us : List DualValue} :
    run s [.enter root] [] = .ok us ↔ Reaches s root [] us := by
  constructor
  · intro hrun
    have hstart : Reaches s root [.enter root] [] := .start
    rcases hstart.ends with ⟨ws, hws⟩ | ⟨t, ts, vs, x, h, hstep⟩
    · have heq := hws.run_eq
      rw [hrun, run] at heq
      cases heq
      exact hws
    · have heq := h.run_eq
      rw [hrun, run_cons, hstep] at heq
      cases heq
  · intro h
    rw [h.run_eq, run]

theorem run_eq_error_iff {x : Stop} : run s [.enter root] [] = .error x ↔
    ∃ t ts vs, Reaches s root (t :: ts) vs ∧ step s t ts vs = .error x := by
  constructor
  · intro hrun
    have hstart : Reaches s root [.enter root] [] := .start
    rcases hstart.ends with ⟨ws, hws⟩ | ⟨t, ts, vs, y, h, hstep⟩
    · have heq := hws.run_eq
      rw [hrun, run] at heq
      cases heq
    · have heq := h.run_eq
      rw [hrun, run_cons, hstep] at heq
      cases heq
      exact ⟨t, ts, vs, h, hstep⟩
  · rintro ⟨t, ts, vs, h, hstep⟩
    rw [h.run_eq, run_cons, hstep]
    rfl

/-! ## Operands -/

/-- The node whose operands have just been evaluated is applied as the recursion applies it. -/
theorem apply_pending {e : Expr} {f : Pending} (hf : e.pending? = some f) {us : List DualValue}
    (hus : ofExprs s e.children = .ok us) (vs : List DualValue) :
    apply s f (us.reverse ++ vs) = ofExpr s e >>= fun v => .ok (v :: vs) := by
  cases e with
  | number | name => cases hf
  | unary op x p =>
    cases hf
    obtain ⟨v, ws, hv, hws, rfl⟩ := (DualValue.ofExprs_cons_eq_ok s).1 hus
    cases hws
    rw [ofExpr, hv]
    rfl
  | binary op l r p =>
    cases hf
    obtain ⟨x, ys, hx, hys, rfl⟩ := (DualValue.ofExprs_cons_eq_ok s).1 hus
    obtain ⟨y, zs, hy, hzs, rfl⟩ := (DualValue.ofExprs_cons_eq_ok s).1 hys
    cases hzs
    rw [ofExpr, hx, hy]
    rfl
  | call n args p =>
    cases hf
    have hcount : us.length = args.length := DualValue.length_ofExprs s hus
    have hargs : ofExprs s args = .ok us := hus
    rw [← hcount, apply_call, ofExpr, hargs, ← hcount]
    -- A call looks its name up once more, with the same answer.
    cases hresolve : DualValue.resolve s n us.length p with
    | error x =>
      rw [DualValue.call, hresolve]
      rfl
    | ok g => rfl

/-- **What the walk has provided for.**  The trees still to be entered are nodes of the root, and
the operands of a node to be applied are on top of the stack when its turn comes. -/
def Provided (s : Settings) (root : Expr) : List Task → List DualValue → Prop
  | [], _ => True
  | .enter e :: ts, vs => e ∈ root.preorder ∧
      ∀ v, ofExpr s e = .ok v → Provided s root ts (v :: vs)
  | .apply f :: ts, vs => ∃ node ∈ root.preorder, ∃ us rest, node.pending? = some f ∧
      ofExprs s node.children = .ok us ∧ vs = us.reverse ++ rest ∧
      ∀ v, ofExpr s node = .ok v → Provided s root ts (v :: rest)

theorem provided_enters {es : List Expr} (hes : ∀ e ∈ es, e ∈ root.preorder) {ts : List Task}
    {vs : List DualValue}
    (hts : ∀ us, ofExprs s es = .ok us → Provided s root ts (us.reverse ++ vs)) :
    Provided s root (es.map .enter ++ ts) vs := by
  induction es generalizing vs with
  | nil => exact hts [] rfl
  | cons e es ih =>
    refine ⟨hes e (List.mem_cons_self ..), fun v hv => ?_⟩
    refine ih (fun x hx => hes x (List.mem_cons_of_mem _ hx)) fun us hus => ?_
    have hall := hts (v :: us) ((DualValue.ofExprs_cons_eq_ok s).2 ⟨v, us, hv, hus, rfl⟩)
    rw [List.reverse_cons, List.append_assoc] at hall
    exact hall

/-- A node with operands provides for itself: they are entered first, and then it is applied. -/
theorem provided_operands {e : Expr} (he : e ∈ root.preorder) {f : Pending}
    (hf : e.pending? = some f) {ts : List Task} {vs : List DualValue}
    (hts : ∀ v, ofExpr s e = .ok v → Provided s root ts (v :: vs)) :
    Provided s root (e.children.map .enter ++ .apply f :: ts) vs :=
  provided_enters (fun _ hc => Expr.mem_preorder_of_mem_children he hc) fun us hus =>
    ⟨e, he, us, vs, hf, hus, rfl, hts⟩

/-- **Each step provides for the next.** -/
theorem provided_step {t : Task} {ts ts' : List Task} {vs vs' : List DualValue}
    (h : Provided s root (t :: ts) vs) (hstep : step s t ts vs = .ok (ts', vs')) :
    Provided s root ts' vs' := by
  cases t with
  | enter e =>
    obtain ⟨he, hts⟩ := h
    cases e with
    | number text p =>
      obtain ⟨v, hv, ⟨⟩⟩ := bind_eq_ok.1 hstep
      exact hts v (by rw [ofExpr, hv])
    | name n p =>
      obtain ⟨v, hv, ⟨⟩⟩ := bind_eq_ok.1 hstep
      exact hts v (by rw [ofExpr, hv])
    | unary op x p =>
      cases hstep
      exact provided_operands he rfl hts
    | binary op l r p =>
      cases hstep
      exact provided_operands he rfl hts
    | call n args p =>
      obtain ⟨f, -, ⟨⟩⟩ := bind_eq_ok.1 hstep
      exact provided_operands he rfl hts
  | apply f =>
    obtain ⟨node, -, us, rest, hf, hus, rfl, hts⟩ := h
    obtain ⟨ws, happly, ⟨⟩⟩ := bind_eq_ok.1 hstep
    rw [apply_pending hf hus] at happly
    obtain ⟨v, hv, ⟨⟩⟩ := bind_eq_ok.1 happly
    exact hts v hv

theorem Reaches.provided {ts : List Task} {vs : List DualValue} (h : Reaches s root ts vs) :
    Provided s root ts vs := by
  induction h with
  | start => exact ⟨Expr.self_mem_preorder root, fun _ _ => trivial⟩
  | next _ hstep ih => exact provided_step ih hstep

/-- Every value on the stack is that of a node of the tree. -/
theorem Reaches.exists_node {ts : List Task} {vs : List DualValue} (h : Reaches s root ts vs) :
    ∀ v ∈ vs, ∃ n ∈ root.preorder, ofExpr s n = .ok v := by
  induction h with
  | start => exact fun _ hv => (nomatch hv)
  | @next t ts ts' vs vs' h hstep ih =>
    have hprovided := h.provided
    -- What a step pushes is the value of a node, and the values below it were there before.
    have hpush : ∀ {n : Expr} {w : DualValue} {us : List DualValue}, n ∈ root.preorder →
        ofExpr s n = .ok w → us ⊆ vs → ∀ v ∈ w :: us, ∃ n ∈ root.preorder, ofExpr s n = .ok v := by
      intro n w us hn hw hus v hv
      rcases List.mem_cons.1 hv with rfl | hv
      · exact ⟨n, hn, hw⟩
      · exact ih v (hus hv)
    cases t with
    | enter e =>
      obtain ⟨he, -⟩ := hprovided
      cases e with
      | number text p =>
        obtain ⟨w, hw, ⟨⟩⟩ := bind_eq_ok.1 hstep
        exact hpush he (by rw [ofExpr, hw]) (List.Subset.refl vs)
      | name n p =>
        obtain ⟨w, hw, ⟨⟩⟩ := bind_eq_ok.1 hstep
        exact hpush he (by rw [ofExpr, hw]) (List.Subset.refl vs)
      | unary op x p =>
        cases hstep
        exact ih
      | binary op l r p =>
        cases hstep
        exact ih
      | call n args p =>
        obtain ⟨f, -, ⟨⟩⟩ := bind_eq_ok.1 hstep
        exact ih
    | apply f =>
      obtain ⟨node, hnode, us, rest, hf, hus, rfl, -⟩ := hprovided
      obtain ⟨ws, happly, ⟨⟩⟩ := bind_eq_ok.1 hstep
      rw [apply_pending hf hus] at happly
      obtain ⟨w, hw, ⟨⟩⟩ := bind_eq_ok.1 happly
      exact hpush hnode hw (List.subset_append_right _ _)

/-- **The walk is the recursion, step by step.**  A walk over a tree leaves exactly one value on the
stack, the one that the recursion gives, or stops with the error that the recursion stops with.  It
comes to its end, or to its error, in steps; and whenever a step applies a node, the values of the
operands of this node, as many as it has, are on top of the stack. -/
theorem run_refines (s : Settings) (root : Expr) :
    run s [.enter root] [] = (ofExpr s root >>= fun v => .ok [v]) ∧
    values s root = ofExpr s root ∧
    (∀ us, run s [.enter root] [] = .ok us ↔ Reaches s root [] us) ∧
    (∀ x, run s [.enter root] [] = .error x ↔
      ∃ t ts vs, Reaches s root (t :: ts) vs ∧ step s t ts vs = .error x) ∧
    ∀ f ts vs, Reaches s root (.apply f :: ts) vs →
      ∃ node ∈ root.preorder, ∃ us rest, node.pending? = some f ∧
        ofExprs s node.children = .ok us ∧ us.length = node.children.length ∧
        vs = us.reverse ++ rest := by
  refine ⟨?_, values_eq s root, fun us => run_eq_ok_iff, fun x => run_eq_error_iff, ?_⟩
  · rw [run_enter]
    cases ofExpr s root with
    | error x => rfl
    | ok v =>
      show run s [] [v] = .ok [v]
      rw [run]
  · intro f ts vs h
    obtain ⟨node, hnode, us, rest, hf, hus, hvs, -⟩ := h.provided
    exact ⟨node, hnode, us, rest, hf, hus, DualValue.length_ofExprs s hus, hvs⟩

/-- Settings whose only symbol is a function without arguments. -/
def noughts : Settings where
  symbols := ⟨[], [{ name := "nought", arity := 0, exact := fun _ => .ok 0
                     shadow := fun _ => ⟨.zero false, []⟩ }]⟩

/-- In `1 + nought()` the call finds its values, none, above the value of the left operand. -/
theorem refines_nought : ∃ v,
    Reaches noughts (.binary "+" (.number "1" 0) (.call "nought" [] 4) 2)
      [.apply (.call "nought" 0 4), .apply (.binary "+" 2)] [v] ∧
    ∃ node ∈ (Expr.binary "+" (.number "1" 0) (.call "nought" [] 4) 2).preorder,
      ∃ us rest, node.pending? = some (.call "nought" 0 4) ∧
        ofExprs noughts node.children = .ok us ∧ us.length = node.children.length ∧
        [v] = us.reverse ++ rest := by
  have hone : (DualValue.ofLiteral noughts "1" 0).isOk = true := by decide +kernel
  obtain ⟨v, hv⟩ : ∃ v, DualValue.ofLiteral noughts "1" 0 = .ok v := by
    cases h : DualValue.ofLiteral noughts "1" 0 with
    | error x =>
      rw [h] at hone
      cases hone
    | ok v => exact ⟨v, rfl⟩
  have hnumber : step noughts (.enter (.number "1" 0))
      [.enter (.call "nought" [] 4), .apply (.binary "+" 2)] [] =
      .ok ([.enter (.call "nought" [] 4), .apply (.binary "+" 2)], [v]) := by
    rw [step, hv]
    rfl
  have hreaches : Reaches noughts (.binary "+" (.number "1" 0) (.call "nought" [] 4) 2)
      [.apply (.call "nought" 0 4), .apply (.binary "+" 2)] [v] :=
    ((Reaches.start.next rfl).next hnumber).next rfl
  exact ⟨v, hreaches, (run_refines noughts _).2.2.2.2 _ _ _ hreaches⟩

end Walk

end Roundoff
