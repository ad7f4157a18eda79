import Roundoff.Proofs.Expr.Acceptance
import Roundoff.Proofs.Dual.Recursion

/-! # Where nodes and errors come from

Every node of a derived tree stands for one token of its phrase: it has the token's text, position
and kind, and no more operands than the phrase has room for (`Derives.comesFrom`).  An error of the
parser is reported at the position of a token too, or at the start of the line
(`parse_within`): whatever holds of the positions of all tokens holds of the position of the error.
-/
namespace Roundoff

namespace Expr

/-- The kind of the token that a node stands for. -/
def tokenKind : Expr → TokenKind
  | number _ _ => .number
  | name _ _ => .identifier
  | unary _ _ _ => .operator
  | binary _ _ _ _ => .operator
  | call _ _ _ => .identifier

theorem exists_of_mem_preorderList {n : Expr} {es : List Expr} (h : n ∈ preorderList es) :
    ∃ e ∈ es, n ∈ e.preorder := by
  induction es with
  | nil => cases h
  | cons e es ih =>
    rcases List.mem_append.1 h with h | h
    · exact ⟨e, List.mem_cons_self .., h⟩
    · obtain ⟨e', he', h⟩ := ih h
      exact ⟨e', List.mem_cons_of_mem _ he', h⟩

end Expr

/-! ## Nodes -/

namespace Grammar

/-- The node stands for one of the tokens, and its operands are not more than the tokens and
one. -/
structure ComesFrom (ts : List Token) (n : Expr) : Prop where
  token : ∃ t ∈ ts, t.kind = n.tokenKind ∧ t.text = n.label ∧ t.position = n.position
  operands : n.children.length ≤ ts.length + 1

theorem ComesFrom.sublist {ts us : List Token} {n : Expr} (h : ComesFrom ts n)
    (hsub : ts.Sublist us) : ComesFrom us n := by
  obtain ⟨t, ht, hnode⟩ := h.token
  have hlength := hsub.length_le
  exact ⟨⟨t, hsub.subset ht, hnode⟩, h.operands.trans (by omega)⟩

theorem Separated.length_le {ts : List Token} {parts : List (List Token)}
    (h : Separated ts parts) : parts.length ≤ ts.length + 1 := by
  induction h with
  | one => simp
  | more _ _ ih =>
    simp only [List.length_cons, List.length_append]
    omega

theorem Separated.sublist {ts part : List Token} {parts : List (List Token)}
    (h : Separated ts parts) (hpart : part ∈ parts) : part.Sublist ts := by
  induction h with
  | one => rw [List.mem_singleton.1 hpart]
  | more _ _ ih =>
    rcases List.mem_cons.1 hpart with rfl | hpart
    · exact List.sublist_append_left _ _
    · exact (ih hpart).trans ((List.sublist_cons_self _ _).trans (List.sublist_append_right _ _))

theorem comesFrom_binary {xs ys : List Token} {t : Token} {l r : Expr} (hkind : t.kind = .operator)
    (hl : ∀ n ∈ l.preorder, ComesFrom xs n) (hr : ∀ n ∈ r.preorder, ComesFrom ys n) :
    ∀ n ∈ (Expr.binary t.text l r t.position).preorder, ComesFrom (xs ++ t :: ys) n := by
  intro n hn
  rcases List.mem_cons.1 hn with rfl | hn
  · refine ⟨⟨t, by simp, hkind, rfl, rfl⟩, ?_⟩
    simp only [Expr.children, List.length_cons, List.length_nil, List.length_append]
    omega
  · rcases List.mem_append.1 hn with hn | hn
    · exact (hl n hn).sublist (List.sublist_append_left _ _)
    · exact (hr n hn).sublist ((List.sublist_cons_self _ _).trans (List.sublist_append_right _ _))

/-- **Every node of a derived tree stands for a token of its phrase.** -/
theorem Derives.comesFrom {L : Level} {ts : List Token} {e : Expr} (h : Derives L ts e) :
    ∀ n ∈ e.preorder, ComesFrom ts n := by
  induction h with
  | ofProduct _ ih | ofSigned _ ih | ofPower _ ih | ofAtom _ ih => exact ih
  | sum _ hkind _ _ ihl ihr | product _ hkind _ _ ihl ihr | power _ hkind _ _ ihl ihr =>
    exact comesFrom_binary hkind ihl ihr
  | sign hkind _ _ ih =>
    intro n hn
    rcases List.mem_cons.1 hn with rfl | hn
    · exact ⟨⟨_, List.mem_cons_self .., hkind, rfl, rfl⟩, by simp [Expr.children]⟩
    · exact (ih n hn).sublist (List.sublist_cons_self _ _)
  | number hkind | name hkind =>
    intro n hn
    rw [List.mem_singleton.1 hn]
    exact ⟨⟨_, List.mem_singleton_self _, hkind, rfl, rfl⟩, by simp [Expr.children]⟩
  | emptyCall hname _ _ =>
    intro n hn
    rw [List.mem_singleton.1 hn]
    exact ⟨⟨_, List.mem_cons_self .., hname, rfl, rfl⟩, by simp [Expr.children]⟩
  | @call name opening closing ts parts hname _ hparts _ _ ih =>
    intro n hn
    have hinner : ts.Sublist (name :: opening :: ts ++ [closing]) :=
      ((List.sublist_cons_self _ _).trans (List.sublist_cons_self _ _)).trans
        (List.sublist_append_left _ _)
    rcases List.mem_cons.1 hn with rfl | hn
    · have hcount := hparts.length_le
      rw [List.length_map] at hcount
      refine ⟨⟨name, List.mem_cons_self .., hname, rfl, rfl⟩, ?_⟩
      simp only [Expr.children, List.length_map, List.length_cons, List.length_append]
      omega
    · obtain ⟨e, he, hn⟩ := Expr.exists_of_mem_preorderList hn
      obtain ⟨part, hpart, rfl⟩ := List.mem_map.1 he
      have hpart' := hparts.sublist (List.mem_map_of_mem hpart)
      exact (ih part hpart n hn).sublist (hpart'.trans hinner)
  | parens _ _ _ ih =>
    intro n hn
    exact (ih n hn).sublist ((List.sublist_cons_self _ _).trans (List.sublist_append_left _ _))

end Grammar

/-! ## Positions of errors -/

namespace Parser

/-- The stop is reported at a position of which something holds. -/
def Stop.Within (P : ℤ → Prop) : Stop → Prop
  | .malformed e => P e.position
  | .tooDeep p => P p
  | .tooManyNodes p => P p
  | _ => True

/-- Something holds of the positions of all tokens not yet read. -/
def State.Within (P : ℤ → Prop) (st : State) : Prop :=
  ∀ t ∈ st.rest, P t.position

/-- Something holds of the positions of all open parentheses. -/
def Context.Within (P : ℤ → Prop) (ctx : Context) : Prop :=
  ∀ p ∈ ctx.opened, P p

variable {P : ℤ → Prop} {lim : Limits} {ctx : Context} {st : State}

theorem State.Within.tail {t : Token} {ts : List Token} {nodes : ℕ}
    (h : State.Within P ⟨t :: ts, nodes⟩) : P t.position ∧ State.Within P ⟨ts, nodes⟩ :=
  ⟨h t (List.mem_cons_self ..), fun u hu => h u (List.mem_cons_of_mem _ hu)⟩

theorem Context.Within.opening {p : ℤ} (h : ctx.Within P) (hp : P p) :
    (ctx.opening p).Within P := by
  intro q hq
  rcases List.mem_cons.1 hq with rfl | hq
  · exact hp
  · exact h q hq

/-- Past the last token the parser stands at the start of the line. -/
theorem peek_within (hzero : P 0) (hst : st.Within P) : P st.peek.position := by
  obtain ⟨rest, nodes⟩ := st
  cases rest with
  | nil => exact hzero
  | cons t ts => exact hst.tail.1

theorem fail_within (hzero : P 0) (hctx : ctx.Within P) (hst : st.Within P) (expected : Expected) :
    (ctx.fail expected st).Within P := by
  have hpeek := peek_within hzero hst
  rw [Context.fail]
  split
  · split
    · rename_i p ps hopened
      exact hctx p (by rw [hopened]; exact List.mem_cons_self ..)
    · exact hpeek
  · exact hpeek

theorem node_within {e : Expr} (he : P e.position) (hst : st.Within P) :
    Ends (Stop.Within P) (fun r => r.2.Within P) (st.node lim e) := by
  rw [State.node]
  split
  · exact .stop he
  · exact .ok hst

theorem enter_within (hzero : P 0) (hctx : ctx.Within P) (hst : st.Within P) :
    Ends (Stop.Within P) (Context.Within P) (ctx.enter lim st) := by
  rw [Context.enter]
  split
  · exact .stop (peek_within hzero hst)
  · exact .ok hctx

theorem close_within (hzero : P 0) (hctx : ctx.Within P) (hst : st.Within P) :
    Ends (Stop.Within P) (State.Within P) (ctx.close st) := by
  rw [Context.close]
  split
  · rename_i hkind
    obtain ⟨t, ts, hcons, -, hadvance⟩ := exists_cons_of_peek hkind (by decide)
    rw [hcons] at hst
    rw [hadvance]
    exact .ok hst.tail.2
  · exact .stop (fail_within hzero hctx hst _)

def ExpressionWithin (P : ℤ → Prop) (lim : Limits) (fuel : ℕ) : Prop :=
  ∀ ctx minimum st, ctx.Within P → st.Within P →
    Ends (Stop.Within P) (fun r => r.2.Within P) (expression lim fuel ctx minimum st)

def ClimbWithin (P : ℤ → Prop) (lim : Limits) (fuel : ℕ) : Prop :=
  ∀ ctx minimum left st, ctx.Within P → st.Within P →
    Ends (Stop.Within P) (fun r => r.2.Within P) (climb lim fuel ctx minimum left st)

def OperandWithin (P : ℤ → Prop) (lim : Limits) (fuel : ℕ) : Prop :=
  ∀ ctx st, ctx.Within P → st.Within P →
    Ends (Stop.Within P) (fun r => r.2.Within P) (operand lim fuel ctx st)

def ArgumentsWithin (P : ℤ → Prop) (lim : Limits) (fuel : ℕ) : Prop :=
  ∀ ctx st, ctx.Within P → st.Within P →
    Ends (Stop.Within P) (fun r => r.2.Within P) (arguments lim fuel ctx st)

variable {fuel : ℕ}

theorem expression_within (hzero : P 0) (hoperand : OperandWithin P lim fuel)
    (hclimb : ClimbWithin P lim fuel) : ExpressionWithin P lim (fuel + 1) := by
  intro ctx minimum st hctx hst
  rw [expression]
  refine (enter_within hzero hctx hst).bind fun ctx hctx => ?_
  exact (hoperand ctx st hctx hst).bind fun r hr => hclimb ctx minimum r.1 r.2 hctx hr

theorem climb_within (hexpression : ExpressionWithin P lim fuel)
    (hclimb : ClimbWithin P lim fuel) : ClimbWithin P lim (fuel + 1) := by
  intro ctx minimum left st hctx hst
  cases climbShape minimum st with
  | stop hbelow =>
    rw [climb_stop hbelow]
    exact .ok hst
  | unknown hkind hop =>
    rw [climb_unknown hkind hop]
    exact .stop trivial
  | operator hkind hop hle =>
    rw [climb_operator hkind hop hle]
    obtain ⟨ht, hts⟩ := hst.tail
    refine (hexpression ctx _ _ hctx hts).bind fun r hr => ?_
    exact (node_within ht hr).bind fun q hq => hclimb ctx minimum q.1 q.2 hctx hq

theorem operand_within (hzero : P 0) (hexpression : ExpressionWithin P lim fuel)
    (harguments : ArgumentsWithin P lim fuel) : OperandWithin P lim (fuel + 1) := by
  intro ctx st hctx hst
  cases operandShape st with
  | sign hkind hsign =>
    rw [operand_sign hkind hsign]
    obtain ⟨ht, hts⟩ := hst.tail
    exact (hexpression ctx _ _ hctx hts).bind fun r hr => node_within ht hr
  | number hkind =>
    rw [operand_number hkind]
    exact node_within hst.tail.1 hst.tail.2
  | name hkind hnext =>
    rw [operand_name hkind hnext]
    exact node_within hst.tail.1 hst.tail.2
  | emptyCall hkind hopening hclosing =>
    rw [operand_emptyCall hkind hopening hclosing]
    exact node_within hst.tail.1 hst.tail.2.tail.2.tail.2
  | call hkind hopening hnext =>
    rw [operand_call hkind hopening hnext]
    obtain ⟨ht, hts⟩ := hst.tail
    obtain ⟨hopened, hts⟩ := hts.tail
    have hinner := hctx.opening hopened
    refine (harguments _ _ hinner hts).bind fun r hr => ?_
    exact (close_within hzero hinner hr).bind fun st' hst' => node_within ht hst'
  | parens hkind =>
    rw [operand_parens hkind]
    obtain ⟨ht, hts⟩ := hst.tail
    have hinner := hctx.opening ht
    refine (hexpression _ 1 _ hinner hts).bind fun r hr => ?_
    exact (close_within hzero hinner hr).bind fun st' hst' => .ok hst'
  | none _ hfail =>
    rw [hfail]
    exact .stop (fail_within hzero hctx hst _)

theorem arguments_within (hexpression : ExpressionWithin P lim fuel)
    (harguments : ArgumentsWithin P lim fuel) : ArgumentsWithin P lim (fuel + 1) := by
  intro ctx st hctx hst
  rw [arguments]
  refine (hexpression ctx 1 st hctx hst).bind fun r hr => ?_
  dsimp only
  split
  · rename_i hcomma
    obtain ⟨t, ts, hcons, -, hadvance⟩ := exists_cons_of_peek hcomma (by decide)
    rw [hcons] at hr
    rw [hadvance]
    exact (harguments ctx _ hctx hr.tail.2).bind fun q hq => .ok hq
  · exact .ok hr

/-- **Every error of the parser is reported at a token**, an open parenthesis being one, or at the
start of the line. -/
theorem within (hzero : P 0) (lim : Limits) (fuel : ℕ) : ExpressionWithin P lim fuel ∧
    ClimbWithin P lim fuel ∧ OperandWithin P lim fuel ∧ ArgumentsWithin P lim fuel := by
  induction fuel with
  | zero =>
    exact ⟨fun _ _ _ _ _ => .stop trivial, fun _ _ _ _ _ _ => .stop trivial,
      fun _ _ _ _ => .stop trivial, fun _ _ _ _ => .stop trivial⟩
  | succ fuel ih =>
    obtain ⟨hexpression, hclimb, hoperand, harguments⟩ := ih
    exact ⟨expression_within hzero hoperand hclimb, climb_within hexpression hclimb,
      operand_within hzero hexpression harguments, arguments_within hexpression harguments⟩

theorem parse_within (hzero : P 0) (lim : Limits) {tokens : List Token}
    (htokens : ∀ t ∈ tokens, P t.position) :
    Ends (Stop.Within P) (fun _ => True) (parse lim tokens) := by
  have hstart : State.Within P ⟨tokens, 0⟩ := htokens
  rw [parse_eq_bind, run]
  dsimp only
  refine Ends.bind (P := fun _ => True) ?_ fun r _ => .ok trivial
  split
  · exact .stop trivial
  · split
    · exact .stop hzero
    · refine ((within hzero lim (fuelFor tokens)).1 ⟨0, []⟩ 1 ⟨tokens, 0⟩
        (List.forall_mem_nil _) hstart).bind fun r hr => ?_
      split
      · exact .ok trivial
      · split <;> exact .stop (peek_within hzero hr)

end Parser

end Roundoff
