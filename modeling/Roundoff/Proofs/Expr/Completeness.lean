import Roundoff.Proofs.Expr.Nesting
import Roundoff.Proofs.Expr.Soundness

/-! # Every phrase is read

By induction on the phrase.  Reading an expression that starts with a phrase comes to the loop over
the operators behind it, with the tree of the phrase as the left operand (`Parses`): this holds for
every level whose operators the minimum allows, and lets a phrase that is the left part of a longer
one be continued.  The loop then ends at what follows, which is looser than the minimum.

Only the limits can come in between, and each of them comes in exactly when it is exceeded
(`Limited`): the limit of depth when a token of the phrase lies inside too many enclosures, and the
limit of nodes when the tree of the phrase has too many of them.  If both are exceeded, the one that
is exceeded first refuses the phrase.
-/
namespace Roundoff.Parser

open Grammar

variable {lim : Limits}

/-! ## What follows a phrase -/

/-- The rest of the tokens neither goes on with arguments nor with an operator that binds as tightly
as some precedence. -/
structure Follows (bound : ℕ) (rest : List Token) : Prop where
  not_opening : ∀ t ts, rest = t :: ts → t.kind ≠ .leftParen
  stops : StopsBelow bound rest

theorem Follows.mono {b c : ℕ} {rest : List Token} (h : Follows b rest) (hle : b ≤ c) :
    Follows c rest :=
  ⟨h.not_opening, h.stops.mono hle⟩

theorem follows_of_kind {b : ℕ} {t : Token} {ts : List Token} {kind : TokenKind}
    (hkind : t.kind = kind) (hopening : kind ≠ .leftParen) (hoperator : kind ≠ .operator) :
    Follows b (t :: ts) := by
  refine ⟨?_, ?_⟩
  · rintro _ _ ⟨⟩
    exact hkind.trans_ne hopening
  · rintro _ _ ⟨⟩ heq
    exact absurd heq (hkind.trans_ne hoperator)

theorem follows_operator {b : ℕ} {t : Token} {ts : List Token} {op : Operation}
    (hkind : t.kind = .operator) (hop : Operation.ofSymbol? t.text = some op)
    (hbound : op.precedence < b) : Follows b (t :: ts) := by
  refine ⟨?_, ?_⟩
  · rintro _ _ ⟨⟩
    exact hkind.trans_ne (by decide)
  · rintro _ _ ⟨⟩ _
    exact ⟨op, hop, hbound⟩

/-! ## Steps under limits -/

/-- **Both limits are exact**: the computation goes on as the other one where what it needs is
within both limits, and otherwise a limit that is exceeded stops it. -/
inductive Limited {α : Type} (depth nodes : Prop) (x y : Except Stop α) : Prop
  | within : depth → nodes → x = y → Limited depth nodes x y
  | tooDeep {p : ℤ} : ¬ depth → x = .error (.tooDeep p) → Limited depth nodes x y
  | tooManyNodes {p : ℤ} : ¬ nodes → x = .error (.tooManyNodes p) → Limited depth nodes x y

namespace Limited

variable {α β : Type} {d n p q : Prop} {x y z : Except Stop α}

theorem refl (x : Except Stop α) : Limited True True x x :=
  .within trivial trivial rfl

theorem congr (h : Limited d n x y) (hd : d ↔ p) (hn : n ↔ q) : Limited p q x y := by
  cases h with
  | within hdepth hnodes heq => exact .within (hd.1 hdepth) (hn.1 hnodes) heq
  | tooDeep hdepth hx => exact .tooDeep (fun h => hdepth (hd.2 h)) hx
  | tooManyNodes hnodes hx => exact .tooManyNodes (fun h => hnodes (hn.2 h)) hx

/-- What two computations one after the other need is what each of them needs. -/
theorem trans (hxy : Limited d n x y) (hyz : Limited p q y z) : Limited (d ∧ p) (n ∧ q) x z := by
  cases hxy with
  | tooDeep hdepth hx => exact .tooDeep (fun h => hdepth h.1) hx
  | tooManyNodes hnodes hx => exact .tooManyNodes (fun h => hnodes h.1) hx
  | within hdepth hnodes heq =>
    subst heq
    cases hyz with
    | within hdepth' hnodes' heq => exact .within ⟨hdepth, hdepth'⟩ ⟨hnodes, hnodes'⟩ heq
    | tooDeep hdepth' hy => exact .tooDeep (fun h => hdepth' h.2) hy
    | tooManyNodes hnodes' hy => exact .tooManyNodes (fun h => hnodes' h.2) hy

/-- A first step that reaches a value goes on from there. -/
theorem bind_ok {f : α → Except Stop β} {a : α} {w : Except Stop β} (hx : Limited d n x (.ok a))
    (hf : Limited p q (f a) w) : Limited (d ∧ p) (n ∧ q) (x >>= f) w := by
  refine trans (y := f a) ?_ hf
  cases hx with
  | within hdepth hnodes heq => exact .within hdepth hnodes (by rw [heq, ok_bind])
  | tooDeep hdepth hx => exact .tooDeep hdepth (by rw [hx]; rfl)
  | tooManyNodes hnodes hx => exact .tooManyNodes hnodes (by rw [hx]; rfl)

/-- No limit is checked behind the first step. -/
theorem bind_eq {f : α → Except Stop β} {a : α} {w : Except Stop β} (hx : Limited d n x (.ok a))
    (hf : f a = w) : Limited d n (x >>= f) w := by
  subst hf
  exact (hx.bind_ok (.refl _)).congr (iff_of_eq (and_true _)) (iff_of_eq (and_true _))

/-- Only the number of nodes is checked behind the first step. -/
theorem bind_nodes {f : α → Except Stop β} {a : α} {w : Except Stop β} (hx : Limited d n x (.ok a))
    (hf : Limited True q (f a) w) : Limited d (n ∧ q) (x >>= f) w :=
  (hx.bind_ok hf).congr (iff_of_eq (and_true _)) .rfl

theorem agree (h : Limited d n x y) : AgreeUnless Stop.Refusal x y := by
  cases h with
  | within _ _ heq => exact Or.inl heq
  | tooDeep _ hx => exact Or.inr ⟨_, .tooDeep, hx⟩
  | tooManyNodes _ hx => exact Or.inr ⟨_, .tooManyNodes, hx⟩

end Limited

theorem node_limited (e : Expr) (rest : List Token) (nodes : ℕ) :
    Limited True (nodes + 1 ≤ lim.maxNodes) (State.node lim e ⟨rest, nodes⟩)
      (.ok (e, ⟨rest, nodes + 1⟩)) := by
  rw [State.node]
  split
  · rename_i hlimit
    exact .tooManyNodes (not_le.2 hlimit) rfl
  · rename_i hlimit
    exact .within trivial (not_lt.1 hlimit) rfl

theorem enter_limited (ctx : Context) (st : State) :
    Limited (ctx.depth + 1 ≤ lim.maxDepth) True (ctx.enter lim st)
      (.ok ⟨ctx.depth + 1, ctx.opened⟩) := by
  rw [Context.enter]
  split
  · rename_i hlimit
    exact .tooDeep (not_le.2 hlimit) rfl
  · rename_i hlimit
    exact .within (not_lt.1 hlimit) trivial rfl

/-! ## Phrases as left operands -/

/-- The largest minimum that allows the operators of a level. -/
def top : Level → ℕ
  | .sum => 1
  | .product => 2
  | _ => 4

/-- **Reading an expression that starts with a phrase** comes to the loop over the operators behind
the phrase; a node has then been counted for each node of the tree.  The tokens of the phrase lie
one level deeper than the expression starts, and one more for each enclosure around them. -/
def Parses (lim : Limits) (L : Level) (ts : List Token) (e : Expr)
    (around : List (List Enclosure)) : Prop :=
  ∀ minimum fuel ctx rest nodes, minimum ≤ top L → 2 * (ts.length + rest.length) + 2 ≤ fuel →
    Follows L.bound rest → ∃ fuel', 2 * rest.length + 1 ≤ fuel' ∧
      Limited (Shallow lim.maxDepth (ctx.depth + 1) around) (nodes + e.size ≤ lim.maxNodes)
        (expression lim fuel ctx minimum ⟨ts ++ rest, nodes⟩)
        (climb lim fuel' ⟨ctx.depth + 1, ctx.opened⟩ minimum e ⟨rest, nodes + e.size⟩)

variable {around : List (List Enclosure)}

/-- An expression ends with a phrase when what follows is looser than its minimum. -/
theorem Parses.expression_limited {L : Level} {ts : List Token} {e : Expr}
    (h : Parses lim L ts e around) {b minimum : ℕ} {rest : List Token} (hminimum : minimum ≤ top L)
    (hb : b ≤ minimum) (hbound : b ≤ L.bound) (hfollows : Follows b rest) (fuel : ℕ)
    (ctx : Context) (nodes : ℕ) (hfuel : 2 * (ts.length + rest.length) + 2 ≤ fuel) :
    Limited (Shallow lim.maxDepth (ctx.depth + 1) around) (nodes + e.size ≤ lim.maxNodes)
      (expression lim fuel ctx minimum ⟨ts ++ rest, nodes⟩)
      (.ok (e, ⟨rest, nodes + e.size⟩)) := by
  obtain ⟨fuel', hfuel', hlimited⟩ :=
    h minimum fuel ctx rest nodes hminimum hfuel (hfollows.mono hbound)
  obtain ⟨k, rfl⟩ : ∃ k, fuel' = k + 1 := ⟨fuel' - 1, by omega⟩
  rw [climb_stop (hfollows.stops.mono hb)] at hlimited
  exact hlimited

/-- A phrase that the parser reads as an operand.  The expression it starts is entered first. -/
theorem parses_of_operand {L : Level} {ts : List Token} {e : Expr} {q : ℕ → Prop}
    (haround : ∀ depth, Shallow lim.maxDepth depth around ↔ depth ≤ lim.maxDepth ∧ q depth)
    (h : ∀ fuel ctx rest nodes, 2 * (ts.length + rest.length) + 1 ≤ fuel →
      Follows L.bound rest → Limited (q ctx.depth) (nodes + e.size ≤ lim.maxNodes)
        (operand lim fuel ctx ⟨ts ++ rest, nodes⟩) (.ok (e, ⟨rest, nodes + e.size⟩))) :
    Parses lim L ts e around := by
  intro minimum fuel ctx rest nodes _ hfuel hfollows
  obtain ⟨k, rfl⟩ : ∃ k, fuel = k + 1 := ⟨fuel - 1, by omega⟩
  have hoperand := h k ⟨ctx.depth + 1, ctx.opened⟩ rest nodes (by omega) hfollows
  refine ⟨k, by omega, ?_⟩
  rw [expression]
  refine ((enter_limited ctx _).bind_ok (hoperand.bind_eq rfl)).congr ?_ ?_
  · rw [haround]
  · rw [true_and]

/-- **An operator between two phrases**: the left one is continued, and the right one ends before
what follows the whole. -/
theorem parses_binary {L R N : Level} {xs ys : List Token} {t : Token} {l r : Expr}
    {as bs : List (List Enclosure)} (op : Operation) (hl : Parses lim L xs l as)
    (hnil : [] ∈ as) (hr : Parses lim R ys r bs) (hkind : t.kind = .operator)
    (htext : t.text = op.symbol) (hnext : op.precedence < L.bound)
    (htop : top N ≤ min (top L) op.precedence) (hright : op.rightMinimum ≤ top R)
    (hbound : N.bound ≤ min op.rightMinimum R.bound) :
    Parses lim N (xs ++ t :: ys) (.binary t.text l r t.position)
      (as ++ [] :: enclose .rightOperand bs) := by
  intro minimum fuel ctx rest nodes hminimum hfuel hfollows
  have hop := Operation.ofSymbol?_eq_some_iff.2 htext
  rw [List.length_append, List.length_cons] at hfuel
  -- The left phrase comes to the loop with the operator next, which its level allows.
  obtain ⟨fuel₁, hfuel₁, hleft⟩ := hl minimum fuel ctx (t :: ys ++ rest) nodes
    (by omega) (by simp only [List.cons_append, List.length_cons, List.length_append]; omega)
    (follows_operator hkind hop hnext)
  simp only [List.cons_append, List.length_cons, List.length_append] at hfuel₁
  obtain ⟨fuel₂, rfl⟩ : ∃ k, fuel₁ = k + 1 := ⟨fuel₁ - 1, by omega⟩
  have hoperand := hr.expression_limited hright (hbound.trans (min_le_left _ _))
    (hbound.trans (min_le_right _ _)) hfollows fuel₂ ⟨ctx.depth + 1, ctx.opened⟩ (nodes + l.size)
    (by omega)
  have hsize : nodes + l.size + r.size + 1
      = nodes + (Expr.binary t.text l r t.position).size := by
    rw [Expr.size]
    omega
  refine ⟨fuel₂, by omega, ?_⟩
  have hloop : Limited (Shallow lim.maxDepth (ctx.depth + 1 + 1) bs)
      (nodes + l.size + r.size ≤ lim.maxNodes ∧ nodes + l.size + r.size + 1 ≤ lim.maxNodes)
      (climb lim (fuel₂ + 1) ⟨ctx.depth + 1, ctx.opened⟩ minimum l
        ⟨t :: ys ++ rest, nodes + l.size⟩)
      (climb lim fuel₂ ⟨ctx.depth + 1, ctx.opened⟩ minimum (.binary t.text l r t.position)
        ⟨rest, nodes + (Expr.binary t.text l r t.position).size⟩) := by
    rw [List.cons_append, climb_operator hkind hop (hminimum.trans (htop.trans (min_le_right _ _)))]
    refine hoperand.bind_nodes ((node_limited _ rest _).bind_eq ?_)
    dsimp only
    rw [hsize]
  rw [List.append_assoc]
  refine (hleft.trans hloop).congr ?_ ?_
  · rw [shallow_binary hnil]
  · rw [← hsize]
    omega

/-! ## Phrases as operands -/

theorem parses_sign {ts : List Token} {t : Token} {e : Expr}
    (h : Parses lim .signed ts e around) (hkind : t.kind = .operator)
    (hsign : isSign t.text = true) :
    Parses lim .signed (t :: ts) (.unary t.text e t.position) ([] :: enclose .sign around) := by
  refine parses_of_operand (fun depth => by rw [shallow_cons_nil, shallow_enclose])
    fun fuel ctx rest nodes hfuel hfollows => ?_
  rw [List.length_cons] at hfuel
  obtain ⟨k, rfl⟩ : ∃ k, fuel = k + 1 := ⟨fuel - 1, by omega⟩
  have hlimited := h.expression_limited (show signMinimum ≤ 4 by decide) le_rfl le_rfl hfollows k
    ctx nodes (by omega)
  rw [List.cons_append, operand_sign hkind hsign]
  refine (hlimited.bind_nodes (node_limited _ rest _)).congr .rfl ?_
  rw [Expr.size]
  omega

/-- A literal or a name is read at the depth of its expression. -/
theorem parses_leaf {t : Token} {e : Expr} (hsize : e.size = 1)
    (h : ∀ fuel ctx rest nodes, Follows 5 rest →
      operand lim (fuel + 1) ctx ⟨t :: rest, nodes⟩ = State.node lim e ⟨rest, nodes⟩) :
    Parses lim .atom [t] e [[]] := by
  refine parses_of_operand (fun depth => by rw [shallow_leaf, and_true])
    fun fuel ctx rest nodes hfuel hfollows => ?_
  obtain ⟨k, rfl⟩ : ∃ k, fuel = k + 1 := ⟨fuel - 1, by omega⟩
  rw [List.singleton_append, h k ctx rest nodes hfollows, hsize]
  exact node_limited e rest nodes

theorem parses_number {t : Token} (hkind : t.kind = .number) :
    Parses lim .atom [t] (.number t.text t.position) [[]] :=
  parses_leaf rfl fun _ _ _ _ _ => operand_number hkind

theorem parses_name {t : Token} (hkind : t.kind = .identifier) :
    Parses lim .atom [t] (.name t.text t.position) [[]] := by
  refine parses_leaf rfl fun fuel ctx rest nodes hfollows => operand_name hkind ?_
  cases rest with
  | nil => exact (nomatch ·)
  | cons u us => exact hfollows.not_opening u us rfl

theorem parses_parens {opening closing : Token} {ts : List Token} {e : Expr}
    (hopening : opening.kind = .leftParen) (h : Parses lim .sum ts e around)
    (hclosing : closing.kind = .rightParen) :
    Parses lim .atom (opening :: ts ++ [closing]) e
      ([] :: enclose .parentheses around ++ [[]]) := by
  refine parses_of_operand (fun depth => shallow_parens) fun fuel ctx rest nodes hfuel _ => ?_
  simp only [List.length_append, List.length_cons, List.length_nil] at hfuel
  obtain ⟨k, rfl⟩ : ∃ k, fuel = k + 1 := ⟨fuel - 1, by omega⟩
  have hend : Follows 1 (closing :: rest) :=
    follows_of_kind hclosing (by decide) (by decide)
  have hlimited := h.expression_limited (show 1 ≤ 1 by decide) le_rfl (by decide) hend k
    (ctx.opening opening.position) nodes (by rw [List.length_cons]; omega)
  rw [List.append_assoc, List.singleton_append, List.cons_append, operand_parens hopening]
  refine hlimited.bind_eq ?_
  dsimp only
  rw [close_cons hclosing]
  rfl

/-- Arguments are read up to the closing parenthesis. -/
theorem arguments_limited {ts : List Token} {texts : List (List Token)} (h : Separated ts texts) :
    ∀ (args : List Argument), args.map Argument.tokens = texts →
      (∀ a ∈ args, Parses lim .sum a.tokens a.tree a.around) →
      ∀ (fuel : ℕ) (ctx : Context) (closing : Token) (rest : List Token) (nodes : ℕ),
        closing.kind = .rightParen → 2 * (ts.length + (rest.length + 1)) + 3 ≤ fuel →
        Limited (∀ a ∈ args, Shallow lim.maxDepth (ctx.depth + 1) a.around)
          (nodes + Expr.sizeList (args.map Argument.tree) ≤ lim.maxNodes)
          (arguments lim fuel ctx ⟨ts ++ closing :: rest, nodes⟩)
          (.ok (args.map Argument.tree,
            ⟨closing :: rest, nodes + Expr.sizeList (args.map Argument.tree)⟩)) := by
  induction h with
  | @one ts =>
    intro args hargs hparses fuel ctx closing rest nodes hclosing hfuel
    obtain ⟨a, rfl, rfl⟩ := List.map_eq_singleton_iff.1 hargs
    obtain ⟨k, rfl⟩ : ∃ k, fuel = k + 1 := ⟨fuel - 1, by omega⟩
    have hend : Follows 1 (closing :: rest) :=
      follows_of_kind hclosing (by decide) (by decide)
    have hlimited := (hparses _ (List.mem_singleton_self _)).expression_limited
      (show 1 ≤ 1 by decide) le_rfl (by decide) hend k ctx nodes (by rw [List.length_cons]; omega)
    rw [arguments]
    refine (hlimited.bind_eq (if_neg ?_)).congr ?_ ?_
    · exact hclosing.trans_ne (by decide)
    · rw [List.forall_mem_singleton]
    · rfl
  | @more ts us comma texts hcomma _ ih =>
    intro args hargs hparses fuel ctx closing rest nodes hclosing hfuel
    rw [List.length_append, List.length_cons] at hfuel
    obtain ⟨a, args, rfl, rfl, hmap⟩ := List.map_eq_cons_iff.1 hargs
    obtain ⟨ha, hothers⟩ := List.forall_mem_cons.1 hparses
    obtain ⟨k, rfl⟩ : ∃ k, fuel = k + 1 := ⟨fuel - 1, by omega⟩
    have hend : Follows 1 (comma :: us ++ closing :: rest) :=
      follows_of_kind hcomma (by decide) (by decide)
    have hfirst := ha.expression_limited (show 1 ≤ 1 by decide) le_rfl (by decide) hend k ctx nodes
      (by simp only [List.cons_append, List.length_append, List.length_cons]; omega)
    have hrest := ih args hmap hothers k ctx closing rest (nodes + a.tree.size) hclosing (by omega)
    rw [arguments, List.append_assoc]
    refine (hfirst.bind_ok (p := ∀ a ∈ args, Shallow lim.maxDepth (ctx.depth + 1) a.around)
      (q := nodes + a.tree.size + Expr.sizeList (args.map Argument.tree) ≤ lim.maxNodes)
      ?_).congr ?_ ?_
    · show Limited _ _ (if comma.kind = .comma then _ else _) _
      rw [if_pos hcomma, List.cons_append, advance_cons (hcomma.trans_ne (by decide))]
      refine hrest.bind_eq ?_
      rw [List.map_cons, Expr.sizeList, Nat.add_assoc]
    · rw [List.forall_mem_cons]
    · rw [List.map_cons, Expr.sizeList, Nat.add_assoc]
      omega

theorem parses_emptyCall {name opening closing : Token} (hname : name.kind = .identifier)
    (hopening : opening.kind = .leftParen) (hclosing : closing.kind = .rightParen) :
    Parses lim .atom [name, opening, closing] (.call name.text [] name.position)
      [[], [], []] := by
  refine parses_of_operand (q := fun _ => True) (fun depth => ?_)
    fun fuel ctx rest nodes hfuel _ => ?_
  · rw [shallow_cons_nil, shallow_cons_nil, shallow_leaf, and_self, and_self, and_true]
  · obtain ⟨k, rfl⟩ : ∃ k, fuel = k + 1 := ⟨fuel - 1, by omega⟩
    rw [List.cons_append, List.cons_append, List.singleton_append,
      operand_emptyCall hname hopening hclosing]
    exact node_limited _ rest _

theorem parses_call {name opening closing : Token} {ts : List Token} {args : List Argument}
    (hname : name.kind = .identifier) (hopening : opening.kind = .leftParen)
    (hts : Separated ts (args.map Argument.tokens)) (hne : Opens ts)
    (hnil : ∀ a ∈ args, [] ∈ a.around)
    (hargs : ∀ a ∈ args, Parses lim .sum a.tokens a.tree a.around)
    (hclosing : closing.kind = .rightParen) :
    Parses lim .atom (name :: opening :: ts ++ [closing])
      (.call name.text (args.map Argument.tree) name.position)
      ([] :: [] :: enclose .arguments (aroundAll args) ++ [[]]) := by
  refine parses_of_operand (fun depth => shallow_call hnil) fun fuel ctx rest nodes hfuel _ => ?_
  simp only [List.length_append, List.length_cons, List.length_nil] at hfuel
  obtain ⟨k, rfl⟩ : ∃ k, fuel = k + 1 := ⟨fuel - 1, by omega⟩
  have hlimited := arguments_limited hts args rfl hargs k (ctx.opening opening.position) closing
    rest nodes hclosing (by omega)
  have hfirst : (State.peek ⟨ts ++ closing :: rest, nodes⟩).kind ≠ .rightParen := by
    obtain ⟨t, us, rfl, hkind⟩ := hne
    exact hkind
  rw [List.append_assoc, List.singleton_append, List.cons_append, List.cons_append,
    operand_call hname hopening hfirst]
  refine (hlimited.bind_nodes
    (q := nodes + Expr.sizeList (args.map Argument.tree) + 1 ≤ lim.maxNodes) ?_).congr .rfl ?_
  · dsimp only
    rw [close_cons hclosing]
    exact node_limited _ rest _
  · rw [Expr.size]
    omega

/-! ## All phrases -/

theorem Parses.loosen {L M : Level} {ts : List Token} {e : Expr} (h : Parses lim L ts e around)
    (htop : top M ≤ top L) (hbound : M.bound ≤ L.bound) : Parses lim M ts e around :=
  fun minimum fuel ctx rest nodes hminimum hfuel hfollows =>
    h minimum fuel ctx rest nodes (hminimum.trans htop) hfuel (hfollows.mono hbound)

/-- **The parser reads every phrase** as its tree. -/
theorem parses_of_nested {L : Level} {ts : List Token} {e : Expr} (h : Nested L ts e around) :
    Parses lim L ts e around := by
  induction h with
  | sum hl hkind htext _ ihl ihr =>
    rcases htext with htext | htext
    · exact parses_binary .add ihl hl.nil_mem ihr hkind htext (by decide) (by decide) (by decide)
        (by decide)
    · exact parses_binary .sub ihl hl.nil_mem ihr hkind htext (by decide) (by decide) (by decide)
        (by decide)
  | product hl hkind htext _ ihl ihr =>
    rcases htext with htext | htext
    · exact parses_binary .mul ihl hl.nil_mem ihr hkind htext (by decide) (by decide) (by decide)
        (by decide)
    · exact parses_binary .div ihl hl.nil_mem ihr hkind htext (by decide) (by decide) (by decide)
        (by decide)
  | power hl hkind htext _ ihl ihr =>
    exact parses_binary .pow ihl hl.nil_mem ihr hkind htext (by decide) (by decide) (by decide)
      (by decide)
  | sign hkind htext _ ih => exact parses_sign ih hkind (by simpa [isSign] using htext)
  | number hkind => exact parses_number hkind
  | name hkind => exact parses_name hkind
  | emptyCall hname hopening hclosing => exact parses_emptyCall hname hopening hclosing
  | @call name opening closing ts args hname hopening hts hargs hclosing ih =>
    have hne : Opens ts := by
      refine hts.opens fun text htext => ?_
      obtain ⟨a, ha, rfl⟩ := List.mem_map.1 htext
      exact (hargs a ha).derives.opens
    exact parses_call hname hopening hts hne (fun a ha => (hargs a ha).nil_mem) ih hclosing
  | parens hopening _ hclosing ih => exact parses_parens hopening ih hclosing
  | ofProduct _ ih => exact ih.loosen (by decide) (by decide)
  | ofSigned _ ih => exact ih.loosen (by decide) (by decide)
  | ofPower _ ih => exact ih.loosen (by decide) (by decide)
  | ofAtom _ ih => exact ih.loosen (by decide) (by decide)

end Roundoff.Parser
