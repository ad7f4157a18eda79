import Roundoff.Proofs.Expr.Grammar

/-! # How deep the tokens of a phrase lie

A token lies inside the parentheses, the arguments of calls, the operands of signs and the right
operands of operators that the rules put around it.  `Nested` goes through the rules of the grammar
and says of every token of a phrase what encloses it; every phrase has such an account
(`Derives.exists_nested`).
-/
namespace Roundoff.Grammar

/-- What can enclose a token of a phrase. -/
inductive Enclosure where
  | parentheses
  | arguments
  | sign
  | rightOperand
  deriving DecidableEq

/-- The enclosures of some tokens, behind one more that is around all of them. -/
def enclose (c : Enclosure) (around : List (List Enclosure)) : List (List Enclosure) :=
  around.map (c :: ·)

/-- An argument of a call, and what encloses its tokens in it. -/
structure Argument where
  tokens : List Token
  tree : Expr
  around : List (List Enclosure)

/-- What encloses the tokens of some arguments and of the commas between them. -/
def aroundAll : List Argument → List (List Enclosure)
  | [] => []
  | [a] => a.around
  | a :: b :: as => a.around ++ [] :: aroundAll (b :: as)

/-- **What encloses the tokens**: at a level, the tokens are a phrase with this tree, and each of
them lies inside these enclosures of the phrase, the outermost first. -/
inductive Nested : Level → List Token → Expr → List (List Enclosure) → Prop
  | sum {xs ys : List Token} {t : Token} {l r : Expr} {as bs : List (List Enclosure)} :
      Nested .sum xs l as → t.kind = .operator → t.text = "+" ∨ t.text = "-" →
      Nested .product ys r bs → Nested .sum (xs ++ t :: ys) (.binary t.text l r t.position)
        (as ++ [] :: enclose .rightOperand bs)
  | ofProduct {ts : List Token} {e : Expr} {as : List (List Enclosure)} :
      Nested .product ts e as → Nested .sum ts e as
  | product {xs ys : List Token} {t : Token} {l r : Expr} {as bs : List (List Enclosure)} :
      Nested .product xs l as → t.kind = .operator → t.text = "*" ∨ t.text = "/" →
      Nested .signed ys r bs → Nested .product (xs ++ t :: ys) (.binary t.text l r t.position)
        (as ++ [] :: enclose .rightOperand bs)
  | ofSigned {ts : List Token} {e : Expr} {as : List (List Enclosure)} :
      Nested .signed ts e as → Nested .product ts e as
  | sign {ts : List Token} {t : Token} {e : Expr} {as : List (List Enclosure)} :
      t.kind = .operator → t.text = "-" ∨ t.text = "+" → Nested .signed ts e as →
      Nested .signed (t :: ts) (.unary t.text e t.position) ([] :: enclose .sign as)
  | ofPower {ts : List Token} {e : Expr} {as : List (List Enclosure)} :
      Nested .power ts e as → Nested .signed ts e as
  | power {xs ys : List Token} {t : Token} {l r : Expr} {as bs : List (List Enclosure)} :
      Nested .atom xs l as → t.kind = .operator → t.text = "^" → Nested .signed ys r bs →
      Nested .power (xs ++ t :: ys) (.binary t.text l r t.position)
        (as ++ [] :: enclose .rightOperand bs)
  | ofAtom {ts : List Token} {e : Expr} {as : List (List Enclosure)} :
      Nested .atom ts e as → Nested .power ts e as
  | number {t : Token} : t.kind = .number →
      Nested .atom [t] (.number t.text t.position) [[]]
  | name {t : Token} : t.kind = .identifier → Nested .atom [t] (.name t.text t.position) [[]]
  | emptyCall {name opening closing : Token} : name.kind = .identifier →
      opening.kind = .leftParen → closing.kind = .rightParen →
      Nested .atom [name, opening, closing] (.call name.text [] name.position) [[], [], []]
  | call {name opening closing : Token} {ts : List Token} {args : List Argument} :
      name.kind = .identifier → opening.kind = .leftParen →
      Separated ts (args.map Argument.tokens) →
      (∀ a ∈ args, Nested .sum a.tokens a.tree a.around) → closing.kind = .rightParen →
      Nested .atom (name :: opening :: ts ++ [closing])
        (.call name.text (args.map Argument.tree) name.position)
        ([] :: [] :: enclose .arguments (aroundAll args) ++ [[]])
  | parens {opening closing : Token} {ts : List Token} {e : Expr} {as : List (List Enclosure)} :
      opening.kind = .leftParen → Nested .sum ts e as → closing.kind = .rightParen →
      Nested .atom (opening :: ts ++ [closing]) e ([] :: enclose .parentheses as ++ [[]])

/-! ## Every phrase has an account -/

theorem Nested.derives {L : Level} {ts : List Token} {e : Expr} {as : List (List Enclosure)}
    (h : Nested L ts e as) : Derives L ts e := by
  induction h with
  | sum _ hkind htext _ ihl ihr => exact .sum ihl hkind htext ihr
  | ofProduct _ ih => exact .ofProduct ih
  | product _ hkind htext _ ihl ihr => exact .product ihl hkind htext ihr
  | ofSigned _ ih => exact .ofSigned ih
  | sign hkind htext _ ih => exact .sign hkind htext ih
  | ofPower _ ih => exact .ofPower ih
  | power _ hkind htext _ ihl ihr => exact .power ihl hkind htext ihr
  | ofAtom _ ih => exact .ofAtom ih
  | number hkind => exact .number hkind
  | name hkind => exact .name hkind
  | emptyCall hname hopening hclosing => exact .emptyCall hname hopening hclosing
  | @call name opening closing ts args hname hopening hts _ hclosing ih =>
    have hcall : Derives .atom (name :: opening :: ts ++ [closing])
        (.call name.text ((args.map fun a => (a.tokens, a.tree)).map Prod.snd) name.position) := by
      refine .call hname hopening ?_ (List.forall_mem_map.2 ih) hclosing
      rw [List.map_map]
      exact hts
    rwa [List.map_map] at hcall
  | parens hopening _ hclosing ih => exact .parens hopening ih hclosing

theorem exists_arguments {parts : List (List Token × Expr)}
    (h : ∀ part ∈ parts, ∃ as, Nested .sum part.1 part.2 as) :
    ∃ args : List Argument, args.map Argument.tokens = parts.map Prod.fst ∧
      args.map Argument.tree = parts.map Prod.snd ∧
      ∀ a ∈ args, Nested .sum a.tokens a.tree a.around := by
  induction parts with
  | nil => exact ⟨[], rfl, rfl, fun _ ha => (nomatch ha)⟩
  | cons part parts ih =>
    obtain ⟨⟨as, has⟩, hothers⟩ := List.forall_mem_cons.1 h
    obtain ⟨args, htokens, htrees, hargs⟩ := ih hothers
    refine ⟨⟨part.1, part.2, as⟩ :: args, ?_, ?_, List.forall_mem_cons.2 ⟨has, hargs⟩⟩
    · rw [List.map_cons, List.map_cons, htokens]
    · rw [List.map_cons, List.map_cons, htrees]

theorem Derives.exists_nested {L : Level} {ts : List Token} {e : Expr} (h : Derives L ts e) :
    ∃ as, Nested L ts e as := by
  induction h with
  | sum _ hkind htext _ ihl ihr =>
    obtain ⟨as, has⟩ := ihl
    obtain ⟨bs, hbs⟩ := ihr
    exact ⟨_, .sum has hkind htext hbs⟩
  | product _ hkind htext _ ihl ihr =>
    obtain ⟨as, has⟩ := ihl
    obtain ⟨bs, hbs⟩ := ihr
    exact ⟨_, .product has hkind htext hbs⟩
  | power _ hkind htext _ ihl ihr =>
    obtain ⟨as, has⟩ := ihl
    obtain ⟨bs, hbs⟩ := ihr
    exact ⟨_, .power has hkind htext hbs⟩
  | sign hkind htext _ ih =>
    obtain ⟨as, has⟩ := ih
    exact ⟨_, .sign hkind htext has⟩
  | number hkind => exact ⟨_, .number hkind⟩
  | name hkind => exact ⟨_, .name hkind⟩
  | emptyCall hname hopening hclosing => exact ⟨_, .emptyCall hname hopening hclosing⟩
  | call hname hopening hts _ hclosing ih =>
    obtain ⟨args, htokens, htrees, hargs⟩ := exists_arguments ih
    rw [← htokens] at hts
    rw [← htrees]
    exact ⟨_, .call hname hopening hts hargs hclosing⟩
  | parens hopening _ hclosing ih =>
    obtain ⟨as, has⟩ := ih
    exact ⟨_, .parens hopening has hclosing⟩
  | ofProduct _ ih => exact ih.imp fun _ => .ofProduct
  | ofSigned _ ih => exact ih.imp fun _ => .ofSigned
  | ofPower _ ih => exact ih.imp fun _ => .ofPower
  | ofAtom _ ih => exact ih.imp fun _ => .ofAtom

/-! ## Tokens and their enclosures -/

theorem length_enclose (c : Enclosure) (as : List (List Enclosure)) :
    (enclose c as).length = as.length :=
  List.length_map _

theorem length_aroundAll {ts : List Token} {texts : List (List Token)} (h : Separated ts texts) :
    ∀ args : List Argument, args.map Argument.tokens = texts →
      (∀ a ∈ args, a.around.length = a.tokens.length) → (aroundAll args).length = ts.length := by
  induction h with
  | one =>
    intro args hargs hlength
    obtain ⟨a, rfl, rfl⟩ := List.map_eq_singleton_iff.1 hargs
    exact hlength a (List.mem_singleton_self a)
  | more _ hothers ih =>
    intro args hargs hlength
    obtain ⟨a, as, rfl, rfl, hmap⟩ := List.map_eq_cons_iff.1 hargs
    obtain ⟨ha, has⟩ := List.forall_mem_cons.1 hlength
    obtain ⟨b, bs, rfl⟩ : ∃ b bs, as = b :: bs := by
      cases as with
      | nil =>
        subst hmap
        cases hothers
      | cons b bs => exact ⟨b, bs, rfl⟩
    rw [aroundAll, List.length_append, List.length_append, List.length_cons, List.length_cons,
      ih _ hmap has, ha]

/-- There are enclosures for each token. -/
theorem Nested.length_eq {L : Level} {ts : List Token} {e : Expr} {as : List (List Enclosure)}
    (h : Nested L ts e as) : as.length = ts.length := by
  induction h with
  | ofProduct _ ih | ofSigned _ ih | ofPower _ ih | ofAtom _ ih => exact ih
  | sum _ _ _ _ ihl ihr | product _ _ _ _ ihl ihr | power _ _ _ _ ihl ihr =>
    simp only [List.length_append, List.length_cons, length_enclose, ihl, ihr]
  | sign _ _ _ ih => simp only [List.length_cons, length_enclose, ih]
  | number | name | emptyCall => rfl
  | call _ _ hts _ _ ih =>
    simp only [List.length_append, List.length_cons, List.cons_append, length_enclose,
      length_aroundAll hts _ rfl ih, List.length_nil]
  | parens _ _ _ ih =>
    simp only [List.length_append, List.length_cons, List.cons_append, length_enclose, ih,
      List.length_nil]

/-- Some token of a phrase lies inside nothing. -/
theorem Nested.nil_mem {L : Level} {ts : List Token} {e : Expr} {as : List (List Enclosure)}
    (h : Nested L ts e as) : [] ∈ as := by
  induction h with
  | ofProduct _ ih | ofSigned _ ih | ofPower _ ih | ofAtom _ ih => exact ih
  | sum _ _ _ _ ih _ | product _ _ _ _ ih _ | power _ _ _ _ ih _ =>
    exact List.mem_append_left _ ih
  | sign | number | name | emptyCall | call | parens => exact List.mem_cons_self ..

/-- The enclosures that are parentheses, arguments or operands of signs. -/
def nesting (around : List Enclosure) : ℕ :=
  around.countP (· ≠ .rightOperand)

theorem nesting_le_length (around : List Enclosure) : nesting around ≤ around.length :=
  List.countP_le_length

/-! ## Room for the enclosures -/

/-- At a depth, the tokens lie inside few enough enclosures for a limit. -/
def Shallow (limit depth : ℕ) (around : List (List Enclosure)) : Prop :=
  ∀ a ∈ around, depth + a.length ≤ limit

variable {limit depth : ℕ} {as bs : List (List Enclosure)}

theorem Shallow.depth_le (h : Shallow limit depth as) (hnil : [] ∈ as) : depth ≤ limit :=
  h [] hnil

theorem shallow_append :
    Shallow limit depth (as ++ bs) ↔ Shallow limit depth as ∧ Shallow limit depth bs :=
  List.forall_mem_append

theorem shallow_cons_nil :
    Shallow limit depth ([] :: as) ↔ depth ≤ limit ∧ Shallow limit depth as :=
  List.forall_mem_cons

theorem shallow_leaf : Shallow limit depth [[]] ↔ depth ≤ limit :=
  List.forall_mem_singleton

theorem shallow_enclose {c : Enclosure} :
    Shallow limit depth (enclose c as) ↔ Shallow limit (depth + 1) as := by
  rw [Shallow, enclose, List.forall_mem_map]
  refine forall₂_congr fun a _ => ?_
  rw [List.length_cons]
  omega

/-- A right operand lies one level deeper than the left one. -/
theorem shallow_binary (hnil : [] ∈ as) {c : Enclosure} :
    Shallow limit depth (as ++ [] :: enclose c bs) ↔
      Shallow limit depth as ∧ Shallow limit (depth + 1) bs := by
  rw [shallow_append, shallow_cons_nil, shallow_enclose]
  exact and_congr_right fun has => and_iff_right (has.depth_le hnil)

theorem shallow_parens {c : Enclosure} :
    Shallow limit depth ([] :: enclose c as ++ [[]]) ↔
      depth ≤ limit ∧ Shallow limit (depth + 1) as := by
  rw [List.cons_append, shallow_cons_nil, shallow_append, shallow_enclose, shallow_leaf]
  exact and_congr_right fun hdepth => and_iff_left hdepth

theorem shallow_aroundAll : ∀ {args : List Argument}, (∀ a ∈ args, [] ∈ a.around) →
    (Shallow limit depth (aroundAll args) ↔ ∀ a ∈ args, Shallow limit depth a.around)
  | [], _ => ⟨fun _ _ h => (nomatch h), fun _ _ h => (nomatch h)⟩
  | [a], _ => by
    rw [List.forall_mem_singleton]
    rfl
  | a :: b :: args, hnil => by
    obtain ⟨ha, hothers⟩ := List.forall_mem_cons.1 hnil
    rw [List.forall_mem_cons, ← shallow_aroundAll hothers, aroundAll, shallow_append,
      shallow_cons_nil]
    exact and_congr_right fun hshallow => and_iff_right (Shallow.depth_le hshallow ha)

theorem shallow_call {args : List Argument} (hnil : ∀ a ∈ args, [] ∈ a.around) {c : Enclosure} :
    Shallow limit depth ([] :: [] :: enclose c (aroundAll args) ++ [[]]) ↔
      depth ≤ limit ∧ ∀ a ∈ args, Shallow limit (depth + 1) a.around := by
  rw [List.cons_append, shallow_cons_nil, shallow_parens, shallow_aroundAll hnil, and_self_left]

end Roundoff.Grammar
