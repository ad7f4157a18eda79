import Roundoff.Proofs.Operation

/-! # The grammar of expressions

The levels, from the loosest to the tightest, with their rules:

* a sum is a sum, `+` or `-`, and a product, or it is a product;
* a product is a product, `*` or `/`, and a signed operand, or it is a signed operand;
* a signed operand is `-` or `+` and a signed operand, or it is a power;
* a power is an atom, `^` and a signed operand, or it is an atom;
* an atom is a number, a name, a name with arguments in parentheses, or a sum in parentheses.

A phrase is a list of tokens, and the tree of a phrase has a node for each rule that an operator, a
number or a name belongs to.
-/
namespace Roundoff.Grammar

/-- The levels of the grammar. -/
inductive Level where
  | sum
  | product
  | signed
  | power
  | atom
  deriving DecidableEq

/-- The places of the levels from the loosest to the tightest. -/
def Level.rank : Level → ℕ
  | sum => 1
  | product => 2
  | signed => 3
  | power => 4
  | atom => 5

/-- The tokens are these parts, at least one of them, with a comma between each two. -/
inductive Separated : List Token → List (List Token) → Prop
  | one {ts : List Token} : Separated ts [ts]
  | more {ts us : List Token} {comma : Token} {parts : List (List Token)} :
      comma.kind = .comma → Separated us parts → Separated (ts ++ comma :: us) (ts :: parts)

/-- **The grammar**: at a level, the tokens are a phrase with this tree. -/
inductive Derives : Level → List Token → Expr → Prop
  | sum {xs ys : List Token} {t : Token} {l r : Expr} : Derives .sum xs l →
      t.kind = .operator → t.text = "+" ∨ t.text = "-" → Derives .product ys r →
      Derives .sum (xs ++ t :: ys) (.binary t.text l r t.position)
  | ofProduct {ts : List Token} {e : Expr} : Derives .product ts e → Derives .sum ts e
  | product {xs ys : List Token} {t : Token} {l r : Expr} : Derives .product xs l →
      t.kind = .operator → t.text = "*" ∨ t.text = "/" → Derives .signed ys r →
      Derives .product (xs ++ t :: ys) (.binary t.text l r t.position)
  | ofSigned {ts : List Token} {e : Expr} : Derives .signed ts e → Derives .product ts e
  | sign {ts : List Token} {t : Token} {e : Expr} : t.kind = .operator →
      t.text = "-" ∨ t.text = "+" → Derives .signed ts e →
      Derives .signed (t :: ts) (.unary t.text e t.position)
  | ofPower {ts : List Token} {e : Expr} : Derives .power ts e → Derives .signed ts e
  | power {xs ys : List Token} {t : Token} {l r : Expr} : Derives .atom xs l →
      t.kind = .operator → t.text = "^" → Derives .signed ys r →
      Derives .power (xs ++ t :: ys) (.binary t.text l r t.position)
  | ofAtom {ts : List Token} {e : Expr} : Derives .atom ts e → Derives .power ts e
  | number {t : Token} : t.kind = .number → Derives .atom [t] (.number t.text t.position)
  | name {t : Token} : t.kind = .identifier → Derives .atom [t] (.name t.text t.position)
  | emptyCall {name opening closing : Token} : name.kind = .identifier →
      opening.kind = .leftParen → closing.kind = .rightParen →
      Derives .atom [name, opening, closing] (.call name.text [] name.position)
  | call {name opening closing : Token} {ts : List Token} {parts : List (List Token × Expr)} :
      name.kind = .identifier → opening.kind = .leftParen →
      Separated ts (parts.map Prod.fst) → (∀ part ∈ parts, Derives .sum part.1 part.2) →
      closing.kind = .rightParen →
      Derives .atom (name :: opening :: ts ++ [closing])
        (.call name.text (parts.map Prod.snd) name.position)
  | parens {opening closing : Token} {ts : List Token} {e : Expr} : opening.kind = .leftParen →
      Derives .sum ts e → closing.kind = .rightParen →
      Derives .atom (opening :: ts ++ [closing]) e

/-! ## Levels -/

theorem Derives.loosen {L M : Level} {ts : List Token} {e : Expr} (h : Derives L ts e)
    (hle : M.rank ≤ L.rank) : Derives M ts e := by
  have hpower : Level.power.rank ≤ L.rank → Derives .power ts e := by
    intro hL
    cases L with
    | atom => exact .ofAtom h
    | power => exact h
    | sum | product | signed => exact absurd hL (by decide)
  have hsigned : Level.signed.rank ≤ L.rank → Derives .signed ts e := by
    intro hL
    cases L with
    | atom | power => exact .ofPower (hpower (by decide))
    | signed => exact h
    | sum | product => exact absurd hL (by decide)
  have hproduct : Level.product.rank ≤ L.rank → Derives .product ts e := by
    intro hL
    cases L with
    | atom | power | signed => exact .ofSigned (hsigned (by decide))
    | product => exact h
    | sum => exact absurd hL (by decide)
  cases M with
  | sum =>
    cases L with
    | atom | power | signed | product => exact .ofProduct (hproduct (by decide))
    | sum => exact h
  | product => exact hproduct hle
  | signed => exact hsigned hle
  | power => exact hpower hle
  | atom =>
    cases L with
    | atom => exact h
    | sum | product | signed | power => exact absurd hle (by decide)

/-! ## Phrases -/

/-- The tokens of separated parts are those of the parts and commas. -/
theorem Separated.kind_of_mem {ts : List Token} {parts : List (List Token)}
    (h : Separated ts parts) {t : Token} (ht : t ∈ ts) :
    t.kind = .comma ∨ ∃ part ∈ parts, t ∈ part := by
  induction h with
  | one => exact Or.inr ⟨_, List.mem_singleton_self _, ht⟩
  | more hcomma _ ih =>
    rcases List.mem_append.1 ht with ht | ht
    · exact Or.inr ⟨_, List.mem_cons_self .., ht⟩
    · rcases List.mem_cons.1 ht with rfl | ht
      · exact Or.inl hcomma
      · rcases ih ht with hkind | ⟨part, hpart, ht⟩
        · exact Or.inl hkind
        · exact Or.inr ⟨part, List.mem_cons_of_mem _ hpart, ht⟩

/-- No phrase has the end of the input in it. -/
theorem Derives.kind_ne {L : Level} {ts : List Token} {e : Expr} (h : Derives L ts e) :
    ∀ t ∈ ts, t.kind ≠ .endOfInput := by
  induction h with
  | ofProduct _ ih | ofSigned _ ih | ofPower _ ih | ofAtom _ ih => exact ih
  | sum _ hkind _ _ ihl ihr | product _ hkind _ _ ihl ihr | power _ hkind _ _ ihl ihr =>
    intro t ht
    rcases List.mem_append.1 ht with ht | ht
    · exact ihl t ht
    · rcases List.mem_cons.1 ht with rfl | ht
      · exact hkind.trans_ne (by decide)
      · exact ihr t ht
  | sign hkind _ _ ih =>
    intro t ht
    rcases List.mem_cons.1 ht with rfl | ht
    · exact hkind.trans_ne (by decide)
    · exact ih t ht
  | number hkind | name hkind =>
    intro t ht
    rw [List.mem_singleton.1 ht]
    exact hkind.trans_ne (by decide)
  | emptyCall hname hopening hclosing =>
    intro t ht
    simp only [List.mem_cons, List.not_mem_nil, or_false] at ht
    rcases ht with rfl | rfl | rfl
    · exact hname.trans_ne (by decide)
    · exact hopening.trans_ne (by decide)
    · exact hclosing.trans_ne (by decide)
  | call hname hopening hparts _ hclosing ih =>
    intro t ht
    simp only [List.mem_cons, List.mem_append, List.cons_append, List.not_mem_nil, or_false] at ht
    rcases ht with rfl | rfl | ht | rfl
    · exact hname.trans_ne (by decide)
    · exact hopening.trans_ne (by decide)
    · rcases hparts.kind_of_mem ht with hkind | ⟨part, hpart, ht⟩
      · exact hkind.trans_ne (by decide)
      · obtain ⟨p, hp, rfl⟩ := List.mem_map.1 hpart
        exact ih p hp t ht
    · exact hclosing.trans_ne (by decide)
  | parens hopening _ hclosing ih =>
    intro t ht
    simp only [List.mem_cons, List.mem_append, List.cons_append, List.not_mem_nil, or_false] at ht
    rcases ht with rfl | ht | rfl
    · exact hopening.trans_ne (by decide)
    · exact ih t ht
    · exact hclosing.trans_ne (by decide)

/-- A list of tokens that starts with something other than a closing parenthesis. -/
def Opens (ts : List Token) : Prop :=
  ∃ t us, ts = t :: us ∧ t.kind ≠ .rightParen

theorem Opens.append {ts : List Token} (h : Opens ts) (us : List Token) : Opens (ts ++ us) := by
  obtain ⟨t, vs, rfl, hkind⟩ := h
  exact ⟨t, vs ++ us, rfl, hkind⟩

theorem opens_cons {t : Token} {ts : List Token} {kind : TokenKind} (hkind : t.kind = kind)
    (hne : kind ≠ .rightParen) : Opens (t :: ts) :=
  ⟨t, ts, rfl, hkind ▸ hne⟩

/-- No phrase starts with a closing parenthesis, and none is empty. -/
theorem Derives.opens {L : Level} {ts : List Token} {e : Expr} (h : Derives L ts e) :
    Opens ts := by
  induction h with
  | ofProduct _ ih | ofSigned _ ih | ofPower _ ih | ofAtom _ ih => exact ih
  | sum _ _ _ _ ih _ | product _ _ _ _ ih _ | power _ _ _ _ ih _ => exact ih.append _
  | sign hkind | number hkind | name hkind | emptyCall hkind | call hkind | parens hkind =>
    exact opens_cons hkind (by decide)

theorem Separated.opens {ts : List Token} {parts : List (List Token)} (h : Separated ts parts)
    (hparts : ∀ part ∈ parts, Opens part) : Opens ts := by
  cases h with
  | one => exact hparts _ (List.mem_singleton_self _)
  | more _ _ => exact (hparts _ (List.mem_cons_self ..)).append _

end Roundoff.Grammar
