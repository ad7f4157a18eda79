import Roundoff.Proofs.Expr.Grammar
import Roundoff.Proofs.Expr.Steps

/-! # What the parser accepts is a phrase

By induction on the bound of the recursion, over the four functions of the parser together.  Each
reads a prefix of the tokens and makes the tree of that phrase.  While operators are added to a left
operand, the operand is a phrase of some level, and the next operator binds more loosely than that
level lets it (`StopsBelow`); a looser operator ends the expression, and every other one makes a
phrase of its own level.  As long as the bound covers the tokens it is never used up.
-/
namespace Roundoff

open Grammar

namespace Parser

/-! ## Ways to end -/

/-- The stops that a token list with known operators can lead to: it is malformed, or a limit
refuses it. -/
inductive Stop.Reported : Stop → Prop
  | malformed {e : ParseError} : Reported (.malformed e)
  | refused {x : Stop} : x.Refusal → Reported x

variable {lim : Limits}

theorem ends_node (e : Expr) (st : State) :
    Ends Stop.Reported (fun r => r.1 = e ∧ r.2.rest = st.rest) (st.node lim e) := by
  rw [State.node]
  split
  · exact .stop (.refused .tooManyNodes)
  · exact .ok ⟨rfl, rfl⟩

theorem ends_enter (ctx : Context) (st : State) :
    Ends Stop.Reported (fun _ => True) (ctx.enter lim st) := by
  rw [Context.enter]
  split
  · exact .stop (.refused .tooDeep)
  · exact .ok trivial

theorem ends_close (ctx : Context) (st : State) :
    Ends Stop.Reported (fun st' => ∃ t, st.rest = t :: st'.rest ∧ t.kind = .rightParen)
      (ctx.close st) := by
  rcases close_cases ctx st with ⟨t, ts, hrest, hkind, hclose⟩ | ⟨e, hclose⟩
  · rw [hclose]
    exact .ok ⟨t, hrest, hkind⟩
  · rw [hclose]
    exact .stop .malformed

/-! ## Tokens -/

/-- Every operator token has the symbol of an operation. -/
def Known (ts : List Token) : Prop :=
  ∀ t ∈ ts, t.kind = .operator → (Operation.ofSymbol? t.text).isSome

theorem Known.suffix {xs ys : List Token} (h : Known (xs ++ ys)) : Known ys :=
  fun t ht => h t (List.mem_append_right xs ht)

theorem Known.tail {t : Token} {ts : List Token} (h : Known (t :: ts)) : Known ts :=
  fun u hu => h u (List.mem_cons_of_mem t hu)

theorem Known.stopsBelow {rest : List Token} (h : Known rest) : StopsBelow 5 rest := by
  intro t ts ht hkind
  subst ht
  obtain ⟨op, hop⟩ := Option.isSome_iff_exists.1 (h t (List.mem_cons_self ..) hkind)
  exact ⟨op, hop, Nat.lt_succ_of_le op.precedence_le⟩

/-- Signs are no binary operators, so below the power there are only the four others. -/
theorem StopsBelow.below_sign {rest : List Token} (h : StopsBelow 4 rest) : StopsBelow 3 rest := by
  intro t ts ht hkind
  obtain ⟨op, hop, hlt⟩ := h t ts ht hkind
  have hne : op.precedence ≠ 3 := op.precedence_ne_sign
  exact ⟨op, hop, by omega⟩

end Parser

/-! ## Levels and precedences -/

namespace Grammar

/-- The precedence that an operator after a phrase of a level stays below, or else it would belong
to the phrase. -/
def Level.bound : Level → ℕ
  | sum => 2
  | product => 3
  | signed => 3
  | power => 3
  | atom => 5

/-- The level of the expressions whose operators have at least a given precedence. -/
def Level.ofMinimum : ℕ → Level
  | 0 => sum
  | 1 => sum
  | 2 => product
  | _ => signed

/-- The level of the phrases that an operator makes. -/
def Level.ofOperation : Operation → Level
  | .add => sum
  | .sub => sum
  | .mul => product
  | .div => product
  | .pow => power

theorem rank_ofMinimum_le {minimum : ℕ} {op : Operation} (h : minimum ≤ op.precedence) :
    (Level.ofMinimum minimum).rank ≤ (Level.ofOperation op).rank := by
  cases op <;> simp only [Operation.precedence] at h <;> interval_cases minimum <;> decide

/-- An operator that a phrase allows next, with its right operand, makes a phrase of its level. -/
theorem Derives.binary {L : Level} {xs ys : List Token} {t : Token} {l r : Expr} {op : Operation}
    (hl : Derives L xs l) (hkind : t.kind = .operator)
    (hop : Operation.ofSymbol? t.text = some op) (hbound : op.precedence < L.bound)
    (hr : Derives (.ofMinimum op.rightMinimum) ys r) :
    Derives (.ofOperation op) (xs ++ t :: ys) (.binary t.text l r t.position) := by
  have htext := Operation.ofSymbol?_eq_some_iff.1 hop
  cases op with
  | add => exact .sum (hl.loosen (by cases L <;> decide)) hkind (Or.inl htext) hr
  | sub => exact .sum (hl.loosen (by cases L <;> decide)) hkind (Or.inr htext) hr
  | mul =>
    have hrank : Level.product.rank ≤ L.rank := by cases L <;> revert hbound <;> decide
    exact .product (hl.loosen hrank) hkind (Or.inl htext) hr
  | div =>
    have hrank : Level.product.rank ≤ L.rank := by cases L <;> revert hbound <;> decide
    exact .product (hl.loosen hrank) hkind (Or.inr htext) hr
  | pow =>
    have hrank : Level.atom.rank ≤ L.rank := by cases L <;> revert hbound <;> decide
    exact .power (hl.loosen hrank) hkind htext hr

theorem stopsBelow_right {op : Operation} {rest : List Token}
    (h : Parser.StopsBelow op.rightMinimum rest) :
    Parser.StopsBelow (Level.ofOperation op).bound rest := by
  cases op with
  | pow => exact h.below_sign
  | add | sub | mul | div => exact h

end Grammar

namespace Parser

variable {lim : Limits}

/-! ## The invariant -/

/-- An expression is a phrase of the level of its minimum, up to an operator below it. -/
def ReadsExpression (minimum : ℕ) (st : State) (r : Expr × State) : Prop :=
  ∃ ts, st.rest = ts ++ r.2.rest ∧ Derives (.ofMinimum minimum) ts r.1 ∧ StopsBelow minimum r.2.rest

/-- A left operand that is a phrase grows into one of the level of the minimum. -/
def ReadsOperators (minimum : ℕ) (xs : List Token) (st : State) (r : Expr × State) : Prop :=
  ∃ ts, st.rest = ts ++ r.2.rest ∧ Derives (.ofMinimum minimum) (xs ++ ts) r.1 ∧
    StopsBelow minimum r.2.rest

/-- An operand is a phrase of a level that no operator makes looser than a sign. -/
def ReadsOperand (st : State) (r : Expr × State) : Prop :=
  ∃ ts L, st.rest = ts ++ r.2.rest ∧ Derives L ts r.1 ∧ Level.signed.rank ≤ L.rank ∧
    StopsBelow L.bound r.2.rest

/-- Arguments are sums with commas between them. -/
def ReadsArguments (st : State) (r : List Expr × State) : Prop :=
  ∃ ts, ∃ parts : List (List Token × Expr), st.rest = ts ++ r.2.rest ∧
    Separated ts (parts.map Prod.fst) ∧ (∀ part ∈ parts, Derives .sum part.1 part.2) ∧
    parts.map Prod.snd = r.1

def ExpressionSound (lim : Limits) (fuel : ℕ) : Prop :=
  ∀ ctx minimum st, 2 * st.rest.length + 2 ≤ fuel → Known st.rest →
    Ends Stop.Reported (ReadsExpression minimum st) (expression lim fuel ctx minimum st)

def ClimbSound (lim : Limits) (fuel : ℕ) : Prop :=
  ∀ ctx minimum left st L xs, 2 * st.rest.length + 1 ≤ fuel → Known st.rest →
    Derives L xs left → (Level.ofMinimum minimum).rank ≤ L.rank → StopsBelow L.bound st.rest →
    Ends Stop.Reported (ReadsOperators minimum xs st) (climb lim fuel ctx minimum left st)

def OperandSound (lim : Limits) (fuel : ℕ) : Prop :=
  ∀ ctx st, 2 * st.rest.length + 1 ≤ fuel → Known st.rest →
    Ends Stop.Reported (ReadsOperand st) (operand lim fuel ctx st)

def ArgumentsSound (lim : Limits) (fuel : ℕ) : Prop :=
  ∀ ctx st, 2 * st.rest.length + 3 ≤ fuel → Known st.rest →
    Ends Stop.Reported (ReadsArguments st) (arguments lim fuel ctx st)

/-! ## One step -/

variable {fuel : ℕ}

theorem expression_sound (hoperand : OperandSound lim fuel) (hclimb : ClimbSound lim fuel) :
    ExpressionSound lim (fuel + 1) := by
  intro ctx minimum st hfuel hknown
  rw [expression]
  refine (ends_enter ctx st).bind fun ctx _ => ?_
  refine (hoperand ctx st (by omega) hknown).bind ?_
  rintro ⟨left, st₂⟩ ⟨xs, L, hxs, hleft, hrank, hstops⟩
  dsimp only at hxs hleft hstops ⊢
  have hlength := congrArg List.length hxs
  rw [List.length_append] at hlength
  rw [hxs] at hknown
  -- No minimum asks for a level tighter than a sign, and the operand has at least that one.
  have hminimum : (Level.ofMinimum minimum).rank ≤ L.rank := by
    refine le_trans ?_ hrank
    unfold Level.ofMinimum
    split <;> decide
  refine (hclimb ctx minimum left st₂ L xs (by omega) hknown.suffix hleft hminimum hstops).mono ?_
  rintro r ⟨ts, hts, hr, hbelow⟩
  exact ⟨xs ++ ts, by rw [hxs, hts, List.append_assoc], hr, hbelow⟩

theorem climb_sound (hexpression : ExpressionSound lim fuel) (hclimb : ClimbSound lim fuel) :
    ClimbSound lim (fuel + 1) := by
  intro ctx minimum left st L xs hfuel hknown hleft hrank hstops
  cases climbShape minimum st with
  | stop hbelow =>
    rw [climb_stop hbelow]
    exact .ok ⟨[], rfl, by rw [List.append_nil]; exact hleft.loosen hrank, hbelow⟩
  -- Every operator behind a phrase is known.
  | unknown hkind hop =>
    obtain ⟨op, hsome, -⟩ := hstops _ _ rfl hkind
    rw [hop] at hsome
    cases hsome
  | @operator t ts nodes op hkind hop hle =>
    obtain ⟨op', hop', hbound⟩ := hstops _ _ rfl hkind
    rw [hop, Option.some.injEq] at hop'
    subst hop'
    rw [climb_operator hkind hop hle]
    dsimp only [List.length_cons] at hfuel hknown ⊢
    refine (hexpression ctx op.rightMinimum ⟨ts, nodes⟩ (by dsimp only; omega) hknown.tail).bind ?_
    rintro ⟨right, st₂⟩ ⟨ys, hys, hright, hbelow⟩
    dsimp only at hys hright hbelow ⊢
    have hlength := congrArg List.length hys
    rw [List.length_append] at hlength
    refine (ends_node _ st₂).bind ?_
    rintro ⟨tree, st₃⟩ ⟨rfl, hst₃⟩
    dsimp only at hst₃ ⊢
    rw [← hst₃] at hys hbelow hlength
    rw [hys] at hknown
    refine (hclimb ctx minimum _ st₃ _ _ (by omega) hknown.tail.suffix
      (hleft.binary hkind hop hbound hright) (rank_ofMinimum_le hle)
      (stopsBelow_right hbelow)).mono ?_
    rintro r ⟨zs, hzs, hr, hend⟩
    refine ⟨t :: ys ++ zs, ?_, ?_, hend⟩
    · rw [hys, hzs, List.cons_append, List.cons_append, List.append_assoc]
    · rw [← List.append_assoc]
      exact hr

/-- An atom that ends with a node is an operand. -/
theorem atom_sound {ts : List Token} {e : Expr} (h : Derives .atom ts e) {st st' : State}
    (hst : st.rest = ts ++ st'.rest) (hknown : Known st'.rest) :
    Ends Stop.Reported (ReadsOperand st) (st'.node lim e) := by
  refine (ends_node e st').mono ?_
  rintro ⟨tree, st₂⟩ ⟨rfl, hrest⟩
  dsimp only at hrest
  rw [← hrest] at hst hknown
  exact ⟨ts, .atom, hst, h, by decide, hknown.stopsBelow⟩

theorem operand_sound (hexpression : ExpressionSound lim fuel)
    (harguments : ArgumentsSound lim fuel) : OperandSound lim (fuel + 1) := by
  intro ctx st hfuel hknown
  cases operandShape st with
  | @sign t ts nodes hkind hsign =>
    rw [operand_sign hkind hsign]
    dsimp only [List.length_cons] at hfuel hknown ⊢
    refine (hexpression ctx signMinimum ⟨ts, nodes⟩ (by dsimp only; omega) hknown.tail).bind ?_
    rintro ⟨e, st₂⟩ ⟨us, hus, he, hbelow⟩
    refine (ends_node _ st₂).mono ?_
    rintro ⟨tree, st₃⟩ ⟨rfl, hst₃⟩
    dsimp only at hus he hbelow hst₃
    rw [← hst₃] at hus hbelow
    have htext : t.text = "-" ∨ t.text = "+" := by simpa [isSign] using hsign
    exact ⟨t :: us, .signed, by rw [hus]; rfl, .sign hkind htext he, le_rfl, hbelow⟩
  | number hkind =>
    rw [operand_number hkind]
    exact atom_sound (.number hkind) rfl hknown.tail
  | name hkind hnext =>
    rw [operand_name hkind hnext]
    exact atom_sound (.name hkind) rfl hknown.tail
  | emptyCall hkind hopening hclosing =>
    rw [operand_emptyCall hkind hopening hclosing]
    exact atom_sound (.emptyCall hkind hopening hclosing) rfl hknown.tail.tail.tail
  | @call t opening ts nodes hkind hopening hnext =>
    rw [operand_call hkind hopening hnext]
    dsimp only [List.length_cons] at hfuel hknown ⊢
    refine (harguments _ ⟨ts, nodes⟩ (by dsimp only; omega) hknown.tail.tail).bind ?_
    rintro ⟨args, st₂⟩ ⟨us, parts, hus, hparts, hderives, rfl⟩
    refine (ends_close _ st₂).bind ?_
    rintro st₃ ⟨closing, hst₂, hclosing⟩
    dsimp only at hus
    rw [hst₂] at hus
    rw [hus] at hknown
    refine atom_sound (.call hkind hopening hparts hderives hclosing) ?_
      hknown.tail.tail.suffix.tail
    rw [hus]
    simp
  | @parens t ts nodes hkind =>
    rw [operand_parens hkind]
    dsimp only [List.length_cons] at hfuel hknown ⊢
    refine (hexpression _ 1 ⟨ts, nodes⟩ (by dsimp only; omega) hknown.tail).bind ?_
    rintro ⟨e, st₂⟩ ⟨us, hus, he, -⟩
    refine (ends_close _ st₂).bind ?_
    rintro st₃ ⟨closing, hst₂, hclosing⟩
    dsimp only at hus he
    rw [hst₂] at hus
    rw [hus] at hknown
    refine .ok ⟨t :: us ++ [closing], .atom, ?_, .parens hkind he hclosing, by decide,
      hknown.tail.suffix.tail.stopsBelow⟩
    rw [hus]
    simp
  | none _ hfail =>
    obtain ⟨e, he⟩ := fail_eq ctx .expression st
    rw [hfail, he]
    exact .stop .malformed

theorem arguments_sound (hexpression : ExpressionSound lim fuel)
    (harguments : ArgumentsSound lim fuel) : ArgumentsSound lim (fuel + 1) := by
  intro ctx st hfuel hknown
  rw [arguments]
  refine (hexpression ctx 1 st (by omega) hknown).bind ?_
  rintro ⟨e, st₂⟩ ⟨ts, hts, he, -⟩
  dsimp only at hts he ⊢
  have hlength := congrArg List.length hts
  rw [List.length_append] at hlength
  split
  · rename_i hcomma
    obtain ⟨comma, rest, hst₂, hkind, hadvance⟩ := exists_cons_of_peek hcomma (by decide)
    rw [hst₂] at hts hlength
    rw [hadvance]
    dsimp only [List.length_cons] at hts hlength
    rw [hts] at hknown
    refine (harguments ctx ⟨rest, st₂.nodes⟩ (by dsimp only; omega) hknown.suffix.tail).bind ?_
    rintro ⟨es, st₃⟩ ⟨us, parts, hus, hparts, hderives, rfl⟩
    dsimp only at hus
    refine .ok ⟨ts ++ comma :: us, (ts, e) :: parts, ?_, .more hkind hparts,
      List.forall_mem_cons.2 ⟨he, hderives⟩, rfl⟩
    rw [hts, hus, List.append_assoc]
    rfl
  · exact .ok ⟨ts, [(ts, e)], hts, .one, List.forall_mem_singleton.2 he, rfl⟩

/-! ## The whole run -/

/-- **The parser reads phrases**, and its bound is never used up. -/
theorem sound (lim : Limits) (fuel : ℕ) : ExpressionSound lim fuel ∧ ClimbSound lim fuel ∧
    OperandSound lim fuel ∧ ArgumentsSound lim fuel := by
  induction fuel with
  | zero =>
    refine ⟨?_, ?_, ?_, ?_⟩
    · intro _ _ st h
      omega
    · intro _ _ _ st _ _ h
      omega
    · intro _ st h
      omega
    · intro _ st h
      omega
  | succ fuel ih =>
    obtain ⟨hexpression, hclimb, hoperand, harguments⟩ := ih
    exact ⟨expression_sound hoperand hclimb, climb_sound hexpression hclimb,
      operand_sound hexpression harguments, arguments_sound hexpression harguments⟩

end Parser

end Roundoff
