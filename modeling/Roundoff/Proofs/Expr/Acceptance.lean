import Roundoff.Proofs.Expr.Completeness
import Roundoff.Proofs.Expr.Room

/-! # The parser accepts its grammar

A whole token list is a sum up to its end of input.  What the parser accepts is one by soundness,
and what is one is accepted by completeness, unless it exceeds a limit.  Since every token list has
limits with room for it, the grammar is unambiguous.
-/
namespace Roundoff.Parser

open Grammar

variable {lim : Limits} {tokens : List Token}

/-- The tokens before the first end of input. -/
def body (tokens : List Token) : List Token :=
  tokens.takeWhile fun t => t.kind ≠ .endOfInput

theorem body_append {ts rest : List Token} (hts : ∀ t ∈ ts, t.kind ≠ .endOfInput)
    (hrest : (State.peek ⟨rest, 0⟩).kind = .endOfInput) : body (ts ++ rest) = ts := by
  rw [body, List.takeWhile_append_of_pos (by simpa using hts)]
  cases rest with
  | nil => simp
  | cons t us =>
    have ht : t.kind = .endOfInput := hrest
    simp [ht]

/-- A token list that ends with an end of input has one behind its body. -/
theorem exists_eq_body_append (hend : tokens.getLast?.map Token.kind = some .endOfInput) :
    ∃ t rest, tokens = body tokens ++ t :: rest ∧ t.kind = .endOfInput := by
  have hsplit := List.takeWhile_append_dropWhile (p := fun t : Token => t.kind ≠ .endOfInput)
    (l := tokens)
  cases hdrop : tokens.dropWhile fun t => decide (t.kind ≠ .endOfInput) with
  | nil =>
    obtain ⟨t, ht, hkind⟩ := Option.map_eq_some_iff.1 hend
    have hmem := List.mem_of_getLast? ht
    have hall := List.dropWhile_eq_nil_iff.1 hdrop t hmem
    simp [hkind] at hall
  | cons t rest =>
    refine ⟨t, rest, ?_, ?_⟩
    · rw [body, ← hdrop]
      exact hsplit.symm
    · have hhead := List.head?_dropWhile_not (fun t : Token => decide (t.kind ≠ .endOfInput)) tokens
      rw [hdrop] at hhead
      simpa using hhead

/-- What the parser accepts is a sum. -/
theorem ends_parse (hend : tokens.getLast?.map Token.kind = some .endOfInput)
    (hknown : Known tokens) :
    Ends Stop.Reported (fun e => Derives .sum (body tokens) e) (parse lim tokens) := by
  rw [parse_eq_bind, run]
  dsimp only
  rw [if_neg (not_not.2 hend)]
  split
  · exact .stop .malformed
  · have hsound := (sound lim (fuelFor tokens)).1 ⟨0, []⟩ 1 ⟨tokens, 0⟩ (le_refl _) hknown
    refine (hsound.bind ?_).bind fun r hr => .ok hr
    rintro ⟨e, st⟩ ⟨ts, hts, he, -⟩
    dsimp only at hts he
    split
    · rename_i hfinish
      refine .ok ?_
      rw [hts, body_append he.kind_ne hfinish]
      exact he
    · split <;> exact .stop .malformed

/-- **Both limits refuse exactly what exceeds them**: a sum is accepted with a node counted for each
of its tree, unless a token lies too deep or the tree has too many nodes. -/
theorem run_limited (lim : Limits) (hend : tokens.getLast?.map Token.kind = some .endOfInput)
    {e : Expr} {around : List (List Enclosure)} (h : Nested .sum (body tokens) e around) :
    ∃ rest, Limited (Shallow lim.maxDepth 1 around) (e.size ≤ lim.maxNodes) (run lim tokens)
      (.ok (e, ⟨rest, e.size⟩)) := by
  obtain ⟨t, rest, htokens, hkind⟩ := exists_eq_body_append hend
  have hstart : (State.peek ⟨tokens, 0⟩).kind ≠ .endOfInput := by
    obtain ⟨u, us, hbody, -⟩ := h.derives.opens
    rw [htokens, hbody]
    exact h.derives.kind_ne u (hbody ▸ List.mem_cons_self ..)
  have hfollows : Follows 1 (t :: rest) :=
    follows_of_kind hkind (by decide) (by decide)
  have hfuel : 2 * ((body tokens).length + (t :: rest).length) + 2 ≤ fuelFor tokens := by
    rw [← List.length_append, ← htokens]
    exact le_refl _
  have hparses : Parses lim .sum (body tokens) e around := parses_of_nested h
  have hlimited := hparses.expression_limited (show 1 ≤ 1 by decide) le_rfl (by decide) hfollows
    (fuelFor tokens) ⟨0, []⟩ 0 hfuel
  simp only [← htokens, Nat.zero_add] at hlimited
  refine ⟨t :: rest, ?_⟩
  rw [run]
  dsimp only
  rw [if_neg (not_not.2 hend), if_neg hstart]
  exact hlimited.bind_eq (if_pos hkind)

theorem parse_limited (lim : Limits) (hend : tokens.getLast?.map Token.kind = some .endOfInput)
    {e : Expr} {around : List (List Enclosure)} (h : Nested .sum (body tokens) e around) :
    Limited (Shallow lim.maxDepth 1 around) (e.size ≤ lim.maxNodes) (parse lim tokens) (.ok e) := by
  obtain ⟨rest, hrun⟩ := run_limited lim hend h
  rw [parse_eq_bind]
  exact hrun.bind_eq rfl

/-- A sum is accepted, or it is refused for a limit. -/
theorem parse_agree (hend : tokens.getLast?.map Token.kind = some .endOfInput) {e : Expr}
    (h : Derives .sum (body tokens) e) : AgreeUnless Stop.Refusal (parse lim tokens) (.ok e) := by
  obtain ⟨around, haround⟩ := h.exists_nested
  exact (parse_limited lim hend haround).agree

/-! ## The grammar -/

/-- **A phrase has one tree**, whatever the levels it is derived at. -/
theorem unique_of_derives {L M : Level} {ts : List Token} {e e' : Expr} (h : Derives L ts e)
    (h' : Derives M ts e') : e = e' := by
  have hrank : ∀ N : Level, Level.sum.rank ≤ N.rank := by
    intro N
    cases N <;> decide
  have hend : (ts ++ [Token.finish 0]).getLast?.map Token.kind = some .endOfInput := by
    rw [List.getLast?_concat]
    rfl
  have hbody : body (ts ++ [Token.finish 0]) = ts := body_append h.kind_ne rfl
  -- These limits leave room for the whole token list.
  have hparse : ∀ t, Derives .sum ts t →
      parse ⟨fuelFor (ts ++ [Token.finish 0]), (ts ++ [Token.finish 0]).length⟩
        (ts ++ [Token.finish 0]) = .ok t := by
    intro t ht
    rw [← hbody] at ht
    rcases parse_agree hend ht with hok | ⟨x, hx, hstop⟩
    · exact hok
    · exact absurd hx (parse_room le_rfl le_rfl hstop)
  -- Both trees come from the same run of the parser.
  have heq := (hparse e (h.loosen (hrank L))).symm.trans (hparse e' (h'.loosen (hrank M)))
  cases heq
  rfl

/-- **The parser accepts exactly its grammar.**  Unless it stops at a limit, it returns the trees
that the tokens before the first end of input derive as a sum, and finds them malformed when they
derive none. -/
theorem parse_iff_derives (lim : Limits) (tokens : List Token)
    (hend : tokens.getLast?.map Token.kind = some .endOfInput)
    (hoperators : ∀ t ∈ tokens, t.kind = .operator → t.text ∈ ["+", "-", "*", "/", "^"])
    (hlimits : ∀ x, parse lim tokens = .error x → ¬ x.Refusal) :
    (∀ e, parse lim tokens = .ok e ↔ Derives .sum (body tokens) e) ∧
    ((∃ x, parse lim tokens = .error (.malformed x)) ↔ ¬ ∃ e, Derives .sum (body tokens) e) := by
  have hknown : Known tokens := fun t ht hkind =>
    Operation.isSome_ofSymbol?_iff.2 (hoperators t ht hkind)
  have hcomplete : ∀ e, Derives .sum (body tokens) e → parse lim tokens = .ok e := by
    intro e h
    have hagree : AgreeUnless Stop.Refusal (parse lim tokens) (.ok e) := parse_agree hend h
    rcases hagree with hok | ⟨x, hx, hstop⟩
    · exact hok
    · exact absurd hx (hlimits x hstop)
  have hends : Ends Stop.Reported (fun e => Derives .sum (body tokens) e) (parse lim tokens) :=
    ends_parse hend hknown
  refine ⟨fun e => ⟨?_, hcomplete e⟩, ?_, ?_⟩
  · intro hok
    rw [hok] at hends
    cases hends with
    | ok h => exact h
  · rintro ⟨x, hx⟩ ⟨e, he⟩
    rw [hcomplete e he] at hx
    cases hx
  · intro hnone
    generalize hparse : parse lim tokens = r at hends
    cases hends with
    | @ok e h => exact absurd ⟨e, h⟩ hnone
    | @stop x hx =>
      cases hx with
      | @malformed y => exact ⟨y, rfl⟩
      | refused hrefusal => exact absurd hrefusal (hlimits _ hparse)

/-- The right side of a power may carry a sign, and two numbers make no expression. -/
theorem derives_signed_power :
    Derives .sum [⟨.number, "2", 0⟩, ⟨.operator, "^", 1⟩, ⟨.operator, "-", 2⟩, ⟨.number, "3", 3⟩]
      (.binary "^" (.number "2" 0) (.unary "-" (.number "3" 3) 2) 1) ∧
    ¬ ∃ e, Derives .sum [⟨.number, "2", 0⟩, ⟨.number, "3", 2⟩] e := by
  have hpower : parse ⟨10, 10⟩ [⟨.number, "2", 0⟩, ⟨.operator, "^", 1⟩, ⟨.operator, "-", 2⟩,
      ⟨.number, "3", 3⟩, .finish 4] =
      .ok (.binary "^" (.number "2" 0) (.unary "-" (.number "3" 3) 2) 1) := rfl
  have hnumbers : parse ⟨10, 10⟩ [⟨.number, "2", 0⟩, ⟨.number, "3", 2⟩, .finish 3] =
      .error (.malformed (.unexpected .endOfInput ⟨.number, "3", 2⟩)) := rfl
  refine ⟨?_, ?_⟩
  · refine ((parse_iff_derives ⟨10, 10⟩ _ rfl (by decide) ?_).1 _).1 hpower
    intro x hx
    rw [hpower] at hx
    cases hx
  · refine (parse_iff_derives ⟨10, 10⟩ _ rfl (by decide) ?_).2.1 ⟨_, hnumbers⟩
    intro x hx
    rw [hnumbers] at hx
    cases hx
    exact (nomatch ·)

end Roundoff.Parser
