import Roundoff.Proofs.Expr.Acceptance

/-! # What the limits refuse

An expression with a tree is refused for one of two reasons.  Its tree has more nodes than the limit
of nodes; this limit is exact (`nodes_refused_iff`).  Or a token lies inside as many enclosures as
the limit of depth, where an operator encloses its right operand (`depth_refused_iff`).

So the limit of depth is not one on the parentheses, the argument lists and the operands of signs
alone.  The expression as a whole counts for a level, which leaves one less for what lies inside it,
and a level goes to the right operand of every operator: `1+1` nests nothing, and a limit of one
refuses it (`nesting_limit_missed`).
-/
namespace Roundoff.Parser

open Grammar

variable {lim : Limits} {tokens : List Token}

/-! ## Which limit stops a computation -/

namespace Limited

variable {α : Type} {d n : Prop} {x : Except Stop α} {a : α}

theorem eq_ok (h : Limited d n x (.ok a)) (hd : d) (hn : n) : x = .ok a := by
  cases h with
  | within _ _ heq => exact heq
  | tooDeep hdepth _ => exact absurd hd hdepth
  | tooManyNodes hnodes _ => exact absurd hn hnodes

theorem eq_ok_iff (h : Limited d n x (.ok a)) (hn : n) : x = .ok a ↔ d := by
  refine ⟨fun hx => ?_, fun hd => h.eq_ok hd hn⟩
  cases h with
  | within hdepth _ _ => exact hdepth
  | tooDeep _ herror => exact absurd (hx.symm.trans herror) nofun
  | tooManyNodes hnodes _ => exact absurd hn hnodes

theorem tooDeep_iff (h : Limited d n x (.ok a)) (hn : n) :
    (∃ p, x = .error (.tooDeep p)) ↔ ¬ d := by
  refine ⟨fun ⟨p, hp⟩ hd => absurd ((h.eq_ok hd hn).symm.trans hp) nofun, fun hd => ?_⟩
  cases h with
  | within hdepth _ _ => exact absurd hdepth hd
  | tooDeep _ herror => exact ⟨_, herror⟩
  | tooManyNodes hnodes _ => exact absurd hn hnodes

/-- What does not stop for its depth is refused for its nodes or not at all. -/
theorem eq_ok_of_nodes (h : Limited d n x (.ok a)) (hx : ∀ p, x ≠ .error (.tooDeep p)) (hn : n) :
    x = .ok a := by
  cases h with
  | within _ _ heq => exact heq
  | tooDeep _ herror => exact absurd herror (hx _)
  | tooManyNodes hnodes _ => exact absurd hn hnodes

theorem refused_iff (h : Limited d n x (.ok a)) (hx : ∀ p, x ≠ .error (.tooDeep p)) :
    (∃ s, x = .error s ∧ s.Refusal) ↔ ¬ n := by
  refine ⟨fun ⟨s, hs, _⟩ hn => absurd ((h.eq_ok_of_nodes hx hn).symm.trans hs) nofun, fun hn => ?_⟩
  cases h with
  | within _ hnodes _ => exact absurd hnodes hn
  | tooDeep _ herror => exact absurd herror (hx _)
  | tooManyNodes _ herror => exact ⟨_, herror, .tooManyNodes⟩

end Limited

/-! ## Too many nodes -/

theorem parse_eq_error {x : Stop} (h : run lim tokens = .error x) :
    parse lim tokens = .error x := by
  rw [parse, h]
  rfl

/-- **The limit of nodes is exact**: a grammatical token list that is not refused for its depth is
refused exactly when its tree has more nodes than the limit, and otherwise the parser has counted
the nodes of the tree when it returns it. -/
theorem nodes_refused_iff (lim : Limits) (tokens : List Token)
    (hend : tokens.getLast?.map Token.kind = some .endOfInput) {e : Expr}
    (he : Derives .sum (body tokens) e) (hdepth : ∀ p, parse lim tokens ≠ .error (.tooDeep p)) :
    ((∃ x, parse lim tokens = .error x ∧ x.Refusal) ↔ lim.maxNodes < e.count) ∧
    (e.count ≤ lim.maxNodes → ∃ st, run lim tokens = .ok (e, st) ∧ st.nodes = e.count) := by
  obtain ⟨around, haround⟩ := he.exists_nested
  rw [Expr.count_eq_size]
  refine ⟨?_, fun hnodes => ?_⟩
  · rw [(parse_limited lim hend haround).refused_iff hdepth, not_le]
  · obtain ⟨rest, hrun⟩ := run_limited lim hend haround
    have hdeep : ∀ p, run lim tokens ≠ .error (.tooDeep p) := fun p hp =>
      hdepth p (parse_eq_error hp)
    exact ⟨_, hrun.eq_ok_of_nodes hdeep hnodes, rfl⟩

/-- Parentheses make no nodes: `-(1)` has two of them. -/
theorem nodes_refused_of_parens :
    let tokens : List Token := [⟨.operator, "-", 0⟩, ⟨.leftParen, "(", 1⟩, ⟨.number, "1", 2⟩,
      ⟨.rightParen, ")", 3⟩, .finish 4]
    (∃ x, parse ⟨3, 1⟩ tokens = .error x ∧ x.Refusal) ∧
    ∃ st, run ⟨3, 2⟩ tokens = .ok (.unary "-" (.number "1" 2) 0, st) ∧ st.nodes = 2 := by
  intro tokens
  have htree : Derives .sum (body tokens) (.unary "-" (.number "1" 2) 0) :=
    (Derives.sign rfl (.inl rfl) (.ofPower (.ofAtom (.parens rfl
      (.ofProduct (.ofSigned (.ofPower (.ofAtom (.number rfl))))) rfl)))).loosen (by decide)
  have hcount : (Expr.unary "-" (.number "1" 2) 0).count = 2 := Expr.count_eq_size _
  have hrefused : parse ⟨3, 1⟩ tokens = .error (.tooManyNodes 0) := rfl
  have haccepted : parse ⟨3, 2⟩ tokens = .ok (.unary "-" (.number "1" 2) 0) := rfl
  obtain ⟨hfew, -⟩ := nodes_refused_iff ⟨3, 1⟩ tokens rfl htree fun p hp =>
    absurd (hrefused.symm.trans hp) nofun
  obtain ⟨-, hcounted⟩ := nodes_refused_iff ⟨3, 2⟩ tokens rfl htree fun p hp =>
    absurd (haccepted.symm.trans hp) nofun
  rw [hcount] at hfew hcounted
  exact ⟨hfew.2 (by decide), hcounted (by decide)⟩

/-! ## Too deep -/

theorem shallow_one_iff {limit : ℕ} {around : List (List Enclosure)} :
    Shallow limit 1 around ↔ ∀ a ∈ around, a.length < limit :=
  forall₂_congr fun a _ => by rw [Nat.add_comm, Nat.succ_le_iff]

/-- **What the limit of depth refuses**: a grammatical token list within the limit of nodes is
refused for its depth exactly when some token lies inside as many enclosures as the limit, the right
operands of operators among them, and otherwise it is accepted.  More parentheses, argument lists
and operands of signs than the limit are always too many. -/
theorem depth_refused_iff (lim : Limits) (tokens : List Token)
    (hend : tokens.getLast?.map Token.kind = some .endOfInput) {e : Expr}
    (he : Derives .sum (body tokens) e) (hnodes : e.count ≤ lim.maxNodes) :
    (∃ around, Nested .sum (body tokens) e around) ∧
    ∀ around, Nested .sum (body tokens) e around →
      around.length = (body tokens).length ∧
      ((∃ p, parse lim tokens = .error (.tooDeep p)) ↔ ∃ a ∈ around, lim.maxDepth ≤ a.length) ∧
      (parse lim tokens = .ok e ↔ ∀ a ∈ around, a.length < lim.maxDepth) ∧
      ((∃ a ∈ around, lim.maxDepth < nesting a) → ∃ p, parse lim tokens = .error (.tooDeep p)) := by
  rw [Expr.count_eq_size] at hnodes
  refine ⟨he.exists_nested, fun around haround => ?_⟩
  have hlimited := parse_limited lim hend haround
  have hdeep : (∃ p, parse lim tokens = .error (.tooDeep p)) ↔
      ∃ a ∈ around, lim.maxDepth ≤ a.length := by
    rw [hlimited.tooDeep_iff hnodes, shallow_one_iff]
    push Not
    rfl
  refine ⟨haround.length_eq, hdeep, ?_, ?_⟩
  · rw [hlimited.eq_ok_iff hnodes, shallow_one_iff]
  · rintro ⟨a, ha, hlimit⟩
    exact hdeep.2 ⟨a, ha, hlimit.le.trans (nesting_le_length a)⟩

/-- The `3` of `-(2^3)` lies inside a sign, the parentheses and a right operand: a limit of three
refuses the expression, and one of four accepts it. -/
theorem depth_refused_of_power :
    let tokens : List Token := [⟨.operator, "-", 0⟩, ⟨.leftParen, "(", 1⟩, ⟨.number, "2", 2⟩,
      ⟨.operator, "^", 3⟩, ⟨.number, "3", 4⟩, ⟨.rightParen, ")", 5⟩, .finish 6]
    let tree : Expr := .unary "-" (.binary "^" (.number "2" 2) (.number "3" 4) 3) 0
    (∃ p, parse ⟨3, 4⟩ tokens = .error (.tooDeep p)) ∧ parse ⟨4, 4⟩ tokens = .ok tree := by
  intro tokens tree
  have hpower : Nested .power [⟨.number, "2", 2⟩, ⟨.operator, "^", 3⟩, ⟨.number, "3", 4⟩]
      (.binary "^" (.number "2" 2) (.number "3" 4) 3) [[], [], [.rightOperand]] :=
    .power (.number rfl) rfl rfl (.ofPower (.ofAtom (.number rfl)))
  have hnested : Nested .sum (body tokens) tree [[], [.sign], [.sign, .parentheses],
      [.sign, .parentheses], [.sign, .parentheses, .rightOperand], [.sign]] :=
    .ofProduct (.ofSigned (.sign rfl (.inl rfl) (.ofPower (.ofAtom (.parens rfl
      (.ofProduct (.ofSigned (.ofPower hpower))) rfl)))))
  have hcount : tree.count = 4 := Expr.count_eq_size _
  obtain ⟨-, hthree⟩ := depth_refused_iff ⟨3, 4⟩ tokens rfl hnested.derives hcount.le
  obtain ⟨-, hfour⟩ := depth_refused_iff ⟨4, 4⟩ tokens rfl hnested.derives hcount.le
  exact ⟨(hthree _ hnested).2.1.2 (by decide), (hfour _ hnested).2.2.1.2 (by decide)⟩

/-- **The limit of depth is not one of nesting.**  `1+1` is without parentheses, calls and signs,
and `(1)` lies inside one pair of parentheses; a limit of one refuses them both. -/
theorem nesting_limit_missed :
    (Nested .sum [⟨.number, "1", 0⟩, ⟨.operator, "+", 1⟩, ⟨.number, "1", 2⟩]
        (.binary "+" (.number "1" 0) (.number "1" 2) 1) [[], [], [.rightOperand]] ∧
      (∀ a ∈ [[], [], [Enclosure.rightOperand]], nesting a = 0) ∧
      parse ⟨1, 1024⟩ [⟨.number, "1", 0⟩, ⟨.operator, "+", 1⟩, ⟨.number, "1", 2⟩, .finish 3] =
        .error (.tooDeep 2)) ∧
    (Nested .sum [⟨.leftParen, "(", 0⟩, ⟨.number, "1", 1⟩, ⟨.rightParen, ")", 2⟩]
        (.number "1" 1) [[], [.parentheses], []] ∧
      (∀ a ∈ [[], [Enclosure.parentheses], []], nesting a ≤ 1) ∧
      parse ⟨1, 1024⟩ [⟨.leftParen, "(", 0⟩, ⟨.number, "1", 1⟩, ⟨.rightParen, ")", 2⟩, .finish 3] =
        .error (.tooDeep 1)) := by
  have hone : ∀ p : ℤ, Nested .product [⟨.number, "1", p⟩] (.number "1" p) [[]] := fun p =>
    .ofSigned (.ofPower (.ofAtom (.number (t := ⟨.number, "1", p⟩) rfl)))
  refine ⟨⟨?_, by decide, rfl⟩, ?_, by decide, rfl⟩
  · exact .sum (t := ⟨.operator, "+", 1⟩) (.ofProduct (hone 0)) rfl (.inl rfl) (hone 2)
  · exact .ofProduct (.ofSigned (.ofPower (.ofAtom (.parens rfl (.ofProduct (hone 1)) rfl))))

end Roundoff.Parser
