import Roundoff.Proofs.Expr.Acceptance
import Roundoff.Proofs.Dual.Recursion
import Roundoff.Proofs.Token.Words

/-! # Written trees are read back

A tree is written with a pair of parentheses around every operator.  The written form is scanned
into a phrase that derives the tree as an atom, whatever follows it (`Expr.reads_source`): behind an
operand stands a blank, a comma or a closing parenthesis, and none of them belongs to a number or to
a name.  So the parser gives the tree back, its positions apart.
-/
namespace Roundoff

open Grammar

namespace Expr

mutual

/-- The tree with its positions erased. -/
def unplaced : Expr → Expr
  | number t _ => number t 0
  | name n _ => name n 0
  | unary op e _ => unary op e.unplaced 0
  | binary op l r _ => binary op l.unplaced r.unplaced 0
  | call n args _ => call n (unplacedList args) 0

/-- The trees of a list with their positions erased. -/
def unplacedList : List Expr → List Expr
  | [] => []
  | e :: es => e.unplaced :: unplacedList es

end

/-- The literal, the name or the operator of a node is one that a line can have. -/
def IsSpelled : Expr → Prop
  | number t _ => Lexer.tokenize t = .ok [⟨.number, t, 0⟩, .finish t.length]
  | name n _ => Lexer.IsName n.toList
  | unary op _ _ => op = "-" ∨ op = "+"
  | binary op _ _ _ => op ∈ ["+", "-", "*", "/", "^"]
  | call n _ _ => Lexer.IsName n.toList

/-- **Every node of the tree is spelled as in a line.** -/
def Spelled (e : Expr) : Prop :=
  ∀ n ∈ e.preorder, n.IsSpelled

theorem unplacedList_eq_map (es : List Expr) : unplacedList es = es.map unplaced := by
  induction es with
  | nil => rfl
  | cons e es ih => rw [unplacedList, ih, List.map_cons]

end Expr

/-! ## Phrases of operators -/

theorem derives_sign {op : String} (hop : op = "-" ∨ op = "+") {ts : List Token} {e : Expr} (q : ℤ)
    (h : Derives .atom ts e) : Derives .sum (⟨.operator, op, q⟩ :: ts) (.unary op e q) :=
  (Derives.sign (t := ⟨.operator, op, q⟩) rfl hop (h.loosen (by decide))).loosen (by decide)

theorem derives_binary {op : String} (hop : op ∈ ["+", "-", "*", "/", "^"]) {xs ys : List Token}
    {l r : Expr} (q : ℤ) (hl : Derives .atom xs l) (hr : Derives .atom ys r) :
    Derives .sum (xs ++ ⟨.operator, op, q⟩ :: ys) (.binary op l r q) := by
  have hlproduct : Derives .product xs l := hl.loosen (by decide)
  have hrsigned : Derives .signed ys r := hr.loosen (by decide)
  simp only [List.mem_cons, List.not_mem_nil, or_false] at hop
  rcases hop with rfl | rfl | rfl | rfl | rfl
  · exact .sum (t := ⟨.operator, "+", q⟩) (.ofProduct hlproduct) rfl (Or.inl rfl)
      (.ofSigned hrsigned)
  · exact .sum (t := ⟨.operator, "-", q⟩) (.ofProduct hlproduct) rfl (Or.inr rfl)
      (.ofSigned hrsigned)
  · exact .ofProduct (.product (t := ⟨.operator, "*", q⟩) hlproduct rfl (Or.inl rfl) hrsigned)
  · exact .ofProduct (.product (t := ⟨.operator, "/", q⟩) hlproduct rfl (Or.inr rfl) hrsigned)
  · have hpower : Derives .power (xs ++ ⟨.operator, "^", q⟩ :: ys) (.binary "^" l r q) :=
      .power (t := ⟨.operator, "^", q⟩) hl rfl rfl hrsigned
    exact hpower.loosen (by decide)

/-! ## Written trees -/

namespace Expr

open Lexer

/-- The phrase derives the tree as an atom, its positions apart. -/
def IsAtom (e : Expr) (phrase : List Token) : Prop :=
  ∃ e', Derives .atom phrase e' ∧ e'.unplaced = e.unplaced

/-- The phrase derives the tree as a sum, its positions apart. -/
def IsSum (e : Expr) (phrase : List Token) : Prop :=
  ∃ e', Derives .sum phrase e' ∧ e'.unplaced = e.unplaced

/-- The phrase separates phrases of the trees, their positions apart. -/
def AreParts (es : List Expr) (phrase : List Token) : Prop :=
  ∃ parts : List (List Token × Expr), Separated phrase (parts.map Prod.fst) ∧
    (∀ part ∈ parts, Derives .sum part.1 part.2) ∧
    parts.map (fun part => part.2.unplaced) = es.map unplaced

theorem Spelled.self {e : Expr} (h : e.Spelled) : e.IsSpelled :=
  h e (self_mem_preorder e)

theorem Spelled.child {e c : Expr} (h : e.Spelled) (hc : c ∈ e.children) : c.Spelled :=
  fun _ hn => h _ (mem_preorder_trans e
    (mem_preorder_of_mem_children (self_mem_preorder e) hc) hn)

theorem reads_opening : Reads (fun _ => True) ['('] (IsToken .leftParen "(") :=
  reads_mark (by decide) fun _ _ => rfl

theorem reads_closing : Reads (fun _ => True) [')'] (IsToken .rightParen ")") :=
  reads_mark (by decide) fun _ _ => rfl

theorem reads_comma : Reads (fun _ => True) [','] (IsToken .comma ",") :=
  reads_mark (by decide) fun _ _ => rfl

theorem reads_sign {op : String} (hop : op = "-" ∨ op = "+") :
    Reads (fun _ => True) op.toList (IsToken .operator op) := by
  rcases hop with rfl | rfl
  · exact reads_mark (c := '-') (by decide) fun _ _ => rfl
  · exact reads_mark (c := '+') (by decide) fun _ _ => rfl

/-- Only an asterisk depends on what follows it, which may not be another one. -/
theorem reads_operator {op : String} (hop : op ∈ ["+", "-", "*", "/", "^"]) :
    Reads (fun rest => rest.head? = some ' ') op.toList (IsToken .operator op) := by
  simp only [List.mem_cons, List.not_mem_nil, or_false] at hop
  rcases hop with rfl | rfl | rfl | rfl | rfl
  · exact reads_mark (c := '+') (by decide) fun _ _ => rfl
  · exact reads_mark (c := '-') (by decide) fun _ _ => rfl
  · refine reads_mark (c := '*') (by decide) fun rest hrest => ?_
    cases rest with
    | nil => cases hrest
    | cons c cs =>
      cases hrest
      rfl
  · exact reads_mark (c := '/') (by decide) fun _ _ => rfl
  · exact reads_mark (c := '^') (by decide) fun _ _ => rfl

/-- A text in parentheses is scanned with the parentheses around its phrase. -/
theorem reads_enclosed {w : List Char} {P : List Token → Prop} (h : Reads EndsOperand w P) :
    Reads (fun _ => True) ('(' :: (w ++ [')'])) fun phrase =>
      ∃ ts q k, phrase = ⟨.leftParen, "(", q⟩ :: ts ++ [⟨.rightParen, ")", k⟩] ∧ P ts := by
  have hclosed : Reads (fun _ => True) (w ++ [')']) fun phrase =>
      ∃ ts k, phrase = ts ++ [⟨.rightParen, ")", k⟩] ∧ P ts := by
    refine h.append reads_closing (fun _ _ => endsOperand_cons (by decide)) ?_
    rintro ts _ hts ⟨k, rfl⟩
    exact ⟨ts, k, rfl, hts⟩
  refine reads_opening.append (w := ['(']) hclosed (fun _ _ => trivial) ?_
  rintro _ _ ⟨q, rfl⟩ ⟨ts, k, rfl, hts⟩
  exact ⟨ts, q, k, rfl, hts⟩

/-- A sum in parentheses is an atom. -/
theorem reads_parens {w : List Char} {e : Expr} (h : Reads EndsOperand w e.IsSum) :
    Reads (fun _ => True) ('(' :: (w ++ [')'])) e.IsAtom := by
  refine (reads_enclosed h).mono (fun _ hrest => hrest) ?_
  rintro _ ⟨ts, q, k, rfl, e', he', hplaces⟩
  exact ⟨e', .parens rfl he' rfl, hplaces⟩

theorem reads_unary {op : String} (hop : op = "-" ∨ op = "+") {e : Expr} (p : ℤ)
    (he : Reads EndsOperand e.source.toList e.IsAtom) :
    Reads (fun _ => True) (unary op e p).source.toList (unary op e p).IsAtom := by
  have hsource : (unary op e p).source.toList =
      '(' :: ((op.toList ++ e.source.toList) ++ [')']) := by
    simp [source]
  rw [hsource]
  refine reads_parens ((reads_sign hop).append he (fun _ _ => trivial) ?_)
  rintro _ ts ⟨q, rfl⟩ ⟨e', he', hplaces⟩
  refine ⟨_, derives_sign hop q he', ?_⟩
  rw [unplaced, unplaced, hplaces]

theorem reads_binary {op : String} (hop : op ∈ ["+", "-", "*", "/", "^"]) {l r : Expr} (p : ℤ)
    (hl : Reads EndsOperand l.source.toList l.IsAtom)
    (hr : Reads EndsOperand r.source.toList r.IsAtom) :
    Reads (fun _ => True) (binary op l r p).source.toList (binary op l r p).IsAtom := by
  have hsource : (binary op l r p).source.toList = '(' :: ((l.source.toList ++
      ' ' :: (op.toList ++ ' ' :: r.source.toList)) ++ [')']) := by
    simp [source]
  have hright : Reads EndsOperand (op.toList ++ ' ' :: r.source.toList) fun phrase =>
      ∃ ts q, phrase = ⟨.operator, op, q⟩ :: ts ∧ r.IsAtom ts := by
    refine (reads_operator hop).append hr.blank (fun _ _ => rfl) ?_
    rintro _ ts ⟨q, rfl⟩ hts
    exact ⟨ts, q, rfl, hts⟩
  rw [hsource]
  refine reads_parens (hl.append hright.blank (fun _ _ => endsOperand_cons (by decide)) ?_)
  rintro xs _ ⟨l', hl', hplacesl⟩ ⟨ys, q, rfl, r', hr', hplacesr⟩
  refine ⟨_, derives_binary hop q hl' hr', ?_⟩
  rw [unplaced, unplaced, hplacesl, hplacesr]

theorem reads_emptyCall {n : String} (hn : IsName n.toList) (p : ℤ) :
    Reads (fun _ => True) (call n [] p).source.toList (call n [] p).IsAtom := by
  have hsource : (call n [] p).source.toList = n.toList ++ (['('] ++ [')']) := by
    simp [source, sourceList]
  have hparens : Reads (fun _ => True) (['('] ++ [')']) fun phrase =>
      ∃ q k, phrase = [⟨.leftParen, "(", q⟩, ⟨.rightParen, ")", k⟩] := by
    refine reads_opening.append reads_closing (fun _ _ => trivial) ?_
    rintro _ _ ⟨q, rfl⟩ ⟨k, rfl⟩
    exact ⟨q, k, rfl⟩
  rw [hsource]
  refine (reads_name hn).append hparens (fun _ _ => endsName_opening) ?_
  rintro _ _ ⟨i, rfl⟩ ⟨q, k, rfl⟩
  have hatom : Derives .atom [⟨.identifier, n, i⟩, ⟨.leftParen, "(", q⟩, ⟨.rightParen, ")", k⟩]
      (.call n [] i) := .emptyCall rfl rfl rfl
  exact ⟨_, hatom, rfl⟩

theorem reads_call {n : String} (hn : IsName n.toList) {args : List Expr} (p : ℤ)
    (hargs : Reads EndsOperand (String.intercalate ", " (sourceList args)).toList (AreParts args)) :
    Reads (fun _ => True) (call n args p).source.toList (call n args p).IsAtom := by
  have hsource : (call n args p).source.toList = n.toList ++
      '(' :: ((String.intercalate ", " (sourceList args)).toList ++ [')']) := by
    simp [source]
  rw [hsource]
  refine (reads_name hn).append (reads_enclosed hargs) (fun _ _ => endsName_opening) ?_
  rintro _ _ ⟨i, rfl⟩ ⟨ts, q, k, rfl, parts, hseparated, hparts, hplaces⟩
  have hatom : Derives .atom (⟨.identifier, n, i⟩ :: ⟨.leftParen, "(", q⟩ :: ts ++
      [⟨.rightParen, ")", k⟩]) (.call n (parts.map Prod.snd) i) :=
    .call rfl rfl hseparated hparts rfl
  refine ⟨_, hatom, ?_⟩
  rw [unplaced, unplaced, unplacedList_eq_map, unplacedList_eq_map, List.map_map, ← hplaces]
  rfl

theorem areParts_one {e : Expr} {ts : List Token} (h : e.IsAtom ts) : AreParts [e] ts := by
  obtain ⟨e', he', hplaces⟩ := h
  refine ⟨[(ts, e')], .one, ?_, by rw [List.map_singleton, hplaces, List.map_singleton]⟩
  intro part hpart
  rw [List.mem_singleton.1 hpart]
  exact he'.loosen (by decide)

theorem areParts_more {e : Expr} {es : List Expr} {ts us : List Token} {q : ℤ} (h : e.IsAtom ts)
    (hes : AreParts es us) : AreParts (e :: es) (ts ++ ⟨.comma, ",", q⟩ :: us) := by
  obtain ⟨e', he', hplaces⟩ := h
  obtain ⟨parts, hseparated, hparts, hrest⟩ := hes
  refine ⟨(ts, e') :: parts, .more rfl hseparated, ?_, ?_⟩
  · intro part hpart
    rcases List.mem_cons.1 hpart with rfl | hpart
    · exact he'.loosen (by decide)
    · exact hparts part hpart
  · rw [List.map_cons, List.map_cons, hplaces, hrest]

theorem reads_more {e e' : Expr} {es : List Expr} (he : Reads EndsOperand e.source.toList e.IsAtom)
    (hes : Reads EndsOperand (String.intercalate ", " (sourceList (e' :: es))).toList
      (AreParts (e' :: es))) :
    Reads EndsOperand (String.intercalate ", " (sourceList (e :: e' :: es))).toList
      (AreParts (e :: e' :: es)) := by
  have htext : (String.intercalate ", " (sourceList (e :: e' :: es))).toList = e.source.toList ++
      ',' :: ' ' :: (String.intercalate ", " (sourceList (e' :: es))).toList := by
    rw [sourceList, sourceList, String.intercalate_cons_cons, ← sourceList]
    simp
  have hcomma : Reads EndsOperand
      (',' :: ' ' :: (String.intercalate ", " (sourceList (e' :: es))).toList) fun phrase =>
        ∃ ts q, phrase = ⟨.comma, ",", q⟩ :: ts ∧ AreParts (e' :: es) ts := by
    refine reads_comma.append (w := [',']) hes.blank (fun _ _ => trivial) ?_
    rintro _ ts ⟨q, rfl⟩ hts
    exact ⟨ts, q, rfl, hts⟩
  rw [htext]
  refine he.append hcomma (fun _ _ => endsOperand_cons (by decide)) ?_
  rintro ts _ hts ⟨us, q, rfl, hus⟩
  exact areParts_more hts hus

mutual

/-- **A written tree is scanned into a phrase of the tree.** -/
theorem reads_source : ∀ e : Expr, e.Spelled → Reads EndsOperand e.source.toList e.IsAtom
  | number t p, h => by
    obtain ⟨l, hl⟩ := numberText_of_tokenize h.self
    refine (reads_number hl).mono (fun _ => endsNumber_of_endsOperand) ?_
    rintro _ ⟨q, rfl⟩
    exact ⟨_, .number rfl, rfl⟩
  | name n p, h => by
    refine (reads_name h.self).mono (fun _ => endsName_of_endsOperand) ?_
    rintro _ ⟨q, rfl⟩
    exact ⟨_, .name rfl, rfl⟩
  | unary op e p, h => by
    have he := reads_source e (h.child (List.mem_singleton_self _))
    exact (reads_unary h.self p he).mono (fun _ _ => trivial) fun _ hts => hts
  | binary op l r p, h => by
    have hl := reads_source l (h.child (List.mem_cons_self ..))
    have hr := reads_source r (h.child (List.mem_cons_of_mem _ (List.mem_singleton_self _)))
    exact (reads_binary h.self p hl hr).mono (fun _ _ => trivial) fun _ hts => hts
  | call n [] p, h => (reads_emptyCall h.self p).mono (fun _ _ => trivial) fun _ hts => hts
  | call n (e :: es) p, h => by
    have hargs := reads_sources (e :: es) (List.cons_ne_nil _ _) fun c hc => h.child hc
    exact (reads_call h.self p hargs).mono (fun _ _ => trivial) fun _ hts => hts

/-- Written trees with commas between them are scanned into separate phrases. -/
theorem reads_sources : ∀ es : List Expr, es ≠ [] → (∀ e ∈ es, e.Spelled) →
    Reads EndsOperand (String.intercalate ", " (sourceList es)).toList (AreParts es)
  | [], hne, _ => absurd rfl hne
  | [e], _, h => by
    have he := reads_source e (h e (List.mem_singleton_self e))
    rw [sourceList, sourceList, String.intercalate_singleton]
    exact he.mono (fun _ hrest => hrest) fun _ hts => areParts_one hts
  | e :: e' :: es, _, h => by
    have he := reads_source e (h e (List.mem_cons_self ..))
    have hmore := reads_sources (e' :: es) (List.cons_ne_nil _ _) fun c hc =>
      h c (List.mem_cons_of_mem _ hc)
    exact reads_more he hmore

end

/-- **A written tree is read back.**  The lexer does not stop at the written form of a tree that is
spelled as a line can be, and unless the parser stops at a limit it gives the tree back, its
positions apart. -/
theorem parse_source (e : Expr) (h : e.Spelled) :
    ∃ tokens tree, tokenize e.source = .ok tokens ∧ tree.unplaced = e.unplaced ∧
      ∀ lim, (∀ x, Parser.parse lim tokens = .error x → ¬ x.Refusal) →
        Parser.parse lim tokens = .ok tree := by
  have hend : EndsOperand [] := fun _ hc => nomatch hc
  obtain ⟨phrase, hscan, tree, htree, hplaces⟩ := reads_source e h 0 [] _ hend (by rw [scan])
  rw [List.append_nil] at hscan
  refine ⟨_, tree, by rw [tokenize, hscan], hplaces, fun lim hlimits => ?_⟩
  have hbody : Parser.body (phrase ++ [.finish (0 + e.source.toList.length : ℕ)]) = phrase :=
    Parser.body_append htree.kind_ne rfl
  have hfinish : (phrase ++ [Token.finish (0 + e.source.toList.length : ℕ)]).getLast?.map
      Token.kind = some .endOfInput := by
    rw [List.getLast?_concat]
    rfl
  have hsum := hbody.symm ▸ htree.loosen (M := .sum) (by decide)
  rcases Parser.parse_agree hfinish hsum with hok | ⟨x, hx, hstop⟩
  · exact hok
  · exact absurd hx (hlimits x hstop)

/-- A signed number with a repeating group, raised to a call that has a name and a call without
arguments in it. -/
def crowded : Expr :=
  .binary "^" (.unary "-" (.number "0.(3)" 1) 0) (.call "f" [.name "x_1" 3, .call "g" [] 2] 5) 9

theorem spelled_crowded : crowded.Spelled := by
  intro n hn
  simp only [crowded, preorder, preorderList, List.append_nil, List.cons_append, List.nil_append,
    List.mem_cons, List.not_mem_nil, or_false] at hn
  rcases hn with rfl | rfl | rfl | rfl | rfl | rfl
  · show "^" ∈ ["+", "-", "*", "/", "^"]
    decide
  · exact Or.inl rfl
  · show tokenize "0.(3)" = .ok [⟨.number, "0.(3)", 0⟩, .finish 5]
    decide +kernel
  · exact ⟨'f', [], rfl, rfl, List.forall_mem_nil _⟩
  · refine ⟨'x', ['_', '1'], rfl, rfl, fun d hd => ?_⟩
    fin_cases hd <;> rfl
  · exact ⟨'g', [], rfl, rfl, List.forall_mem_nil _⟩

/-- Written, read and placed anew. -/
theorem parse_source_crowded : crowded.Spelled ∧ ∃ tokens tree,
    tokenize "((-0.(3)) ^ f(x_1, g()))" = .ok tokens ∧ tree.unplaced = crowded.unplaced ∧
      Parser.parse ⟨5, 6⟩ tokens = .ok tree := by
  obtain ⟨tokens, tree, htokens, hplaces, hparse⟩ := parse_source crowded spelled_crowded
  have hsource : crowded.source = "((-0.(3)) ^ f(x_1, g()))" := by
    decide +kernel
  rw [hsource] at htokens
  refine ⟨spelled_crowded, tokens, tree, htokens, hplaces, hparse _ ?_⟩
  have hroom : (tokenize "((-0.(3)) ^ f(x_1, g()))").toOption.map
      (fun ts => (Parser.parse ⟨5, 6⟩ ts).isOk) = some true := by
    decide +kernel
  intro x hx
  rw [htokens] at hroom
  simp [hx, Except.toOption, Except.isOk, Except.toBool] at hroom

end Expr

end Roundoff
