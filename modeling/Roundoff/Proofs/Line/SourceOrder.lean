import Roundoff.Proofs.Line.Failures
import Roundoff.Proofs.Token.Layout

/-! # Nodes in the order of the line

Read from left to right, the nodes of a tree are the numbers, names and operators of its phrase: a
sign comes before its operand, a binary operator between its operands, and the name of a call before
the arguments (`Derives.inorder`).  The tree may group them in whatever way, and parentheses and
commas leave no node.  So the positions of the nodes increase along the line, and every node is
found written at its position.
-/
namespace Roundoff

namespace Expr

mutual

/-- The nodes of a tree in the order of the line. -/
def inorder : Expr → List Expr
  | number t p => [number t p]
  | name n p => [name n p]
  | unary op e p => unary op e p :: e.inorder
  | binary op l r p => l.inorder ++ binary op l r p :: r.inorder
  | call n args p => call n args p :: inorderList args

/-- The nodes of all trees of a list. -/
def inorderList : List Expr → List Expr
  | [] => []
  | e :: es => e.inorder ++ inorderList es

end

mutual

/-- The nodes in the order of the line are all the nodes of the tree. -/
theorem inorder_perm : ∀ e : Expr, e.inorder.Perm e.preorder
  | number _ _ => .refl _
  | name _ _ => .refl _
  | unary _ e _ => (inorder_perm e).cons _
  | binary _ l r _ => List.perm_middle.trans (((inorder_perm l).append (inorder_perm r)).cons _)
  | call _ args _ => (inorderList_perm args).cons _

theorem inorderList_perm : ∀ es : List Expr, (inorderList es).Perm (preorderList es)
  | [] => .refl _
  | e :: es => (inorder_perm e).append (inorderList_perm es)

end

/-- **How a node is written**: as its literal, name or operator, and a power also with two stars. -/
inductive WrittenAs : Expr → List Char → Prop
  | label (n : Expr) : WrittenAs n n.label.toList
  | stars (l r : Expr) (p : ℤ) : WrittenAs (.binary "^" l r p) ['*', '*']

end Expr

/-- A word is the text of its token, or it is a power with two stars. -/
theorem Lexer.Word.eq_text_or_stars {w : List Char} {kind : TokenKind} {text : String}
    (h : Lexer.Word w kind text) : w = text.toList ∨ w = ['*', '*'] ∧ text = "^" := by
  have htext := h.text_eq
  split at htext
  · rename_i hstars
    exact Or.inr ⟨hstars, htext⟩
  · rw [htext, String.toList_ofList]
    exact Or.inl rfl

/-! ## The tokens of a phrase -/

namespace Grammar

/-- The token is a number, a name or an operator, and so has a node. -/
def HasNode (t : Token) : Prop :=
  t.kind = .number ∨ t.kind = .identifier ∨ t.kind = .operator

instance (t : Token) : Decidable (HasNode t) :=
  inferInstanceAs (Decidable (_ ∨ _ ∨ _))

/-- **The node stands for the token**: it has the token's text and position. -/
inductive StandsFor : Expr → Token → Prop
  | number {t : Token} : t.kind = .number → StandsFor (.number t.text t.position) t
  | name {t : Token} : t.kind = .identifier → StandsFor (.name t.text t.position) t
  | sign {t : Token} {e : Expr} : t.kind = .operator → t.text = "-" ∨ t.text = "+" →
      StandsFor (.unary t.text e t.position) t
  | binary {t : Token} {l r : Expr} : t.kind = .operator →
      StandsFor (.binary t.text l r t.position) t
  | call {t : Token} {args : List Expr} : t.kind = .identifier →
      StandsFor (.call t.text args t.position) t

/-- The tokens of a phrase that have nodes. -/
def nodeTokens (ts : List Token) : List Token :=
  ts.filter fun t => HasNode t

theorem nodeTokens_append (ts us : List Token) :
    nodeTokens (ts ++ us) = nodeTokens ts ++ nodeTokens us :=
  List.filter_append ..

theorem nodeTokens_cons {t : Token} (h : HasNode t) (ts : List Token) :
    nodeTokens (t :: ts) = t :: nodeTokens ts :=
  List.filter_cons_of_pos (decide_eq_true h)

/-- A parenthesis or a comma has no node. -/
theorem nodeTokens_cons_of_kind {t : Token} {kind : TokenKind} (hkind : t.kind = kind)
    (hmark : kind = .leftParen ∨ kind = .rightParen ∨ kind = .comma) (ts : List Token) :
    nodeTokens (t :: ts) = nodeTokens ts := by
  refine List.filter_cons_of_neg ?_
  rw [decide_eq_true_eq, HasNode, hkind]
  rcases hmark with rfl | rfl | rfl <;> decide

theorem nodeTokens_enclosed {opening closing : Token} (hopening : opening.kind = .leftParen)
    (hclosing : closing.kind = .rightParen) (ts : List Token) :
    nodeTokens (opening :: ts ++ [closing]) = nodeTokens ts := by
  rw [List.cons_append, nodeTokens_cons_of_kind hopening (Or.inl rfl), nodeTokens_append,
    nodeTokens_cons_of_kind hclosing (Or.inr (Or.inl rfl))]
  exact List.append_nil _

theorem Separated.nodeTokens_eq {ts : List Token} {parts : List (List Token)}
    (h : Separated ts parts) : nodeTokens ts = parts.flatMap nodeTokens := by
  induction h with
  | one => rw [List.flatMap_singleton]
  | more hcomma _ ih =>
    rw [nodeTokens_append, nodeTokens_cons_of_kind hcomma (Or.inr (Or.inr rfl)), ih,
      List.flatMap_cons]

/-! ## The nodes of a phrase -/

theorem standsFor_binary {xs ys : List Token} {t : Token} {l r : Expr} (hkind : t.kind = .operator)
    (hl : List.Forall₂ StandsFor l.inorder (nodeTokens xs))
    (hr : List.Forall₂ StandsFor r.inorder (nodeTokens ys)) :
    List.Forall₂ StandsFor (Expr.binary t.text l r t.position).inorder
      (nodeTokens (xs ++ t :: ys)) := by
  rw [nodeTokens_append, nodeTokens_cons (Or.inr (Or.inr hkind))]
  exact List.rel_append hl (.cons (.binary hkind) hr)

theorem standsFor_parts {parts : List (List Token × Expr)}
    (h : ∀ part ∈ parts, List.Forall₂ StandsFor part.2.inorder (nodeTokens part.1)) :
    List.Forall₂ StandsFor (Expr.inorderList (parts.map Prod.snd))
      ((parts.map Prod.fst).flatMap nodeTokens) := by
  induction parts with
  | nil => exact .nil
  | cons part parts ih =>
    obtain ⟨hpart, hparts⟩ := List.forall_mem_cons.1 h
    rw [List.map_cons, List.map_cons, List.flatMap_cons]
    exact List.rel_append hpart (ih hparts)

/-- **From left to right the nodes of a derived tree stand for the tokens of its phrase**, one for
each number, name and operator. -/
theorem Derives.inorder {L : Level} {ts : List Token} {e : Expr} (h : Derives L ts e) :
    List.Forall₂ StandsFor e.inorder (nodeTokens ts) := by
  induction h with
  | ofProduct _ ih | ofSigned _ ih | ofPower _ ih | ofAtom _ ih => exact ih
  | sum _ hkind _ _ ihl ihr | product _ hkind _ _ ihl ihr | power _ hkind _ _ ihl ihr =>
    exact standsFor_binary hkind ihl ihr
  | sign hkind hsign _ ih =>
    rw [nodeTokens_cons (Or.inr (Or.inr hkind))]
    exact .cons (.sign hkind hsign) ih
  | number hkind =>
    rw [nodeTokens_cons (Or.inl hkind)]
    exact .cons (.number hkind) .nil
  | name hkind =>
    rw [nodeTokens_cons (Or.inr (Or.inl hkind))]
    exact .cons (.name hkind) .nil
  | emptyCall hname hopening hclosing =>
    have hnone : nodeTokens [_, _] = [] := nodeTokens_enclosed hopening hclosing []
    rw [nodeTokens_cons (Or.inr (Or.inl hname)), hnone]
    exact .cons (.call hname) .nil
  | call hname hopening hparts _ hclosing ih =>
    rw [List.cons_append, nodeTokens_cons (Or.inr (Or.inl hname)),
      nodeTokens_enclosed hopening hclosing, hparts.nodeTokens_eq]
    exact .cons (.call hname) (standsFor_parts ih)
  | parens hopening _ hclosing ih =>
    rw [nodeTokens_enclosed hopening hclosing]
    exact ih

theorem StandsFor.position_eq {n : Expr} {t : Token} (h : StandsFor n t) :
    n.position = t.position := by
  cases h <;> rfl

/-- The word of a token spells its node. -/
theorem StandsFor.writtenAs {n : Expr} {t : Token} (h : StandsFor n t) {w : List Char}
    (hw : Lexer.Word w t.kind t.text) : n.WrittenAs w := by
  cases h with
  | number hkind =>
    rw [hkind] at hw
    rw [← hw.numberText.1]
    exact .label (.number t.text t.position)
  | name hkind =>
    rw [hkind] at hw
    rw [← hw.isName.1]
    exact .label (.name t.text t.position)
  | @call _ args hkind =>
    rw [hkind] at hw
    rw [← hw.isName.1]
    exact .label (.call t.text args t.position)
  | @sign _ e hkind hsign =>
    rcases hw.eq_text_or_stars with rfl | ⟨-, htext⟩
    · exact .label (.unary t.text e t.position)
    · rw [htext] at hsign
      exact absurd hsign (by decide)
  | @binary _ l r hkind =>
    rcases hw.eq_text_or_stars with rfl | ⟨rfl, htext⟩
    · exact .label (.binary t.text l r t.position)
    · rw [htext]
      exact .stars l r t.position

end Grammar

/-! ## The line -/

variable {line : String} {tokens : List Token} {lim : Parser.Limits} {tree : Expr}

/-- A node that stands for a token of the line is written in the line, at its position. -/
theorem Grammar.StandsFor.standsAt {n : Expr} {t : Token} (h : Grammar.StandsFor n t)
    (htokens : Lexer.tokenize line = .ok tokens) (ht : t ∈ tokens) (hnode : Grammar.HasNode t) :
    ∃ w, n.WrittenAs w ∧ Line.StandsAt line n.position w := by
  rcases (Lexer.tokenize_eq_ok htokens).mem_split ht with rfl | ⟨u, w, v, hline, hposition, hw⟩
  · exact absurd hnode (by simp [Grammar.HasNode, Token.finish])
  · refine ⟨w, h.writtenAs hw, Line.standsAt_of_eq hline ?_⟩
    rw [h.position_eq, hposition, Nat.cast_zero, zero_add]

/-- **The positions of the nodes follow the line.**  Listed in the order of the line, the nodes of
its tree are all the nodes, their positions increase, and each node is written in the line at its
position: a number, a name or an operator as it is, and a power with one mark or with two stars. -/
theorem positions_follow_line (htokens : Lexer.tokenize line = .ok tokens)
    (htree : Parser.parse lim tokens = .ok tree) :
    tree.inorder.Perm tree.preorder ∧
      tree.inorder.Pairwise (fun a b => a.position < b.position) ∧
      ∀ n ∈ tree.inorder, ∃ w, n.WrittenAs w ∧ Line.StandsAt line n.position w := by
  have hnodes := (Line.derives_of_parse htokens htree).inorder
  have hsublist : (Grammar.nodeTokens (Parser.body tokens)).Sublist tokens :=
    List.filter_sublist.trans (List.takeWhile_sublist _)
  refine ⟨tree.inorder_perm, ?_, fun n hn => ?_⟩
  · -- The positions are those of some of the tokens, and the tokens stand one behind the other.
    have hpositions : tree.inorder.map Expr.position =
        (Grammar.nodeTokens (Parser.body tokens)).map Token.position := by
      rw [← List.forall₂_eq_eq_eq, List.forall₂_map_left_iff, List.forall₂_map_right_iff]
      exact hnodes.imp fun _ _ h => h.position_eq
    have hincreasing := (Lexer.tokenize_eq_ok htokens).pairwise.sublist hsublist
    rw [← List.pairwise_map (R := fun a b : ℤ => a < b), hpositions, List.pairwise_map]
    exact hincreasing
  · obtain ⟨i, hi, rfl⟩ := List.getElem_of_mem hn
    have hi' : i < (Grammar.nodeTokens (Parser.body tokens)).length := hnodes.length_eq ▸ hi
    have hmem := List.getElem_mem hi'
    exact (hnodes.get hi hi').standsAt htokens (hsublist.subset hmem)
      (of_decide_eq_true (List.mem_filter.1 hmem).2)

/-- A sign, a power with two stars, a call and its arguments. -/
theorem positions_follow_line_power :
    ∃ tokens tree, Lexer.tokenize "-2 ** f(x, .5)" = .ok tokens ∧
      Parser.parse ⟨4, 6⟩ tokens = .ok tree ∧ tree.inorder.map Expr.position = [0, 1, 3, 6, 8, 11] ∧
      tree.inorder.Pairwise (fun a b => a.position < b.position) ∧
      ∀ n ∈ tree.inorder, ∃ w, n.WrittenAs w ∧ Line.StandsAt "-2 ** f(x, .5)" n.position w := by
  have htokens : Lexer.tokenize "-2 ** f(x, .5)" = .ok [⟨.operator, "-", 0⟩, ⟨.number, "2", 1⟩,
      ⟨.operator, "^", 3⟩, ⟨.identifier, "f", 6⟩, ⟨.leftParen, "(", 7⟩, ⟨.identifier, "x", 8⟩,
      ⟨.comma, ",", 9⟩, ⟨.number, ".5", 11⟩, ⟨.rightParen, ")", 13⟩, .finish 14] := by
    decide +kernel
  have htree : Parser.parse ⟨4, 6⟩ [⟨.operator, "-", 0⟩, ⟨.number, "2", 1⟩,
      ⟨.operator, "^", 3⟩, ⟨.identifier, "f", 6⟩, ⟨.leftParen, "(", 7⟩, ⟨.identifier, "x", 8⟩,
      ⟨.comma, ",", 9⟩, ⟨.number, ".5", 11⟩, ⟨.rightParen, ")", 13⟩, .finish 14] =
      .ok (.unary "-" (.binary "^" (.number "2" 1)
        (.call "f" [.name "x" 8, .number ".5" 11] 6) 3) 0) := rfl
  obtain ⟨-, hincreasing, hwritten⟩ := positions_follow_line htokens htree
  exact ⟨_, _, htokens, htree, rfl, hincreasing, hwritten⟩

end Roundoff
