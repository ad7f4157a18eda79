import Roundoff.Proofs.Dual.Recursion
import Roundoff.Proofs.Dual.Steps

/-! # The approximations that a result names

A result names the approximate constants of its tree, each once, in the order in which they first
come up from left to right (`evaluate_approximations`).  Every operator and every call merges lists
in which the names of each operand stand once already, and a name may come up again in a later
operand.  Dropping the repeated names of the operands and then those of the node is the same as
dropping them once, from the list of all occurrences (`eraseDups_append_eraseDups`); so the value of
a tree lists the names as if they had been collected in one pass over it (`DualValue.Noted`).
-/
namespace Roundoff

/-! ## First occurrences

Whether an element is dropped depends on those before it, so the inductions take lists apart at
their ends. -/

section FirstOccurrences

variable {α : Type} [BEq α] [LawfulBEq α]

/-- One more element is put at the end, unless it is there already. -/
theorem eraseDups_concat (xs : List α) (a : α) :
    (xs ++ [a]).eraseDups = if a ∈ xs then xs.eraseDups else xs.eraseDups ++ [a] := by
  rw [List.eraseDups_append, List.removeAll]
  by_cases ha : a ∈ xs
  · simp [ha]
  · have hone : [a].eraseDups = [a] := rfl
    simp [ha, hone]

theorem eraseDups_eraseDups (xs : List α) : xs.eraseDups.eraseDups = xs.eraseDups := by
  induction xs using List.reverseRecOn with
  | nil => rfl
  | append_singleton xs a ih =>
    rw [eraseDups_concat]
    split
    · exact ih
    · rename_i hfresh
      rw [eraseDups_concat, if_neg (mt List.mem_eraseDups.1 hfresh), ih]

/-- **Repeated elements can be dropped in two parts first**: what is left of both together is the
same. -/
theorem eraseDups_append_eraseDups (xs ys : List α) :
    (xs.eraseDups ++ ys.eraseDups).eraseDups = (xs ++ ys).eraseDups := by
  induction ys using List.reverseRecOn with
  | nil => rw [List.eraseDups_nil, List.append_nil, List.append_nil, eraseDups_eraseDups]
  | append_singleton ys b ih =>
    rw [eraseDups_concat, ← List.append_assoc, eraseDups_concat]
    by_cases hys : b ∈ ys
    · rw [if_pos hys, if_pos (List.mem_append_right _ hys), ih]
    · rw [if_neg hys, ← List.append_assoc, eraseDups_concat, ih]
      simp only [List.mem_append, List.mem_eraseDups]

theorem eraseDups_filter (p : α → Bool) (xs : List α) :
    (xs.filter p).eraseDups = xs.eraseDups.filter p := by
  induction xs using List.reverseRecOn with
  | nil => rfl
  | append_singleton xs a ih =>
    rw [List.filter_append, eraseDups_concat]
    by_cases hp : p a
    · rw [List.filter_cons_of_pos hp, List.filter_nil, eraseDups_concat, ih]
      by_cases ha : a ∈ xs <;> simp [ha, hp]
    · rw [List.filter_cons_of_neg hp, List.filter_nil, List.append_nil, ih]
      by_cases ha : a ∈ xs <;> simp [ha, hp]

/-- **The elements that are left stand in the order of their first occurrences.** -/
theorem pairwise_idxOf_eraseDups (xs : List α) :
    xs.eraseDups.Pairwise fun a b => xs.idxOf a < xs.idxOf b := by
  induction xs using List.reverseRecOn with
  | nil => exact .nil
  | append_singleton xs a ih =>
    -- A further element at the end moves no first occurrence.
    have hold : xs.eraseDups.Pairwise fun x y => (xs ++ [a]).idxOf x < (xs ++ [a]).idxOf y := by
      refine ih.imp_of_mem fun hx hy hlt => ?_
      rwa [List.idxOf_append_of_mem (List.mem_eraseDups.1 hx),
        List.idxOf_append_of_mem (List.mem_eraseDups.1 hy)]
    rw [eraseDups_concat]
    split
    · exact hold
    · rename_i hfresh
      refine List.pairwise_append.2 ⟨hold, List.pairwise_singleton _ _, fun x hx y hy => ?_⟩
      have hmem : x ∈ xs := List.mem_eraseDups.1 hx
      rw [List.mem_singleton.1 hy, List.idxOf_append_of_mem hmem,
        List.idxOf_append_of_notMem hfresh]
      exact Nat.lt_add_right _ (List.idxOf_lt_length_of_mem hmem)

end FirstOccurrences

/-! ## The names of a tree -/

namespace Expr

mutual

/-- The names that stand in a tree as operands, from left to right, each as often as it occurs.  The
name of a call is none of them. -/
def names : Expr → List String
  | number _ _ => []
  | name n _ => [n]
  | unary _ e _ => e.names
  | binary _ l r _ => l.names ++ r.names
  | call _ args _ => namesList args

/-- The names of all trees of a list. -/
def namesList : List Expr → List String
  | [] => []
  | e :: es => e.names ++ namesList es

end

mutual

/-- The names of a tree are those of its nodes. -/
theorem mem_names {n : String} : ∀ e : Expr, n ∈ e.names ↔ ∃ p, name n p ∈ e.preorder
  | number _ _ => by simp [names, preorder]
  | name _ _ => by simp [names, preorder]
  | unary _ e _ => by simp [names, preorder, mem_names e]
  | binary _ l r _ => by simp [names, preorder, mem_names l, mem_names r, exists_or]
  | call _ args _ => by simp [names, preorder, mem_namesList args]

theorem mem_namesList {n : String} :
    ∀ es : List Expr, n ∈ namesList es ↔ ∃ p, name n p ∈ preorderList es
  | [] => by simp [namesList, preorderList]
  | e :: es => by simp [namesList, preorderList, mem_names e, mem_namesList es, exists_or]

end

end Expr

/-- The name stands for an approximate constant. -/
def SymbolTable.isApproximate (table : SymbolTable) (n : String) : Bool :=
  (table.constant? n).any NamedConstant.approximate

/-! ## Nodes -/

namespace DualValue

variable {s : Settings}

/-- **The value names the approximate constants of the tree**, each where it first occurs. -/
def Noted (table : SymbolTable) (e : Expr) (v : DualValue) : Prop :=
  v.approximations = (e.names.filter table.isApproximate).eraseDups

theorem noted_literal {text : String} {p : Int} {v : DualValue}
    (h : ofLiteral s text p = .ok v) : Noted s.symbols (.number text p) v := by
  obtain ⟨r, -, -, rfl⟩ := ofLiteral_eq_ok h
  rfl

theorem noted_name {n : String} {p : Int} {v : DualValue} (h : ofName s n p = .ok v) :
    Noted s.symbols (.name n p) v := by
  obtain ⟨c, hc, rfl⟩ := ofName_eq_ok h
  have happroximate : s.symbols.isApproximate n = c.approximate := by
    rw [SymbolTable.isApproximate, hc, Option.any_some]
  rw [Noted, Expr.names, List.filter_cons, happroximate]
  cases c.approximate <;> rfl

theorem noted_unary {table : SymbolTable} {op : String} {e : Expr} {p : Int} {v : DualValue}
    (h : Noted table e v) : Noted table (.unary op e p) (unary op v) := by
  have hsame : (unary op v).approximations = v.approximations := by
    rw [unary]
    split <;> rfl
  rw [Noted, hsame]
  exact h

/-- Values that name the constants of their trees are merged into the constants of all the trees. -/
theorem mergeApproximations_eq {table : SymbolTable} {es : List Expr} {vs : List DualValue}
    (h : List.Forall₂ (Noted table) es vs) :
    mergeApproximations vs = ((Expr.namesList es).filter table.isApproximate).eraseDups := by
  induction h with
  | nil => rfl
  | @cons e v es vs hv _ ih =>
    rw [mergeApproximations] at ih ⊢
    rw [List.flatMap_cons, ← eraseDups_append_eraseDups, hv, eraseDups_eraseDups, ih,
      eraseDups_append_eraseDups, ← List.filter_append, Expr.namesList]

theorem noted_binary {table : SymbolTable} {symbol : String} {l r : Expr} {p : Int}
    {x y v : DualValue} (hl : Noted table l x) (hr : Noted table r y)
    (h : binary s symbol p x y = .ok v) : Noted table (.binary symbol l r p) v := by
  obtain ⟨op, exact, -, -, -, rfl⟩ := binary_eq_ok h
  have hmerged := mergeApproximations_eq (.cons hl (.cons hr .nil))
  rw [Expr.namesList, Expr.namesList, Expr.namesList, List.append_nil] at hmerged
  exact hmerged

theorem noted_call {table : SymbolTable} {n : String} {args : List Expr} {p : Int}
    {vs : List DualValue} {v : DualValue} (hargs : List.Forall₂ (Noted table) args vs)
    (h : call s n p vs = .ok v) : Noted table (.call n args p) v := by
  obtain ⟨f, exact, hf, -, -, rfl⟩ := call_eq_ok h
  exact mergeApproximations_eq hargs

/-- Every tree that has a value has one that names its approximate constants. -/
theorem noted_of_ofExpr {e : Expr} {v : DualValue} (h : ofExpr s e = .ok v) :
    Noted s.symbols e v := by
  refine Hereditary.ofExpr ?_ e v h
  exact ⟨fun _ _ _ => noted_literal, fun _ _ _ => noted_name, fun _ _ _ _ => noted_unary,
    fun _ _ _ _ _ _ _ => noted_binary, fun _ _ _ _ _ => noted_call⟩

end DualValue

/-- **The approximations of a result are complete and ordered.**  They are the names in the tree
that stand for approximate constants, wherever in the tree they are; each is there once, and they
stand in the order of their first occurrences from left to right. -/
theorem evaluate_approximations {s : Settings} {e : Expr} {v : Evaluation}
    (h : evaluate s e = .ok v) :
    (∀ n, n ∈ v.approximations ↔ (∃ p, .name n p ∈ e.preorder) ∧
      ∃ c, s.symbols.constant? n = some c ∧ c.approximate = true) ∧
    v.approximations.Nodup ∧
    v.approximations.Pairwise fun m n => e.names.idxOf m < e.names.idxOf n := by
  have hnoted : v.approximations = e.names.eraseDups.filter s.symbols.isApproximate := by
    rw [← eraseDups_filter]
    exact DualValue.noted_of_ofExpr (evaluate_eq_ok h)
  have hordered : v.approximations.Pairwise fun m n => e.names.idxOf m < e.names.idxOf n := by
    rw [hnoted]
    exact (pairwise_idxOf_eraseDups e.names).filter _
  refine ⟨fun n => ?_, hordered.imp fun hlt => ?_, hordered⟩
  · rw [hnoted, List.mem_filter, List.mem_eraseDups, Expr.mem_names, SymbolTable.isApproximate,
      Option.any_eq_true]
  · rintro rfl
    exact lt_irrefl _ hlt

/-- In `min(half, tau) * 0 + e ^ (pi - pi) - tau`, where `half` is exact, a result also names what
the minimum passes over, what is multiplied by zero, and both sides of a zeroth power. -/
theorem approximations_of_unused_operands :
    ∃ v, evaluate { symbols := ⟨.rational "half" (1 / 2) :: SymbolTable.defaultConstants,
        SymbolTable.default.functions⟩ }
        (.binary "-" (.binary "+"
          (.binary "*" (.call "min" [.name "half" 4, .name "tau" 10] 0) (.number "0" 17) 15)
          (.binary "^" (.name "e" 21) (.binary "-" (.name "pi" 26) (.name "pi" 31) 29) 23) 19)
          (.name "tau" 37) 35) = .ok v ∧
      v.approximations = ["tau", "e", "pi"] ∧ v.approximations.Nodup ∧
      v.approximations.Pairwise fun m n => ["half", "tau", "e", "pi", "pi", "tau"].idxOf m <
        ["half", "tau", "e", "pi", "pi", "tau"].idxOf n := by
  have hvalue : evaluate { symbols := ⟨.rational "half" (1 / 2) :: SymbolTable.defaultConstants,
      SymbolTable.default.functions⟩ }
      (.binary "-" (.binary "+"
        (.binary "*" (.call "min" [.name "half" 4, .name "tau" 10] 0) (.number "0" 17) 15)
        (.binary "^" (.name "e" 21) (.binary "-" (.name "pi" 26) (.name "pi" 31) 29) 23) 19)
        (.name "tau" 37) 35) =
      .ok ⟨-5.28318530717958647692528676655900576839433879875021,
        ⟨.ofBits 0xC01521FB54442D18, []⟩, ["tau", "e", "pi"]⟩ := by
    decide +kernel
  obtain ⟨-, hnodup, hordered⟩ := evaluate_approximations hvalue
  exact ⟨_, hvalue, rfl, hnodup, hordered⟩

end Roundoff
