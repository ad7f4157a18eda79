import Roundoff.Expr.Parser
import Mathlib

/-! # Operators

An operation is known by its symbol, and no other text stands for one.  The levels of precedence
leave a gap below the power, where the signs are.
-/
namespace Roundoff.Operation

theorem ofSymbol?_eq_some_iff {symbol : String} {op : Operation} :
    ofSymbol? symbol = some op ↔ symbol = op.symbol := by
  constructor
  · intro h
    have hmatch := List.find?_some h
    exact (eq_of_beq hmatch).symm
  · rintro rfl
    exact ofSymbol?_symbol op

theorem symbol_mem (op : Operation) : op.symbol ∈ ["+", "-", "*", "/", "^"] := by
  cases op <;> decide

/-- The five symbols are those of the operations. -/
theorem isSome_ofSymbol?_iff {symbol : String} :
    (ofSymbol? symbol).isSome ↔ symbol ∈ ["+", "-", "*", "/", "^"] := by
  rw [Option.isSome_iff_exists]
  constructor
  · rintro ⟨op, hop⟩
    rw [ofSymbol?_eq_some_iff.1 hop]
    exact symbol_mem op
  · intro h
    simp only [List.mem_cons, List.not_mem_nil, or_false] at h
    rcases h with rfl | rfl | rfl | rfl | rfl
    · exact ⟨add, by decide⟩
    · exact ⟨sub, by decide⟩
    · exact ⟨mul, by decide⟩
    · exact ⟨div, by decide⟩
    · exact ⟨pow, by decide⟩

theorem precedence_le (op : Operation) : op.precedence ≤ 4 := by
  cases op <;> decide

theorem precedence_ne_sign (op : Operation) : op.precedence ≠ Parser.signMinimum := by
  cases op <;> decide

end Roundoff.Operation
