import Roundoff.Symbols
import Roundoff.Proofs.Sequence

/-! # Extended symbol tables

What a table holds after it has been extended.  Putting entries into a list of named entries brings
in no others, so that a table extended by rational constants has no constant but those and the ones
it started from, and the functions it started from.
-/
namespace Roundoff.SymbolTable

section Entries

variable {α : Type} {nameOf : α → String}

theorem mem_put {entry x : α} : ∀ {es : List α}, x ∈ put nameOf entry es → x = entry ∨ x ∈ es
  | [], h => Or.inl (List.mem_singleton.1 h)
  | e :: es, h => by
    rw [put] at h
    split at h
    · exact (List.mem_cons.1 h).imp_right (List.mem_cons_of_mem _)
    · rcases List.mem_cons.1 h with rfl | h
      · exact Or.inr (List.mem_cons_self ..)
      · exact (mem_put h).imp_right (List.mem_cons_of_mem _)

theorem mem_foldl_put {x : α} : ∀ {entries es : List α},
    x ∈ entries.foldl (fun es e => put nameOf e es) es → x ∈ entries ∨ x ∈ es
  | [], _, h => Or.inr h
  | e :: entries, es, h => by
    rw [List.foldl_cons] at h
    rcases mem_foldl_put h with h | h
    · exact Or.inl (List.mem_cons_of_mem _ h)
    · rcases mem_put h with rfl | h
      · exact Or.inl (List.mem_cons_self ..)
      · exact Or.inr h

theorem mem_merge {x : α} {entries : List α} (h : x ∈ merge nameOf entries) : x ∈ entries :=
  (mem_foldl_put h).resolve_right (List.not_mem_nil)

end Entries

theorem withConstants_eq_ok {table table' : SymbolTable} {cs : List NamedConstant}
    (h : table.withConstants cs = .ok table') :
    (∀ c ∈ table'.constants, c ∈ table.constants ∨ c ∈ cs) ∧
      table'.functions = merge FunctionRule.name table.functions := by
  rw [withConstants, ofEntries] at h
  split at h <;> cases h
  exact ⟨fun c hc => List.mem_append.1 (mem_merge hc), rfl⟩

/-- The tables that come from the default one by adding rational constants. -/
inductive ExactExtension : SymbolTable → Prop
  | default : ExactExtension .default
  | extend {table table' : SymbolTable} {cs : List NamedConstant} : ExactExtension table →
      (∀ c ∈ cs, ∃ name exact description, c = .rational name exact description) →
      table.withConstants cs = .ok table' → ExactExtension table'

namespace ExactExtension

variable {table : SymbolTable}

theorem functions_eq (h : ExactExtension table) :
    table.functions = SymbolTable.default.functions := by
  induction h with
  | default => rfl
  | extend _ _ hwith ih =>
    rw [(withConstants_eq_ok hwith).2, ih]
    rfl

/-- **A constant that is not marked as approximate is shadowed like a literal.** -/
theorem shadow_eq (h : ExactExtension table) {c : NamedConstant} (hc : c ∈ table.constants)
    (hexact : c.approximate = false) : ∃ source, c.shadow = Shadow.ofRat c.exact source := by
  induction h with
  | default =>
    simp only [SymbolTable.default, defaultConstants, List.mem_cons, List.not_mem_nil, or_false]
      at hc
    rcases hc with rfl | rfl | rfl | rfl | rfl | rfl <;> cases hexact
  | extend _ hcs hwith ih =>
    rcases (withConstants_eq_ok hwith).1 c hc with hc | hc
    · exact ih hc
    · obtain ⟨name, exact, description, rfl⟩ := hcs c hc
      exact ⟨some name, rfl⟩

end ExactExtension

end Roundoff.SymbolTable
