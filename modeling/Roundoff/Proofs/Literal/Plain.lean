import Roundoff.Proofs.Literal.Spelling

/-! # Literals without a power of ten

The decimal literals without a power of ten are the spellings that end with the digits, the point or
the group (`SpellsPlain`).  Every spelling is such a one with an optional power of ten behind it
(`Spells.plain`).  Whether the power of ten is there cannot be told from the parts of a literal: an
exponent written with zeros only is the one that is taken where none is written
(`scaleText_zero_iff`).
-/
namespace Roundoff.Literal

open Numeral (Digits)

/-- **How a decimal literal without a power of ten is written.** -/
inductive SpellsPlain : List Char → Literal → Prop
  | mk {sgn m g i f r : List Char} {negative point : Bool} :
      SignText sgn negative → MantissaText m i f point → GroupText g r →
      (point = false → g = []) → SpellsPlain (sgn ++ (m ++ g)) ⟨negative, i, f, r, 0⟩

/-- No power of ten, or one whose exponent is written with zeros only. -/
inductive IdleScale : List Char → Prop
  | none : IdleScale []
  | zeros {c : Char} {sgn ds : List Char} {negative : Bool} : c = 'e' ∨ c = 'E' →
      SignText sgn negative → ds ≠ [] → (∀ d ∈ ds, d = '0') → IdleScale (c :: (sgn ++ ds))

theorem SpellsPlain.spells {cs s : List Char} {l : Literal} {x : ℤ} (h : SpellsPlain cs l)
    (hs : ScaleText s x) : Spells (cs ++ s) { l with exponent := x } := by
  obtain ⟨hsgn, hm, hg, hpoint⟩ := h
  rw [List.append_assoc, List.append_assoc]
  exact .mk hsgn hm hg hpoint hs

/-- A decimal literal is one without a power of ten, and an optional power of ten behind it. -/
theorem Spells.plain {cs : List Char} {l : Literal} (h : Spells cs l) :
    ∃ w s, cs = w ++ s ∧ SpellsPlain w { l with exponent := 0 } ∧ ScaleText s l.exponent := by
  obtain ⟨hsgn, hm, hg, hpoint, hs⟩ := h
  refine ⟨_, _, ?_, .mk hsgn hm hg hpoint, hs⟩
  rw [List.append_assoc, List.append_assoc]

theorem SpellsPlain.exponent {cs : List Char} {l : Literal} (h : SpellsPlain cs l) :
    l.exponent = 0 := by
  cases h
  rfl

theorem signed_eq_zero_iff {negative : Bool} {n : ℤ} : signed negative n = 0 ↔ n = 0 := by
  cases negative
  · exact Iff.rfl
  · exact neg_eq_zero

/-- **The exponent zero is that of no power of ten, and of one written with zeros.** -/
theorem scaleText_zero_iff {s : List Char} : ScaleText s 0 ↔ IdleScale s := by
  constructor
  · intro h
    generalize hx : (0 : ℤ) = x at h
    cases h with
    | none => exact .none
    | power hc hsgn hds =>
      have hzero := Int.natCast_eq_zero.1 (signed_eq_zero_iff.1 hx.symm)
      exact .zeros hc hsgn hds.ne_nil (Numeral.eq_zero_of_positional hds.all hzero)
  · rintro (_ | @⟨c, sgn, ds, negative, hc, hsgn, hne, hzeros⟩)
    · exact .none
    · have hds : Digits ds := ⟨hne, fun d hd => by rw [hzeros d hd]; decide⟩
      have hscale := ScaleText.power hc hsgn hds
      rwa [Numeral.positional_zeros hzeros, Int.natCast_zero, signed_eq_zero_iff.2 rfl] at hscale

/-- **The literals with exponent zero**, of which only some are written without a power of ten. -/
theorem spells_zero_iff {cs : List Char} {l : Literal} : (Spells cs l ∧ l.exponent = 0) ↔
    ∃ w s, cs = w ++ s ∧ SpellsPlain w l ∧ IdleScale s := by
  constructor
  · rintro ⟨h, hzero⟩
    obtain ⟨w, s, rfl, hw, hs⟩ := h.plain
    rw [hzero, scaleText_zero_iff] at hs
    rw [← hzero] at hw
    exact ⟨w, s, rfl, hw, hs⟩
  · rintro ⟨w, s, rfl, hw, hs⟩
    refine ⟨?_, hw.exponent⟩
    have hspell := hw.spells (scaleText_zero_iff.2 hs)
    rwa [← hw.exponent] at hspell

/-- The letter of a power of ten does not occur in a literal without one. -/
theorem SpellsPlain.chars {cs : List Char} {l : Literal} (h : SpellsPlain cs l) :
    ∀ c ∈ cs, IsDigitOrMark c := by
  obtain ⟨hsgn, hm, hg, -⟩ := h
  rw [List.forall_mem_append, List.forall_mem_append]
  exact ⟨hsgn.chars, hm.chars, hg.chars⟩

end Roundoff.Literal
