import Mathlib

/-! # Steps in sequence

A computation that may stop is a sequence of steps: it has a value when every step has one, and it
stops where the first step does.
-/
namespace Roundoff

variable {ε α β : Type}

/-- A sequence has a value when each of its steps has one. -/
theorem bind_eq_ok {x : Except ε α} {f : α → Except ε β} {b : β} :
    (x >>= f) = .ok b ↔ ∃ a, x = .ok a ∧ f a = .ok b := by
  cases x with
  | error e => exact ⟨fun h => (nomatch h), fun ⟨_, h, _⟩ => (nomatch h)⟩
  | ok a =>
    constructor
    · intro h
      exact ⟨a, rfl, h⟩
    · rintro ⟨_, ⟨⟩, h⟩
      exact h

/-- A sequence stops at its first step, or after it. -/
theorem bind_eq_error {x : Except ε α} {f : α → Except ε β} {e : ε} :
    (x >>= f) = .error e ↔ x = .error e ∨ ∃ a, x = .ok a ∧ f a = .error e := by
  cases x with
  | error e' =>
    constructor
    · rintro ⟨⟩
      exact Or.inl rfl
    · rintro (⟨⟨⟩⟩ | ⟨_, h, _⟩)
      · rfl
      · cases h
  | ok a =>
    constructor
    · intro h
      exact Or.inr ⟨a, rfl, h⟩
    · rintro (h | ⟨_, ⟨⟩, h⟩)
      · cases h
      · exact h

theorem ok_bind (a : α) (f : α → Except ε β) : ((.ok a : Except ε α) >>= f) = f a := rfl

theorem mapError_ok {ε' : Type} (g : ε → ε') (a : α) : (.ok a : Except ε α).mapError g = .ok a :=
  rfl

/-- A reason that is put in other words is one of the computation itself. -/
theorem mapError_eq_error {ε' : Type} {g : ε → ε'} {x : Except ε α} {e' : ε'} :
    x.mapError g = .error e' ↔ ∃ e, x = .error e ∧ g e = e' := by
  cases x with
  | error e =>
    constructor
    · rintro ⟨⟩
      exact ⟨e, rfl, rfl⟩
    · rintro ⟨_, ⟨⟩, rfl⟩
      rfl
  | ok a => exact ⟨fun h => (nomatch h), fun ⟨_, h, _⟩ => (nomatch h)⟩

theorem mapError_map {ε' : Type} (g : ε → ε') (f : α → β) (x : Except ε α) :
    (x.mapError g).map f = (x.map f).mapError g := by
  cases x <;> rfl

theorem mapError_toOption {ε' : Type} (g : ε → ε') (x : Except ε α) :
    (x.mapError g).toOption = x.toOption := by
  cases x <;> rfl

/-! ## How a computation ends -/

/-- The computation has a value of which something holds, or it stops for one of certain reasons. -/
inductive Ends (E : ε → Prop) (P : α → Prop) : Except ε α → Prop
  | ok {a : α} : P a → Ends E P (.ok a)
  | stop {e : ε} : E e → Ends E P (.error e)

namespace Ends

variable {E : ε → Prop} {P P' : α → Prop} {Q : β → Prop} {x : Except ε α}

theorem bind {f : α → Except ε β} (hx : Ends E P x) (hf : ∀ a, P a → Ends E Q (f a)) :
    Ends E Q (x >>= f) := by
  cases hx with
  | ok h => exact hf _ h
  | stop h => exact .stop h

theorem mono (hx : Ends E P x) (h : ∀ a, P a → P' a) : Ends E P' x := by
  cases hx with
  | ok hP => exact .ok (h _ hP)
  | stop he => exact .stop he

theorem monoError {E' : ε → Prop} (hx : Ends E P x) (h : ∀ e, E e → E' e) : Ends E' P x := by
  cases hx with
  | ok hP => exact .ok hP
  | stop he => exact .stop (h _ he)

end Ends

/-! ## Two computations -/

/-- The first computation ends as the second one does, or it stops for one of certain reasons. -/
def AgreeUnless (R : ε → Prop) (x y : Except ε α) : Prop :=
  x = y ∨ ∃ e, R e ∧ x = .error e

namespace AgreeUnless

variable {R : ε → Prop} {x y z : Except ε α}

theorem refl (x : Except ε α) : AgreeUnless R x x :=
  Or.inl rfl

theorem stop {e : ε} (h : R e) : AgreeUnless R (.error e) y :=
  Or.inr ⟨e, h, rfl⟩

theorem trans (hxy : AgreeUnless R x y) (hyz : AgreeUnless R y z) : AgreeUnless R x z := by
  rcases hxy with rfl | hstop
  · exact hyz
  · exact Or.inr hstop

/-- Sequences agree when their steps do, the later ones where both got there. -/
theorem bind {f g : α → Except ε β} (hxy : AgreeUnless R x y)
    (hfg : ∀ a, x = .ok a → AgreeUnless R (f a) (g a)) : AgreeUnless R (x >>= f) (y >>= g) := by
  rcases hxy with rfl | ⟨e, he, rfl⟩
  · cases x with
    | error e => exact Or.inl rfl
    | ok a => exact hfg a rfl
  · exact Or.inr ⟨e, he, rfl⟩

/-- A first step that reaches a value goes on from there. -/
theorem bind_ok {f : α → Except ε β} {a : α} {w : Except ε β} (hx : AgreeUnless R x (.ok a))
    (hf : AgreeUnless R (f a) w) : AgreeUnless R (x >>= f) w := by
  rcases hx with rfl | ⟨e, he, rfl⟩
  · exact hf
  · exact Or.inr ⟨e, he, rfl⟩

end AgreeUnless

/-- Both computations have values, which are related, or both stop, for related reasons. -/
inductive InStep {ε' α' : Type} (E : ε → ε' → Prop) (R : α → α' → Prop) :
    Except ε α → Except ε' α' → Prop
  | ok {a : α} {a' : α'} : R a a' → InStep E R (.ok a) (.ok a')
  | stop {e : ε} {e' : ε'} : E e e' → InStep E R (.error e) (.error e')

namespace InStep

variable {ε' α' β' : Type} {E : ε → ε' → Prop} {R : α → α' → Prop} {S : β → β' → Prop}
  {x : Except ε α} {y : Except ε' α'}

/-- Sequences stay in step when their steps do. -/
theorem bind {f : α → Except ε β} {g : α' → Except ε' β'} (h : InStep E R x y)
    (hfg : ∀ a a', R a a' → InStep E S (f a) (g a')) : InStep E S (x >>= f) (y >>= g) := by
  cases h with
  | ok hR => exact hfg _ _ hR
  | stop hE => exact .stop hE

theorem map {f : α → β} {g : α' → β'} (h : InStep E R x y)
    (hfg : ∀ a a', R a a' → S (f a) (g a')) : InStep E S (x.map f) (y.map g) := by
  cases h with
  | ok hR => exact .ok (hfg _ _ hR)
  | stop hE => exact .stop hE

theorem mapError {η η' : Type} {F : η → η' → Prop} {f : ε → η} {g : ε' → η'}
    (h : InStep E R x y) (hfg : ∀ e e', E e e' → F (f e) (g e')) :
    InStep F R (x.mapError f) (y.mapError g) := by
  cases h with
  | ok hR => exact .ok hR
  | stop hE => exact .stop (hfg _ _ hE)

end InStep

end Roundoff
