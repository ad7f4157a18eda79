import Mathlib
import Roundoff.Record.Shapes

/-! # Conforming, one layer at a time

Conforming a value to a shape checks, converts and completes it in one recursion.  `Conforms` says
for each way to build a shape which values it takes and what it makes of them, in terms of the
parts; the recursion gives exactly this (`conform_eq_ok_iff`).  What holds of conforming values is
proved from here, shape by shape.
-/
namespace Roundoff.Shape

/-! ## Results of parts -/

theorem within_eq_ok_iff {α : Type} {step : String} {r : Except (List Problem) α} {a : α} :
    within step r = .ok a ↔ r = .ok a := by
  cases r with
  | ok b => exact Iff.rfl
  | error ps => exact ⟨nofun, nofun⟩

theorem map_eq_ok_iff {α β : Type} {f : α → β} {r : Except (List Problem) α} {b : β} :
    r.map f = .ok b ↔ ∃ a, r = .ok a ∧ f a = b := by
  cases r with
  | ok a => simp [Except.map]
  | error ps => simp [Except.map]

theorem both_eq_ok_iff {α β γ : Type} {f : α → β → γ} {x : Except (List Problem) α}
    {y : Except (List Problem) β} {c : γ} :
    both f x y = .ok c ↔ ∃ a b, x = .ok a ∧ y = .ok b ∧ f a b = c := by
  cases x with
  | ok a => cases y <;> simp [both]
  | error ps => cases y <;> simp [both]

theorem collect_eq_ok_iff {i : ℕ} {rs : List (Except (List Problem) Json)} {vs : List Json} :
    collect i rs = .ok vs ↔ rs = vs.map .ok := by
  induction rs generalizing i vs with
  | nil => cases vs <;> simp [collect]
  | cons r rs ih =>
    rw [collect, both_eq_ok_iff]
    simp only [within_eq_ok_iff, ih]
    constructor
    · rintro ⟨v, ws, rfl, rfl, rfl⟩
      rfl
    · intro h
      cases vs with
      | nil => cases h
      | cons v ws =>
        obtain ⟨hr, hrs⟩ := List.cons.inj h
        exact ⟨v, ws, hr, hrs, rfl⟩

/-! ## Conforming values -/

/-- **What a shape takes, and what it makes of it**, in terms of its parts. -/
inductive Conforms : Shape → Json → Json → Prop
  | text {n : ℕ} {pattern : Option Text.Pattern} {t : String} : n ≤ t.length →
      (∀ p ∈ pattern, p.fits t.toList = true) → Conforms (.text n pattern) (.string t) (.string t)
  | choice {options : List String} {t : String} : t ∈ options →
      Conforms (.choice options) (.string t) (.string t)
  | constant {t : String} : Conforms (.constant t) (.string t) (.string t)
  | integer {range : IntRange} {given : Json} {i : ℤ} : toInteger given = .ok i →
      range.violation? i = none → Conforms (.integer range) given (.int i)
  | boolean {given : Json} {b : Bool} : toBoolean given = .ok b → Conforms .boolean given (.bool b)
  | null {shape : Shape} : Conforms (.optional shape) .null .null
  | optional {shape : Shape} {given v : Json} : given ≠ .null → shape.conform given = .ok v →
      Conforms (.optional shape) given v
  | list {item : Shape} {given vs : List Json} : given.map item.conform = vs.map .ok →
      Conforms (.list item) (.array given) (.array vs)
  | record {fs : List (String × Shape × Option Json)} {given ms : List (String × Json)} :
      conformFields fs given = .ok ms → Conforms (.record fs) (.object given) (.object ms)

/-- The member of a field conforms to its shape, or is its default where none is given. -/
def FieldGives (given : List (String × Json)) (name : String) (shape : Shape)
    (default : Option Json) (v : Json) : Prop :=
  (∃ w, Json.lookup? name given = some w ∧ shape.conform w = .ok v) ∨
    (Json.lookup? name given = none ∧ default = some v)

theorem Conforms.conform_eq {shape : Shape} {given v : Json} (h : Conforms shape given v) :
    shape.conform given = .ok v := by
  rw [conform.eq_def]
  cases h with
  | @text n pattern t hlength hfits =>
    have hany : (pattern.any fun p => !p.fits t.toList) = false := by
      cases pattern with
      | none => rfl
      | some p => simpa using hfits p rfl
    dsimp only
    rw [if_neg (not_lt.2 hlength), hany, if_neg Bool.false_ne_true]
  | choice hmem => exact if_pos (List.contains_iff_mem.2 hmem)
  | constant => exact if_pos rfl
  | integer hgiven hrange =>
    dsimp only
    rw [hgiven]
    dsimp only
    rw [hrange]
  | boolean hgiven =>
    dsimp only
    rw [hgiven]
  | null => rfl
  | @optional _ given v hne hv =>
    cases given with
    | null => exact absurd rfl hne
    | _ => exact hv
  | list hitems => exact map_eq_ok_iff.2 ⟨_, collect_eq_ok_iff.2 hitems, rfl⟩
  | record hms => exact map_eq_ok_iff.2 ⟨_, hms, rfl⟩

theorem conforms_of_conform {shape : Shape} {given v : Json} (h : shape.conform given = .ok v) :
    Conforms shape given v := by
  rw [conform.eq_def] at h
  cases shape with
  | text n pattern =>
    cases given with
    | string t =>
      dsimp only at h
      split at h
      · cases h
      · rename_i hlength
        split at h
        · cases h
        · rename_i hfits
          cases h
          refine .text (not_lt.1 hlength) fun p hp => ?_
          cases hp
          simpa using hfits
    | _ => cases h
  | choice options =>
    cases given with
    | string t =>
      dsimp only at h
      split at h
      · rename_i hmem
        cases h
        exact .choice (List.contains_iff_mem.1 hmem)
      · cases h
    | _ => cases h
  | constant t =>
    cases given with
    | string s =>
      dsimp only at h
      split at h
      · rename_i heq
        cases h
        rw [heq]
        exact .constant
      · cases h
    | _ => cases h
  | integer range =>
    dsimp only at h
    split at h
    · cases h
    · rename_i hgiven
      split at h
      · cases h
      · rename_i hrange
        cases h
        exact .integer hgiven hrange
  | boolean =>
    dsimp only at h
    split at h
    · cases h
    · rename_i hgiven
      cases h
      exact .boolean hgiven
  | optional shape =>
    cases given with
    | null =>
      cases h
      exact .null
    | _ => exact .optional nofun h
  | list item =>
    cases given with
    | array xs =>
      obtain ⟨vs, hvs, rfl⟩ := map_eq_ok_iff.1 h
      exact .list (collect_eq_ok_iff.1 hvs)
    | _ => cases h
  | record fs =>
    cases given with
    | object members =>
      obtain ⟨ms, hms, rfl⟩ := map_eq_ok_iff.1 h
      exact .record hms
    | _ => cases h

/-- **Conforming to a shape gives what the shape makes of the value, and fails on any other.** -/
theorem conform_eq_ok_iff {shape : Shape} {given v : Json} :
    shape.conform given = .ok v ↔ Conforms shape given v :=
  ⟨conforms_of_conform, Conforms.conform_eq⟩

theorem conformFields_cons_eq_ok_iff {name : String} {shape : Shape} {default : Option Json}
    {fs : List (String × Shape × Option Json)} {given ms : List (String × Json)} :
    conformFields ((name, shape, default) :: fs) given = .ok ms ↔
      ∃ v rest, FieldGives given name shape default v ∧ conformFields fs given = .ok rest ∧
        (name, v) :: rest = ms := by
  rw [conformFields.eq_def]
  dsimp only
  simp only [both_eq_ok_iff, within_eq_ok_iff, FieldGives]
  cases hlookup : Json.lookup? name given with
  | some w => simp
  | none =>
    cases default with
    | some w => simp
    | none => simp [problem]

end Roundoff.Shape
