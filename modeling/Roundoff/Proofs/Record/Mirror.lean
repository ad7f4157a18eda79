import Roundoff.Proofs.Record.ReadBack

/-! # What conforms and what the contract allows

Conforming values need not come from outcomes: the shapes of records and the contract on them are
two tests of any value.  A schema *mirrors* a shape up to some texts when a value in its conforming
form meets the schema exactly if these texts are rationals (`Mirrors`).  For each way to build
shapes one lemma says that the schema built in the same way mirrors it as soon as the parts do; a
record adds up the texts that its fields leave open (`MirrorsFields`).

Four texts stay open in the record of a success, and none in that of a failure
(`outcome_isMet_iff`).
-/
namespace Roundoff

/-! ## Schemas that mirror shapes -/

namespace Record

/-- The texts that some paths lead to are rationals. -/
def RationalAt (paths : List (List String)) (v : Json) : Prop :=
  ∀ path ∈ paths, ∀ t, memberAt? path v = some (.string t) →
    Text.Pattern.rational.fitsLine t.toList = true

@[simp] theorem rationalAt_nil (v : Json) : RationalAt [] v := nofun

theorem rationalAt_append {ps qs : List (List String)} {v : Json} :
    RationalAt (ps ++ qs) v ↔ RationalAt ps v ∧ RationalAt qs v :=
  List.forall_mem_append

theorem rationalAt_member {paths : List (List String)} {name : String} {v w : Json}
    (h : v.member? name = some w) :
    RationalAt (paths.map (name :: ·)) v ↔ RationalAt paths w := by
  have hpath : ∀ path, memberAt? (name :: path) v = memberAt? path w := by
    intro path
    rw [memberAt?, h, Option.bind_some]
  simp only [RationalAt, List.forall_mem_map, hpath]

theorem rationalAt_null (paths : List (List String)) : RationalAt paths .null := by
  intro path _ t h
  cases path with
  | nil => cases h
  | cons name path => cases h

/-- **A schema mirrors a shape up to some texts**: a value in its conforming form meets the schema
exactly if the texts that the paths lead to are rationals. -/
def Mirrors (paths : List (List String)) (shape : Shape) (schema : Schema) : Prop :=
  ∀ ⦃given v : Json⦄, shape.conform given = .ok v → (schema.isMet v = true ↔ RationalAt paths v)

/-- The members of a schema mirror the fields of a record, defaults included.  The texts that a
field leaves open are found behind its name. -/
inductive MirrorsFields : List (List String) → List (String × Shape × Option Json) →
    List (String × Schema) → Prop
  | nil : MirrorsFields [] [] []
  | cons {paths rest : List (List String)} {name : String} {shape : Shape}
      {default : Option Json} {schema : Schema} {fs : List (String × Shape × Option Json)}
      {ss : List (String × Schema)} : Mirrors paths shape schema →
      (∀ v ∈ default, schema.isMet v = true ↔ RationalAt paths v) → MirrorsFields rest fs ss →
      MirrorsFields (paths.map (name :: ·) ++ rest) ((name, shape, default) :: fs)
        ((name, schema) :: ss)

section Mirrors

variable {paths : List (List String)} {shape : Shape} {schema : Schema}

/-- A schema that conforming values always meet mirrors the shape up to no text. -/
theorem mirrors_of_met (h : ∀ ⦃given v⦄, shape.conform given = .ok v → schema.isMet v = true) :
    Mirrors [] shape schema :=
  fun _ v hv => iff_of_true (h hv) (rationalAt_nil v)

/-- A schema that is met by every text of a length and form. -/
theorem mirrors_text {n : ℕ} {pattern : Option Text.Pattern}
    (h : ∀ t : String, n ≤ t.length → (∀ p ∈ pattern, p.fits t.toList = true) →
      schema.isMet (.string t) = true) :
    Mirrors [] (.text n pattern) schema := by
  apply mirrors_of_met
  intro given v hv
  cases Shape.conforms_of_conform hv with
  | text hlength hfits => exact h _ hlength hfits

theorem mirrors_anyText : Mirrors [] anyText Contract.text :=
  mirrors_text fun _ _ _ => rfl

theorem mirrors_someText : Mirrors [] someText Contract.someText := by
  apply mirrors_text
  intro t hlength _
  simp [Contract.someText, Schema.hasType, hlength]

theorem mirrors_formed (p : Text.Pattern) :
    Mirrors [] (.text 0 (some p)) (Contract.formed p) := by
  apply mirrors_text
  intro t _ hfits
  exact isMet_formed (hfits p rfl)

/-- A text of any form leaves itself open where a rational is asked for. -/
theorem mirrors_open {n : ℕ} {pattern : Option Text.Pattern} :
    Mirrors [[]] (.text n pattern) (Contract.formed .rational) := by
  intro given v h
  cases Shape.conforms_of_conform h with
  | @text _ _ t _ _ =>
    have hself : RationalAt [[]] (.string t) ↔
        Text.Pattern.rational.fitsLine t.toList = true := by
      simp [RationalAt, memberAt?]
    rw [hself]
    simp [Contract.formed, Schema.hasType]

theorem mirrors_choice (options : List String) :
    Mirrors [] (.choice options) (Contract.choice options) := by
  apply mirrors_of_met
  intro given v h
  cases Shape.conforms_of_conform h with
  | choice ht => simp [Contract.choice, Schema.hasType, Schema.isOneOf, ht]

theorem mirrors_constant (t : String) : Mirrors [] (.constant t) (.const t) := by
  apply mirrors_of_met
  intro given v h
  cases Shape.conforms_of_conform h with
  | constant => simp [Schema.isOneOf]

/-- What is mirrored, or null: the schema says so by itself. -/
theorem mirrors_optional (hnull : schema.isMet .null = true) (h : Mirrors paths shape schema) :
    Mirrors paths (.optional shape) schema := by
  intro given v hv
  cases Shape.conforms_of_conform hv with
  | null => exact iff_of_true hnull (rationalAt_null paths)
  | optional _ hv => exact h hv

/-- What is mirrored, or null as an alternative. -/
theorem mirrors_orNull (hnull : schema.isMet .null = false) (h : Mirrors paths shape schema) :
    Mirrors paths (.optional shape) (.orNull schema) := by
  refine mirrors_optional (Schema.isMet_orNull schema hnull .null) fun given v hv => ?_
  rw [Schema.isMet_orNull schema hnull, ← h hv]
  cases v with
  | null =>
    -- The shape itself never gives null, or the schema would allow it.
    have hmet := (h hv).2 (rationalAt_null paths)
    rw [hnull] at hmet
    cases hmet
  | _ => rw [Bool.false_or]

theorem mirrors_list (h : Mirrors [] shape schema) :
    Mirrors [] (.list shape) (Contract.arrayOf schema) := by
  apply mirrors_of_met
  intro given v hv
  cases Shape.conforms_of_conform hv with
  | @list _ xs _ hitems =>
    refine isMet_arrayOf fun w hw => ?_
    have hmem : Except.ok w ∈ xs.map shape.conform := by
      rw [hitems]
      exact List.mem_map_of_mem hw
    obtain ⟨x, -, hx⟩ := List.mem_map.1 hmem
    exact (h hx).2 (rationalAt_nil w)

theorem mirrors_count : Mirrors [] (.optional countShape) Contract.countOrNull := by
  apply mirrors_optional rfl
  apply mirrors_of_met
  intro given v h
  have hinteger : Shape.Conforms (.integer { atLeast := some 0 }) given v :=
    Shape.conforms_of_conform h
  cases hinteger with
  | @integer _ _ i _ hrange =>
    have hi : 0 ≤ i := by
      by_contra hnegative
      simp [IntRange.violation?, not_le.1 hnegative] at hrange
    simp [Contract.countOrNull, Schema.hasType, Schema.isBelow, hi]

theorem mirrors_textOrNull : Mirrors [] (.optional anyText) Contract.textOrNull :=
  mirrors_optional rfl (mirrors_text fun _ _ _ => rfl)

theorem mirrors_booleanOrNull : Mirrors [] (.optional .boolean) (.type [.boolean, .null]) := by
  apply mirrors_optional rfl
  apply mirrors_of_met
  intro given v h
  cases Shape.conforms_of_conform h with
  | boolean => rfl

end Mirrors

namespace MirrorsFields

variable {paths rest : List (List String)} {name : String} {shape : Shape} {schema : Schema}
  {fs : List (String × Shape × Option Json)} {ss : List (String × Schema)}

theorem required (h : Mirrors paths shape schema) (hrest : MirrorsFields rest fs ss) :
    MirrorsFields (paths.map (name :: ·) ++ rest) (required name shape :: fs)
      ((name, schema) :: ss) :=
  cons h nofun hrest

theorem nullable (h : Mirrors paths (.optional shape) schema) (hrest : MirrorsFields rest fs ss) :
    MirrorsFields (paths.map (name :: ·) ++ rest) (nullable name shape :: fs)
      ((name, schema) :: ss) := by
  refine cons h (fun v hv => ?_) hrest
  cases hv
  exact h (Shape.conform_eq_ok_iff.2 .null)

theorem listed (h : Mirrors [] shape schema) (hrest : MirrorsFields rest fs ss) :
    MirrorsFields rest (listed name shape :: fs) ((name, Contract.arrayOf schema) :: ss) := by
  refine cons (mirrors_list h) (fun v hv => ?_) hrest
  cases hv
  exact iff_of_true (isMet_arrayOf nofun) (rationalAt_nil _)

theorem fixed (t : String) (hrest : MirrorsFields rest fs ss) :
    MirrorsFields rest (fixed name t :: fs) ((name, .const t) :: ss) := by
  refine cons (mirrors_constant t) (fun v hv => ?_) hrest
  cases hv
  exact mirrors_constant t (Shape.conform_eq_ok_iff.2 .constant)

theorem map_fst_eq (h : MirrorsFields paths fs ss) {members ms : List (String × Json)}
    (hms : Shape.conformFields fs members = .ok ms) : ss.map (·.1) = ms.map (·.1) := by
  induction h generalizing ms with
  | nil =>
    cases hms
    rfl
  | cons _ _ _ ih =>
    obtain ⟨w, tail, -, htail, rfl⟩ := Shape.conformFields_cons_eq_ok_iff.1 hms
    exact congrArg (_ :: ·) (ih htail)

/-- The members of a record in its conforming form meet their schemas exactly if the texts that its
fields leave open are rationals, in any object that holds them. -/
theorem isMet_members (h : MirrorsFields paths fs ss) {members ms all : List (String × Json)}
    (hms : Shape.conformFields fs members = .ok ms)
    (hall : ∀ m ∈ ms, Json.lookup? m.1 all = some m.2) :
    (ss.all fun m => (Json.lookup? m.1 all).elim true fun w => m.2.isMet w) = true ↔
      RationalAt paths (.object all) := by
  -- By induction on the fields; the whole object stays, since a member is looked up in it by name.
  induction h generalizing ms with
  | nil => exact iff_of_true rfl (rationalAt_nil _)
  | @cons paths _ _ shape _ schema _ _ hmirrors hdefault _ ih =>
    obtain ⟨w, tail, hw, htail, rfl⟩ := Shape.conformFields_cons_eq_ok_iff.1 hms
    obtain ⟨hlookup, hall⟩ := List.forall_mem_cons.1 hall
    have hmet : schema.isMet w = true ↔ RationalAt paths w := by
      rcases hw with ⟨x, -, hx⟩ | ⟨-, hw⟩
      · exact hmirrors hx
      · exact hdefault w hw
    rw [List.all_cons, Bool.and_eq_true, ih htail hall, rationalAt_append, hlookup,
      Option.elim_some, hmet, rationalAt_member (v := .object all) hlookup]

/-- **A schema mirrors a record as soon as its members mirror the fields.** -/
theorem mirrors (h : MirrorsFields paths fs ss) (hnames : (ss.map (·.1)).Nodup) :
    Mirrors paths (.record fs) (.exactObject ss) := by
  intro given v hv
  cases Shape.conforms_of_conform hv with
  | record hms =>
    have heq := h.map_fst_eq hms
    rw [Schema.isMet_exactObject heq]
    rw [heq] at hnames
    exact h.isMet_members hms fun m hm => Json.lookup?_of_mem hnames hm

end MirrorsFields

/-! ## Outcome records -/

theorem mirrors_rational : Mirrors [["text"]] rationalShape Contract.rational :=
  MirrorsFields.mirrors
    (.required (mirrors_formed .integer) <|
      .required (mirrors_formed .positive) <|
      .required mirrors_open <|
      .required mirrors_someText .nil)
    (by decide)

theorem mirrors_float : Mirrors [] floatShape Contract.float :=
  MirrorsFields.mirrors
    (.required mirrors_someText <|
      .required mirrors_someText <|
      .required (mirrors_choice floatClassNames) .nil)
    (by decide)

theorem mirrors_event : Mirrors [] eventShape Contract.roundingEvent :=
  MirrorsFields.mirrors
    (.required mirrors_someText <|
      .listed mirrors_anyText <|
      .required mirrors_anyText <|
      .required (mirrors_choice flagNames) .nil)
    (by decide)

/-- A text of any form, or null, leaves itself open where a rational or null is asked for. -/
theorem mirrors_ratio : Mirrors [[]] (.optional anyText) Contract.ratioOrNull :=
  mirrors_orNull rfl mirrors_open

theorem mirrors_metrics :
    Mirrors [["absolute_error"], ["relative_error"], ["ulp_error"]] metricsShape
      Contract.metrics :=
  MirrorsFields.mirrors
    (.required (mirrors_choice accuracyNames) <|
      .nullable mirrors_ratio <|
      .nullable mirrors_ratio <|
      .nullable mirrors_count <|
      .nullable mirrors_ratio <|
      .nullable mirrors_booleanOrNull .nil)
    (by decide)

/-- The texts of rationals whose form the record of a success leaves open. -/
def openTexts : List (List String) :=
  [["exact", "text"], ["metrics", "absolute_error"], ["metrics", "relative_error"],
    ["metrics", "ulp_error"]]

theorem mirrors_success : Mirrors openTexts successShape Contract.success :=
  MirrorsFields.mirrors
    (.fixed "success" <|
      .fixed Settings.floatFormat <|
      .required mirrors_rational <|
      .required mirrors_float <|
      .listed mirrors_anyText <|
      .listed mirrors_event <|
      .required mirrors_metrics .nil)
    (by decide)

theorem mirrors_failure : Mirrors [] failureShape Contract.failure :=
  MirrorsFields.mirrors
    (.fixed "failure" <|
      .required (mirrors_choice failureKindNames) <|
      .required mirrors_someText <|
      .nullable mirrors_count <|
      .nullable mirrors_textOrNull <|
      .nullable mirrors_textOrNull <|
      .nullable (mirrors_orNull rfl mirrors_float) .nil)
    (by decide)

/-- A record with a fixed status has it. -/
theorem status_of_conform {t : String} {fs : List (String × Shape × Option Json)} {given v : Json}
    (h : (Shape.record (fixed "status" t :: fs)).conform given = .ok v) :
    v.member? "status" = some (.string t) := by
  cases Shape.conforms_of_conform h with
  | record hms =>
    obtain ⟨w, rest, hw, -, rfl⟩ := Shape.conformFields_cons_eq_ok_iff.1 hms
    have heq : w = .string t := by
      rcases hw with ⟨x, -, hx⟩ | ⟨-, hw⟩
      · cases Shape.conforms_of_conform hx with
        | constant => rfl
      · cases hw
        rfl
    rw [heq]
    rfl

/-- **The contract allows every record but for the form of four texts.**  A conforming record of a
success meets the schema of outcomes exactly if the text of its exact value, and the texts of its
errors as far as they are given, have the form of a rational; a conforming record of a failure
always meets it. -/
theorem outcome_isMet_iff (given v : Json) :
    (successShape.conform given = .ok v →
      (Contract.outcome.isMet v = true ↔ RationalAt openTexts v)) ∧
    (failureShape.conform given = .ok v → Contract.outcome.isMet v = true) := by
  constructor
  · intro h
    have hother : Contract.failure.isMet v = false :=
      Schema.isMet_of_other_const (List.mem_cons_self ..) (status_of_conform h) (by decide)
    rw [Contract.outcome, Contract.alternatives, Schema.isMet_oneOf_pair, hother, Bool.bne_false]
    exact mirrors_success h
  · intro h
    have hother : Contract.success.isMet v = false :=
      Schema.isMet_of_other_const (List.mem_cons_self ..) (status_of_conform h) (by decide)
    have hmet : Contract.failure.isMet v = true := (mirrors_failure h).2 (rationalAt_nil v)
    rw [Contract.outcome, Contract.alternatives, Schema.isMet_oneOf_pair, hother, hmet]
    rfl

/-- The record of one third, with any text for the exact value. -/
def oneThird (text : String) : Json := .object [
  ("status", .string "success"),
  ("float_format", .string "binary64"),
  ("exact", .object [
    ("numerator", .string "1"), ("denominator", .string "3"), ("text", .string text),
    ("decimal", .string "0.(3)")]),
  ("shadow", .object [
    ("text", .string "0.3333333333333333"), ("hex", .string "0x1.5555555555555p-2"),
    ("float_class", .string "normal")]),
  ("approximations", .array []),
  ("rounding_events", .array []),
  ("metrics", .object [
    ("classification", .string "INEXACT"), ("absolute_error", .null), ("relative_error", .null),
    ("ulp_distance", .null), ("ulp_error", .null), ("correctly_rounded", .null)])]

theorem outcome_isMet_oneThird :
    successShape.conform (oneThird "1/3") = .ok (oneThird "1/3") ∧
      Contract.outcome.isMet (oneThird "1/3") = true := by
  have hconform : successShape.conform (oneThird "1/3") = .ok (oneThird "1/3") := rfl
  have hopen : RationalAt openTexts (oneThird "1/3") := by
    intro path hpath t ht
    simp only [openTexts, List.mem_cons, List.not_mem_nil, or_false] at hpath
    rcases hpath with rfl | rfl | rfl | rfl
    · cases ht
      decide
    all_goals cases ht
  exact ⟨hconform, ((outcome_isMet_iff _ _).1 hconform).2 hopen⟩

/-- A text in words conforms, and the contract does not allow it. -/
theorem outcome_not_isMet_oneThird :
    successShape.conform (oneThird "one third") = .ok (oneThird "one third") ∧
      Contract.outcome.isMet (oneThird "one third") = false :=
  ⟨rfl, rfl⟩

end Record

end Roundoff
