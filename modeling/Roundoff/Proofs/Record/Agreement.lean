import Mathlib
import Roundoff.Contract.Outcome
import Roundoff.Proofs.Record.Conforming

/-! # Values that meet a shape and a schema

A shape says how a value is brought into its conforming form, and a schema what its readers rely on.
Both are built in the same ways: from texts, choices, counts, values or null, lists and records.
For each way one lemma says that a value agrees with the shape and the schema as soon as its parts
do (`Agrees`); the members of a record stand side by side with the fields of the shape and the
members of the schema (`Aligned`).
-/
namespace Roundoff

/-! ## What a schema asks for -/

namespace Schema

@[simp] theorem isEmpty_expect (holds : Bool) (k : Keyword) : (expect holds k).isEmpty = holds := by
  cases holds <;> rfl

@[simp] theorem isEmpty_within (step : String) (vs : List Violation) :
    (within step vs).isEmpty = vs.isEmpty := by
  cases vs <;> rfl

theorem isEmpty_append (vs ws : List Violation) :
    (vs ++ ws).isEmpty = (vs.isEmpty && ws.isEmpty) := by
  cases vs <;> rfl

theorem isEmpty_violationsAll (ss : List Schema) (v : Json) :
    (violationsAll ss v).isEmpty = ss.all fun s => s.isMet v := by
  induction ss with
  | nil => rfl
  | cons s ss ih => rw [violationsAll, isEmpty_append, ih, List.all_cons, isMet]

theorem isEmpty_violationsOf (ss : List (String × Schema)) (v : Json) :
    (violationsOf ss v).isEmpty =
      ss.all fun m => (v.member? m.1).elim true fun w => m.2.isMet w := by
  induction ss with
  | nil => rfl
  | cons m ss ih =>
    obtain ⟨name, s⟩ := m
    rw [violationsOf, isEmpty_append, ih, List.all_cons]
    cases v.member? name with
    | none => rfl
    | some w => exact congrArg (· && _) (isEmpty_within ..)

theorem isEmpty_items (item : Schema) (vs : List Json) (i : ℕ) :
    (((vs.map (violations item)).zipIdx i).flatMap fun (ws, j) =>
      within (Numeral.text j) ws).isEmpty = vs.all item.isMet := by
  induction vs generalizing i with
  | nil => rfl
  | cons v vs ih =>
    rw [List.map_cons, List.zipIdx_cons, List.flatMap_cons, isEmpty_append, ih, isEmpty_within,
      List.all_cons, isMet]

/-- What a schema asks of a value: the answer without the violations. -/
def asks : Schema → Json → Bool
  | all parts, v => parts.all fun s => s.isMet v
  | type types, v => types.any (hasType v)
  | required names, v =>
    match v with
    | .object ms => names.all fun n => (Json.lookup? n ms).isSome
    | _ => true
  | closed names, v =>
    match v with
    | .object ms => ms.all fun m => names.contains m.1
    | _ => true
  | properties members, v => members.all fun m => (v.member? m.1).elim true fun w => m.2.isMet w
  | items item, v =>
    match v with
    | .array vs => vs.all item.isMet
    | _ => true
  | const text, v => isOneOf [text] v
  | enum texts, v => isOneOf texts v
  | pattern form, v =>
    match v with
    | .string t => form.fitsLine t.toList
    | _ => true
  | minLength n, v =>
    match v with
    | .string t => decide (n ≤ t.length)
    | _ => true
  | minimum n, v => !isBelow n v
  | oneOf branches, v => decide (metCount branches v = 1)

/-- **A value meets a schema exactly if it has what the schema asks for.** -/
theorem isMet_eq_asks (s : Schema) (v : Json) : s.isMet v = s.asks v := by
  rw [isMet]
  cases s with
  | all parts =>
    rw [violations]
    exact isEmpty_violationsAll parts v
  | properties members =>
    rw [violations]
    exact isEmpty_violationsOf members v
  | items item =>
    cases v with
    | array vs =>
      rw [violations]
      exact isEmpty_items item vs 0
    | _ => rfl
  | required names | closed names =>
    cases v with
    | object ms =>
      rw [violations]
      exact isEmpty_expect ..
    | _ => rfl
  | pattern form | minLength n =>
    cases v with
    | string t =>
      rw [violations]
      exact isEmpty_expect ..
    | _ => rfl
  | type types | const text | enum texts | minimum n | oneOf branches =>
    rw [violations]
    exact isEmpty_expect ..

@[simp] theorem isMet_all (parts : List Schema) (v : Json) :
    (all parts).isMet v = parts.all fun s => s.isMet v :=
  isMet_eq_asks ..

@[simp] theorem isMet_type (types : List JsonType) (v : Json) :
    (type types).isMet v = types.any (hasType v) :=
  isMet_eq_asks ..

@[simp] theorem isMet_enum (ts : List String) (v : Json) : (enum ts).isMet v = isOneOf ts v :=
  isMet_eq_asks ..

@[simp] theorem isMet_const (t : String) (v : Json) : (const t).isMet v = isOneOf [t] v :=
  isMet_eq_asks ..

@[simp] theorem isMet_pattern (form : Text.Pattern) (t : String) :
    (pattern form).isMet (.string t) = form.fitsLine t.toList :=
  isMet_eq_asks ..

@[simp] theorem isMet_minLength (n : ℕ) (t : String) :
    (minLength n).isMet (.string t) = decide (n ≤ t.length) :=
  isMet_eq_asks ..

@[simp] theorem isMet_minimum (n : ℤ) (v : Json) : (minimum n).isMet v = !isBelow n v :=
  isMet_eq_asks ..

@[simp] theorem isMet_items (item : Schema) (vs : List Json) :
    (items item).isMet (.array vs) = vs.all item.isMet :=
  isMet_eq_asks ..

theorem metCount_cons (s : Schema) (ss : List Schema) (v : Json) :
    metCount (s :: ss) v = (if s.isMet v then 1 else 0) + metCount ss v := by
  rw [metCount, isMet]

theorem isMet_oneOf (ss : List Schema) (v : Json) :
    (oneOf ss).isMet v = decide (metCount ss v = 1) :=
  isMet_eq_asks ..

/-- Of two alternatives exactly one is met. -/
theorem isMet_oneOf_pair (s t : Schema) (v : Json) :
    (oneOf [s, t]).isMet v = (s.isMet v != t.isMet v) := by
  rw [isMet_oneOf, metCount_cons, metCount_cons, metCount]
  cases s.isMet v <;> cases t.isMet v <;> rfl

/-- Of an object with the right member names only the members are asked. -/
theorem isMet_exactObject {ss : List (String × Schema)} {ms : List (String × Json)}
    (hnames : ss.map (·.1) = ms.map (·.1)) :
    (exactObject ss).isMet (.object ms) =
      ss.all fun m => (Json.lookup? m.1 ms).elim true fun w => m.2.isMet w := by
  have hclosed : (closed (ss.map (·.1))).isMet (.object ms) = true := by
    rw [isMet_eq_asks, asks, hnames]
    exact List.all_eq_true.2 fun m hm => List.contains_iff_mem.2 (List.mem_map_of_mem hm)
  have hrequired : (required (ss.map (·.1))).isMet (.object ms) = true := by
    rw [isMet_eq_asks, asks, hnames, List.all_map]
    refine List.all_eq_true.2 fun m hm => ?_
    rw [Function.comp_apply, Json.lookup?, Option.isSome_map, List.find?_isSome]
    exact ⟨m, hm, beq_self_eq_true _⟩
  have hproperties := isMet_eq_asks (properties ss) (.object ms)
  rw [exactObject, isMet_all]
  simp only [List.all_cons, List.all_nil, hclosed, hrequired, hproperties, isMet_type,
    List.any_cons, hasType, Bool.true_and, Bool.and_true, Bool.true_or]
  rfl

/-- Null is met, and of any other value the schema itself is asked. -/
theorem isMet_orNull (s : Schema) (hnull : s.isMet .null = false) (v : Json) :
    (orNull s).isMet v = (v matches .null || s.isMet v) := by
  rw [orNull, isMet_oneOf_pair]
  cases v with
  | null =>
    rw [hnull]
    rfl
  | _ =>
    rw [isMet_type]
    exact Bool.xor_false _

/-- An object that has exactly some members meets the schema of each. -/
theorem isMet_member {ss : List (String × Schema)} {ms : List (String × Json)}
    (h : (exactObject ss).isMet (.object ms) = true) {name : String} {s : Schema} {w : Json}
    (hs : (name, s) ∈ ss) (hw : Json.lookup? name ms = some w) : s.isMet w = true := by
  rw [exactObject, isMet_all] at h
  have hproperties := List.all_eq_true.1 h (properties ss) (by simp)
  rw [isMet_eq_asks] at hproperties
  have hmember := List.all_eq_true.1 hproperties _ hs
  rwa [Json.member?, hw] at hmember

/-- A value with another text where an object has a fixed one does not meet the schema. -/
theorem isMet_of_other_const {ss : List (String × Schema)} {v : Json} {name s t : String}
    (hs : (name, const s) ∈ ss) (hv : v.member? name = some (.string t)) (hne : t ≠ s) :
    (exactObject ss).isMet v = false := by
  cases v with
  | object ms =>
    refine Bool.eq_false_of_not_eq_true fun h => ?_
    have hconst := isMet_member h hs hv
    rw [isMet_const] at hconst
    exact hne (by simpa [isOneOf] using hconst)
  | _ => cases hv

end Schema

/-! ## Agreeing with a shape and a schema -/

/-- **A given value agrees with a shape and a schema**: it conforms to the shape, as a value that
meets the schema. -/
structure Agrees (shape : Shape) (schema : Schema) (given v : Json) : Prop where
  conforms : shape.conform given = .ok v
  met : schema.isMet v = true

/-- The members of a record side by side with its fields and with the members of a schema: a member
is given, or has the default of its field. -/
inductive Aligned (given : List (String × Json)) : List (String × Shape × Option Json) →
    List (String × Schema) → List (String × Json) → Prop
  | nil : Aligned given [] [] []
  | given {name : String} {shape : Shape} {default : Option Json} {schema : Schema} {w v : Json}
      {fs : List (String × Shape × Option Json)} {ss : List (String × Schema)}
      {ms : List (String × Json)} : Json.lookup? name given = some w → Agrees shape schema w v →
      Aligned given fs ss ms →
      Aligned given ((name, shape, default) :: fs) ((name, schema) :: ss) ((name, v) :: ms)
  | default {name : String} {shape : Shape} {schema : Schema} {v : Json}
      {fs : List (String × Shape × Option Json)} {ss : List (String × Schema)}
      {ms : List (String × Json)} : Json.lookup? name given = none → schema.isMet v = true →
      Aligned given fs ss ms →
      Aligned given ((name, shape, some v) :: fs) ((name, schema) :: ss) ((name, v) :: ms)

namespace Aligned

variable {given : List (String × Json)} {fs : List (String × Shape × Option Json)}
  {ss : List (String × Schema)} {ms : List (String × Json)}

theorem conformFields_eq (h : Aligned given fs ss ms) :
    Shape.conformFields fs given = .ok ms := by
  induction h with
  | nil => rfl
  | given hw hv _ ih =>
    exact Shape.conformFields_cons_eq_ok_iff.2 ⟨_, _, .inl ⟨_, hw, hv.conforms⟩, ih, rfl⟩
  | default hnone _ _ ih =>
    exact Shape.conformFields_cons_eq_ok_iff.2 ⟨_, _, .inr ⟨hnone, rfl⟩, ih, rfl⟩

theorem map_fst_eq (h : Aligned given fs ss ms) : ss.map (·.1) = ms.map (·.1) := by
  induction h with
  | nil => rfl
  | given _ _ _ ih | default _ _ _ ih => exact congrArg (_ :: ·) ih

/-- Every schema member has a member that meets it. -/
theorem exists_member (h : Aligned given fs ss ms) {m : String × Schema} (hm : m ∈ ss) :
    ∃ v, (m.1, v) ∈ ms ∧ m.2.isMet v = true := by
  induction h with
  | nil => cases hm
  | given _ hv _ ih =>
    rcases List.mem_cons.1 hm with rfl | hm
    · exact ⟨_, List.mem_cons_self .., hv.met⟩
    · obtain ⟨v, hmem, hmet⟩ := ih hm
      exact ⟨v, List.mem_cons_of_mem _ hmem, hmet⟩
  | default _ hv _ ih =>
    rcases List.mem_cons.1 hm with rfl | hm
    · exact ⟨_, List.mem_cons_self .., hv⟩
    · obtain ⟨v, hmem, hmet⟩ := ih hm
      exact ⟨v, List.mem_cons_of_mem _ hmem, hmet⟩

end Aligned

theorem Json.lookup?_of_mem {ms : List (String × Json)} (hnames : (ms.map (·.1)).Nodup)
    {name : String} {v : Json} (h : (name, v) ∈ ms) : lookup? name ms = some v := by
  induction ms with
  | nil => cases h
  | cons m ms ih =>
    rw [List.map_cons, List.nodup_cons] at hnames
    rw [lookup?]
    rcases List.mem_cons.1 h with rfl | h
    · rw [List.find?_cons_of_pos (by simp)]
      rfl
    · have hne : m.1 ≠ name := by
        rintro rfl
        exact hnames.1 (List.mem_map_of_mem (f := (·.1)) h)
      rw [List.find?_cons_of_neg (by simpa using hne)]
      exact ih hnames.2 h

/-- **A record agrees with its shape and its schema as soon as its members do.** -/
theorem agrees_record {given : List (String × Json)} {fs : List (String × Shape × Option Json)}
    {ss : List (String × Schema)} {ms : List (String × Json)} (h : Aligned given fs ss ms)
    (hnames : (ms.map (·.1)).Nodup) :
    Agrees (.record fs) (.exactObject ss) (.object given) (.object ms) where
  conforms := Shape.conform_eq_ok_iff.2 (.record h.conformFields_eq)
  met := by
    rw [Schema.isMet_exactObject h.map_fst_eq]
    refine List.all_eq_true.2 fun m hm => ?_
    obtain ⟨v, hv, hmet⟩ := h.exists_member hm
    rwa [Json.lookup?_of_mem hnames hv]

/-! ## Values that agree -/

section Values

variable {t : String}

theorem Shape.conform_anyText : Record.anyText.conform (.string t) = .ok (.string t) :=
  conform_eq_ok_iff.2 (.text (Nat.zero_le _) nofun)

theorem agrees_anyText : Agrees Record.anyText Contract.text (.string t) (.string t) :=
  ⟨Shape.conform_anyText, rfl⟩

theorem agrees_someText (h : t ≠ "") :
    Agrees Record.someText Contract.someText (.string t) (.string t) := by
  have hlength : 1 ≤ t.length :=
    Nat.one_le_iff_ne_zero.2 fun hzero => h (String.length_eq_zero_iff.1 hzero)
  refine ⟨Shape.conform_eq_ok_iff.2 (.text hlength nofun), ?_⟩
  simp [Contract.someText, Schema.hasType, hlength]

theorem isMet_formed {p : Text.Pattern} (h : p.fits t.toList = true) :
    (Contract.formed p).isMet (.string t) = true := by
  simp [Contract.formed, Schema.hasType, Text.Pattern.fitsLine, h]

theorem agrees_formed {p : Text.Pattern} (h : p.fits t.toList = true) :
    Agrees (.text 0 (some p)) (Contract.formed p) (.string t) (.string t) := by
  refine ⟨Shape.conform_eq_ok_iff.2 (.text (Nat.zero_le _) fun q hq => ?_), isMet_formed h⟩
  cases hq
  exact h

theorem agrees_choice {options : List String} (h : t ∈ options) :
    Agrees (.choice options) (Contract.choice options) (.string t) (.string t) := by
  refine ⟨Shape.conform_eq_ok_iff.2 (.choice h), ?_⟩
  simp [Contract.choice, Schema.hasType, Schema.isOneOf, h]

theorem Shape.conform_optional {α : Type} {shape : Shape} {f : α → Json} {x : Option α}
    (h : ∀ a ∈ x, shape.conform (f a) = .ok (f a)) :
    (Shape.optional shape).conform (.ofOption f x) = .ok (.ofOption f x) := by
  rw [conform_eq_ok_iff]
  cases x with
  | none => exact .null
  | some a =>
    rw [Json.ofOption]
    by_cases hnull : f a = .null
    · rw [hnull]
      exact .null
    · exact .optional hnull (h a rfl)

/-- A value that agrees, or null. -/
theorem agrees_orNull {α : Type} {shape : Shape} {schema : Schema} {f : α → Json} {x : Option α}
    (hnull : schema.isMet .null = false) (h : ∀ a ∈ x, Agrees shape schema (f a) (f a)) :
    Agrees (.optional shape) (.orNull schema) (.ofOption f x) (.ofOption f x) := by
  refine ⟨Shape.conform_optional fun a ha => (h a ha).conforms, ?_⟩
  rw [Schema.isMet_orNull schema hnull]
  cases x with
  | none => rfl
  | some a => rw [Json.ofOption, (h a rfl).met, Bool.or_true]

theorem isMet_arrayOf {schema : Schema} {vs : List Json} (h : ∀ v ∈ vs, schema.isMet v = true) :
    (Contract.arrayOf schema).isMet (.array vs) = true := by
  rw [Contract.arrayOf, Schema.isMet_all]
  simp [Schema.hasType, List.all_eq_true.2 h]

theorem agrees_list {item : Shape} {schema : Schema} {vs : List Json}
    (h : ∀ v ∈ vs, Agrees item schema v v) :
    Agrees (.list item) (Contract.arrayOf schema) (.array vs) (.array vs) := by
  have hitems : vs.map item.conform = vs.map .ok :=
    List.map_congr_left fun v hv => (h v hv).conforms
  exact ⟨Shape.conform_eq_ok_iff.2 (.list hitems), isMet_arrayOf fun v hv => (h v hv).met⟩

theorem agrees_strings (ss : List String) :
    Agrees (.list Record.anyText) (Contract.arrayOf Contract.text) (.strings ss) (.strings ss) := by
  refine agrees_list fun v hv => ?_
  obtain ⟨t, -, rfl⟩ := List.mem_map.1 hv
  exact agrees_anyText

/-- A count that may be missing. -/
theorem agrees_count {α : Type} {f : α → ℤ} {x : Option α} (h : ∀ a ∈ x, 0 ≤ f a) :
    Agrees (.optional Record.countShape) Contract.countOrNull
      (.ofOption (fun a => .int (f a)) x) (.ofOption (fun a => .int (f a)) x) := by
  refine ⟨Shape.conform_optional fun a ha => ?_, ?_⟩
  · have hnot : ¬ f a < 0 := not_lt.2 (h a ha)
    exact Shape.conform_eq_ok_iff.2 (.integer rfl (by simp [IntRange.violation?, hnot]))
  · cases x with
    | none => rfl
    | some a =>
      simpa [Contract.countOrNull, Json.ofOption, Schema.hasType, Schema.isBelow] using h a rfl

theorem agrees_textOrNull (x : Option String) :
    Agrees (.optional Record.anyText) Contract.textOrNull (.ofOption .string x)
      (.ofOption .string x) := by
  refine ⟨Shape.conform_optional fun t _ => Shape.conform_anyText, ?_⟩
  cases x <;> rfl

theorem agrees_booleanOrNull (x : Option Bool) :
    Agrees (.optional .boolean) (.type [.boolean, .null]) (.ofOption .bool x)
      (.ofOption .bool x) := by
  refine ⟨Shape.conform_optional fun b _ => Shape.conform_eq_ok_iff.2 (.boolean rfl), ?_⟩
  cases x <;> rfl

end Values

end Roundoff
