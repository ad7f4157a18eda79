import Roundoff.Json.Basic
import Roundoff.Numeral.Basic
import Roundoff.Text.Pattern

/-! # Schemas

The part of JSON Schema that a contract on records needs.  A schema is a condition or several
conditions together; a condition that does not apply to the type of a value holds.  All
conditions are checked on their own, and each violation is reported with the path to the value
and the keyword of the condition.
-/
namespace Roundoff

/-- The types a schema distinguishes. -/
inductive JsonType where
  | null
  | boolean
  | integer
  | string
  | array
  | object
  deriving DecidableEq, Repr

/-- The keywords of conditions. -/
inductive Keyword where
  | type
  | required
  | additionalProperties
  | const
  | enum
  | pattern
  | minLength
  | minimum
  | oneOf
  deriving DecidableEq, Repr

/-- The name of a keyword. -/
def Keyword.name : Keyword → String
  | type => "type"
  | required => "required"
  | additionalProperties => "additionalProperties"
  | const => "const"
  | enum => "enum"
  | pattern => "pattern"
  | minLength => "minLength"
  | minimum => "minimum"
  | oneOf => "oneOf"

/-- A condition on JSON values. -/
inductive Schema where
  /-- All of some conditions. -/
  | all (parts : List Schema)
  /-- The value has one of some types. -/
  | type (types : List JsonType)
  /-- An object has these members. -/
  | required (names : List String)
  /-- An object has no other members than these. -/
  | closed (names : List String)
  /-- Members of an object meet conditions of their own. -/
  | properties (members : List (String × Schema))
  /-- Every item of an array meets a condition. -/
  | items (item : Schema)
  /-- The value is a given string. -/
  | const (text : String)
  /-- The value is one of some strings. -/
  | enum (texts : List String)
  /-- A string has a form; a final line break does not count. -/
  | pattern (form : Text.Pattern)
  /-- A string has at least this many characters. -/
  | minLength (n : Nat)
  /-- A number is not below this. -/
  | minimum (n : Int)
  /-- The value meets exactly one of some conditions. -/
  | oneOf (branches : List Schema)

/-- A violated condition, with the path to the value. -/
structure Violation where
  path : List String
  keyword : Keyword
  deriving DecidableEq, Repr

namespace Schema

/-- A value has a type.  A float with an integral value is an integer, and a boolean is none. -/
def hasType : Json → JsonType → Bool
  | .null, .null => true
  | .bool _, .boolean => true
  | .int _, .integer => true
  | .float x, .integer => x.isFinite && x.toRat.den == 1
  | .string _, .string => true
  | .array _, .array => true
  | .object _, .object => true
  | _, _ => false

/-- A value is a number below a bound. -/
def isBelow (n : Int) : Json → Bool
  | .int i => decide (i < n)
  | .float x =>
    if x.isNaN then false
    else if x.isInfinite then x.negative
    else decide (x.toRat < n)
  | _ => false

/-- A value is one of some strings. -/
def isOneOf (texts : List String) : Json → Bool
  | .string s => texts.contains s
  | _ => false

/-- The violation of a condition that fails. -/
def expect (holds : Bool) (keyword : Keyword) : List Violation :=
  if holds then [] else [⟨[], keyword⟩]

/-- The violations in a part, seen from the whole. -/
def within (step : String) (vs : List Violation) : List Violation :=
  vs.map fun v => { v with path := step :: v.path }

mutual

/-- The violations of a schema by a value. -/
def violations : Schema → Json → List Violation
  | all parts, v => violationsAll parts v
  | type types, v => expect (types.any (hasType v)) .type
  | required names, v =>
    match v with
    | .object members =>
      expect (names.all fun n => (Json.lookup? n members).isSome) .required
    | _ => []
  | closed names, v =>
    match v with
    | .object members => expect (members.all fun m => names.contains m.1) .additionalProperties
    | _ => []
  | properties members, v => violationsOf members v
  | items item, v =>
    match v with
    | .array vs =>
      (vs.map (violations item)).zipIdx.flatMap fun (ws, i) => within (Numeral.text i) ws
    | _ => []
  | const text, v => expect (isOneOf [text] v) .const
  | enum texts, v => expect (isOneOf texts v) .enum
  | pattern form, v =>
    match v with
    | .string s => expect (form.fitsLine s.toList) .pattern
    | _ => []
  | minLength n, v =>
    match v with
    | .string s => expect (decide (n ≤ s.length)) .minLength
    | _ => []
  | minimum n, v => expect (!isBelow n v) .minimum
  | oneOf branches, v => expect (decide (metCount branches v = 1)) .oneOf

/-- The violations of several schemas by a value. -/
def violationsAll : List Schema → Json → List Violation
  | [], _ => []
  | s :: ss, v => violations s v ++ violationsAll ss v

/-- The violations by the members of an object. -/
def violationsOf : List (String × Schema) → Json → List Violation
  | [], _ => []
  | (name, s) :: ms, v =>
    (match v.member? name with
      | some w => within name (violations s w)
      | none => []) ++ violationsOf ms v

/-- How many of several schemas a value meets. -/
def metCount : List Schema → Json → Nat
  | [], _ => 0
  | s :: ss, v => (if (violations s v).isEmpty then 1 else 0) + metCount ss v

end

/-- The value meets the schema. -/
def isMet (s : Schema) (v : Json) : Bool :=
  (violations s v).isEmpty

/-- An object with exactly the given members, each with its schema. -/
def exactObject (members : List (String × Schema)) : Schema :=
  let names := members.map (·.1)
  .all [.type [.object], .closed names, .required names, .properties members]

/-- A value that meets a schema, or null. -/
def orNull (s : Schema) : Schema :=
  .oneOf [s, .type [.null]]

end Schema

end Roundoff
