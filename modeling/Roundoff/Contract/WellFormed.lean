import Roundoff.Json.Basic
import Roundoff.Text.Digit

/-! # Well-formed schema documents

Which JSON documents are schemas at all.  A schema is a boolean or an object, and each keyword
of the vocabulary constrains its own value: a type name is one of seven, a size is not negative,
the names of required members are distinct strings, and so on.  Unknown keywords may have any
value.
-/
namespace Roundoff.Contract

/-- The names of the types. -/
def typeNames : List String :=
  ["array", "boolean", "integer", "null", "number", "object", "string"]

/-- What the value of a keyword must be. -/
inductive KeywordValue where
  | string
  | identifier
  | anchor
  | boolean
  | number
  | positiveNumber
  | size
  | array
  | distinctStrings
  | typeNames
  | schema
  | schemas
  | schemaTable
  | stringsTable
  | booleanTable
  | dependencies
  deriving DecidableEq, Repr

/-- The keywords that constrain their value. -/
def keywordValues : List (String × KeywordValue) := [
  ("$id", .identifier), ("$schema", .string), ("$ref", .string), ("$anchor", .anchor),
  ("$dynamicRef", .string), ("$dynamicAnchor", .anchor), ("$comment", .string),
  ("$recursiveAnchor", .anchor), ("$recursiveRef", .string),
  ("title", .string), ("description", .string), ("pattern", .string), ("format", .string),
  ("contentEncoding", .string), ("contentMediaType", .string),
  ("deprecated", .boolean), ("readOnly", .boolean), ("writeOnly", .boolean),
  ("uniqueItems", .boolean),
  ("maximum", .number), ("minimum", .number), ("exclusiveMaximum", .number),
  ("exclusiveMinimum", .number), ("multipleOf", .positiveNumber),
  ("maxLength", .size), ("minLength", .size), ("maxItems", .size), ("minItems", .size),
  ("maxContains", .size), ("minContains", .size), ("maxProperties", .size),
  ("minProperties", .size),
  ("enum", .array), ("examples", .array),
  ("required", .distinctStrings), ("type", .typeNames),
  ("items", .schema), ("contains", .schema), ("additionalProperties", .schema),
  ("propertyNames", .schema), ("if", .schema), ("then", .schema), ("else", .schema),
  ("not", .schema), ("unevaluatedItems", .schema), ("unevaluatedProperties", .schema),
  ("contentSchema", .schema),
  ("prefixItems", .schemas), ("allOf", .schemas), ("anyOf", .schemas), ("oneOf", .schemas),
  ("properties", .schemaTable), ("patternProperties", .schemaTable),
  ("dependentSchemas", .schemaTable), ("$defs", .schemaTable), ("definitions", .schemaTable),
  ("dependentRequired", .stringsTable), ("$vocabulary", .booleanTable),
  ("dependencies", .dependencies)]

/-- What the value of a keyword must be, if the keyword is known. -/
def keywordValue? (name : String) : Option KeywordValue :=
  (keywordValues.find? fun k => k.1 == name).map (·.2)

/-- No two strings of a list coincide. -/
def allDistinct : List String → Bool
  | [] => true
  | s :: ss => !ss.contains s && allDistinct ss

/-- An array of strings, if the value is one. -/
def asStrings? : Json → Option (List String)
  | .array vs => vs.mapM fun
    | .string s => some s
    | _ => none
  | _ => none

/-- An array of distinct strings. -/
def isDistinctStrings (v : Json) : Bool :=
  (asStrings? v).any allDistinct

/-- A type name or a non-empty array of distinct ones. -/
def isTypeNames : Json → Bool
  | .string s => typeNames.contains s
  | v => (asStrings? v).any fun ss => !ss.isEmpty && ss.all typeNames.contains && allDistinct ss

/-- A number. -/
def isNumber : Json → Bool
  | .int _ => true
  | .float _ => true
  | _ => false

/-- A number that is not zero or below. -/
def isPositive : Json → Bool
  | .int i => decide (0 < i)
  | .float x => x.isNaN || (!x.negative && !x.isZero)
  | _ => false

/-- A whole number that is not negative. -/
def isSize : Json → Bool
  | .int i => decide (0 ≤ i)
  | .float x => x.isFinite && x.toRat.den == 1 && decide (0 ≤ x.toRat.num)
  | _ => false

/-- A boolean. -/
def isBoolean : Json → Bool
  | .bool _ => true
  | _ => false

/-- A string. -/
def isString : Json → Bool
  | .string _ => true
  | _ => false

/-- Nothing, or one line break. -/
def isLineEnd (cs : List Char) : Bool :=
  cs.isEmpty || cs == ['\n']

/-- A string in which nothing follows a number sign. -/
def isIdentifier : Json → Bool
  | .string s => isLineEnd ((s.toList.dropWhile (· != '#')).drop 1)
  | _ => false

/-- An ASCII letter or an underscore. -/
def isAnchorStart (c : Char) : Bool :=
  c.isAlpha || c == '_'

/-- An ASCII letter or digit, or one of the marks that an anchor may hold after its start. -/
def isAnchorRest (c : Char) : Bool :=
  isAnchorStart c || Text.isAsciiDigit c || c == '-' || c == '.'

/-- The name of an anchor. -/
def isAnchor : Json → Bool
  | .string s =>
    match s.toList with
    | c :: cs => isAnchorStart c && isLineEnd (cs.dropWhile isAnchorRest)
    | [] => false
  | _ => false

/-- An array. -/
def isArray : Json → Bool
  | .array _ => true
  | _ => false

mutual

/-- The document is a schema. -/
def isSchema : Json → Bool
  | .bool _ => true
  | .object members => areKeywords members
  | _ => false

/-- Every keyword has a value it may have. -/
def areKeywords : List (String × Json) → Bool
  | [] => true
  | (name, v) :: ms =>
    (match keywordValue? name with
      | none => true
      | some .string => isString v
      | some .identifier => isIdentifier v
      | some .anchor => isAnchor v
      | some .boolean => isBoolean v
      | some .number => isNumber v
      | some .positiveNumber => isPositive v
      | some .size => isSize v
      | some .array => isArray v
      | some .distinctStrings => isDistinctStrings v
      | some .typeNames => isTypeNames v
      | some .schema => isSchema v
      | some .schemas =>
        match v with
        | .array vs => !vs.isEmpty && areSchemas vs
        | _ => false
      | some .schemaTable =>
        match v with
        | .object table => areSchemasOf table
        | _ => false
      | some .stringsTable =>
        match v with
        | .object table => table.all fun m => isDistinctStrings m.2
        | _ => false
      | some .booleanTable =>
        match v with
        | .object table => table.all fun m => isBoolean m.2
        | _ => false
      | some .dependencies =>
        match v with
        | .object table => areDependencies table
        | _ => false) && areKeywords ms

/-- Every document is a schema. -/
def areSchemas : List Json → Bool
  | [] => true
  | v :: vs => isSchema v && areSchemas vs

/-- Every member is a schema. -/
def areSchemasOf : List (String × Json) → Bool
  | [] => true
  | (_, v) :: ms => isSchema v && areSchemasOf ms

/-- Every member is a schema or an array of distinct strings. -/
def areDependencies : List (String × Json) → Bool
  | [] => true
  | (_, v) :: ms => (isDistinctStrings v || isSchema v) && areDependencies ms

end

end Roundoff.Contract
