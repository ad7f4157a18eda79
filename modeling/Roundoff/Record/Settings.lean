import Roundoff.Record.Shapes

/-! # Settings as records

Settings are given as an object with one member a limit.  Limits are positive, and the nesting
depth has a ceiling; format and rounding mode are fixed and can only be confirmed.
-/
namespace Roundoff.Record

/-- A positive limit with its default. -/
def limit (name : String) (default : Nat) (atMost : Option Int := none) :
    String × Shape × Option Json :=
  (name, .integer { above := some 0, atMost }, some (.nat default))

/-- The default settings. -/
def defaultSettings : Settings := {}

/-- The record of settings, apart from the symbol table. -/
def settingsShape : Shape := .record [
  fixed "float_format" Settings.floatFormat,
  fixed "rounding_mode" Settings.roundingMode,
  limit "max_input_length" defaultSettings.maxInputLength,
  limit "max_depth" defaultSettings.maxDepth (some Settings.depthCeiling),
  limit "max_nodes" defaultSettings.maxNodes,
  limit "max_exponent" defaultSettings.maxExponent,
  limit "max_literal_exponent" defaultSettings.maxLiteralExponent,
  limit "max_rational_bits" defaultSettings.maxRationalBits]

/-- A limit of a conforming record. -/
def limitOf (name : String) (v : Json) : Nat :=
  match v.member? name with
  | some (.int i) => i.toNat
  | _ => 0

/-- The settings that an object of limits gives, with a symbol table. -/
def settingsOf (symbols : SymbolTable) (v : Json) : Except (List Problem) Settings :=
  (settingsShape.conform v).map fun r => {
    maxInputLength := limitOf "max_input_length" r
    maxDepth := limitOf "max_depth" r
    maxNodes := limitOf "max_nodes" r
    maxExponent := limitOf "max_exponent" r
    maxLiteralExponent := limitOf "max_literal_exponent" r
    maxRationalBits := limitOf "max_rational_bits" r
    symbols }

/-- The record of settings. -/
def ofSettings (s : Settings) : Json := .object [
  ("float_format", .string Settings.floatFormat),
  ("rounding_mode", .string Settings.roundingMode),
  ("max_input_length", .nat s.maxInputLength),
  ("max_depth", .nat s.maxDepth),
  ("max_nodes", .nat s.maxNodes),
  ("max_exponent", .nat s.maxExponent),
  ("max_literal_exponent", .nat s.maxLiteralExponent),
  ("max_rational_bits", .nat s.maxRationalBits)]

end Roundoff.Record
