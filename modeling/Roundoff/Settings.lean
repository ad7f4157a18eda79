import Roundoff.Symbols

/-! # Settings

What an evaluation depends on besides the line: the limits that bound the work a line may cause,
and the symbol table.  Going beyond a limit is an error of its own and never changes a result.
-/
namespace Roundoff

/-- The settings of an evaluation. -/
structure Settings where
  /-- The longest accepted line, in characters. -/
  maxInputLength : Nat := 4096
  /-- The deepest accepted nesting of expressions. -/
  maxDepth : Nat := 128
  /-- The most nodes a tree may have. -/
  maxNodes : Nat := 1024
  /-- The largest exponent of a power, in absolute value. -/
  maxExponent : Nat := 4096
  /-- The largest power-of-ten exponent of a literal, in absolute value. -/
  maxLiteralExponent : Nat := 4096
  /-- The most binary digits the numerator or denominator of an exact value may have. -/
  maxRationalBits : Nat := 1048576
  /-- The constants and functions. -/
  symbols : SymbolTable := SymbolTable.default

namespace Settings

/-- No settings admit a deeper nesting than this. -/
def depthCeiling : Nat := 256

/-- The limits of settings are positive, and the depth keeps its ceiling. -/
structure WithinBounds (s : Settings) : Prop where
  inputLength : 0 < s.maxInputLength
  depth : 0 < s.maxDepth
  depth_le : s.maxDepth ≤ depthCeiling
  nodes : 0 < s.maxNodes
  exponent : 0 < s.maxExponent
  literalExponent : 0 < s.maxLiteralExponent
  rationalBits : 0 < s.maxRationalBits

/-- The format that shadows are computed in. -/
def floatFormat : String := "binary64"

/-- How shadows are rounded. -/
def roundingMode : String := "nearest-even"

end Settings

end Roundoff
