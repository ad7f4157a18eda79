import Roundoff.Binary64.Rounding
import Roundoff.Json.Basic
import Roundoff.Text.Digit
import Roundoff.Decimal
import Roundoff.Numeral.Read

/-! # Reading JSON

A recursive-descent reader.  Besides the standard's values it knows the number names `NaN`,
`Infinity` and `-Infinity`.  Of members with the same name the last one counts, in the place of
the first.  An integer with too many digits is refused as soon as it is met.
-/
namespace Roundoff.Json

/-- Why a text is not read as JSON. -/
inductive ReadError where
  | malformed
  /-- An integer has more digits than are read. -/
  | integerTooLong
  deriving DecidableEq, Repr

/-- What a part of the reader found, or else a malformed text. -/
def expected {α : Type} : Option α → Except ReadError α
  | some a => .ok a
  | none => .error .malformed

/-- The four blanks that JSON allows between tokens. -/
def isSpace (c : Char) : Bool :=
  c == ' ' || c == '\t' || c == '\n' || c == '\r'

/-- A text without the blanks at its start. -/
def skipSpace (cs : List Char) : List Char :=
  cs.dropWhile isSpace

/-- The value of a hexadecimal digit. -/
def hexValue? (c : Char) : Option Nat :=
  if '0' ≤ c ∧ c ≤ '9' then some (c.toNat - 48)
  else if 'a' ≤ c ∧ c ≤ 'f' then some (c.toNat - 87)
  else if 'A' ≤ c ∧ c ≤ 'F' then some (c.toNat - 55)
  else none

/-- Four hexadecimal digits and what follows them. -/
def hex4? : List Char → Option (Nat × List Char)
  | a :: b :: c :: d :: rest => do
    let a ← hexValue? a
    let b ← hexValue? b
    let c ← hexValue? c
    let d ← hexValue? d
    return (((a * 16 + b) * 16 + c) * 16 + d, rest)
  | _ => none

/-- The character of a single-letter escape. -/
def escaped? (c : Char) : Option Char :=
  match c with
  | '"' => some '"'
  | '\\' => some '\\'
  | '/' => some '/'
  | 'b' => some '\x08'
  | 'f' => some '\x0c'
  | 'n' => some '\n'
  | 'r' => some '\r'
  | 't' => some '\t'
  | _ => none

/-- The character of a `\u` escape, whose first four digits have been read.  A high surrogate
takes the low surrogate after it; a surrogate without partner has no character and reads as the
replacement character. -/
def unicodeEscape (n : Nat) (rest : List Char) : Char × List Char :=
  if 0xD800 ≤ n ∧ n < 0xDC00 then
    match rest with
    | '\\' :: 'u' :: more =>
      match hex4? more with
      | some (m, after) =>
        if 0xDC00 ≤ m ∧ m < 0xE000 then
          (Char.ofNat (0x10000 + (n - 0xD800) * 0x400 + (m - 0xDC00)), after)
        else ('\uFFFD', rest)
      | none => ('\uFFFD', rest)
    | _ => ('\uFFFD', rest)
  else if 0xDC00 ≤ n ∧ n < 0xE000 then ('\uFFFD', rest)
  else (Char.ofNat n, rest)

/-- The rest of a string after its opening quote, in reverse, and what follows the closing
one. -/
def stringBody? : Nat → List Char → List Char → Option (String × List Char)
  | 0, _, _ => none
  | _ + 1, _, [] => none
  | fuel + 1, acc, c :: rest =>
    if c = '"' then some (String.ofList acc.reverse, rest)
    else if c = '\\' then
      match rest with
      | 'u' :: more => do
        let (n, after) ← hex4? more
        let (d, after) := unicodeEscape n after
        stringBody? fuel (d :: acc) after
      | e :: more => do
        let d ← escaped? e
        stringBody? fuel (d :: acc) more
      | [] => none
    else if c.toNat < 0x20 then none
    else stringBody? fuel (c :: acc) rest

/-- Beyond this power of ten every number is infinite or zero. -/
def exponentCutoff : Int := 400

/-- The binary64 value of a decimal. -/
def floatOf (negative : Bool) (x : Decimal) : Binary64 :=
  let top := Decimal.digitCount x.coefficient + x.exponent
  if x.coefficient = 0 ∨ top < -exponentCutoff then Binary64.zero negative
  else if exponentCutoff < top then Binary64.infinity negative
  else
    ⟨negative, Binary64.roundMagnitude x.numerator x.denominator,
      Nat.lt_of_le_of_lt (Binary64.roundMagnitude_le ..) (by decide)⟩

/-- The natural number of some ASCII digits. -/
def digitsValue (cs : List Char) : Nat :=
  cs.foldl (fun n c => 10 * n + (c.toNat - 48)) 0

/-- The fraction of a number after its point, and what follows it. -/
def fraction? : List Char → Option (List Char × List Char)
  | '.' :: cs =>
    let ds := cs.takeWhile Text.isAsciiDigit
    if ds.isEmpty then none else some (ds, cs.dropWhile Text.isAsciiDigit)
  | _ => none

/-- The exponent of a number, and what follows it. -/
def exponent? : List Char → Option (Int × List Char)
  | c :: cs =>
    if c = 'e' ∨ c = 'E' then
      let (negative, cs) := match cs with
        | '-' :: cs => (true, cs)
        | '+' :: cs => (false, cs)
        | cs => (false, cs)
      let ds := cs.takeWhile Text.isAsciiDigit
      if ds.isEmpty then none
      else
        let n : Int := digitsValue ds
        some (if negative then -n else n, cs.dropWhile Text.isAsciiDigit)
    else none
  | [] => none

/-- A number and what follows it. -/
def number (cs : List Char) : Except ReadError (Json × List Char) :=
  let (negative, cs) := match cs with
    | '-' :: cs => (true, cs)
    | cs => (false, cs)
  let whole := match cs with
    | '0' :: _ => ['0']
    | cs => cs.takeWhile Text.isAsciiDigit
  let rest := cs.drop whole.length
  if whole.isEmpty then .error .malformed
  else
    let part := fraction? rest
    let afterPart := (part.map (·.2)).getD rest
    let scale := exponent? afterPart
    let afterScale := (scale.map (·.2)).getD afterPart
    if part.isNone && scale.isNone then
      let n : Int := digitsValue whole
      if Numeral.quotableDigits < whole.length then .error .integerTooLong
      else .ok (.int (if negative then -n else n), rest)
    else
      let ds := (part.map (·.1)).getD []
      let e := (scale.map (·.1)).getD 0
      .ok (.float (floatOf negative ⟨digitsValue (whole ++ ds), e - ds.length⟩), afterScale)

/-- What follows a word at the start of a text. -/
def afterWord? (word : List Char) (cs : List Char) : Option (List Char) :=
  if word.isPrefixOf cs then some (cs.drop word.length) else none

/-- A named value and what follows it. -/
def named? (cs : List Char) : Option (Json × List Char) :=
  [("null", Json.null), ("true", .bool true), ("false", .bool false),
    ("NaN", .float Binary64.nan), ("Infinity", .float (Binary64.infinity false)),
    ("-Infinity", .float (Binary64.infinity true))].findSome? fun (word, v) =>
      (afterWord? word.toList cs).map fun rest => (v, rest)

mutual

/-- A value and what follows it. -/
def value : Nat → List Char → Except ReadError (Json × List Char)
  | 0, _ => .error .malformed
  | fuel + 1, cs =>
    match cs with
    | '"' :: rest =>
      (expected (stringBody? (rest.length + 1) [] rest)).map fun (s, r) => (.string s, r)
    | '[' :: rest =>
      match skipSpace rest with
      | ']' :: after => .ok (.array [], after)
      | rest => (items fuel rest).map fun (vs, r) => (.array vs, r)
    | '{' :: rest =>
      match skipSpace rest with
      | '}' :: after => .ok (.object [], after)
      | rest => (members fuel [] rest).map fun (ms, r) => (.object ms, r)
    | cs =>
      match named? cs with
      | some found => .ok found
      | none => number cs

/-- One or more values separated by commas, and what follows the closing bracket. -/
def items : Nat → List Char → Except ReadError (List Json × List Char)
  | 0, _ => .error .malformed
  | fuel + 1, cs => do
    let (v, rest) ← value fuel (skipSpace cs)
    match skipSpace rest with
    | ',' :: rest =>
      let (vs, rest) ← items fuel (skipSpace rest)
      return (v :: vs, rest)
    | ']' :: rest => return ([v], rest)
    | _ => .error .malformed

/-- One or more members separated by commas, after those already read, and what follows the
closing brace. -/
def members : Nat → List (String × Json) → List Char →
    Except ReadError (List (String × Json) × List Char)
  | 0, _, _ => .error .malformed
  | fuel + 1, seen, cs =>
    match skipSpace cs with
    | '"' :: rest => do
      let (name, rest) ← expected (stringBody? (rest.length + 1) [] rest)
      match skipSpace rest with
      | ':' :: rest =>
        let (v, rest) ← value fuel (skipSpace rest)
        let seen := setMember name v seen
        match skipSpace rest with
        | ',' :: rest => members fuel seen rest
        | '}' :: rest => return (seen, rest)
        | _ => .error .malformed
      | _ => .error .malformed
    | _ => .error .malformed

end

/-- The JSON value that a text writes. -/
def parse (text : String) : Except ReadError Json := do
  let cs := text.toList
  let (v, rest) ← value (cs.length + 1) (skipSpace cs)
  if (skipSpace rest).isEmpty then return v else .error .malformed

end Roundoff.Json
