import Roundoff.Numeral.Basic
import Roundoff.Text.Digit
import Roundoff.Text.Quoted

/-! # Reading integers

An integer text is an optional sign followed by decimal digits of any script; single
underscores may stand between digits, and spaces around the whole are ignored.  A text of any
length is trimmed of all blanks first, and one longer than a thousand characters is read in
pieces: the sign is taken off and the rest, which must be
digits throughout, is cut in half until the pieces are short enough.  The long form therefore
knows no underscores, and it trims what follows the sign once more.
-/
namespace Roundoff.Numeral

-- A power with a natural exponent is the core library's, whatever else is in scope.
attribute [local instance (2000)] instPowNat

/-- Why a text is not read as an integer. -/
inductive ReadError where
  /-- A text, or a piece of one, that is not an integer. -/
  | malformed (piece : List Char)
  /-- A long text with something other than digits after its sign. -/
  | notDigits (length : Nat)
  deriving DecidableEq, Repr

/-- How much of a malformed text its message quotes. -/
def quotedLimit : Nat := 200

/-- The message for a text that is not an integer. -/
def ReadError.message : ReadError → String
  | .malformed piece =>
    "invalid literal for int() with base 10: "
      ++ String.ofList ((Text.quoteChars piece).take quotedLimit)
  | .notDigits length => "invalid decimal integer of " ++ text length ++ " characters"

/-- The digits of a non-empty digit string in which single underscores may separate digits. -/
def digitGroups? : List Char → Option (List Nat)
  | [] => none
  | [c] => (Text.digitValue? c).map ([·])
  | c :: '_' :: rest => do
    let d ← Text.digitValue? c
    let ds ← digitGroups? rest
    return d :: ds
  | c :: rest => do
    let d ← Text.digitValue? c
    let ds ← digitGroups? rest
    return d :: ds

/-- The number whose decimal digits, most significant first, are given. -/
def ofDigitValues (ds : List Nat) : Nat :=
  ds.foldl (fun n d => 10 * n + d) 0

/-- The natural number of a digit string, if it can be read in one piece. -/
def digitString? (cs : List Char) : Option Nat := do
  let ds ← digitGroups? cs
  if ds.length ≤ quotableDigits then return ofDigitValues ds else none

/-- An integer text read in one piece. -/
def readPiece? (cs : List Char) : Option Int :=
  match Text.trimSpaces cs with
  | '+' :: rest => (digitString? rest).map Int.ofNat
  | '-' :: rest => (digitString? rest).map (- Int.ofNat ·)
  | rest => (digitString? rest).map Int.ofNat

theorem length_dropWhile_le (p : Char → Bool) (cs : List Char) :
    (cs.dropWhile p).length ≤ cs.length :=
  (List.dropWhile_suffix p).length_le

theorem length_trim_le (cs : List Char) : (Text.trim cs).length ≤ cs.length := by
  rw [Text.trim, Text.trimAll, List.length_reverse]
  exact Nat.le_trans (length_dropWhile_le ..)
    (by rw [List.length_reverse]; exact length_dropWhile_le ..)

/-- An integer text of any length. -/
def read (cs : List Char) : Except ReadError Int :=
  let t := Text.trim cs
  have htrim : t.length ≤ cs.length := length_trim_le cs
  if hshort : t.length ≤ pieceDigits then
    match readPiece? t with
    | some i => .ok i
    | none => .error (.malformed t)
  else
    have : pieceDigits = 1000 := rfl
    have hpos : 0 < t.length := by omega
    if t.head? = some '+' then
      have : t.tail.length < cs.length := by rw [List.length_tail]; omega
      read t.tail
    else if t.head? = some '-' then
      have : t.tail.length < cs.length := by rw [List.length_tail]; omega
      (read t.tail).map (- ·)
    else if t.all Text.isDigitLike then
      let split := t.length / 2
      have : (t.take (t.length - split)).length < cs.length := by rw [List.length_take]; omega
      have : (t.drop (t.length - split)).length < cs.length := by rw [List.length_drop]; omega
      match read (t.take (t.length - split)), read (t.drop (t.length - split)) with
      | .error e, _ => .error e
      | .ok _, .error e => .error e
      | .ok high, .ok low => .ok (high * 10 ^ split + low)
    else .error (.notDigits t.length)
termination_by cs.length
decreasing_by all_goals assumption

example : readPiece? " -1_2".toList = some (-12) := by decide +kernel

example : readPiece? "1__2".toList = none := by decide +kernel

end Roundoff.Numeral
