import Roundoff.Numeral.Read

/-! # Integer texts in records

A text may stand where a record has an integer.  A plain numeral, an optional minus sign and
digits without a leading zero, is read as it is.  Any other text is tidied first: blanks around
it, a plus sign, leading zeros with the underscores among them, a fraction of zeros and single
underscores between digits are left out, and what remains has to be a plain numeral.
-/
namespace Roundoff.IntegerText

open Text (isAsciiDigit)

/-- Why a text stands for no integer. -/
inductive Refusal where
  | malformed
  /-- A plain numeral with too many digits, or one at the start of the text. -/
  | tooLong
  deriving DecidableEq, Repr

/-- The most digits that a plain numeral may have. -/
def maxDigits : Nat := 4300

/-- A digit other than zero. -/
def isLeadingDigit (c : Char) : Bool :=
  isAsciiDigit c && c != '0'

/-- The number of a string of ASCII digits. -/
def ofDigits (ds : List Char) : Nat :=
  Numeral.ofDigitValues (ds.map fun c => c.toNat - '0'.toNat)

/-- Read the digits of a plain numeral. -/
def plainDigits : List Char → Except Refusal Nat
  | [] => .error .malformed
  | ['0'] => .ok 0
  | c :: cs =>
    if !isLeadingDigit c then .error .malformed
    else
      let run := (c :: cs).takeWhile isAsciiDigit
      if maxDigits < run.length then .error .tooLong
      else if run.length = (c :: cs).length then .ok (ofDigits run)
      else .error .malformed

/-- Read a plain numeral. -/
def plain : List Char → Except Refusal Int
  | '-' :: cs => (plainDigits cs).map (- Int.ofNat ·)
  | cs => (plainDigits cs).map Int.ofNat

/-- What follows leading zeros and the underscores among them, given the last of them.  A zero
stays where nothing or a point follows, and a minus sign may follow like a digit. -/
def afterZeros (last : Char) : List Char → Option (List Char)
  | [] => some [last]
  | c :: cs =>
    if c = '0' ∨ c = '_' then afterZeros c cs
    else if isLeadingDigit c ∨ c = '-' then some (c :: cs)
    else if c = '.' then some (last :: c :: cs)
    else none

/-- A text of digits without its leading zeros. -/
def dropZeros : List Char → Option (List Char)
  | '0' :: cs => afterZeros '0' cs
  | c :: cs => if isLeadingDigit c then some (c :: cs) else none
  | [] => none

/-- A text without a fraction that has only zeros. -/
def dropFraction (cs : List Char) : List Char :=
  match cs.dropWhile (· != '.') with
  | '.' :: '0' :: zeros => if zeros.all (· == '0') then cs.takeWhile (· != '.') else cs
  | _ => cs

/-- Two underscores stand side by side. -/
def hasDoubleUnderscore : List Char → Bool
  | '_' :: '_' :: _ => true
  | _ :: cs => hasDoubleUnderscore cs
  | [] => false

/-- A text without its underscores, if they only separate other characters. -/
def dropUnderscores (cs : List Char) : List Char :=
  if cs.head? = some '_' ∨ cs.getLast? = some '_' ∨ hasDoubleUnderscore cs then cs
  else cs.filter (· != '_')

/-- A text without sign in its tidy form. -/
def tidyUnsigned (cs : List Char) : Option (List Char) :=
  (dropZeros cs).map fun cs => dropUnderscores (dropFraction cs)

/-- A text in its tidy form. -/
def tidy (cs : List Char) : Option (List Char) :=
  match Text.trimSpaces cs with
  | '+' :: cs => tidyUnsigned cs
  | '-' :: cs => (tidyUnsigned cs).map ('-' :: ·)
  | cs => tidyUnsigned cs

/-- The integer that a text stands for. -/
def read (cs : List Char) : Except Refusal Int :=
  match plain cs with
  | .ok i => .ok i
  | .error .tooLong => .error .tooLong
  | .error .malformed =>
    match tidy cs with
    | none => .error .malformed
    | some cs => (plain cs).mapError fun _ => .malformed

example : (read " +0_1_2.00".toList).toOption = some 12 := by decide +kernel

example : (read "12.".toList).toOption = none := by decide +kernel

end Roundoff.IntegerText
