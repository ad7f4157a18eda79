/-! # Blank characters

The characters that separate words: the ASCII controls that move the cursor, the four
information separators, and the Unicode spaces and line breaks.  A text is trimmed by
dropping the blanks at both of its ends.  Around a number the information separators are not
left out.
-/
namespace Roundoff.Text

/-- The blank characters as closed ranges of code points, in increasing order. -/
def blankRanges : List (Nat × Nat) :=
  [(0x09, 0x0D), (0x1C, 0x20), (0x85, 0x85), (0xA0, 0xA0), (0x1680, 0x1680), (0x2000, 0x200A),
    (0x2028, 0x2029), (0x202F, 0x202F), (0x205F, 0x205F), (0x3000, 0x3000)]

/-- A code point lies in one of some closed ranges. -/
def inRanges (ranges : List (Nat × Nat)) (n : Nat) : Bool :=
  ranges.any fun r => decide (r.1 ≤ n) && decide (n ≤ r.2)

/-- A character that separates words. -/
def isBlank (c : Char) : Bool :=
  inRanges blankRanges c.toNat

/-- A blank character that is not one of the four information separators. -/
def isSpace (c : Char) : Bool :=
  isBlank c && !inRanges [(0x1C, 0x1F)] c.toNat

/-- A text without the characters of some kind at its ends. -/
def trimAll (p : Char → Bool) (cs : List Char) : List Char :=
  ((cs.dropWhile p).reverse.dropWhile p).reverse

/-- A text without the blanks at its ends. -/
def trim (cs : List Char) : List Char :=
  trimAll isBlank cs

/-- A text without the spaces at its ends. -/
def trimSpaces (cs : List Char) : List Char :=
  trimAll isSpace cs

@[simp] theorem trim_nil : trim [] = [] := rfl

end Roundoff.Text
