import Roundoff.Expansion.Basic

/-! # Agreement of expansions

How far the written forms of two expansions agree.  An expansion is written on for ever, its
period repeated or zeros appended, with the point counted as a character.  Two such writings
that agree for twice the longer of the two finite forms never differ, so a search of this length
decides.
-/
namespace Roundoff.Expansion

/-- The first `n` characters of the digits continued for ever: the period repeated, or zeros. -/
def continuation (e : Expansion) (n : Nat) : List Char :=
  if e.isRepeating then
    let period := (digitChars e.repeating).toArray
    (List.range n).map fun i => period.getD (i % period.size) '0'
  else List.replicate n '0'

/-- The first `n` characters of the unending form without its sign. -/
def symbols (e : Expansion) (n : Nat) : List Char :=
  (Numeral.integer e.whole ++ '.' :: digitChars e.fixed ++ e.continuation n).take n

/-- The length of the finite part of the unending form, with one period. -/
def length (e : Expansion) : Nat :=
  (Numeral.integer e.whole).length + 1 + e.fixed.length + e.repeating.length

/-- The first place where two texts differ. -/
def firstDifference? : List Char → List Char → Option Nat
  | a :: as, b :: bs => if a = b then (firstDifference? as bs).map (· + 1) else some 0
  | _, _ => none

/-- The length of the longest common beginning of two expansions in their unending forms; none
if they are the same.  Expansions of different signs share nothing, and those whose whole parts
differ in width share at most the sign.  Beyond the digits of a truncated expansion zeros are
compared, and if these agree too the length searched is the answer. -/
def commonPrefixLength? (x y : Expansion) : Option Nat :=
  let sign := if x.negative then 1 else 0
  if x.negative ≠ y.negative then some 0
  else if x = y ∧ !x.truncated then none
  else if (Numeral.integer x.whole).length ≠ (Numeral.integer y.whole).length then some sign
  else
    let bound := 2 * Nat.max x.length y.length
    match firstDifference? (x.symbols bound) (y.symbols bound) with
    | some i => some (i + sign)
    | none => if x.truncated || y.truncated then some (bound + sign) else none

/-- A text filled up with zeros on the right to a given width. -/
def padZerosRight (width : Nat) (cs : List Char) : List Char :=
  cs ++ List.replicate (width - cs.length) '0'

/-- The text of an approximation, cut where it stops agreeing with the truth.  Agreement beyond
the end of the text means that its digits go on as zeros: those that agree are written out, and
the rest is shown as `(0...)`. -/
def splitCorrect (approx truth : Expansion) : String × String :=
  let cs := approx.chars
  let cut (n : Nat) : String × String := (String.ofList (cs.take n), String.ofList (cs.drop n))
  match approx.commonPrefixLength? truth with
  | none => (approx.text, "")
  | some n =>
    if approx.truncated then cut (Nat.min n (cs.length - 3))
    else if n < cs.length then cut n
    else
      let padded := if approx.isInteger then cs ++ ['.'] else cs
      (String.ofList (padZerosRight n padded), "(0...)")

end Roundoff.Expansion
