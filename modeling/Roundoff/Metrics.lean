import Roundoff.Shadow.Basic

/-! # Error metrics

The discrepancy between an exact value and a shadow of it, computed exactly: the shadow is taken
as the rational it denotes.  The unit in the last place is that of the exact value rounded.  A
shadow that is not finite has no numeric error, only a class.
-/
namespace Roundoff

/-- How a shadow relates to the exact value. -/
inductive Accuracy where
  | exact
  | inexact
  | infinite
  | nan
  deriving DecidableEq, Repr

/-- The name of an accuracy class. -/
def Accuracy.name : Accuracy → String
  | exact => "EXACT"
  | inexact => "INEXACT"
  | infinite => "INFINITE"
  | nan => "NAN"

/-- The discrepancy between an exact value and its shadow; what is undefined is absent. -/
structure Metrics where
  accuracy : Accuracy
  absoluteError : Option Rat
  relativeError : Option Rat
  ulpDistance : Option Nat
  ulpError : Option Rat
  correctlyRounded : Option Bool
  deriving DecidableEq, Repr

namespace Metrics

/-- The distance between the exact value and the shadow. -/
def absoluteErrorOf (exact : Rat) (shadow : Binary64) : Except Binary64.NotFinite Rat :=
  shadow.rational.map fun r => Exact.abs (exact - r)

/-- The distance relative to the exact value; undefined for zero. -/
def relativeErrorOf (exact : Rat) (shadow : Binary64) : Except Binary64.NotFinite (Option Rat) :=
  if exact = 0 then .ok none
  else (absoluteErrorOf exact shadow).map fun e => some (e / Exact.abs exact)

/-- The binary64 steps between the exact value, rounded, and the shadow. -/
def ulpDistanceOf (exact : Rat) (shadow : Binary64) : Option Nat :=
  if exact = 0 ∨ !shadow.isFinite then none
  else ((Binary64.ofRat exact).ulpDistance shadow).toOption

/-- The distance in units of the last place of the exact value, rounded; undefined where the
exact value is beyond the finite range. -/
def ulpErrorOf (exact : Rat) (shadow : Binary64) : Option Rat :=
  let unit := (Binary64.ofRat exact).ulp
  if shadow.isFinite && unit.isFinite then
    some (Exact.abs (exact - shadow.toRat) / unit.toRat)
  else none

/-- The class of a shadow. -/
def accuracyOf (exact : Rat) (shadow : Binary64) : Accuracy :=
  if shadow.isNaN then .nan
  else if shadow.isInfinite then .infinite
  else if shadow.toRat = exact then .exact
  else .inexact

/-- All metrics of an exact value and its shadow. -/
def compute (exact : Rat) (shadow : Binary64) : Metrics :=
  let rounded := Binary64.ofRat exact
  match absoluteErrorOf exact shadow, relativeErrorOf exact shadow with
  | .ok absolute, .ok relative => {
      accuracy := accuracyOf exact shadow
      absoluteError := some absolute
      relativeError := relative
      ulpDistance := ulpDistanceOf exact shadow
      ulpError := ulpErrorOf exact shadow
      correctlyRounded := some (rounded.isFinite && rounded.numEq shadow) }
  | _, _ => {
      accuracy := accuracyOf exact shadow
      absoluteError := none
      relativeError := none
      ulpDistance := none
      ulpError := none
      correctlyRounded := none }

end Metrics

end Roundoff
