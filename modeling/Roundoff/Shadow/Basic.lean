import Roundoff.Shadow.Event

/-! # Shadows

A shadow is a binary64 value together with the trail of rounding events on the way to it.  Each
operation computes its value from the operands' values alone; the trail is the operands' trails,
left before right, followed by the operation's own event if it has one.
-/
namespace Roundoff

/-- A binary64 value with the rounding events that led to it. -/
structure Shadow where
  value : Binary64
  events : List RoundingEvent := []
  deriving DecidableEq, Repr

namespace Shadow

/-- The event of a step, if it has a flag. -/
def event? (step : RoundingStep) (result : Binary64) (flag : Option RoundingFlag) :
    List RoundingEvent :=
  flag.toList.map fun f => ⟨step, result, f⟩

/-- The shadow of a rational: its nearest binary64 value. -/
def ofRat (exact : Rat) (source : Option String := none) : Shadow :=
  let value := Binary64.ofRat exact
  ⟨value, event? (.literal source) value (RoundingFlag.ofRounding? exact value)⟩

/-- A binary operation on shadows. -/
def apply (op : Operation) (x y : Shadow) : Shadow :=
  let result := op.rounded x.value y.value
  ⟨result, x.events ++ y.events
    ++ event? (.operation op x.value y.value) result
        (RoundingFlag.ofOperation? op x.value y.value result)⟩

/-- The negated shadow; a change of sign is exact. -/
def neg (x : Shadow) : Shadow := ⟨x.value.neg, x.events⟩

/-- The shadow of the absolute value. -/
def abs (x : Shadow) : Shadow := ⟨x.value.abs, x.events⟩

/-- The smaller shadow, with the trails of both. -/
def minimum (x y : Shadow) : Shadow := ⟨x.value.minimum y.value, x.events ++ y.events⟩

/-- The larger shadow, with the trails of both. -/
def maximum (x y : Shadow) : Shadow := ⟨x.value.maximum y.value, x.events ++ y.events⟩

@[simp] theorem value_apply (op : Operation) (x y : Shadow) :
    (apply op x y).value = op.rounded x.value y.value := rfl

@[simp] theorem value_neg (x : Shadow) : x.neg.value = x.value.neg := rfl

@[simp] theorem value_abs (x : Shadow) : x.abs.value = x.value.abs := rfl

@[simp] theorem value_minimum (x y : Shadow) :
    (minimum x y).value = x.value.minimum y.value := rfl

@[simp] theorem value_maximum (x y : Shadow) :
    (maximum x y).value = x.value.maximum y.value := rfl

@[simp] theorem events_neg (x : Shadow) : x.neg.events = x.events := rfl

@[simp] theorem events_abs (x : Shadow) : x.abs.events = x.events := rfl

@[simp] theorem events_minimum (x y : Shadow) :
    (minimum x y).events = x.events ++ y.events := rfl

@[simp] theorem events_maximum (x y : Shadow) :
    (maximum x y).events = x.events ++ y.events := rfl

end Shadow

end Roundoff
