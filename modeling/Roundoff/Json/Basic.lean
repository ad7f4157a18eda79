import Roundoff.Binary64.Basic

/-! # JSON values

A number without fraction and exponent is an integer of any size; every other number is a
binary64 value.  The members of an object keep their order.
-/
namespace Roundoff

/-- A JSON value. -/
inductive Json where
  | null
  | bool (b : Bool)
  | int (i : Int)
  | float (x : Binary64)
  | string (s : String)
  | array (items : List Json)
  | object (members : List (String × Json))
  deriving Repr, Inhabited

namespace Json

/-- The first value of a member name. -/
def lookup? (name : String) (members : List (String × Json)) : Option Json :=
  (members.find? fun m => m.1 == name).map (·.2)

/-- A member of an object. -/
def member? (name : String) : Json → Option Json
  | object members => lookup? name members
  | _ => none

/-- Set a member: in place if there is one of this name, at the end otherwise. -/
def setMember (name : String) (value : Json) : List (String × Json) → List (String × Json)
  | [] => [(name, value)]
  | m :: ms => if m.1 = name then (name, value) :: ms else m :: setMember name value ms

/-- A value, or null if there is none. -/
def ofOption {α : Type} (f : α → Json) : Option α → Json
  | some a => f a
  | none => null

/-- An array of strings. -/
def strings (ss : List String) : Json :=
  array (ss.map string)

/-- A natural number. -/
def nat (n : Nat) : Json := int n

end Json

end Roundoff
