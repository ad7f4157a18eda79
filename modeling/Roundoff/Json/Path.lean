import Roundoff.Json.Basic

/-! # Editing JSON values

A path leads into a value by member names and item numbers; a negative item number counts from
the end.  An edit sets or removes what a path leads to.  A new member is added at the end of its
object, but a new item is not.
-/
namespace Roundoff.Json

/-- One step of a path. -/
inductive Step where
  | member (name : String)
  | item (index : Int)
  deriving DecidableEq, Repr

/-- Why a path leads nowhere. -/
inductive PathError where
  /-- An object has no such member. -/
  | noMember
  /-- An array has no such item. -/
  | noItem
  /-- The step does not fit the value. -/
  | wrongType
  deriving DecidableEq, Repr

/-- The place of an item in an array of a given length. -/
def itemPlace? (length : Nat) (index : Int) : Option Nat :=
  let i := if index < 0 then index + length else index
  if 0 ≤ i ∧ i < length then some i.toNat else none

/-- Replace or remove the value at a path. -/
def edit (change : Option Json) : List Step → Json → Except PathError Json
  | [], v =>
    match change with
    | some w => .ok w
    | none => .ok v
  | [.member name], .object ms =>
    match change with
    | some w => .ok (.object (setMember name w ms))
    | none =>
      if (lookup? name ms).isSome then .ok (.object (ms.filter fun m => m.1 != name))
      else .error .noMember
  | [.item index], .array vs =>
    match itemPlace? vs.length index with
    | none => .error .noItem
    | some i =>
      match change with
      | some w => .ok (.array (vs.set i w))
      | none => .ok (.array (vs.eraseIdx i))
  | .member name :: s :: path, .object ms =>
    match lookup? name ms with
    | none => .error .noMember
    | some v => (edit change (s :: path) v).map fun w => .object (setMember name w ms)
  | .item index :: s :: path, .array vs =>
    match itemPlace? vs.length index with
    | none => .error .noItem
    | some i => (edit change (s :: path) (vs.getD i .null)).map fun w => .array (vs.set i w)
  | _, _ => .error .wrongType

end Roundoff.Json
