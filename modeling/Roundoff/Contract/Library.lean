import Roundoff.Contract.WellFormed
import Roundoff.Json.Reader

/-! # A library of schema documents

Schemas by name, read from the texts of a directory when they are first asked for and kept from
then on.  What could not be loaded is not kept, and is tried again the next time.
-/
namespace Roundoff.Contract

/-- A directory of texts and the schemas loaded from it so far. -/
structure Library where
  files : List (String × String)
  loaded : List (String × Json) := []

/-- Why a schema cannot be loaded. -/
inductive LoadError where
  /-- There is no file for the name. -/
  | notFound
  /-- The file does not hold JSON that can be read. -/
  | unreadable (cause : Json.ReadError)
  /-- The document is not a schema. -/
  | notSchema
  deriving DecidableEq, Repr

/-- A loaded schema, and whether it had been loaded before. -/
structure Loaded where
  document : Json
  cached : Bool

namespace Library

/-- The library over a directory, which must exist. -/
def open? (files : Option (List (String × String))) : Option Library :=
  files.map fun fs => { files := fs }

/-- The text of a file. -/
def text? (lib : Library) (file : String) : Option String :=
  (lib.files.find? fun f => f.1 == file).map (·.2)

/-- Load the schema of a name. -/
def load (lib : Library) (name : String) : Except LoadError Loaded × Library :=
  match Json.lookup? name lib.loaded with
  | some document => (.ok ⟨document, true⟩, lib)
  | none =>
    match lib.text? (name ++ ".json") with
    | none => (.error .notFound, lib)
    | some text =>
      match Json.parse text with
      | .error cause => (.error (.unreadable cause), lib)
      | .ok document =>
        if isSchema document then
          (.ok ⟨document, false⟩, { lib with loaded := lib.loaded ++ [(name, document)] })
        else (.error .notSchema, lib)

end Library

end Roundoff.Contract
