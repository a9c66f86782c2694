import Mutability.Codec.Basic
import Mutability.Marker.Eventual
import Mutability.Marker.Basic

/-!
# Markers and descriptors as JSON
-/

namespace Mutability

open Codec

instance : Codec MarkerName := ofNames MarkerName.all MarkerName.text

/-- An argument is the bare boolean, integer or text. -/
instance : Codec Argument where
  encode
    | .bool b => encode b
    | .int n => encode n
    | .text s => encode s
  decode
    | .bool b => some (.bool b)
    | .string s => some (.text s)
    | value => (decode value).map .int

instance : Codec Marker where
  encode m := .object [("kind", encode m.name), ("parameters", encode m.arguments)]
  decode value := do
    match ← members? ["kind", "parameters"] value with
    | [kind, parameters] => return ⟨← field kind, ← field parameters⟩
    | _ => none

/-- Fields are taken as they are, as a set: neither trimmed nor checked. -/
instance : Codec Eventual where
  encode e :=
    .object [("fields", encode e.fields), ("mark", encode e.mark), ("after", encode e.after),
      ("test", encode e.test)]
  decode value := do
    match ← members? ["fields", "mark", "after", "test"] value with
    | [fields, mark, after, test] =>
      return ⟨Text.nameSet (← field fields), ← field mark, ← optionalField after,
        ← optionalField test⟩
    | _ => none

end Mutability
