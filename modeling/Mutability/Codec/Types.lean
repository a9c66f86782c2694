import Mutability.Codec.Basic
import Mutability.Types.Declaration

/-!
# Types and declarations as JSON
-/

namespace Mutability

open Codec

def Wildcard.key : Wildcard → String
  | plain => "none"
  | unbound => "unbound"
  | lower => "super"
  | upper => "extends"

instance : Codec Wildcard := ofNames [.plain, .unbound, .lower, .upper] Wildcard.key

def Mode.all : List Mode := [invariant, covariant, contravariant, any, erasure]

def Mode.key : Mode → String
  | invariant => "invariant"
  | covariant => "covariant"
  | contravariant => "contravariant"
  | any => "any"
  | erasure => "covariant_erasure"

instance : Codec Mode := ofNames Mode.all Mode.key

instance : Codec Primitive := ofNames Primitive.all Primitive.text

instance : Codec Distance where
  encode
    | .notAssignable => .string "not_assignable"
    | .cost n => tagged "cost" n
  decode value := do
    match ← alternative? value with
    | ("not_assignable", given) => unit .notAssignable given
    | ("cost", given) => content .cost given
    | _ => none

instance : Codec Owner where
  encode
    | .type name => tagged "type" name
    | .method name => tagged "method" name
  decode value := do
    match ← alternative? value with
    | ("type", given) => content .type given
    | ("method", given) => content .method given
    | _ => none

instance : Codec TypeParameter where
  encode p :=
    .object [("owner", encode p.owner), ("index", encode p.index), ("name", encode p.name)]
  decode value := do
    match ← members? ["owner", "index", "name"] value with
    | [owner, index, name] => return ⟨← optionalField owner, ← field index, ← field name⟩
    | _ => none

instance : Codec Base where
  encode
    | .nominal name => tagged "nominal" name
    | .primitive p => tagged "primitive" p
    | .parameter p => tagged "parameter" p
    | .null => .string "null"
    | .wildcard => .string "wildcard"
  decode value := do
    match ← alternative? value with
    | ("nominal", given) => content .nominal given
    | ("primitive", given) => content .primitive given
    | ("parameter", given) => content .parameter given
    | ("null", given) => unit .null given
    | ("wildcard", given) => unit .wildcard given
    | _ => none

namespace TypeExpr

mutual

def toJson : TypeExpr → Json
  | ⟨base, arguments, arrays, wildcard⟩ =>
    .object [("base", encode base), ("parameters", .array (listToJson arguments)),
      ("arrays", encode arrays), ("wildcard", encode wildcard)]

def listToJson : List TypeExpr → List Json
  | [] => []
  | t :: ts => toJson t :: listToJson ts

end

mutual

def ofJson? : Json → Option TypeExpr
  | .object members => do
    let base ← field (members.lookup "base")
    let arguments ← argumentsOf? members
    let arrays ← field (members.lookup "arrays")
    return ⟨base, arguments, arrays, ← field (members.lookup "wildcard")⟩
  | .array [base, .array arguments, arrays, wildcard] => do
    return ⟨← decode base, ← ofJsonList? arguments, ← decode arrays, ← decode wildcard⟩
  | _ => none

/-- The arguments among the members of an object. -/
def argumentsOf? : List (String × Json) → Option (List TypeExpr)
  | [] => none
  | (key, value) :: rest =>
    if key = "parameters" then
      match value with
      | .array arguments => ofJsonList? arguments
      | _ => none
    else argumentsOf? rest

def ofJsonList? : List Json → Option (List TypeExpr)
  | [] => some []
  | value :: values => do return (← ofJson? value) :: (← ofJsonList? values)

end

instance : Codec TypeExpr := ⟨toJson, ofJson?⟩

end TypeExpr

instance : Codec Formal where
  encode f := .object [("name", encode f.name), ("bounds", encode f.bounds)]
  decode value := do
    match ← members? ["name", "bounds"] value with
    | [name, bounds] => return ⟨← field name, ← field bounds⟩
    | _ => none

instance : Codec Signature where
  encode s := .object [("parameters", encode s.parameters), ("return_type", encode s.result)]
  decode value := do
    match ← members? ["parameters", "return_type"] value with
    | [parameters, result] => return ⟨← field parameters, ← field result⟩
    | _ => none

def DeclarationKind.key : DeclarationKind → String
  | ofClass => "class"
  | ofInterface => "interface"

instance : Codec DeclarationKind := ofNames [.ofClass, .ofInterface] DeclarationKind.key

instance : Codec Declaration where
  encode d :=
    .object [("name", encode d.name), ("kind", encode d.kind),
      ("type_parameters", encode d.formals), ("parent", encode d.parent),
      ("interfaces", encode d.interfaces), ("functional", encode d.functional)]
  decode value := do
    match ← members? ["name", "kind", "type_parameters", "parent", "interfaces", "functional"]
      value with
    | [name, kind, formals, parent, interfaces, functional] =>
      return ⟨← field name, ← field kind, ← field formals, ← optionalField parent,
        ← field interfaces, ← optionalField functional⟩
    | _ => none

end Mutability
