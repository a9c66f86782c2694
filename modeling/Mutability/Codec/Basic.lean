import Mutability.Json.Basic

/-!
# Values as JSON

A codec writes values of a type as JSON and reads them back. An alternative without content is
written as its name, one with content as an object with the name as its only key; a record is an
object of its fields. Reading is more liberal: a name may also be the key of a null, a record may
be an array of its fields in order, and members of other names are passed over.
-/

namespace Mutability

class Codec (α : Type) where
  encode : α → Json
  decode : Json → Option α

namespace Codec

variable {α β : Type}

/-! ## Plain values -/

instance : Codec Bool where
  encode := .bool
  decode
    | .bool b => some b
    | _ => none

instance : Codec String where
  encode := .string
  decode
    | .string s => some s
    | _ => none

/-- The reader of texts keeps integers to 64 bits, so there is no bound to check. -/
instance : Codec Nat where
  encode n := .int n
  decode
    | .int n => if n < 0 then none else some n.toNat
    | _ => none

instance : Codec UInt32 where
  encode n := .int n.toNat
  decode
    | .int n => if 0 ≤ n ∧ n < UInt32.size then some (UInt32.ofNat n.toNat) else none
    | _ => none

instance : Codec UInt64 where
  encode n := .int n.toNat
  decode
    | .int n => if 0 ≤ n ∧ n < UInt64.size then some (UInt64.ofNat n.toNat) else none
    | _ => none

instance : Codec Int64 where
  encode n := .int n.toInt
  decode
    | .int n =>
      if Int64.minValue.toInt ≤ n ∧ n ≤ Int64.maxValue.toInt then some (Int64.ofInt n) else none
    | _ => none

/-- Reads all items, or none if one cannot be read. -/
def decodeAll (read : Json → Option α) : List Json → Option (List α)
  | [] => some []
  | item :: items => do return (← read item) :: (← decodeAll read items)

instance [Codec α] : Codec (List α) where
  encode items := .array (items.map encode)
  decode
    | .array items => decodeAll decode items
    | _ => none

instance [Codec α] [Codec β] : Codec (α × β) where
  encode pair := .array [encode pair.1, encode pair.2]
  decode
    | .array [a, b] => do return (← decode a, ← decode b)
    | _ => none

/-- A missing value is a null. -/
instance [Codec α] : Codec (Option α) where
  encode
    | some a => encode a
    | none => .null
  decode
    | .null => some none
    | value => (decode value).map some

/-! ## Alternatives -/

/-- The name of an alternative and its content, if there is one. -/
def alternative? : Json → Option (String × Option Json)
  | .string name => some (name, none)
  | .object [(name, content)] => some (name, some content)
  | _ => none

/-- An alternative without content. -/
def unit (a : α) : Option Json → Option α
  | none => some a
  | some .null => some a
  | _ => none

/-- An alternative with content. -/
def content [Codec α] (make : α → β) : Option Json → Option β
  | some value => (decode value).map make
  | none => none

def tagged [Codec α] (name : String) (a : α) : Json := .object [(name, encode a)]

/-- The codec of a type whose alternatives are names. -/
@[reducible] def ofNames (all : List α) (name : α → String) : Codec α where
  encode a := .string (name a)
  decode value := do
    let (key, given) ← alternative? value
    unit (← all.find? (name · = key)) given

/-! ## Records -/

/-- The members of the given names, of an object or of an array of just these. -/
def members? (names : List String) : Json → Option (List (Option Json))
  | .object members => some (names.map fun name => members.lookup name)
  | .array items => if items.length = names.length then some (items.map some) else none
  | _ => none

/-- A field that has to be there. -/
def field [Codec α] : Option Json → Option α
  | some value => decode value
  | none => none

/-- A field that may be missing or null. -/
def optionalField [Codec α] : Option Json → Option (Option α)
  | some value => decode value
  | none => some none

/-- A field with a value that stands in when it is missing. -/
def fieldOr [Codec α] (standard : α) : Option Json → Option α
  | some value => decode value
  | none => some standard

end Codec

end Mutability
