/-!
# JSON values

The data format of requests, settings and stored declarations. A number is an integer, or any
other number kept as it was written: no fact, marker or type holds one of those. Members of an
object have distinct keys; `ofMembers` keeps the last of several with one key.
-/

namespace Mutability

inductive Json where
  | null
  | bool (b : Bool)
  | int (n : Int)
  | decimal (literal : String)
  | string (s : String)
  | array (items : List Json)
  | object (members : List (String × Json))

namespace Json

/-- The member of a key, if the value is an object that has one. -/
def member? (key : String) : Json → Option Json
  | object members => members.lookup key
  | _ => none

/-- The member of a key, where an explicit null is as good as none. -/
def field? (key : String) (value : Json) : Option Json :=
  match value.member? key with
  | some null => none
  | found => found

/-- Replaces the member of the key or adds one. -/
def setMember (key : String) (value : Json) : List (String × Json) → List (String × Json)
  | [] => [(key, value)]
  | member :: rest =>
    if member.1 = key then (key, value) :: rest else member :: setMember key value rest

def ofMembers (members : List (String × Json)) : Json :=
  object (members.foldl (fun kept member => setMember member.1 member.2 kept) [])

def strings (texts : List String) : Json := array (texts.map string)

end Json

end Mutability
