import Mutability.Text.Blank
import Mutability.Text.Names

/-!
# Eventual descriptors

An entity may reach its final state only after a mark. A descriptor names the fields whose
precondition is the mark, and the role of a method: it passes the mark, it may be called only
before or after it, or it tests it. Fields are a set of trimmed names, and a descriptor without
fields has no role to carry.
-/

namespace Mutability

structure Eventual where
  fields : List String
  mark : Bool
  after : Option Bool
  test : Option Bool
  deriving DecidableEq, Repr

namespace Eventual

/-- The role that a descriptor without fields was given. -/
inductive Fault where
  | markWithoutFields
  | afterWithoutFields
  | testWithoutFields
  deriving DecidableEq, Repr

def Fault.flag : Fault → String
  | markWithoutFields => "mark"
  | afterWithoutFields => "after"
  | testWithoutFields => "test"

def Fault.message (fault : Fault) : String :=
  "eventual descriptor without responsible fields cannot carry " ++ fault.flag

/-- The descriptor of an entity that waits for nothing. -/
def none : Eventual := ⟨[], false, .none, .none⟩

/-- Trimmed names that are not empty, as a set. -/
def fieldSet (fields : List String) : List String :=
  Text.nameSet ((fields.map Text.trim).filter (· ≠ ""))

def ofFields (fields : List String) : Eventual := ⟨fieldSet fields, false, .none, .none⟩

/-- The first role is reported where several stand without fields. -/
def make (fields : List String) (mark : Bool) (after test : Option Bool) :
    Except Fault Eventual :=
  if (fieldSet fields).isEmpty then
    if mark then .error .markWithoutFields
    else if after.isSome then .error .afterWithoutFields
    else if test.isSome then .error .testWithoutFields
    else .ok none
  else .ok ⟨fieldSet fields, mark, after, test⟩

def isEventual (e : Eventual) : Bool := !e.fields.isEmpty

/-- The field names with commas between them. -/
def label (e : Eventual) : String := String.intercalate "," e.fields

/-- The names in a written label: parts between commas, trimmed, without empty ones. -/
def splitLabels (text : String) : List String :=
  ((text.toList.splitOn ',').map fun part => Text.trim (String.ofList part)).filter (· ≠ "")

end Eventual

end Mutability
