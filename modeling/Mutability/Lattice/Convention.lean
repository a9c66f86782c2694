/-!
# Annotation conventions

The convention of a code base decides what a missing annotation means on an entity whose source
is not analysed.
-/

namespace Mutability

inductive Convention where
  /-- A missing annotation makes the weakest claim. -/
  | defensive
  /-- A missing annotation makes the strongest claim on finality, containers and independence. -/
  | offensive
  deriving DecidableEq, Repr

namespace Convention

def all : List Convention := [defensive, offensive]

def text : Convention → String
  | defensive => "defensive"
  | offensive => "offensive"

def ofText? (name : String) : Option Convention := all.find? (·.text = name)

end Convention

end Mutability
