/-!
# Program entities
-/

namespace Mutability

/-- What facts are kept about. Locals belong to one statement and never get markers. -/
inductive EntityKind where
  | type
  | method
  | field
  | parameter
  | localVariable
  deriving DecidableEq, Repr

def EntityKind.text : EntityKind → String
  | type => "type"
  | method => "method"
  | field => "field"
  | parameter => "parameter"
  | localVariable => "local"

end Mutability
