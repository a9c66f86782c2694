/-!
# Directions of comparison
-/

namespace Mutability

/-- The wildcard of a type argument: none, `?`, `? super X` or `? extends X`, in this order. -/
inductive Wildcard where
  | plain
  | unbound
  | lower
  | upper
  deriving DecidableEq, Repr

def Wildcard.rank : Wildcard → Nat
  | plain => 0
  | unbound => 1
  | lower => 2
  | upper => 3

/-- How an assignability query compares two types. -/
inductive Mode where
  /-- Both have to be the same. -/
  | invariant
  /-- A value of the source can be stored in the target. -/
  | covariant
  /-- A value of the target can be stored in the source. -/
  | contravariant
  /-- Either way, whichever is closer. -/
  | any
  /-- Covariant without a look at type arguments. -/
  | erasure
  deriving DecidableEq, Repr

namespace Mode

def reversed : Mode → Mode
  | covariant => contravariant
  | contravariant => covariant
  | mode => mode

/-- The mode for a type argument, by the wildcard on the target's side. -/
def forArgument : Mode → Wildcard → Mode
  | invariant, _ => invariant
  | _, .plain => invariant
  | _, .unbound => any
  | mode, .upper => mode
  | mode, .lower => mode.reversed

end Mode

end Mutability
