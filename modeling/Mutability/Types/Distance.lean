/-!
# Assignability distances

How far a type is from a target: not assignable, or a 32-bit cost, where less is closer. Costs add
up to the largest word and stay there. The better of two distances is the lower cost.
-/

namespace Mutability

inductive Distance where
  | notAssignable
  | cost (n : UInt32)
  deriving DecidableEq, Repr

namespace Distance

def equal : Distance := cost 0
def nullLiteral : Distance := cost 0
def sameType : Distance := cost 1
def boxing : Distance := cost 1
def hop : Distance := cost 100
def unboundWildcard : Distance := cost 1000

def isAssignable : Distance → Bool
  | notAssignable => false
  | cost _ => true

def cost? : Distance → Option UInt32
  | notAssignable => none
  | cost n => some n

def saturatingAdd (a b : UInt32) : UInt32 :=
  UInt32.ofNat (min (a.toNat + b.toNat) (UInt32.size - 1))

/-- The sum along a path; not assignable absorbs. -/
def plus : Distance → Distance → Distance
  | cost a, cost b => cost (saturatingAdd a b)
  | _, _ => notAssignable

/-- The lower cost; not assignable only if both are. -/
def better : Distance → Distance → Distance
  | cost a, cost b => cost (if a ≤ b then a else b)
  | cost a, notAssignable => cost a
  | notAssignable, other => other

/-- The cost as an integer, `-1` for not assignable. -/
def code : Distance → Int
  | notAssignable => -1
  | cost n => n.toNat

def text : Distance → String
  | notAssignable => "not assignable"
  | cost n => toString n.toNat

/-- The distance of a difference: only one that is not negative is a cost. -/
def ofDifference (difference : Int) : Distance :=
  if difference < 0 then notAssignable else cost (UInt32.ofNat difference.toNat)

end Distance

end Mutability
