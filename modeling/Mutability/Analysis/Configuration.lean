import Mutability.Lattice.Convention

/-!
# Settings of an analysis
-/

namespace Mutability

structure Configuration where
  convention : Convention
  /-- How many passes may run before the rest is reported as delayed. -/
  maxPasses : Nat
  /-- The entities of a pass may be analysed at the same time. -/
  parallel : Bool
  deriving DecidableEq, Repr

namespace Configuration

def standard : Configuration := ⟨.defensive, 10, true⟩

/-- A step on the way to a part of a written configuration. -/
inductive Segment where
  | key (name : String)
  | index (n : Nat)
  deriving DecidableEq, Repr

/-- Where a configuration comes from. -/
inductive Source where
  | text
  | stream
  deriving DecidableEq, Repr

def Source.context : Source → String
  | text => "parse engine configuration"
  | stream => "read engine configuration"

/-- Why a written configuration is not taken over. -/
inductive Fault where
  /-- The text is not JSON as far as it was read. -/
  | malformed
  /-- The part at this path does not fit. -/
  | misfit (path : List Segment)
  /-- A run of no passes at all. -/
  | noPasses
  deriving DecidableEq, Repr

/-- Keys with points between them and indices in brackets. -/
def pathTail : List Segment → String
  | [] => ""
  | .key name :: path => "." ++ name ++ pathTail path
  | .index n :: path => s!"[{n}]" ++ pathTail path

/-- The path as a text; the whole is a single point. -/
def pathText : List Segment → String
  | [] => "."
  | .key name :: path => name ++ pathTail path
  | .index n :: path => s!"[{n}]" ++ pathTail path

def Fault.message (source : Source) : Fault → String
  | malformed => source.context
  | misfit path => source.context ++ ": " ++ pathText path
  | noPasses => "max_passes must be at least 1"

/-- A configuration has to allow for one pass. -/
def validate (c : Configuration) : Except Fault Configuration :=
  if c.maxPasses = 0 then .error .noPasses else .ok c

end Configuration

end Mutability
