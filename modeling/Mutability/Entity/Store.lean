import Mutability.Entity.Kind
import Mutability.Lattice.Property

/-!
# Fact stores

A store keeps the facts of one entity while it is analysed. Every write goes through the
property's own rule (`Property.join`, `Property.improve`); a frozen store takes no more writes.
A read of a property without a fact is delayed while the entity is analysed, and otherwise what
the convention says of a missing annotation.
-/

namespace Mutability

structure Store where
  entity : String
  kind : EntityKind
  /-- The source of the entity is analysed. -/
  defined : Bool
  convention : Convention
  facts : Property → Option Fact
  frozen : Bool

namespace Store

/-- Why a write is refused. -/
inductive Fault where
  | downgrade (entity : String) (property : Property) (old new : Fact)
  | familyMismatch (entity : String) (property : Property) (expected : Family) (fact : Fact)
  | frozen (entity : String) (property : Property)
  deriving DecidableEq, Repr

def Fault.message : Fault → String
  | downgrade entity property old new =>
    "lattice violation on " ++ entity ++ ": " ++ property.text ++ " cannot move from " ++ old.text
      ++ " to " ++ new.text
  | familyMismatch entity property expected fact =>
    entity ++ ": " ++ property.text ++ " holds " ++ expected.text ++ " values, got " ++ fact.text
  | frozen entity property => entity ++ ": store is frozen, cannot write " ++ property.text

def empty (entity : String) (kind : EntityKind) (defined : Bool) (convention : Convention) :
    Store :=
  ⟨entity, kind, defined, convention, fun _ => none, false⟩

/-- The fact as stored, delayed if there is none. -/
def stored (s : Store) (p : Property) : Fact := (s.facts p).getD .delayed

/-- The fact as seen by a reader. -/
def read (s : Store) (p : Property) : Fact :=
  match s.facts p with
  | some fact => fact
  | none => if s.defined then .delayed else p.absentFact s.convention

/-- The stored facts in the order of properties. -/
def contents (s : Store) : List (Property × Fact) :=
  Property.all.filterMap fun p => (s.facts p).map fun fact => (p, fact)

/-- The properties among those required that still read as delayed. -/
def delayedAmong (s : Store) (required : List Property) : List Property :=
  required.filter fun p => (s.read p).isDelayed

def freeze (s : Store) : Store := { s with frozen := true }

/-- Stores a fact; one that is stored already is not written again. -/
def keep (s : Store) (p : Property) (fact : Fact) : Store :=
  if s.stored p = fact then s
  else { s with facts := fun q => if q = p then some fact else s.facts q }

def refuse (s : Store) (p : Property) (old new : Fact) : Refusal → Fault
  | .downgrade => .downgrade s.entity p old new
  | .wrongFamily expected => .familyMismatch s.entity p expected new

/-- Writes through a rule for the old and the new fact. -/
def writeWith (rule : Fact → Fact → Except Refusal Fact) (s : Store) (p : Property) (new : Fact) :
    Except Fault Store :=
  if s.frozen then .error (.frozen s.entity p)
  else
    match rule (s.stored p) new with
    | .ok fact => .ok (s.keep p fact)
    | .error refusal => .error (s.refuse p (s.stored p) new refusal)

/-- Writes a fact that has to respect the property's policy. -/
def set (s : Store) (p : Property) (new : Fact) : Except Fault Store :=
  writeWith p.join s p new

/-- Proposes a fact: the better of it and the stored one stays. -/
def improve (s : Store) (p : Property) (new : Fact) : Except Fault Store :=
  writeWith p.improve s p new

/-- Writes one fact after the other up to the first refusal; what is written before it stays. -/
def writeAll (write : Store → Property → Fact → Except Fault Store) (s : Store) :
    List (Property × Fact) → Store × Option Fault
  | [] => (s, none)
  | (p, fact) :: rest =>
    match write s p fact with
    | .ok s' => writeAll write s' rest
    | .error fault => (s, some fault)

def setAll (s : Store) (facts : List (Property × Fact)) : Store × Option Fault :=
  writeAll set s facts

def improveAll (s : Store) (facts : List (Property × Fact)) : Store × Option Fault :=
  writeAll improve s facts

theorem stored_keep_self (s : Store) (p : Property) (fact : Fact) :
    (s.keep p fact).stored p = fact := by
  unfold keep
  split
  · assumption
  · simp [stored]

theorem facts_keep_ne {s : Store} {p q : Property} (fact : Fact) (h : q ≠ p) :
    (s.keep p fact).facts q = s.facts q := by
  unfold keep
  split
  · rfl
  · simp [h]

end Store

end Mutability
