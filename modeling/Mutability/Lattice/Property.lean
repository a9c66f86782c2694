import Mutability.Lattice.Convention
import Mutability.Lattice.Fact

/-!
# Properties

A property names a fact about an entity. It fixes the family of the fact, the role the fact plays
and, through the role, whether a new fact has to be at least the old one (`join`). `improve` keeps
the better of two facts instead.
-/

namespace Mutability

inductive Property where
  | notNull
  | contextNotNull
  | immutable
  | contextImmutable
  | container
  | independent
  | modified
  | contextModified
  | final
  | finalizer
  | constant
  | fluent
  | identity
  | singleton
  | utilityClass
  | extensionClass
  | ignoreModifications
  | notModified1
  | beforeMark
  | size
  | sizeOut
  | sizeCopy
  deriving DecidableEq, Repr

/-- What a fact is about: the value itself, its use in one statement, or anything else. -/
inductive Role where
  | value
  | context
  | other
  deriving DecidableEq, Repr

/-- How a stored fact may be replaced. -/
inductive Policy where
  | upgrade
  | overwrite
  deriving DecidableEq, Repr

/-- Why a fact is not taken over. -/
inductive Refusal where
  | downgrade
  | wrongFamily (expected : Family)
  deriving DecidableEq, Repr

namespace Property

def all : List Property :=
  [notNull, contextNotNull, immutable, contextImmutable, container, independent, modified,
   contextModified, final, finalizer, constant, fluent, identity, singleton, utilityClass,
   extensionClass, ignoreModifications, notModified1, beforeMark, size, sizeOut, sizeCopy]

theorem mem_all (p : Property) : p ∈ all := by
  cases p <;> decide

def text : Property → String
  | notNull => "@NotNull"
  | contextNotNull => "not null in context"
  | immutable => "@Immutable"
  | contextImmutable => "context @Immutable"
  | container => "@Container"
  | independent => "@Independent"
  | modified => "@Modified"
  | contextModified => "modified in context"
  | final => "@Final"
  | finalizer => "@Finalizer"
  | constant => "@Constant"
  | fluent => "@Fluent"
  | identity => "@Identity"
  | singleton => "@Singleton"
  | utilityClass => "@UtilityClass"
  | extensionClass => "@ExtensionClass"
  | ignoreModifications => "@IgnoreModifications"
  | notModified1 => "@NotModified1"
  | beforeMark => "@BeforeMark"
  | size => "@Size"
  | sizeOut => "@Size out"
  | sizeCopy => "@Size copy"

def role : Property → Role
  | contextNotNull => .context
  | contextImmutable => .context
  | contextModified => .context
  | notNull => .value
  | immutable => .value
  | container => .value
  | independent => .value
  | identity => .value
  | ignoreModifications => .value
  | _ => .other

def family : Property → Family
  | notNull => .multiLevel
  | contextNotNull => .multiLevel
  | immutable => .multiLevel
  | contextImmutable => .multiLevel
  | independent => .multiLevel
  | size => .size
  | sizeOut => .size
  | sizeCopy => .sizeCopy
  | _ => .level

/-- Facts about a use are replaced at will, all others only move up. -/
def policy (p : Property) : Policy :=
  match p.role with
  | .context => .overwrite
  | _ => .upgrade

/-- The weakest fact of the property's family. -/
def weakest (p : Property) : Fact :=
  match p.family with
  | .level => .flag false
  | .multiLevel => .multi .mutable
  | .size => .size .notASize
  | .sizeCopy => .sizeCopy .noCopy

/-- What a missing annotation says of an entity whose source is not analysed. -/
def absentFact (p : Property) : Convention → Fact
  | .defensive =>
    match p with
    | modified => .flag true
    | _ => p.weakest
  | .offensive =>
    match p with
    | final => .flag true
    | container => .flag true
    | independent => .multi .independent
    | modified => .flag false
    | _ => p.weakest

/-- A delayed fact fits every property. -/
def fits (p : Property) (f : Fact) : Bool :=
  match f.family? with
  | none => true
  | some family => family = p.family

/-- The fact to keep when `new` is written over `old`. -/
def join (p : Property) (old new : Fact) : Except Refusal Fact :=
  if p.fits new then
    match p.policy with
    | .overwrite => .ok new
    | .upgrade => if old ≤ new then .ok new else .error .downgrade
  else .error (.wrongFamily p.family)

/-- The better of two facts, the old one if they are not comparable. -/
def improve (p : Property) (old new : Fact) : Except Refusal Fact :=
  if p.fits new then .ok (if old < new then new else old)
  else .error (.wrongFamily p.family)

end Property

end Mutability
