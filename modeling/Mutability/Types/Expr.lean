import Mutability.Types.Primitive

/-!
# Type expressions

A type as written in code: a base with type arguments, a number of array dimensions and, where it
is itself an argument, a wildcard.
-/

namespace Mutability

/-- Where a type parameter is declared. -/
inductive Owner where
  | type (name : String)
  | method (name : String)
  deriving DecidableEq, Repr

/-- The parameter at `index` of its owner; without an owner its declaration is not known. An index
is only looked up and compared, never computed with, so it needs no bound. -/
structure TypeParameter where
  owner : Option Owner
  index : Nat
  name : String
  deriving DecidableEq, Repr

inductive Base where
  | nominal (name : String)
  | primitive (p : Primitive)
  | parameter (p : TypeParameter)
  /-- The type of the null literal. -/
  | null
  /-- The bare `?`. -/
  | wildcard
  deriving DecidableEq, Repr

structure TypeExpr where
  base : Base
  arguments : List TypeExpr
  /-- The number of array dimensions, a 64-bit word: sums wrap around. -/
  arrays : UInt64
  wildcard : Wildcard
  deriving Repr

namespace TypeExpr

/-! ## Equality -/

mutual

def decEq : (a b : TypeExpr) → Decidable (a = b)
  | ⟨base, arguments, arrays, wildcard⟩, ⟨base', arguments', arrays', wildcard'⟩ =>
    if hb : base = base' then
      if hn : arrays = arrays' then
        if hw : wildcard = wildcard' then
          match decEqList arguments arguments' with
          | .isTrue h => .isTrue (by rw [hb, hn, hw, h])
          | .isFalse h => .isFalse (by simp [h])
        else .isFalse (by simp [hw])
      else .isFalse (by simp [hn])
    else .isFalse (by simp [hb])

def decEqList : (as bs : List TypeExpr) → Decidable (as = bs)
  | [], [] => .isTrue rfl
  | [], _ :: _ => .isFalse (by simp)
  | _ :: _, [] => .isFalse (by simp)
  | a :: as, b :: bs =>
    match decEq a b with
    | .isTrue h =>
      match decEqList as bs with
      | .isTrue hs => .isTrue (by rw [h, hs])
      | .isFalse hs => .isFalse (by simp [hs])
    | .isFalse h => .isFalse (by simp [h])

end

instance : DecidableEq TypeExpr := decEq

/-! ## Building and reading -/

def ofBase (base : Base) : TypeExpr := ⟨base, [], 0, .plain⟩

def nominal (name : String) : TypeExpr := ofBase (.nominal name)

def primitive (p : Primitive) : TypeExpr := ofBase (.primitive p)

def parameter (p : TypeParameter) : TypeExpr := ofBase (.parameter p)

def null : TypeExpr := ofBase .null

def unboundWildcard : TypeExpr := ⟨.wildcard, [], 0, .unbound⟩

/-- A named type with arguments. -/
def applied (name : String) (arguments : List TypeExpr) : TypeExpr :=
  ⟨.nominal name, arguments, 0, .plain⟩

/-- The name of the top type. -/
def objectName : String := "java.lang.Object"

def name? (t : TypeExpr) : Option String :=
  match t.base with
  | .nominal name => some name
  | _ => none

def primitive? (t : TypeExpr) : Option Primitive :=
  match t.base with
  | .primitive p => some p
  | _ => none

def parameter? (t : TypeExpr) : Option TypeParameter :=
  match t.base with
  | .parameter p => some p
  | _ => none

/-- A primitive value, not an array of them. -/
def isPrimitive (t : TypeExpr) : Bool := t.arrays = 0 && t.primitive?.isSome

def isVoid (t : TypeExpr) : Bool := t.arrays = 0 && t.primitive? = some .void

def isNull (t : TypeExpr) : Bool := t.base = .null

/-- The top type, or an array of it. -/
def isObject (t : TypeExpr) : Bool := t.name? = some objectName

def isUnboundWildcard (t : TypeExpr) : Bool := t.base = .wildcard && t.wildcard = .unbound

def withoutArrays (t : TypeExpr) : TypeExpr := { t with arrays := 0 }

/-- The raw type: no arguments, all else as it was. -/
def erased (t : TypeExpr) : TypeExpr := { t with arguments := [] }

/-- Equal up to the array dimensions of the two types themselves. -/
def equalsIgnoringArrays (a b : TypeExpr) : Bool :=
  a.base = b.base && a.wildcard = b.wildcard && a.arguments = b.arguments

mutual

/-- How deep type arguments stand inside each other. -/
def nesting : TypeExpr → Nat
  | ⟨_, arguments, _, _⟩ => nestingList arguments + 1

def nestingList : List TypeExpr → Nat
  | [] => 0
  | t :: ts => max (nesting t) (nestingList ts)

end

/-! ## Text -/

def baseText : Base → String
  | .nominal name => name
  | .primitive p => p.text
  | .parameter p => p.name
  | .null => "null"
  | .wildcard => "?"

def wildcardText : Wildcard → String
  | .upper => "? extends "
  | .lower => "? super "
  | _ => ""

mutual

def text : TypeExpr → String
  | ⟨base, arguments, arrays, wildcard⟩ =>
    wildcardText wildcard ++ baseText base
      ++ (match arguments with
        | [] => ""
        | first :: rest => "<" ++ text first ++ restText rest ++ ">")
      ++ String.join (List.replicate arrays.toNat "[]")

/-- Further arguments, each after a comma. -/
def restText : List TypeExpr → String
  | [] => ""
  | t :: ts => ", " ++ text t ++ restText ts

end

end TypeExpr

/-! ## Order -/

def Primitive.compare (a b : Primitive) : Ordering := Ord.compare a.order b.order

/-- Types before methods, then by name. -/
def Owner.compare : Owner → Owner → Ordering
  | type a, type b => Ord.compare a b
  | type _, method _ => .lt
  | method _, type _ => .gt
  | method a, method b => Ord.compare a b

namespace TypeParameter

/-- A parameter without an owner comes first. -/
def compareOwner : Option Owner → Option Owner → Ordering
  | none, none => .eq
  | none, some _ => .lt
  | some _, none => .gt
  | some a, some b => a.compare b

/-- By owner, then index, then name. -/
def compare (a b : TypeParameter) : Ordering :=
  ((compareOwner a.owner b.owner).then (Ord.compare a.index b.index)).then
    (Ord.compare a.name b.name)

end TypeParameter

namespace Base

def rank : Base → Nat
  | nominal _ => 0
  | primitive _ => 1
  | parameter _ => 2
  | null => 3
  | wildcard => 4

def compare : Base → Base → Ordering
  | nominal a, nominal b => Ord.compare a b
  | primitive a, primitive b => a.compare b
  | parameter a, parameter b => a.compare b
  | a, b => Ord.compare a.rank b.rank

end Base

namespace TypeExpr

mutual

/-- By base, then arguments, array dimensions and wildcard. -/
def compare : TypeExpr → TypeExpr → Ordering
  | ⟨base, arguments, arrays, wildcard⟩, ⟨base', arguments', arrays', wildcard'⟩ =>
    (((base.compare base').then (compareList arguments arguments')).then
      (Ord.compare arrays arrays')).then (Ord.compare wildcard.rank wildcard'.rank)

def compareList : List TypeExpr → List TypeExpr → Ordering
  | [], [] => .eq
  | [], _ :: _ => .lt
  | _ :: _, [] => .gt
  | a :: as, b :: bs => (compare a b).then (compareList as bs)

end

end TypeExpr

end Mutability
