import Mutability.Types.Distance
import Mutability.Types.Mode

/-!
# Primitive types

Numbers widen upwards in `order`; booleans and void take no part. Each primitive has a box type.
-/

namespace Mutability

inductive Primitive where
  | boolean
  | byte
  | char
  | short
  | int
  | float
  | long
  | double
  | void
  deriving DecidableEq, Repr

namespace Primitive

def all : List Primitive := [boolean, byte, char, short, int, float, long, double, void]

def text : Primitive → String
  | boolean => "boolean"
  | byte => "byte"
  | char => "char"
  | short => "short"
  | int => "int"
  | float => "float"
  | long => "long"
  | double => "double"
  | void => "void"

def ofText? (name : String) : Option Primitive := all.find? (·.text = name)

def boxName : Primitive → String
  | boolean => "java.lang.Boolean"
  | byte => "java.lang.Byte"
  | char => "java.lang.Character"
  | short => "java.lang.Short"
  | int => "java.lang.Integer"
  | float => "java.lang.Float"
  | long => "java.lang.Long"
  | double => "java.lang.Double"
  | void => "java.lang.Void"

def order : Primitive → Nat
  | boolean => 1
  | byte => 2
  | char => 3
  | short => 4
  | int => 5
  | float => 6
  | long => 7
  | double => 8
  | void => 9

def widens : Primitive → Bool
  | boolean => false
  | void => false
  | _ => true

/-- The distance between two different primitives. -/
def widening (target source : Primitive) (mode : Mode) : Distance :=
  if target.widens && source.widens then
    let up : Int := (target.order : Int) - source.order
    match mode with
    | .invariant => .notAssignable
    | .covariant => .ofDifference up
    | .erasure => .ofDifference up
    | .contravariant => .ofDifference (-up)
    | .any => .ofDifference up.natAbs
  else .notAssignable

/-- The distance between a primitive and a named type, which has to be its box. -/
def boxing (p : Primitive) (name : String) : Distance :=
  if p ≠ .void ∧ p.boxName = name then .boxing else .notAssignable

end Primitive

end Mutability
