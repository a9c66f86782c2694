import Mutability.Types.Expr

/-!
# Declarations of named types
-/

namespace Mutability

/-- A formal type parameter with its bounds. -/
structure Formal where
  name : String
  bounds : List TypeExpr
  deriving DecidableEq, Repr

/-- The single abstract method of a functional interface. -/
structure Signature where
  parameters : List TypeExpr
  result : TypeExpr
  deriving DecidableEq, Repr

def Signature.returnsVoid (s : Signature) : Bool := s.result.isVoid

inductive DeclarationKind where
  | ofClass
  | ofInterface
  deriving DecidableEq, Repr

structure Declaration where
  name : String
  kind : DeclarationKind
  formals : List Formal
  /-- The superclass; without one it is the top type. -/
  parent : Option TypeExpr
  interfaces : List TypeExpr
  /-- The method of a functional interface. -/
  functional : Option Signature
  deriving DecidableEq, Repr

namespace Declaration

def plainClass (name : String) : Declaration := ⟨name, .ofClass, [], none, [], none⟩

def plainInterface (name : String) : Declaration := ⟨name, .ofInterface, [], none, [], none⟩

/-- The formal parameters as references, in order. -/
def parameters (d : Declaration) : List TypeParameter :=
  d.formals.mapIdx fun index formal => ⟨some (.type d.name), index, formal.name⟩

def parameter? (d : Declaration) (index : Nat) : Option TypeParameter := d.parameters[index]?

/-- The type applied to its own parameters. -/
def formalType (d : Declaration) : TypeExpr :=
  .applied d.name (d.parameters.map .parameter)

/-- The declared supertypes, interfaces before the superclass. -/
def supertypes (d : Declaration) : List TypeExpr := d.interfaces ++ d.parent.toList

end Declaration

end Mutability
