import Mutability.Types.Hierarchy

/-!
# Platform types

The declarations that most programs refer to: the top type, the boxes, strings, the core
collections and the common functional interfaces.
-/

namespace Mutability.Platform

/-- The formal parameter of a type, as used in its own declaration. -/
def own (owner : String) (index : Nat) (name : String) : TypeExpr :=
  .parameter ⟨some (.type owner), index, name⟩

def unbounded (names : List String) : List Formal := names.map fun name => ⟨name, []⟩

/-- A class that implements interfaces. -/
def classOf (name : String) (formals : List String) (interfaces : List TypeExpr) : Declaration :=
  { Declaration.plainClass name with formals := unbounded formals, interfaces := interfaces }

def interfaceOf (name : String) (formals : List String) (interfaces : List TypeExpr) :
    Declaration :=
  { Declaration.plainInterface name with formals := unbounded formals, interfaces := interfaces }

def functionalOf (name : String) (formals : List String) (parameters : List TypeExpr)
    (result : TypeExpr) : Declaration :=
  { Declaration.plainInterface name with
    formals := unbounded formals
    functional := some ⟨parameters, result⟩ }

def comparableTo (name : String) : TypeExpr :=
  .applied "java.lang.Comparable" [.nominal name]

def general : List Declaration :=
  [classOf TypeExpr.objectName [] [],
   classOf "java.lang.Number" [] [],
   interfaceOf "java.lang.Comparable" ["T"] [],
   interfaceOf "java.lang.CharSequence" [] [],
   classOf "java.lang.String" []
     [.nominal "java.lang.CharSequence", comparableTo "java.lang.String"]]

/-- A collection type with one parameter and one supertype that takes it over. -/
def collection (declare : String → List String → List TypeExpr → Declaration)
    (name super : String) : Declaration :=
  declare name ["E"] [.applied super [own name 0 "E"]]

def collections : List Declaration :=
  [interfaceOf "java.lang.Iterable" ["T"] [],
   collection interfaceOf "java.util.Collection" "java.lang.Iterable",
   collection interfaceOf "java.util.List" "java.util.Collection",
   collection classOf "java.util.ArrayList" "java.util.List",
   collection interfaceOf "java.util.Set" "java.util.Collection",
   collection classOf "java.util.HashSet" "java.util.Set",
   interfaceOf "java.util.Map" ["K", "V"] [],
   classOf "java.util.HashMap" ["K", "V"]
     [.applied "java.util.Map"
       [own "java.util.HashMap" 0 "K", own "java.util.HashMap" 1 "V"]]]

def functions : List Declaration :=
  [functionalOf "java.util.function.Function" ["T", "R"]
     [own "java.util.function.Function" 0 "T"] (own "java.util.function.Function" 1 "R"),
   functionalOf "java.util.function.Supplier" ["T"] [] (own "java.util.function.Supplier" 0 "T"),
   functionalOf "java.util.function.Consumer" ["T"]
     [own "java.util.function.Consumer" 0 "T"] (.primitive .void),
   functionalOf "java.util.function.Predicate" ["T"]
     [own "java.util.function.Predicate" 0 "T"] (.primitive .boolean),
   functionalOf "java.lang.Runnable" [] [] (.primitive .void)]

/-- Boxes of numbers are numbers, and all but the box of void can be compared. -/
def box (p : Primitive) : Declaration :=
  match p with
  | .void => classOf p.boxName [] []
  | .boolean => classOf p.boxName [] [comparableTo p.boxName]
  | .char => classOf p.boxName [] [comparableTo p.boxName]
  | _ =>
    { classOf p.boxName [] [comparableTo p.boxName] with
      parent := some (.nominal "java.lang.Number") }

def declarations : List Declaration :=
  general ++ collections ++ functions ++ Primitive.all.map box

def hierarchy : Hierarchy := ⟨declarations, []⟩

end Mutability.Platform
