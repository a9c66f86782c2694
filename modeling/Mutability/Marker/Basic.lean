/-!
# Markers

A marker is an annotation with its arguments in written order. Markers are ordered by name, in
the order of `MarkerName.all`, then by their arguments: key first, then value, where booleans
stand before integers and integers before texts.
-/

namespace Mutability

inductive MarkerName where
  | notNull
  | notNull1
  | notNull2
  | nullable
  | size
  | e1Immutable
  | e1Container
  | e2Immutable
  | e2Container
  | mutableModifiesArguments
  | container
  | beforeMark
  | independent
  | dependent
  | modified
  | notModified
  | notModified1
  | final
  | nonFinal
  | fluent
  | identity
  | constant
  | singleton
  | utilityClass
  | extensionClass
  | finalizer
  | ignoreModifications
  | mark
  | only
  | testMark
  deriving DecidableEq, Repr

namespace MarkerName

def all : List MarkerName :=
  [notNull, notNull1, notNull2, nullable, size, e1Immutable, e1Container, e2Immutable,
   e2Container, mutableModifiesArguments, container, beforeMark, independent, dependent,
   modified, notModified, notModified1, final, nonFinal, fluent, identity, constant, singleton,
   utilityClass, extensionClass, finalizer, ignoreModifications, mark, only, testMark]

theorem mem_all (name : MarkerName) : name ∈ all := by
  cases name <;> decide

def text : MarkerName → String
  | notNull => "NotNull"
  | notNull1 => "NotNull1"
  | notNull2 => "NotNull2"
  | nullable => "Nullable"
  | size => "Size"
  | e1Immutable => "E1Immutable"
  | e1Container => "E1Container"
  | e2Immutable => "E2Immutable"
  | e2Container => "E2Container"
  | mutableModifiesArguments => "MutableModifiesArguments"
  | container => "Container"
  | beforeMark => "BeforeMark"
  | independent => "Independent"
  | dependent => "Dependent"
  | modified => "Modified"
  | notModified => "NotModified"
  | notModified1 => "NotModified1"
  | final => "Final"
  | nonFinal => "Variable"
  | fluent => "Fluent"
  | identity => "Identity"
  | constant => "Constant"
  | singleton => "Singleton"
  | utilityClass => "UtilityClass"
  | extensionClass => "ExtensionClass"
  | finalizer => "Finalizer"
  | ignoreModifications => "IgnoreModifications"
  | mark => "Mark"
  | only => "Only"
  | testMark => "TestMark"

/-- The position among all names. -/
def rank (name : MarkerName) : Nat := all.idxOf name

instance : Ord MarkerName := ⟨fun a b => compare a.rank b.rank⟩

end MarkerName

/-- The value of a marker's argument. -/
inductive Argument where
  | bool (b : Bool)
  | int (n : Int64)
  | text (s : String)
  deriving DecidableEq, Repr

namespace Argument

def compare : Argument → Argument → Ordering
  | bool a, bool b => Ord.compare a b
  | bool _, _ => .lt
  | _, bool _ => .gt
  | int a, int b => Ord.compare a.toInt b.toInt
  | int _, _ => .lt
  | _, int _ => .gt
  | text a, text b => Ord.compare a b

instance : Ord Argument := ⟨Argument.compare⟩

/-- Texts stand in quotes as they are; a quote in them is not escaped. -/
def render : Argument → String
  | bool b => if b then "true" else "false"
  | int n => toString n.toInt
  | text s => "\"" ++ s ++ "\""

end Argument

structure Marker where
  name : MarkerName
  arguments : List (String × Argument)
  deriving DecidableEq, Repr

namespace Marker

/-- A marker without arguments. -/
def plain (name : MarkerName) : Marker := ⟨name, []⟩

/-- Adds an argument after the others. -/
def withArgument (m : Marker) (key : String) (value : Argument) : Marker :=
  { m with arguments := m.arguments ++ [(key, value)] }

/-- The first argument of a key. -/
def argument? (m : Marker) (key : String) : Option Argument := m.arguments.lookup key

/-- The text of an argument, empty if there is none or it is not a text. -/
def textArgument (m : Marker) (key : String) : String :=
  match m.argument? key with
  | some (.text s) => s
  | _ => ""

def compareArguments : List (String × Argument) → List (String × Argument) → Ordering
  | [], [] => .eq
  | [], _ :: _ => .lt
  | _ :: _, [] => .gt
  | (key, value) :: rest, (key', value') :: rest' =>
    ((Ord.compare key key').then (Ord.compare value value')).then (compareArguments rest rest')

def compare (a b : Marker) : Ordering :=
  (Ord.compare a.name b.name).then (compareArguments a.arguments b.arguments)

instance : Ord Marker := ⟨Marker.compare⟩

def render (m : Marker) : String :=
  if m.arguments.isEmpty then "@" ++ m.name.text
  else
    "@" ++ m.name.text ++ "("
      ++ String.intercalate ", " (m.arguments.map fun (key, value) => key ++ " = " ++ value.render)
      ++ ")"

end Marker

end Mutability
