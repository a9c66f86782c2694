import Mutability.Marker.Eventual
import Mutability.Marker.Basic
import Mutability.Entity.Store

/-!
# Contracts

Markers that the user wrote are read back as facts. Most markers state a fact of their own; those
on immutability, containers and nullness are taken together first, and `@Mark`, `@Only` and
`@TestMark` give the method's eventual descriptor. `importAll` writes the facts into a store.
-/

namespace Mutability

structure Contract where
  marker : Marker
  /-- The opposite of the marker is asserted. -/
  absent : Bool
  deriving DecidableEq, Repr

namespace Contract

inductive Fault where
  | store (fault : Store.Fault)
  | eventual (fault : Eventual.Fault)
  /-- An `@Only` that names no label. -/
  | missingLabel (marker : Marker)
  deriving DecidableEq, Repr

def Fault.message : Fault → String
  | store fault => fault.message
  | eventual fault => fault.message
  | missingLabel marker => "marker " ++ marker.render ++ " has no parameter before or after"

/-! ## Facts of single markers -/

/-- The single-axis property that a marker of this name asserts as it stands. -/
def flagProperty? : MarkerName → Option Property
  | .constant => some .constant
  | .extensionClass => some .extensionClass
  | .fluent => some .fluent
  | .identity => some .identity
  | .ignoreModifications => some .ignoreModifications
  | .singleton => some .singleton
  | .utilityClass => some .utilityClass
  | .notModified1 => some .notModified1
  | .finalizer => some .finalizer
  | .beforeMark => some .beforeMark
  | _ => none

/-- An integer argument that fits a size. -/
def countArgument? (marker : Marker) (key : String) : Option UInt32 :=
  match marker.argument? key with
  | some (.int n) => if n.toInt < 0 then none else Size.word? n.toInt.toNat
  | _ => none

/-- An exact count counts before a lower bound. -/
def sizeArgument? (marker : Marker) (exactKey leastKey : String) : Option Size :=
  match countArgument? marker exactKey with
  | some n => some (.exactly n)
  | none => (countArgument? marker leastKey).map .atLeast

def copyArgument? (marker : Marker) : Option SizeCopy :=
  if marker.argument? "copy" = some (.bool true) then some .copy
  else if marker.argument? "copyMin" = some (.bool true) then some .copyMin
  else none

def sizeFacts (marker : Marker) : List (Property × Fact) :=
  ((sizeArgument? marker "equals" "min").map fun s => (Property.size, Fact.size s)).toList
    ++ ((sizeArgument? marker "equalsOut" "minOut").map fun s =>
        (Property.sizeOut, Fact.size s)).toList
    ++ ((copyArgument? marker).map fun c => (Property.sizeCopy, Fact.sizeCopy c)).toList

/-- The facts that one contract states on its own. -/
def ownFacts (c : Contract) : List (Property × Fact) :=
  match c.marker.name with
  | .notModified => [(.modified, .flag c.absent)]
  | .modified => [(.modified, .flag (!c.absent))]
  | .final => [(.final, .flag (!c.absent))]
  | .nonFinal => [(.final, .flag c.absent)]
  | .independent => [(.independent, .multi .independent)]
  | .dependent => [(.independent, .multi .dependent)]
  | .size => sizeFacts c.marker
  | name => ((flagProperty? name).map fun p => (p, Fact.flag (!c.absent))).toList

/-! ## Facts of all markers together -/

/-- The immutability after one more marker: deep counts before shallow, and
`@MutableModifiesArguments` takes back what was said. -/
def foldImmutable (known : Option MultiLevel) (c : Contract) : Option MultiLevel :=
  match c.marker.name with
  | .e1Immutable => some (known.getD .shallowImmutable)
  | .e1Container => some (known.getD .shallowImmutable)
  | .e2Immutable => some .deepImmutable
  | .e2Container => some .deepImmutable
  | .mutableModifiesArguments => none
  | _ => known

def foldContainer (known : Bool) (c : Contract) : Bool :=
  match c.marker.name with
  | .e1Container => true
  | .e2Container => true
  | .container => true
  | .mutableModifiesArguments => false
  | _ => known

/-- The latest marker on nullness counts. -/
def foldNotNull (known : Option MultiLevel) (c : Contract) : Option MultiLevel :=
  match c.marker.name with
  | .nullable => some .nullable
  | .notNull => some .notNull
  | .notNull1 => some .contentNotNull
  | .notNull2 => some .deepContentNotNull
  | _ => known

def jointFacts (contracts : List Contract) : List (Property × Fact) :=
  (if contracts.foldl foldContainer false then [(Property.container, Fact.flag true)] else [])
    ++ ((contracts.foldl foldImmutable none).map fun m => (Property.immutable, Fact.multi m)).toList
    ++ ((contracts.foldl foldNotNull none).map fun m => (Property.notNull, Fact.multi m)).toList

/-- All facts in the order they are written. -/
def factsOf (contracts : List Contract) : List (Property × Fact) :=
  contracts.flatMap ownFacts ++ jointFacts contracts

/-! ## The eventual descriptor -/

/-- The latest marker of a name. -/
def latest? (contracts : List Contract) (name : MarkerName) : Option Marker :=
  (contracts.reverse.find? (·.marker.name = name)).map (·.marker)

def describe (fields : List String) (mark : Bool) (after test : Option Bool) :
    Except Fault Eventual :=
  match Eventual.make fields mark after test with
  | .ok e => .ok e
  | .error fault => .error (.eventual fault)

/-- `@Only` decides before `@Mark`, and `@Mark` before `@TestMark`; a label before the mark counts
before one after it. -/
def eventualOf (contracts : List Contract) : Except Fault Eventual :=
  let mark := latest? contracts .mark
  match latest? contracts .only with
  | some only =>
    let before := only.textArgument "before"
    let label := if before = "" then only.textArgument "after" else before
    if label = "" then .error (.missingLabel only)
    else describe (Eventual.splitLabels label) mark.isSome (some (before = "")) none
  | none =>
    match mark with
    | some mark => describe (Eventual.splitLabels (mark.textArgument "value")) true none none
    | none =>
      match latest? contracts .testMark with
      | some test =>
        describe (Eventual.splitLabels (test.textArgument "value")) false none
          (some (test.argument? "before" ≠ some (.bool true)))
      | none => .ok .none

/-- Writes the facts of the contracts and gives the descriptor. Facts written before a refused one
stay, and so do all of them if only the descriptor fails. -/
def importAll (s : Store) (contracts : List Contract) : Store × Except Fault Eventual :=
  match s.setAll (factsOf contracts) with
  | (s', some fault) => (s', .error (.store fault))
  | (s', none) => (s', eventualOf contracts)

end Contract

end Mutability
