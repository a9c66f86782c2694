import Mutability.Marker.Eventual
import Mutability.Marker.Set
import Mutability.Entity.Store

/-!
# Verdicts on single questions

What the facts of an entity say in markers about immutability, independence, nullness, size and
the single-axis questions. A state that no marker expresses at that kind of entity is a fault.
-/

namespace Mutability.Derivation

/-- Why an entity gets no markers. -/
inductive Fault where
  | wrongKind (entity : String) (expected actual : EntityKind)
  | notFrozen (entity : String)
  /-- A marker after the mark where no field stands for the mark. -/
  | notEventual (entity : String)
  /-- Eventual immutability of something that is not a type. -/
  | eventualOutsideType (entity : String) (kind : EntityKind)
  /-- A type on a known side of its own mark. -/
  | markSideOnType (entity : String) (kind : EntityKind)
  deriving DecidableEq, Repr

def Fault.message : Fault → String
  | wrongKind entity expected actual =>
    entity ++ " is a " ++ actual.text ++ ", expected a " ++ expected.text
  | notFrozen entity => entity ++ ": markers are derived from a frozen store only"
  | notEventual entity =>
    entity ++ " is not an eventually immutable type, cannot emit a marker after a mark"
  | eventualOutsideType entity kind =>
    "illegal eventual marker placement on " ++ kind.text ++ " " ++ entity
      ++ ": eventual immutability is only expressed on types"
  | markSideOnType entity kind =>
    "illegal eventual marker placement on " ++ kind.text ++ " " ++ entity
      ++ ": before and after mark states are not expressed on types"

/-- Present if established, absent if refuted, nothing while delayed. -/
def flagVerdicts (fact : Fact) (name : MarkerName) : List Verdict :=
  match fact with
  | .flag b => [(.plain name, b)]
  | _ => []

/-- One of `@Modified` and `@NotModified`, with the other one absent. -/
def modificationVerdicts : Fact → List Verdict
  | .flag modified => [(.plain .modified, modified), (.plain .notModified, !modified)]
  | _ => []

/-! ## Immutability -/

/-- The marker of a depth, in its container form if arguments are left alone. -/
def immutableName (depth : Nat) (container : Bool) : MarkerName :=
  if depth = 0 then (if container then .e1Container else .e1Immutable)
  else (if container then .e2Container else .e2Immutable)

/-- The question of immutability for one entity. -/
structure Immutability where
  entity : String
  kind : EntityKind
  immutable : MultiLevel
  container : Bool
  isInterface : Bool
  eventual : Eventual

/-- The marker of an entity known not to be immutable, if there is one. -/
def mutableVerdicts (q : Immutability) : List Verdict :=
  if q.immutable.readAt 0 = .no then
    if q.container then [.present (.plain .container)]
    else if q.kind = .type ∧ ¬ q.isInterface then
      [.present (.plain .mutableModifiesArguments)]
    else []
  else []

def immutabilityVerdicts (q : Immutability) : Except Fault (List Verdict) :=
  match q.immutable.best with
  | none => .ok (mutableVerdicts q)
  | some (depth, grade) =>
    let name := immutableName depth q.container
    match grade with
    | .delayed => .ok (mutableVerdicts q)
    | .no => .ok (mutableVerdicts q)
    | .effective => .ok [.present (.plain name)]
    | .eventual =>
      if q.kind = .type then
        if q.eventual.isEventual then
          .ok [.present ((Marker.plain name).withArgument "after" (.text q.eventual.label))]
        else .error (.notEventual q.entity)
      else .error (.eventualOutsideType q.entity q.kind)
    | .before =>
      if q.kind = .type then .error (.markSideOnType q.entity q.kind)
      else .ok [.present (.plain .beforeMark)]
    | .after =>
      if q.kind = .type then .error (.markSideOnType q.entity q.kind)
      else .ok [.present (.plain name)]

/-! ## Independence -/

/-- A delayed entity counts as dependent, except that of an interface nothing is said. -/
def independenceVerdicts (entity : String) (kind : EntityKind) (independent : Fact)
    (isInterface : Bool) (eventual : Eventual) : Except Fault (List Verdict) :=
  match independent.grades.readAt 0 with
  | .delayed =>
    if isInterface then .ok []
    else .ok [.absent (.plain .independent), .present (.plain .dependent)]
  | .no => .ok [.absent (.plain .independent), .present (.plain .dependent)]
  | .effective => .ok [.absent (.plain .dependent), .present (.plain .independent)]
  | _ =>
    if kind = .type ∧ eventual.isEventual then
      .ok [.absent (.plain .dependent),
        .present ((Marker.plain .independent).withArgument "after" (.text eventual.label))]
    else .error (.notEventual entity)

/-! ## Nullness -/

/-- A marker that does not hold is absent, and left open while the fact is delayed. -/
def refuted (notNull : Fact) (name : MarkerName) : List Verdict :=
  if notNull.isDelayed then [] else [.absent (.plain name)]

/-- The deepest marker that holds, with the deeper ones refuted. `@Nullable` holds as long as the
value itself is not known to be there. -/
def nullnessVerdicts (notNull : Fact) : List Verdict :=
  let grades := notNull.grades
  if (grades.readAt 2).holds then
    [.present (.plain .notNull2), .absent (.plain .nullable)]
  else if (grades.readAt 1).holds then
    refuted notNull .notNull2 ++ [.present (.plain .notNull1), .absent (.plain .nullable)]
  else if (grades.readAt 0).holds then
    refuted notNull .notNull2 ++ refuted notNull .notNull1
      ++ [.present (.plain .notNull), .absent (.plain .nullable)]
  else
    refuted notNull .notNull2 ++ refuted notNull .notNull1 ++ refuted notNull .notNull
      ++ [.present (.plain .nullable)]

/-! ## Size -/

def sizeArguments (size : Option Size) (leastKey exactKey : String) : List (String × Argument) :=
  match size with
  | some (.atLeast n) => [(leastKey, .int (Int64.ofNat n.toNat))]
  | some (.exactly n) => [(exactKey, .int (Int64.ofNat n.toNat))]
  | _ => []

def copyArguments : Option SizeCopy → List (String × Argument)
  | some .copyMin => [("copyMin", .bool true)]
  | some .copy => [("copy", .bool true)]
  | _ => []

/-- One `@Size` with the arguments that say something, or nothing. -/
def sizeVerdicts (copy size sizeOut : Fact) : List Verdict :=
  let arguments := copyArguments copy.sizeCopy?
    ++ sizeArguments size.size? "min" "equals"
    ++ sizeArguments sizeOut.size? "minOut" "equalsOut"
  if arguments.isEmpty then [] else [.present ⟨.size, arguments⟩]

/-! ## The mark -/

/-- `@Mark`, `@Only` and `@TestMark` of a method that has to do with the mark. -/
def markVerdicts (eventual : Eventual) : List Verdict :=
  if eventual.isEventual then
    let label := Argument.text eventual.label
    (if eventual.mark then [.present ⟨.mark, [("value", label)]⟩] else [])
      ++ (match eventual.after with
        | some true => [.present ⟨.only, [("after", label)]⟩]
        | some false => [.present ⟨.only, [("before", label)]⟩]
        | none => [])
      ++ (match eventual.test with
        | some true => [.present ⟨.testMark, [("value", label)]⟩]
        | some false => [.present ⟨.testMark, [("value", label), ("before", .bool true)]⟩]
        | none => [])
  else []

end Mutability.Derivation
