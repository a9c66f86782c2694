import Mutability.Analysis.Trace
import Mutability.Derivation.Parts

/-!
# Markers of entities

`derive` turns the frozen store of a type, method, field or parameter into its markers. What the
store does not hold comes with it as side facts.
-/

namespace Mutability.Derivation

structure TypeFacts where
  isInterface : Bool
  /-- The fields that stand for the mark. -/
  eventual : Eventual
  deriving DecidableEq, Repr

structure MethodFacts where
  isConstructor : Bool
  returnsVoid : Bool
  returnsPrimitive : Bool
  /-- The declared result is deeply immutable, at least eventually. -/
  returnTypeEventuallyDeep : Bool
  ownerIsInterface : Bool
  /-- What the method has to do with the mark. -/
  eventual : Eventual
  /-- More is known than the declared result type says. -/
  betterThanFormal : Bool
  deriving DecidableEq, Repr

structure FieldFacts where
  isPrimitive : Bool
  isExplicitlyFinal : Bool
  ownerImmutable : MultiLevel
  ownerEventual : Eventual
  betterThanFormal : Bool
  deriving DecidableEq, Repr

structure ParameterFacts where
  isPrimitive : Bool
  ownerIsInterface : Bool
  betterThanFormal : Bool
  deriving DecidableEq, Repr

inductive EntityFacts where
  | type (facts : TypeFacts)
  | method (facts : MethodFacts)
  | field (facts : FieldFacts)
  | parameter (facts : ParameterFacts)
  deriving DecidableEq, Repr

/-- Markers are derived for one kind of entity, from a frozen store. The kind is looked at first. -/
def checkStore (s : Store) (expected : EntityKind) : Except Fault Unit :=
  if s.kind ≠ expected then .error (.wrongKind s.entity expected s.kind)
  else if !s.frozen then .error (.notFrozen s.entity)
  else .ok ()

/-- The question of immutability as the store answers it. -/
def immutabilityOf (s : Store) (kind : EntityKind) (isInterface : Bool) (eventual : Eventual) :
    Immutability where
  entity := s.entity
  kind := kind
  immutable := (s.read .immutable).grades
  container := (s.read .container).level = .yes
  isInterface := isInterface
  eventual := eventual

/-- Immutability is only shown where it says more than the declared type. -/
def betterImmutability (s : Store) (kind : EntityKind) (better : Bool) (eventual : Eventual) :
    Except Fault (List Verdict) :=
  if better then immutabilityVerdicts (immutabilityOf s kind false eventual) else .ok []

def sizesOf (s : Store) : List Verdict :=
  sizeVerdicts (s.read .sizeCopy) (s.read .size) (s.read .sizeOut)

/-! ## Types -/

def typeVerdicts (s : Store) (facts : TypeFacts) : Except Fault (List Verdict) := do
  let immutability ← immutabilityVerdicts (immutabilityOf s .type facts.isInterface facts.eventual)
  let independence ← independenceVerdicts s.entity .type (s.read .independent) facts.isInterface
    facts.eventual
  return immutability ++ independence
    ++ flagVerdicts (s.read .singleton) .singleton
    ++ flagVerdicts (s.read .utilityClass) .utilityClass
    ++ flagVerdicts (s.read .extensionClass) .extensionClass

/-! ## Methods -/

/-- Independence matters for constructors, and for results that could hand out a field. -/
def independenceApplies (s : Store) (facts : MethodFacts) : Bool :=
  facts.isConstructor
    || (s.read .modified = .flag false && !facts.returnsVoid && !facts.returnTypeEventuallyDeep)

def methodIndependence (s : Store) (facts : MethodFacts) : Except Fault (List Verdict) :=
  if independenceApplies s facts then
    independenceVerdicts s.entity .method (s.read .independent) facts.ownerIsInterface .none
  else .ok []

/-- What is said of every method that is not a constructor. -/
def commonMethodVerdicts (s : Store) (facts : MethodFacts) : List Verdict :=
  modificationVerdicts (s.read .modified)
    ++ (if s.read .finalizer = .flag true then [.present (.plain .finalizer)] else [])
    ++ markVerdicts facts.eventual

/-- What is said of a result that is not primitive, immutability apart. -/
def resultVerdicts (s : Store) : List Verdict :=
  flagVerdicts (s.read .fluent) .fluent
    ++ nullnessVerdicts (s.read .notNull)
    ++ sizesOf s
    ++ flagVerdicts (s.read .notModified1) .notModified1

def methodVerdicts (s : Store) (facts : MethodFacts) : Except Fault (List Verdict) := do
  let independence ← methodIndependence s facts
  if facts.isConstructor then return independence
  else if facts.returnsVoid then return independence ++ commonMethodVerdicts s facts
  else
    let valued := independence ++ commonMethodVerdicts s facts
      ++ flagVerdicts (s.read .identity) .identity
    if facts.returnsPrimitive then return valued
    else
      let immutability ← betterImmutability s .method facts.betterThanFormal facts.eventual
      return valued ++ resultVerdicts s ++ immutability

/-! ## Fields -/

def ownerLabel (s : Store) (facts : FieldFacts) : Except Fault Argument :=
  if facts.ownerEventual.isEventual then .ok (.text facts.ownerEventual.label)
  else .error (.notEventual s.entity)

/-- A field that is not final may become so after the owner's mark. -/
def finalityVerdicts (s : Store) (facts : FieldFacts) : Except Fault (List Verdict) :=
  if s.read .final = .flag false then
    if (facts.ownerImmutable.readAt 0).isEventual then do
      let label ← ownerLabel s facts
      return [.present ⟨.final, [("after", label)]⟩]
    else .ok [.present (.plain .nonFinal)]
  else if s.read .final = .flag true ∧ ¬ facts.isExplicitlyFinal then
    .ok [.present (.plain .final)]
  else .ok []

/-- A field that is modified may no longer be so after the owner's mark. -/
def fieldModification (s : Store) (facts : FieldFacts) : Except Fault (List Verdict) :=
  if s.read .modified = .flag true ∧ (facts.ownerImmutable.readAt 1).isEventual then do
    let label ← ownerLabel s facts
    return [.present ⟨.notModified, [("after", label)]⟩]
  else if s.read .final = .flag true then .ok (modificationVerdicts (s.read .modified))
  else .ok []

def fieldVerdicts (s : Store) (facts : FieldFacts) : Except Fault (List Verdict) := do
  let finality ← finalityVerdicts s facts
  if facts.isPrimitive then return finality
  else
    let modification ← fieldModification s facts
    let immutability ← betterImmutability s .field facts.betterThanFormal facts.ownerEventual
    return finality ++ modification
      ++ flagVerdicts (s.read .notModified1) .notModified1
      ++ nullnessVerdicts (s.read .notNull)
      ++ sizesOf s
      ++ immutability

/-! ## Parameters -/

def parameterVerdicts (s : Store) (facts : ParameterFacts) : Except Fault (List Verdict) := do
  let modification := modificationVerdicts (s.read .modified)
  if facts.isPrimitive then return modification
  else
    let independence ← independenceVerdicts s.entity .parameter (s.read .independent)
      facts.ownerIsInterface .none
    let immutability ← betterImmutability s .parameter facts.betterThanFormal .none
    return modification
      ++ flagVerdicts (s.read .notModified1) .notModified1
      ++ nullnessVerdicts (s.read .notNull)
      ++ sizesOf s
      ++ independence
      ++ immutability

/-! ## All kinds -/

def EntityFacts.kind : EntityFacts → EntityKind
  | type _ => .type
  | method _ => .method
  | field _ => .field
  | parameter _ => .parameter

def verdicts (s : Store) : EntityFacts → Except Fault (List Verdict)
  | .type facts => typeVerdicts s facts
  | .method facts => methodVerdicts s facts
  | .field facts => fieldVerdicts s facts
  | .parameter facts => parameterVerdicts s facts

/-- The markers of a frozen store. -/
def derive (s : Store) (facts : EntityFacts) : Except Fault MarkerSet := do
  checkStore s facts.kind
  return MarkerSet.ofList (← verdicts s facts)

/-- Derives the markers in a span of the entity. -/
def deriveTraced (recording : Recording) (s : Store) (facts : EntityFacts) :
    Traced (Except Fault MarkerSet) :=
  inPhase recording .derive (entityAttributes s.entity s.kind) (return derive s facts)

end Mutability.Derivation
