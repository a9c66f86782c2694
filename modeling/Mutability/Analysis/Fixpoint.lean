import Mutability.Analysis.Configuration
import Mutability.Entity.Store
import Mutability.Analysis.Trace

/-!
# Fixpoint runs

An analysis looks at one entity at a time and writes its store. Passes over all entities are
repeated until one of them changes nothing. If nothing is waited for by then, the run has converged
and every store is frozen; otherwise it ends delayed, as it does when its passes are used up. An
analysis that fails ends the run at once.
-/

namespace Mutability

/-- What the analysis of one entity did in a pass. -/
structure PassReport where
  changed : Bool
  /-- The properties it found delayed. -/
  delayed : List Property
  deriving DecidableEq, Repr

def PassReport.stable : PassReport := ⟨false, []⟩

/-- Looks at an entity in a pass and returns its store, also where it fails. -/
abbrev Analysis (ε : Type) := String → Store → Nat → Store × Except ε PassReport

/-- The stores of all entities, in the order in which they are visited. -/
abbrev Stores := List (String × Store)

inductive FixpointOutcome where
  | converged (passes : Nat)
  /-- What is still waited for, by entity. -/
  | delayed (passes : Nat) (pending : List (String × List Property))
  deriving DecidableEq, Repr

def FixpointOutcome.isConverged : FixpointOutcome → Bool
  | converged _ => true
  | delayed _ _ => false

/-- An analysis that failed, with where it did. -/
structure AnalysisFailure (ε : Type) where
  entity : String
  pass : Nat
  cause : ε
  deriving DecidableEq, Repr

def AnalysisFailure.message {ε : Type} (causeText : ε → String) (f : AnalysisFailure ε) : String :=
  "analyse " ++ f.entity ++ s!" in pass {f.pass}: " ++ causeText f.cause

namespace Stores

/-- Adds the store of an entity in the order of names, in place of an earlier one. -/
def insert (entity : String) (store : Store) : Stores → Stores
  | [] => [(entity, store)]
  | (other, kept) :: rest =>
    if entity < other then (entity, store) :: (other, kept) :: rest
    else if entity = other then (entity, store) :: rest
    else (other, kept) :: insert entity store rest

def freezeAll (stores : Stores) : Stores := stores.map fun (entity, store) => (entity, store.freeze)

end Stores

namespace Fixpoint

variable {ε : Type}

/-! ## One pass -/

/-- The stores that a pass leaves, and its reports or the failure that ends it. -/
abbrev PassEnd (ε : Type) := Stores × Except (AnalysisFailure ε) (List (String × PassReport))

/-- Analyses the entities in order, up to the first failure, each in a span below a context. -/
def analyseAll (recording : Recording) (analysis : Analysis ε) (pass : Nat) (parent : Context) :
    Stores → Traced (PassEnd ε)
  | [] => return ([], .ok [])
  | (entity, store) :: rest => do
    let (store, answer) ←
      inChildPhase recording .analyse (entityAttributes entity store.kind) parent
        (return analysis entity store pass)
    match answer with
    | .error cause => return ((entity, store) :: rest, .error ⟨entity, pass, cause⟩)
    | .ok report =>
      let (others, reports) ← analyseAll recording analysis pass parent rest
      return ((entity, store) :: others, reports.map ((entity, report) :: ·))

/-- The context is taken down once for all entities, which may be analysed outside of it. -/
def runPass (recording : Recording) (analysis : Analysis ε) (pass : Nat) (stores : Stores) :
    Traced (PassEnd ε) := do
  analyseAll recording analysis pass (← get).current stores

def changedIn (reports : List (String × PassReport)) : Bool := reports.any (·.2.changed)

/-- The entities that wait for something, with what they wait for. -/
def pendingIn (reports : List (String × PassReport)) : List (String × List Property) :=
  (reports.filter (!·.2.delayed.isEmpty)).map fun (entity, report) => (entity, report.delayed)

/-! ## All passes -/

/-- The stores that a run leaves, and its outcome or the failure that ends it. -/
abbrev RunEnd (ε : Type) := Stores × Except (AnalysisFailure ε) FixpointOutcome

/-- Runs at most `budget` passes from a pass on; `pending` is what the last pass waited for. -/
def runPasses (recording : Recording) (analysis : Analysis ε) (budget pass : Nat)
    (pending : List (String × List Property)) (stores : Stores) : Traced (RunEnd ε) :=
  match budget with
  | 0 => return (stores, .ok (.delayed pass pending))
  | budget + 1 => do
    let (stores, reports) ←
      inPhase recording .pass [("engine.pass", .int pass)] (runPass recording analysis pass stores)
    match reports with
    | .error failure => return (stores, .error failure)
    | .ok reports =>
      if changedIn reports then
        runPasses recording analysis budget (pass + 1) (pendingIn reports) stores
      else if (pendingIn reports).isEmpty then
        return (stores.freezeAll, .ok (.converged (pass + 1)))
      else return (stores, .ok (.delayed (pass + 1) (pendingIn reports)))

/-- A run that ends delayed is noted on the current span. -/
def noteDelay : Except (AnalysisFailure ε) FixpointOutcome → Traced Unit
  | .ok (.delayed passes pending) =>
    recordEvent ⟨"engine.fixpoint.delayed",
      [("engine.passes", .int passes), ("engine.delayed_entities", .int pending.length)]⟩
  | _ => return ()

/-- Runs passes until nothing changes or they are used up, under a tracer. -/
def runTraced (configuration : Configuration) (recording : Recording) (analysis : Analysis ε)
    (stores : Stores) : Traced (RunEnd ε) :=
  inPhase recording .fixpoint
    [("engine.entities", .int stores.length), ("engine.parallel", .bool configuration.parallel)] do
      let (stores, result) ← runPasses recording analysis configuration.maxPasses 0 [] stores
      noteDelay result
      return (stores, result)

structure Run (ε : Type) where
  stores : Stores
  result : Except (AnalysisFailure ε) FixpointOutcome
  /-- The spans of the run in the order in which they ended. -/
  spans : List SpanRecord

/-- A run that is part of no other work. -/
def run (configuration : Configuration) (recording : Recording) (analysis : Analysis ε)
    (stores : Stores) : Run ε :=
  let ((stores, result), tracer) :=
    (runTraced configuration recording analysis stores).run .idle
  ⟨stores, result, tracer.ended⟩

end Fixpoint

end Mutability
