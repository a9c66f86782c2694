import Mutability.Types.Outcome
import Mutability.Types.Supertype

/-!
# Assignability

How far a source type is from a target type. A comparison leads to further ones: of type
arguments, of supertypes and of the bounds of type parameters. `step` makes one comparison and
hands the further ones to a function it is given; `search` ties the knot within a depth, and `solve`
goes as deep as it takes.

Supertypes and bounds may lead back to where they started. A comparison that is entered again
while it is under way is not assignable, so that such a search comes to an end. The setting can
leave this guard out.
-/

namespace Mutability

namespace Assignability

structure Setting where
  hierarchy : Hierarchy
  /-- Type parameters that are compared the other way round where they are the source. -/
  reversed : List TypeParameter
  guarded : Bool

structure Query where
  target : TypeExpr
  source : TypeExpr
  /-- Array dimensions of the two types themselves do not count. -/
  ignoreArrays : Bool
  mode : Mode
  deriving DecidableEq, Repr

/-- A comparison that goes on to supertypes or bounds. -/
structure Visit where
  target : TypeExpr
  source : TypeExpr
  mode : Mode
  deriving DecidableEq, Repr

/-- Answers a query while the given visits are under way. -/
abbrev Answerer := List Visit → Query → Outcome Distance

/-! ## Several queries -/

/-- The sum of the answers, up to the first that is not assignable. -/
def sumOf (answer : Query → Outcome Distance) : List Query → Distance → Outcome Distance
  | [], sum => .answer sum
  | q :: qs, sum => do
    let sum := sum.plus (← answer q)
    if sum.isAssignable then sumOf answer qs sum else return sum

/-- The best of all answers. -/
def bestOf (answer : Query → Outcome Distance) : List Query → Distance → Outcome Distance
  | [], best => .answer best
  | q :: qs, best => do bestOf answer qs (best.better (← answer q))

/-- The first answer that is assignable, with one hop added. -/
def firstHop (answer : TypeExpr → Outcome Distance) : List TypeExpr → Outcome Distance
  | [] => .answer .notAssignable
  | t :: ts => do
    let distance ← answer t
    if distance.isAssignable then return Distance.hop.plus distance else firstHop answer ts

/-! ## Two types of one name -/

/-- Two types without arguments; wildcards matter only if the types have to be the same. -/
def compareWildcards (target source : Wildcard) (mode : Mode) : Distance :=
  if target = source ∨ mode ≠ .invariant ∨ (target ≠ .plain ∧ source ≠ .plain) then .sameType
  else .notAssignable

/-- The comparison of two arguments goes by the wildcard on the target's side. -/
def argumentQuery (mode : Mode) (target source : TypeExpr) : Query :=
  ⟨target, source, true, mode.forArgument target.wildcard⟩

/-- A raw type, or one with a wrong number of arguments, fits every other. -/
def sameName (recur : Answerer) (path : List Visit) (target source : TypeExpr) (mode : Mode) :
    Outcome Distance :=
  if mode = .erasure then .answer .sameType
  else if target.arguments.isEmpty && source.arguments.isEmpty then
    .answer (compareWildcards target.wildcard source.wildcard mode)
  else if target.arguments.length ≠ source.arguments.length then .answer .sameType
  else
    sumOf (recur path) (List.zipWith (argumentQuery mode) target.arguments source.arguments) .equal

/-! ## Two types of different names -/

/-- Functional interfaces are compared by the shape of their methods. -/
def compareSignatures (target source : Signature) (mode : Mode) : Distance :=
  if target.parameters.length ≠ source.parameters.length then .notAssignable
  else if !target.returnsVoid && source.returnsVoid then .notAssignable
  else if mode = .erasure then .sameType
  else if (target.returnsVoid || target.result = source.result)
      && target.parameters = source.parameters then .equal
  else .notAssignable

def functional (s : Setting) (target source : TypeExpr) (mode : Mode) : Outcome Distance := do
  let left ← s.hierarchy.signature? target
  let right ← s.hierarchy.signature? source
  match left, right with
  | some left, some right => return compareSignatures left right mode
  | _, _ => return .notAssignable

/-- Goes on with a visit, unless it is under way already. -/
def guarded (s : Setting) (path : List Visit) (visit : Visit)
    (expand : List Visit → Outcome Distance) : Outcome Distance :=
  if s.guarded && path.contains visit then .answer .notAssignable else expand (visit :: path)

/-- The declared supertypes to climb to; the top type is not one of them. -/
def climbable (d : Declaration) : List TypeExpr :=
  d.interfaces ++ (d.parent.filter (!·.isObject)).toList

/-- Looks for the target among the supertypes of the source. -/
def climb (s : Setting) (recur : Answerer) (path : List Visit) (target source : TypeExpr)
    (name : String) (mode : Mode) : Outcome Distance := do
  let d ← s.hierarchy.require name
  guarded s path ⟨target, source, mode⟩ fun path =>
    firstHop (fun declared => do
      let concrete ← s.hierarchy.directSupertype source declared
      recur path ⟨target, concrete, true, mode⟩) (climbable d)

def differentNames (s : Setting) (recur : Answerer) (path : List Visit)
    (target source : TypeExpr) (targetName sourceName : String) (mode : Mode) :
    Outcome Distance :=
  if s.hierarchy.isFunctional targetName && s.hierarchy.isFunctional sourceName then
    functional s target source mode
  else
    match mode with
    | .covariant => climb s recur path target source sourceName mode
    | .erasure => climb s recur path target source sourceName mode
    | _ => .answer .notAssignable

/-! ## Concrete types -/

/-- Arrays have to have as many dimensions; their elements are then compared. -/
def concrete (s : Setting) (recur : Answerer) (path : List Visit) (q : Query) :
    Outcome Distance :=
  if !q.ignoreArrays && q.target.arrays ≠ q.source.arrays then .answer .notAssignable
  else if !q.ignoreArrays && q.target.arrays > 0 then
    recur path ⟨q.target.withoutArrays, q.source.withoutArrays, false, q.mode⟩
  else
    match q.target.base, q.source.base with
    | .primitive target, .primitive source => .answer (target.widening source q.mode)
    | .primitive p, .nominal name => .answer (p.boxing name)
    | .nominal name, .primitive p => .answer (p.boxing name)
    | .nominal target, .nominal source =>
      if target = source then sameName recur path q.target q.source q.mode
      else differentNames s recur path q.target q.source target source q.mode
    | _, _ => .answer .notAssignable

/-! ## Type parameters -/

/-- A type parameter as the source is as good as its best bound. -/
def parameterSource (s : Setting) (recur : Answerer) (path : List Visit) (q : Query)
    (p : TypeParameter) : Outcome Distance :=
  if s.reversed.contains p then recur path ⟨q.source, q.target, q.ignoreArrays, q.mode⟩
  else do
    let bounds ← s.hierarchy.bounds p
    guarded s path ⟨q.target, .parameter p, q.mode⟩ fun path =>
      bestOf (recur path) (bounds.map fun bound => ⟨q.target, bound, true, q.mode⟩) .notAssignable

/-- The comparisons of a target parameter's bounds with the given sources. -/
def boundQueries (bounds sources : List TypeExpr) (mode : Mode) : List Query :=
  bounds.flatMap fun bound => sources.map fun source => ⟨bound, source, true, mode⟩

/-- The best comparison of the target's bounds with the sources. -/
def againstBounds (s : Setting) (recur : Answerer) (path : List Visit) (q : Query)
    (p : TypeParameter) (bounds sources : List TypeExpr) : Outcome Distance :=
  guarded s path ⟨.parameter p, { q.source with wildcard := .plain }, q.mode⟩ fun path =>
    bestOf (recur path) (boundQueries bounds sources q.mode) .notAssignable

/-- A type parameter as the target takes all without bounds, and otherwise what one of its bounds
takes; of a source that is a parameter the bounds are compared. -/
def parameterTarget (s : Setting) (recur : Answerer) (path : List Visit) (q : Query)
    (p : TypeParameter) : Outcome Distance := do
  let bounds ← s.hierarchy.bounds p
  if bounds.isEmpty then return .hop
  else
    match q.source.base with
    | .nominal _ => againstBounds s recur path q p bounds [q.source]
    | .primitive _ => againstBounds s recur path q p bounds [q.source]
    | .parameter source => do
      let sourceBounds ← s.hierarchy.bounds source
      if sourceBounds.isEmpty then return .hop
      else againstBounds s recur path q p bounds sourceBounds
    | _ => return .notAssignable

/-! ## All types -/

/-- The comparison by the bases of the two types. -/
def byBase (s : Setting) (recur : Answerer) (path : List Visit) (q : Query) : Outcome Distance :=
  match q.target.base, q.source.base with
  | .parameter p, _ => parameterTarget s recur path q p
  | .null, _ => .answer .notAssignable
  | .wildcard, _ => .answer .notAssignable
  | _, .parameter p => parameterSource s recur path q p
  | _, .null => .answer .notAssignable
  | _, .wildcard => .answer .notAssignable
  | _, _ => concrete s recur path q

/-- The two types are the same as far as the query looks at them. -/
def Query.trivial (q : Query) : Bool :=
  q.target = q.source || (q.ignoreArrays && q.target.equalsIgnoringArrays q.source)

/-- The top type takes all but arrays of fewer or as many dimensions as it has itself. -/
def Query.topTakes (q : Query) : Bool :=
  q.target.isObject
    && (q.ignoreArrays || q.target.arrays = 0 || q.target.arrays < q.source.arrays)

/-- The comparison in a mode that has one direction. -/
def directed (s : Setting) (recur : Answerer) (path : List Visit) (q : Query) :
    Outcome Distance :=
  if q.mode ≠ .invariant ∧ q.topTakes then .answer .hop
  else if q.target.isUnboundWildcard then .answer .unboundWildcard
  else byBase s recur path q

/-- One comparison, with the further ones left to `recur`. -/
def step (s : Setting) (recur : Answerer) (path : List Visit) (q : Query) : Outcome Distance :=
  if q.trivial then .answer .equal
  else if q.source.isNull then
    .answer (if q.target.isPrimitive then .notAssignable else .nullLiteral)
  else
    match q.mode with
    | .contravariant => recur path ⟨q.source, q.target, q.ignoreArrays, .covariant⟩
    | .any => do
      let forward ← recur path ⟨q.target, q.source, q.ignoreArrays, .covariant⟩
      let backward ← recur path ⟨q.source, q.target, q.ignoreArrays, .covariant⟩
      return forward.better backward
    | _ => directed s recur path q

/-- Answers a query within a depth of further comparisons. -/
def search (s : Setting) : Nat → Answerer
  | 0 => fun _ _ => .unfinished
  | depth + 1 => step s (search s depth)

/-- How deep a search goes at first: as deep as the hierarchy is high and the types are nested, and
much deeper than any program needs to go through bounds. -/
def searchDepth (h : Hierarchy) (target source : TypeExpr) : Nat :=
  10000 + h.size + target.nesting + source.nesting

/-- The outcome of a query at a depth that is enough for it, unfinished only if no depth is. -/
def solve (s : Setting) (q : Query) : Outcome Distance :=
  .deepen (fun depth => search s depth [] q) (searchDepth s.hierarchy q.target q.source)

end Assignability

namespace Hierarchy

/-- The distance from a source type to a target type. -/
def distance (h : Hierarchy) (reversed : List TypeParameter) (target source : TypeExpr)
    (mode : Mode) : Outcome Distance :=
  Assignability.solve ⟨h, reversed, true⟩ ⟨target, source, false, mode⟩

theorem distance_of_search {h : Hierarchy} {reversed : List TypeParameter}
    {target source : TypeExpr} {mode : Mode} {d : Distance}
    (hd : Assignability.search ⟨h, reversed, true⟩ (Assignability.searchDepth h target source) []
      ⟨target, source, false, mode⟩ = .answer d) :
    h.distance reversed target source mode = .answer d := by
  simp only [distance, Assignability.solve, Outcome.deepen, hd]

/-- A value of the source type can be stored in the target type. -/
def isAssignable (h : Hierarchy) (target source : TypeExpr) : Outcome Bool := do
  return (← h.distance [] target source .covariant).isAssignable

end Hierarchy

end Mutability
