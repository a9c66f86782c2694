import Mathlib.Tactic.SplitIfs
import Mutability.Types.Assignability

/-!
# Moves of a search

A comparison asks further queries, but which ones does not depend on their answers nor on the visits
under way. `move` says what a query does next, as data, and `step_eq_run` that a comparison does
just that. `Makes` lists all moves with what holds of the two types where they are made; what is
said about searches elsewhere goes by these cases.
-/

namespace Mutability.Assignability

/-! ## Moves -/

/-- What a comparison does next. -/
inductive Move where
  /-- It is decided. -/
  | done (result : Except Unresolved Distance)
  /-- Another query takes its place. -/
  | pass (q : Query)
  /-- The better of two queries is taken. -/
  | either (q q' : Query)
  /-- The answers for type arguments are added up. -/
  | sum (qs : List Query)
  /-- A visit to bounds takes the best of their answers. -/
  | bounds (visit : Visit) (qs : List Query)
  /-- A visit to declared supertypes of the source takes the first that fits. -/
  | climb (visit : Visit) (declared : List TypeExpr)

namespace Move

def visit? : Move → Option Visit
  | bounds visit _ => some visit
  | climb visit _ => some visit
  | _ => none

/-- The visits under way while the queries of a move are answered. -/
def enter (m : Move) (path : List Visit) : List Visit := m.visit?.toList ++ path

/-- The queries that a move can lead to. -/
def asked (h : Hierarchy) : Move → List Query
  | done _ => []
  | pass q => [q]
  | either q q' => [q, q']
  | sum qs => qs
  | bounds _ qs => qs
  | climb visit declared => declared.filterMap fun t =>
      (h.directSupertype visit.source t).toOption.map fun u => ⟨visit.target, u, true, visit.mode⟩

/-- Does a move, with its queries left to `recur`. -/
def run (s : Setting) (recur : Answerer) (path : List Visit) : Move → Outcome Distance
  | done result => .ofExcept result
  | pass q => recur path q
  | either q q' => do
    let first ← recur path q
    let second ← recur path q'
    return first.better second
  | sum qs => sumOf (recur path) qs .equal
  | bounds visit qs => guarded s path visit fun path => bestOf (recur path) qs .notAssignable
  | climb visit declared => guarded s path visit fun path =>
      firstHop (fun t => do
        let concrete ← s.hierarchy.directSupertype visit.source t
        recur path ⟨visit.target, concrete, true, visit.mode⟩) declared

/-- A lookup that a move depends on. -/
def after {α : Type} (x : Except Unresolved α) (next : α → Move) : Move :=
  match x with
  | .ok a => next a
  | .error fault => done (.error fault)

end Move

/-! ## The move of a query -/

def sameNameMove (target source : TypeExpr) (mode : Mode) : Move :=
  if mode = .erasure then .done (.ok .sameType)
  else if target.arguments.isEmpty && source.arguments.isEmpty then
    .done (.ok (compareWildcards target.wildcard source.wildcard mode))
  else if target.arguments.length ≠ source.arguments.length then .done (.ok .sameType)
  else .sum (List.zipWith (argumentQuery mode) target.arguments source.arguments)

def compareFunctional (h : Hierarchy) (target source : TypeExpr) (mode : Mode) :
    Except Unresolved Distance := do
  let left ← h.signature? target
  let right ← h.signature? source
  match left, right with
  | some left, some right => return compareSignatures left right mode
  | _, _ => return .notAssignable

def differentNamesMove (h : Hierarchy) (target source : TypeExpr) (targetName sourceName : String)
    (mode : Mode) : Move :=
  if h.isFunctional targetName && h.isFunctional sourceName then
    .done (compareFunctional h target source mode)
  else if mode = .covariant ∨ mode = .erasure then
    .after (h.require sourceName) fun d => .climb ⟨target, source, mode⟩ (climbable d)
  else .done (.ok .notAssignable)

def concreteMove (h : Hierarchy) (q : Query) : Move :=
  if !q.ignoreArrays && q.target.arrays ≠ q.source.arrays then .done (.ok .notAssignable)
  else if !q.ignoreArrays && q.target.arrays > 0 then
    .pass ⟨q.target.withoutArrays, q.source.withoutArrays, false, q.mode⟩
  else
    match q.target.base, q.source.base with
    | .primitive target, .primitive source => .done (.ok (target.widening source q.mode))
    | .primitive p, .nominal name => .done (.ok (p.boxing name))
    | .nominal name, .primitive p => .done (.ok (p.boxing name))
    | .nominal target, .nominal source =>
      if target = source then sameNameMove q.target q.source q.mode
      else differentNamesMove h q.target q.source target source q.mode
    | _, _ => .done (.ok .notAssignable)

def parameterSourceMove (h : Hierarchy) (reversed : List TypeParameter) (q : Query)
    (p : TypeParameter) : Move :=
  if reversed.contains p then .pass ⟨q.source, q.target, q.ignoreArrays, q.mode⟩
  else .after (h.bounds p) fun bounds =>
    .bounds ⟨q.target, .parameter p, q.mode⟩
      (bounds.map fun bound => ⟨q.target, bound, true, q.mode⟩)

def againstBoundsMove (q : Query) (p : TypeParameter) (bounds sources : List TypeExpr) : Move :=
  .bounds ⟨.parameter p, { q.source with wildcard := .plain }, q.mode⟩
    (boundQueries bounds sources q.mode)

def parameterTargetMove (h : Hierarchy) (q : Query) (p : TypeParameter) : Move :=
  .after (h.bounds p) fun bounds =>
    if bounds.isEmpty then .done (.ok .hop)
    else
      match q.source.base with
      | .nominal _ => againstBoundsMove q p bounds [q.source]
      | .primitive _ => againstBoundsMove q p bounds [q.source]
      | .parameter source => .after (h.bounds source) fun sourceBounds =>
        if sourceBounds.isEmpty then .done (.ok .hop) else againstBoundsMove q p bounds sourceBounds
      | _ => .done (.ok .notAssignable)

def directedMove (h : Hierarchy) (reversed : List TypeParameter) (q : Query) : Move :=
  if q.mode ≠ .invariant ∧ q.topTakes then .done (.ok .hop)
  else if q.target.isUnboundWildcard then .done (.ok .unboundWildcard)
  else
    match q.target.base, q.source.base with
    | .parameter p, _ => parameterTargetMove h q p
    | .null, _ => .done (.ok .notAssignable)
    | .wildcard, _ => .done (.ok .notAssignable)
    | _, .parameter p => parameterSourceMove h reversed q p
    | _, .null => .done (.ok .notAssignable)
    | _, .wildcard => .done (.ok .notAssignable)
    | _, _ => concreteMove h q

/-- The move by which a query is answered. -/
def move (h : Hierarchy) (reversed : List TypeParameter) (q : Query) : Move :=
  if q.trivial then .done (.ok .equal)
  else if q.source.isNull then
    .done (.ok (if q.target.isPrimitive then .notAssignable else .nullLiteral))
  else
    match q.mode with
    | .contravariant => .pass ⟨q.source, q.target, q.ignoreArrays, .covariant⟩
    | .any => .either ⟨q.target, q.source, q.ignoreArrays, .covariant⟩
        ⟨q.source, q.target, q.ignoreArrays, .covariant⟩
    | _ => directedMove h reversed q

section Step

variable (s : Setting) (recur : Answerer) (path : List Visit)

theorem run_after {α : Type} (x : Except Unresolved α) (next : α → Move) :
    (Move.after x next).run s recur path =
      Outcome.ofExcept x >>= fun a => (next a).run s recur path := by
  cases x <;> rfl

theorem sameName_eq_run (target source : TypeExpr) (mode : Mode) :
    sameName recur path target source mode =
      (sameNameMove target source mode).run s recur path := by
  unfold sameName sameNameMove
  split_ifs <;> rfl

theorem functional_eq_ofExcept (target source : TypeExpr) (mode : Mode) :
    functional s target source mode =
      .ofExcept (compareFunctional s.hierarchy target source mode) := by
  unfold functional compareFunctional
  cases s.hierarchy.signature? target with
  | error fault => rfl
  | ok left =>
    cases s.hierarchy.signature? source with
    | error fault => rfl
    | ok right => cases left <;> cases right <;> rfl

theorem differentNames_eq_run (target source : TypeExpr) (targetName sourceName : String)
    (mode : Mode) :
    differentNames s recur path target source targetName sourceName mode =
      (differentNamesMove s.hierarchy target source targetName sourceName mode).run s recur
        path := by
  unfold differentNames differentNamesMove
  split_ifs with hboth hmode
  · exact functional_eq_ofExcept s target source mode
  · rw [run_after]
    rcases hmode with rfl | rfl <;> rfl
  · cases mode with
    | covariant => simp at hmode
    | erasure => simp at hmode
    | invariant => rfl
    | contravariant => rfl
    | any => rfl

theorem concrete_eq_run (q : Query) :
    concrete s recur path q = (concreteMove s.hierarchy q).run s recur path := by
  unfold concrete concreteMove
  split_ifs with harrays helements
  · rfl
  · rfl
  · cases q.target.base with
    | nominal target =>
      cases q.source.base with
      | nominal source =>
        simp only
        split_ifs
        · exact sameName_eq_run s recur path _ _ _
        · exact differentNames_eq_run s recur path _ _ _ _ _
      | primitive | parameter | null | wildcard => rfl
    | primitive | parameter | null | wildcard => cases q.source.base <;> rfl

theorem parameterSource_eq_run (q : Query) (p : TypeParameter) :
    parameterSource s recur path q p =
      (parameterSourceMove s.hierarchy s.reversed q p).run s recur path := by
  unfold parameterSource parameterSourceMove
  split_ifs
  · rfl
  · rw [run_after]
    rfl

theorem parameterTarget_eq_run (q : Query) (p : TypeParameter) :
    parameterTarget s recur path q p =
      (parameterTargetMove s.hierarchy q p).run s recur path := by
  unfold parameterTarget parameterTargetMove
  rw [run_after]
  congr 1
  funext bounds
  split_ifs
  · rfl
  · cases q.source.base with
    | parameter source =>
      simp only [run_after]
      congr 1
      funext sourceBounds
      split_ifs <;> rfl
    | nominal | primitive | null | wildcard => rfl

theorem directed_eq_run (q : Query) :
    directed s recur path q = (directedMove s.hierarchy s.reversed q).run s recur path := by
  unfold directed directedMove byBase
  split_ifs
  · rfl
  · rfl
  · cases q.target.base with
    | parameter p => exact parameterTarget_eq_run s recur path q p
    | null | wildcard => rfl
    | nominal | primitive =>
      cases q.source.base with
      | parameter p => exact parameterSource_eq_run s recur path q p
      | null | wildcard => rfl
      | nominal | primitive => exact concrete_eq_run s recur path q

/-- A comparison does the move of its query. -/
theorem step_eq_run (q : Query) :
    step s recur path q = (move s.hierarchy s.reversed q).run s recur path := by
  unfold step move
  split_ifs
  · rfl
  · rfl
  · rfl
  · cases q.mode with
    | contravariant => rfl
    | any => rfl
    | invariant | covariant | erasure => exact directed_eq_run s recur path q

end Step

/-! ## What a move can be -/

/-- The mode has one direction. -/
def Directed (mode : Mode) : Prop := mode ≠ .contravariant ∧ mode ≠ .any

/-- A named type or a primitive. -/
def IsConcrete : Base → Prop
  | .nominal _ => True
  | .primitive _ => True
  | _ => False

theorem IsConcrete.ne_parameter {base : Base} (hbase : IsConcrete base) (p : TypeParameter) :
    base ≠ .parameter p := by
  rintro rfl
  exact hbase

/-- All moves of a query, with what holds where it makes them. -/
inductive Makes (h : Hierarchy) (reversed : List TypeParameter) (q : Query) : Move → Prop where
  | done (result : Except Unresolved Distance) : Makes h reversed q (.done result)
  | flip : q.mode = .contravariant →
      Makes h reversed q (.pass ⟨q.source, q.target, q.ignoreArrays, .covariant⟩)
  | both : q.mode = .any →
      Makes h reversed q (.either ⟨q.target, q.source, q.ignoreArrays, .covariant⟩
        ⟨q.source, q.target, q.ignoreArrays, .covariant⟩)
  | elements : 0 < q.target.arrays → q.ignoreArrays = false →
      Makes h reversed q (.pass ⟨q.target.withoutArrays, q.source.withoutArrays, false, q.mode⟩)
  | arguments {name : String} : q.source.base = .nominal name →
      Makes h reversed q
        (.sum (List.zipWith (argumentQuery q.mode) q.target.arguments q.source.arguments))
  | swap {p : TypeParameter} : Directed q.mode → IsConcrete q.target.base →
      q.source.base = .parameter p →
      Makes h reversed q (.pass ⟨q.source, q.target, q.ignoreArrays, q.mode⟩)
  | climb {source : String} {d : Declaration} : IsConcrete q.target.base →
      q.source.base = .nominal source → h.find? source = some d → q.mode ≠ .invariant →
      Makes h reversed q (.climb ⟨q.target, q.source, q.mode⟩ (climbable d))
  | sourceBounds {p : TypeParameter} {bounds : List TypeExpr} : IsConcrete q.target.base →
      q.source.base = .parameter p → h.bounds p = .ok bounds →
      Makes h reversed q (.bounds ⟨q.target, .parameter p, q.mode⟩
        (bounds.map fun bound => ⟨q.target, bound, true, q.mode⟩))
  | targetBounds {p : TypeParameter} {bounds : List TypeExpr} : Directed q.mode →
      q.target.base = .parameter p → h.bounds p = .ok bounds → IsConcrete q.source.base →
      Makes h reversed q (againstBoundsMove q p bounds [q.source])
  | bothBounds {p p' : TypeParameter} {bounds bounds' : List TypeExpr} :
      q.target.base = .parameter p → h.bounds p = .ok bounds →
      q.source.base = .parameter p' → h.bounds p' = .ok bounds' →
      Makes h reversed q (againstBoundsMove q p bounds bounds')

section Makes

variable {h : Hierarchy} {reversed : List TypeParameter} {q : Query}

theorem Makes.after {α : Type} {x : Except Unresolved α} {next : α → Move}
    (hnext : ∀ a, x = .ok a → Makes h reversed q (next a)) :
    Makes h reversed q (.after x next) := by
  cases x with
  | ok a => exact hnext a rfl
  | error fault => exact .done _

theorem find?_of_require {name : String} {d : Declaration} (hd : h.require name = .ok d) :
    h.find? name = some d := by
  unfold Hierarchy.require at hd
  split at hd
  · rename_i hfind
    cases hd
    exact hfind
  · cases hd

theorem makes_sameNameMove {name : String} (hsource : q.source.base = .nominal name) :
    Makes h reversed q (sameNameMove q.target q.source q.mode) := by
  unfold sameNameMove
  split_ifs
  · exact .done _
  · exact .done _
  · exact .done _
  · exact .arguments hsource

theorem makes_differentNamesMove (htarget : IsConcrete q.target.base) (target : String)
    {source : String} (hsource : q.source.base = .nominal source) :
    Makes h reversed q (differentNamesMove h q.target q.source target source q.mode) := by
  unfold differentNamesMove
  split_ifs with hfunctional hmode
  · exact .done _
  · have hvariant : q.mode ≠ .invariant := by rcases hmode with hq | hq <;> simp [hq]
    exact .after fun d hd => .climb htarget hsource (find?_of_require hd) hvariant
  · exact .done _

theorem makes_concreteMove (htarget : IsConcrete q.target.base) :
    Makes h reversed q (concreteMove h q) := by
  unfold concreteMove
  split_ifs with harrays helements
  · exact .done _
  · simp only [Bool.and_eq_true, Bool.not_eq_true', decide_eq_true_eq] at helements
    exact .elements helements.2 helements.1
  · split
    · exact .done _
    · exact .done _
    · exact .done _
    · rename_i target source _ hsource
      split_ifs
      · exact makes_sameNameMove hsource
      · exact makes_differentNamesMove htarget target hsource
    · exact .done _

theorem makes_parameterSourceMove (hmode : Directed q.mode) (htarget : IsConcrete q.target.base)
    {p : TypeParameter} (hsource : q.source.base = .parameter p) :
    Makes h reversed q (parameterSourceMove h reversed q p) := by
  unfold parameterSourceMove
  split_ifs
  · exact .swap hmode htarget hsource
  · exact .after fun bounds hbounds => .sourceBounds htarget hsource hbounds

theorem makes_parameterTargetMove (hmode : Directed q.mode) {p : TypeParameter}
    (htarget : q.target.base = .parameter p) :
    Makes h reversed q (parameterTargetMove h q p) := by
  refine .after fun bounds hbounds => ?_
  split_ifs
  · exact .done _
  · split
    · rename_i hsource
      exact .targetBounds hmode htarget hbounds (by simp [hsource, IsConcrete])
    · rename_i hsource
      exact .targetBounds hmode htarget hbounds (by simp [hsource, IsConcrete])
    · rename_i hsource
      refine .after fun bounds' hbounds' => ?_
      split_ifs
      · exact .done _
      · exact .bothBounds htarget hbounds hsource hbounds'
    · exact .done _

theorem makes_directedMove (hmode : Directed q.mode) :
    Makes h reversed q (directedMove h reversed q) := by
  unfold directedMove
  split_ifs
  · exact .done _
  · exact .done _
  · cases htarget : q.target.base with
    | parameter p => exact makes_parameterTargetMove hmode htarget
    | null | wildcard => exact .done _
    | nominal | primitive =>
      have hconcrete : IsConcrete q.target.base := by simp [htarget, IsConcrete]
      cases hsource : q.source.base with
      | parameter p => exact makes_parameterSourceMove hmode hconcrete hsource
      | null | wildcard => exact .done _
      | nominal | primitive => exact makes_concreteMove hconcrete

theorem makes_move (h : Hierarchy) (reversed : List TypeParameter) (q : Query) :
    Makes h reversed q (move h reversed q) := by
  unfold move
  split_ifs
  · exact .done _
  · exact .done _
  · exact .done _
  · cases hmode : q.mode with
    | contravariant => exact .flip hmode
    | any => exact .both hmode
    | invariant | covariant | erasure => exact makes_directedMove (by simp [Directed, hmode])

/-- A visit keeps the bases of the two types and the mode of its query. -/
theorem Makes.visit_bases {v : Visit} {m : Move} (hm : Makes h reversed q m)
    (hv : m.visit? = some v) :
    v.target.base = q.target.base ∧ v.source.base = q.source.base ∧ v.mode = q.mode := by
  cases hm with
  | done | flip | both | elements | arguments | swap => cases hv
  | climb htarget hsource hd =>
    cases hv
    exact ⟨rfl, rfl, rfl⟩
  | sourceBounds htarget hsource hbounds =>
    cases hv
    exact ⟨rfl, hsource.symm, rfl⟩
  | targetBounds hmode htarget hbounds hsource =>
    cases hv
    exact ⟨htarget.symm, rfl, rfl⟩
  | bothBounds htarget hbounds hsource hbounds' =>
    cases hv
    exact ⟨htarget.symm, rfl, rfl⟩

end Makes

/-! ## Moves of some queries -/

section Queries

variable {h : Hierarchy} {reversed : List TypeParameter} {q : Query}

theorem move_of_trivial (htrivial : q.trivial = true) :
    move h reversed q = .done (.ok .equal) := by
  simp [move, htrivial]

theorem move_of_directed (hmode : Directed q.mode) (hsource : IsConcrete q.source.base)
    (htrivial : q.trivial = false) : move h reversed q = directedMove h reversed q := by
  have hnull : q.source.isNull = false := by
    cases hbase : q.source.base <;> simp_all [TypeExpr.isNull, IsConcrete]
  unfold move
  rw [htrivial, hnull]
  cases hq : q.mode with
  | contravariant => exact absurd hq hmode.1
  | any => exact absurd hq hmode.2
  | invariant | covariant | erasure => rfl

theorem directedMove_of_parameter {p : TypeParameter}
    (htarget : q.target.base = .parameter p) :
    directedMove h reversed q = parameterTargetMove h q p := by
  have htop : q.topTakes = false := by
    simp [Query.topTakes, TypeExpr.isObject, TypeExpr.name?, htarget]
  have hunbound : q.target.isUnboundWildcard = false := by
    simp [TypeExpr.isUnboundWildcard, htarget]
  simp [directedMove, htop, hunbound, htarget]

theorem parameterTargetMove_of_concrete (hsource : IsConcrete q.source.base)
    (p : TypeParameter) :
    parameterTargetMove h q p = .after (h.bounds p) fun bounds =>
      if bounds.isEmpty then .done (.ok .hop) else againstBoundsMove q p bounds [q.source] := by
  unfold parameterTargetMove
  cases hbase : q.source.base with
  | nominal | primitive => rfl
  | parameter | null | wildcard => simp [hbase, IsConcrete] at hsource

end Queries

end Mutability.Assignability
