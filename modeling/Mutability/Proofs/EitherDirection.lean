import Mutability.Proofs.EndlessSearch
import Mutability.Proofs.ModeRelations

/-!
# The mode for either direction

In this mode the better of the two covariant comparisons counts. Equal types and null are decided
before any direction is asked for, but in no other way than both directions together decide them, so
that the distance is the better of the two for all types (`distance_any`).

Exchanging the types only exchanges the two directions then. The better of two answers does not
depend on their order. Where one of them is missing, the first that is missing counts: faults may
differ, and a fault on one side may stand against a search without an end on the other
(`fault_or_endless`).
-/

namespace Mutability

namespace Outcome

/-- The better of two distances, if both are found. -/
def betterOf (x y : Outcome Distance) : Outcome Distance := do
  let first ← x
  let second ← y
  return first.better second

/-- The order of two comparisons decides at most which fault is reported, unless one of them has no
end; then there is no answer in either order. -/
theorem betterOf_swap (x y : Outcome Distance) :
    (∃ d, x.betterOf y = .answer d ∧ y.betterOf x = .answer d) ∨
    (∃ fault fault', x.betterOf y = .unresolved fault ∧ y.betterOf x = .unresolved fault') ∨
    (x = .unfinished ∨ y = .unfinished) ∧
      ∀ d, x.betterOf y ≠ .answer d ∧ y.betterOf x ≠ .answer d := by
  cases x with
  | answer a =>
    cases y with
    | answer b => exact Or.inl ⟨a.better b, rfl, congrArg answer (Distance.better_comm b a)⟩
    | unresolved fault => exact Or.inr (Or.inl ⟨fault, fault, rfl, rfl⟩)
    | unfinished => exact Or.inr (Or.inr ⟨Or.inr rfl, fun d => ⟨nofun, nofun⟩⟩)
  | unresolved fault =>
    cases y with
    | answer b => exact Or.inr (Or.inl ⟨fault, fault, rfl, rfl⟩)
    | unresolved fault' => exact Or.inr (Or.inl ⟨fault, fault', rfl, rfl⟩)
    | unfinished => exact Or.inr (Or.inr ⟨Or.inr rfl, fun d => ⟨nofun, nofun⟩⟩)
  | unfinished =>
    refine Or.inr (Or.inr ⟨Or.inl rfl, fun d => ⟨nofun, ?_⟩⟩)
    cases y <;> exact nofun

end Outcome

namespace Assignability

theorem solve_of_either {s : Setting} {q q' q'' : Query}
    (hmove : move s.hierarchy s.reversed q = .either q' q'') :
    solve s q = (solve s q').betterOf (solve s q'') := by
  obtain ⟨n, hn⟩ := exists_depth_solve s q
  obtain ⟨n', hn'⟩ := exists_depth_solve s q'
  obtain ⟨n'', hn''⟩ := exists_depth_solve s q''
  let depth := max n (max n' n'')
  rw [← hn (depth + 1) (by omega), ← hn' depth (by omega), ← hn'' depth (by omega), search_succ,
    hmove]
  rfl

end Assignability

namespace Hierarchy

open Assignability

section Any

variable (h : Hierarchy) (reversed : List TypeParameter) (target source : TypeExpr)

/-- The distance for either direction is the better of the two covariant ones. -/
theorem distance_any :
    h.distance reversed target source .any =
      (h.distance reversed target source .covariant).betterOf
        (h.distance reversed source target .covariant) := by
  by_cases hsame : target = source
  · subst hsame
    have hself : ∀ mode, h.distance reversed target target mode = .answer .equal :=
      fun mode => solve_of_done (move_of_trivial (by simp [Query.trivial]))
    rw [hself, hself]
    rfl
  · have hforward : ∀ mode, Query.trivial ⟨target, source, false, mode⟩ = false := by
      simp [Query.trivial, hsame]
    have hswapped : Query.trivial ⟨source, target, false, .covariant⟩ = false := by
      simp [Query.trivial, Ne.symm hsame]
    cases hsource : source.isNull with
    | false =>
      refine solve_of_either ?_
      simp [move, hforward, hsource]
    | true =>
      -- The rule for null is the same in all modes, so that the other direction may add nothing.
      have hnull : ∀ mode, h.distance reversed target source mode =
          .answer (if target.isPrimitive then .notAssignable else .nullLiteral) :=
        fun mode => solve_of_done (move_of_null (hforward mode) hsource)
      rw [hnull, hnull]
      cases htarget : target.isNull with
      | true =>
        have hother : h.distance reversed source target .covariant = .answer .nullLiteral := by
          rw [distance, solve_of_done (move_of_null hswapped htarget),
            isPrimitive_of_isNull hsource]
          rfl
        rw [hother, isPrimitive_of_isNull htarget]
        rfl
      | false =>
        have hother : h.distance reversed source target .covariant = .answer .notAssignable :=
          solve_of_done (move_of_null_target hswapped hsource htarget rfl)
        rw [hother]
        cases target.isPrimitive <;> rfl

/-- For either direction it does not matter which of two types is the target: the distance is the
same both ways, or a lookup fails both ways. Only where the covariant search in one of the two
directions has no end a fault may stand on one side alone, and there is no answer on the other. -/
theorem distance_any_comm :
    (∃ d, h.distance reversed target source .any = .answer d ∧
      h.distance reversed source target .any = .answer d) ∨
    (∃ fault fault', h.distance reversed target source .any = .unresolved fault ∧
      h.distance reversed source target .any = .unresolved fault') ∨
    (h.distance reversed target source .covariant = .unfinished ∨
        h.distance reversed source target .covariant = .unfinished) ∧
      ∀ d, h.distance reversed target source .any ≠ .answer d ∧
        h.distance reversed source target .any ≠ .answer d := by
  rw [distance_any, distance_any h reversed source target]
  exact Outcome.betterOf_swap _ _

end Any

/-! ## A climb without an end -/

namespace Ladder

open Assignability TypeExpr

/-- The declared supertype of `C<X>`, where `N` is not declared: `N<N<? super C<C<X>>>>`. -/
def rung : TypeExpr :=
  .applied "com.example.N" [.applied "com.example.N" [{ TypeExpr.applied "com.example.C"
    [.applied "com.example.C" [Platform.own "com.example.C" 0 "X"]] with wildcard := .lower }]]

def declaration : Declaration := Platform.classOf "com.example.C" ["X"] [rung]

def hierarchy : Hierarchy := Platform.hierarchy.extend [declaration]

abbrev source (k : Nat) (w : Wildcard) : TypeExpr :=
  { tower "com.example.C" (k + 1) with wildcard := w }

abbrev target (k : Nat) : TypeExpr := .applied "com.example.N" [source k .lower]

theorem find?_declaration : hierarchy.find? "com.example.C" = some declaration := rfl

theorem directSupertype_source (k : Nat) (w : Wildcard) :
    hierarchy.directSupertype (source k w) rung =
      .ok (.applied "com.example.N" [target (k + 1)]) := by
  have hproper : hierarchy.Proper (source k w) := proper_tower find?_declaration rfl k w
  have hknown : (source k w).Every hierarchy.Knows :=
    knows_tower (by decide +kernel) (by decide +kernel) (by decide +kernel) k w
  have hseen : declaration.seenFrom (source k w) rung =
      .applied "com.example.N" [target (k + 1)] := by
    cases k <;> rfl
  have hboxed : (tower "com.example.C" (k + 1)).boxed = tower "com.example.C" (k + 1) :=
    (proper_tower find?_declaration rfl k .plain).boxed
  obtain ⟨u, hu⟩ := exists_directSupertype hknown rung
  rw [hu, hproper.eq_seenFrom rfl find?_declaration (by decide) (by decide) hu, hseen]
  show Except.ok (applied "com.example.N" [applied "com.example.N" [⟨.nominal "com.example.C",
    [Bindings.boxArgument (tower "com.example.C" (k + 1)).boxed], 0, .lower⟩]]) = _
  rw [hboxed]
  rfl

/-- The climb from a type to a target leads to arguments, which are compared the other way round:
that is a climb from the type in the first target to a larger target. -/
theorem search_eq_unfinished (n k j : Nat) (w : Wildcard) (ignoreArrays : Bool)
    (path : List Visit) (hpath : ∀ v ∈ path, v.target.nesting + v.source.nesting < k + j + 5) :
    search ⟨hierarchy, [], true⟩ (3 * n) path ⟨target k, source j w, ignoreArrays, .covariant⟩ =
      .unfinished := by
  -- All visits under way are of smaller types, so that the guard stops none.
  induction n generalizing k j w ignoreArrays path with
  | zero => rfl
  | succ n ih =>
    let visit : Visit := ⟨target k, source j w, .covariant⟩
    have hnesting : visit.target.nesting + visit.source.nesting = k + j + 5 := by
      simp only [visit, target, source, tower, applied, nesting, nestingList, nesting_tower]
      omega
    have hvisits : ∀ v ∈ visit :: path, v.target.nesting + v.source.nesting < j + 1 + k + 5 := by
      intro v hv
      rcases List.mem_cons.mp hv with rfl | hv
      · omega
      · have := hpath v hv
        omega
    have hflipped : search ⟨hierarchy, [], true⟩ (3 * n + 1) (visit :: path)
        ⟨source k .lower, target (j + 1), true, .contravariant⟩ = .unfinished :=
      search_succ_eq_unfinished (move_eq_pass rfl rfl rfl) trivial rfl (by simp [Move.visit?])
        (ih (j + 1) k .lower true (visit :: path) hvisits)
    have harguments : search ⟨hierarchy, [], true⟩ (3 * n + 2) (visit :: path)
        ⟨target k, .applied "com.example.N" [target (j + 1)], true, .covariant⟩ = .unfinished :=
      search_succ_eq_unfinished
        (move_eq_sum rfl rfl rfl (by decide) rfl rfl (List.cons_ne_nil _ _) rfl) trivial rfl
        (by simp [Move.visit?]) hflipped
    have hclimb : move hierarchy [] ⟨target k, source j w, ignoreArrays, .covariant⟩ =
        .climb visit [rung] :=
      move_eq_climb rfl rfl (by decide) (by decide) rfl (Or.inr ⟨rfl, rfl⟩) find?_declaration rfl
    have hasked : (Move.climb visit [rung]).asked hierarchy =
        [⟨target k, .applied "com.example.N" [target (j + 1)], true, .covariant⟩] := by
      simp only [Move.asked, visit, List.filterMap_cons, directSupertype_source, Except.toOption,
        Option.map_some, List.filterMap_nil]
    refine search_succ_eq_unfinished hclimb ?_ hasked ?_ harguments
    · intro t ht
      obtain rfl := List.mem_singleton.mp ht
      exact ⟨_, directSupertype_source j w⟩
    · intro v hv hmem
      cases hv
      have := hpath visit hmem
      omega

end Ladder

/-- In one direction the lookup of `N` fails before anything else; in the other one the search goes
on for ever. -/
theorem fault_or_endless :
    let text := TypeExpr.nominal "java.lang.String"
    let target := TypeExpr.applied "com.example.C" [text]
    let source := TypeExpr.applied "com.example.N" [{ target with wildcard := .lower }]
    let larger := TypeExpr.applied "com.example.C"
      [.applied "com.example.C" [Platform.own "com.example.C" 0 "X"]]
    let batch := [Platform.classOf "com.example.C" ["X"]
      [.applied "com.example.N" [.applied "com.example.N" [{ larger with wildcard := .lower }]]]]
    ∃ h, Platform.hierarchy.register batch = .ok h ∧
      h.distance [] target source .any = .unresolved (.type "com.example.N") ∧
      h.distance [] source target .any = .unfinished := by
  intro text target source larger batch
  let h := Platform.hierarchy.extend batch
  have hacyclic : h.Acyclic := acyclic_of_order
    ("com.example.N" :: (Platform.declarations ++ batch).map (·.name)) (by decide +kernel)
  have hfault : h.distance [] target source .covariant = .unresolved (.type "com.example.N") := rfl
  have hendless : h.distance [] source target .covariant = .unfinished := by
    refine solve_eq_unfinished fun n => ?_
    have hsearch : search ⟨h, [], true⟩ (3 * n) [] ⟨source, target, false, .covariant⟩ =
        .unfinished := Ladder.search_eq_unfinished n 0 0 .plain false [] nofun
    exact search_eq_unfinished_of_le (by omega) hsearch
  refine ⟨h, register_of_acyclic (by decide +kernel) hacyclic, ?_, ?_⟩
  · rw [distance_any, hfault]
    rfl
  · rw [distance_any, hendless]
    rfl

end Hierarchy

end Mutability
