import Mutability.Proofs.Depth
import Mutability.Proofs.GroundSupertypes

/-!
# Searches without an end

A comparison has no end if the first further comparison has none and the guard does not stop it
(`search_succ_eq_unfinished`). The guard does not stop a climb through ever larger types. `tower`
gives such types: one class, applied again and again.
-/

namespace Mutability

namespace Outcome

theorem unfinished_bind {α β : Type} (next : α → Outcome β) :
    ((unfinished : Outcome α) >>= next) = unfinished := rfl

end Outcome

namespace Assignability

variable {h : Hierarchy} {reversed : List TypeParameter} {q : Query}

/-! ## Moves between named types -/

/-- A type of another name is climbed from. -/
theorem move_eq_climb {target source : String} {d : Declaration}
    (ht : q.target.base = .nominal target) (hs : q.source.base = .nominal source)
    (hne : target ≠ source) (hobject : target ≠ TypeExpr.objectName) (hmode : q.mode = .covariant)
    (harrays : q.ignoreArrays = true ∨ q.target.arrays = 0 ∧ q.source.arrays = 0)
    (hd : h.find? source = some d)
    (hboth : (h.isFunctional target && h.isFunctional source) = false) :
    move h reversed q = .climb ⟨q.target, q.source, .covariant⟩ (climbable d) := by
  have hbases : q.target.base ≠ q.source.base := by simp [ht, hs, hne]
  have htrivial : q.trivial = false := by
    have hdiff : q.target ≠ q.source := fun heq => hbases (by rw [heq])
    simp [Query.trivial, TypeExpr.equalsIgnoringArrays, hdiff, hbases]
  have hconcrete : concreteMove h q = .climb ⟨q.target, q.source, .covariant⟩ (climbable d) := by
    rcases harrays with hignore | ⟨htarget, hsource⟩
    · simp [concreteMove, hignore, ht, hs, hne, differentNamesMove, hboth, hmode,
        Hierarchy.require, hd, Move.after]
    · simp [concreteMove, htarget, hsource, ht, hs, hne, differentNamesMove, hboth, hmode,
        Hierarchy.require, hd, Move.after]
  simp [move, htrivial, TypeExpr.isNull, hs, hmode, directedMove, Query.topTakes,
    TypeExpr.isObject, TypeExpr.name?, ht, hobject, TypeExpr.isUnboundWildcard, hconcrete]

/-- Types of one name are compared by their arguments. -/
theorem move_eq_sum {name : String} (ht : q.target.base = .nominal name)
    (hs : q.source.base = .nominal name) (htrivial : q.trivial = false)
    (hobject : name ≠ TypeExpr.objectName) (hmode : q.mode = .covariant)
    (hignore : q.ignoreArrays = true) (hsome : q.target.arguments ≠ [])
    (hlength : q.target.arguments.length = q.source.arguments.length) :
    move h reversed q = .sum
      (List.zipWith (argumentQuery .covariant) q.target.arguments q.source.arguments) := by
  have hconcrete : concreteMove h q = .sum
      (List.zipWith (argumentQuery .covariant) q.target.arguments q.source.arguments) := by
    simp [concreteMove, hignore, ht, hs, sameNameMove, hmode, hsome, hlength]
  simp [move, htrivial, TypeExpr.isNull, hs, hmode, directedMove, Query.topTakes,
    TypeExpr.isObject, TypeExpr.name?, ht, hobject, TypeExpr.isUnboundWildcard, hconcrete]

theorem move_eq_pass (htrivial : q.trivial = false) (hnull : q.source.isNull = false)
    (hmode : q.mode = .contravariant) :
    move h reversed q = .pass ⟨q.source, q.target, q.ignoreArrays, .covariant⟩ := by
  simp [move, htrivial, hnull, hmode]

/-! ## Moves without an end -/

/-- A move has no end if its first query has none and the guard does not stop it. -/
theorem Move.run_eq_unfinished {recur : Answerer} {path : List Visit} {m : Move}
    {rest : List Query} (hresolved : m.Resolved h) (hasked : m.asked h = q :: rest)
    (hopen : ∀ v, m.visit? = some v → v ∉ path) (hq : recur (m.enter path) q = .unfinished) :
    m.run ⟨h, reversed, true⟩ recur path = .unfinished := by
  have hguarded : ∀ v (expand : List Visit → Outcome Distance), m.visit? = some v →
      guarded ⟨h, reversed, true⟩ path v expand = expand (v :: path) := by
    intro v expand hv
    simp [guarded, hopen v hv]
  cases m with
  | done result => cases hasked
  | pass q' =>
    cases hasked
    exact hq
  | either q' q'' =>
    cases hasked
    have hfirst : recur path q = .unfinished := hq
    rw [run, hfirst, Outcome.unfinished_bind]
  | sum qs =>
    obtain rfl : qs = q :: rest := hasked
    have hfirst : recur path q = .unfinished := hq
    rw [run, sumOf, hfirst, Outcome.unfinished_bind]
  | bounds v qs =>
    obtain rfl : qs = q :: rest := hasked
    have hfirst : recur (v :: path) q = .unfinished := hq
    rw [run, hguarded v _ rfl, bestOf, hfirst, Outcome.unfinished_bind]
  | climb v declared =>
    cases declared with
    | nil => cases hasked
    | cons t ts =>
      obtain ⟨u, hu⟩ := hresolved t List.mem_cons_self
      obtain rfl : ⟨v.target, u, true, v.mode⟩ = q := by
        simp only [asked, List.filterMap_cons, hu, Except.toOption, Option.map_some,
          List.cons.injEq] at hasked
        exact hasked.1
      have hfirst : recur (v :: path) ⟨v.target, u, true, v.mode⟩ = .unfinished := hq
      rw [run, hguarded v _ rfl, firstHop, hu]
      show (recur (v :: path) ⟨v.target, u, true, v.mode⟩ >>= _) = _
      rw [hfirst, Outcome.unfinished_bind]

theorem search_succ_eq_unfinished {n : Nat} {path : List Visit} {q' : Query} {rest : List Query}
    {m : Move} (hmove : move h reversed q = m) (hresolved : m.Resolved h)
    (hasked : m.asked h = q' :: rest) (hopen : ∀ v, m.visit? = some v → v ∉ path)
    (hq : search ⟨h, reversed, true⟩ n (m.enter path) q' = .unfinished) :
    search ⟨h, reversed, true⟩ (n + 1) path q = .unfinished := by
  rw [search_succ, hmove]
  exact Move.run_eq_unfinished hresolved hasked hopen hq

theorem solve_eq_unfinished {s : Setting} (hq : ∀ n, search s n [] q = .unfinished) :
    solve s q = .unfinished := by
  obtain ⟨n, hn⟩ := exists_depth_solve s q
  rw [← hn n (Nat.le_refl n)]
  exact hq n

end Assignability

/-! ## Towers -/

namespace TypeExpr

/-- A class applied to itself as many times as given. -/
def tower (name : String) : Nat → TypeExpr
  | 0 => .nominal "java.lang.String"
  | k + 1 => .applied name [tower name k]

theorem nesting_tower (name : String) (k : Nat) : (tower name k).nesting = k + 1 := by
  induction k with
  | zero => rfl
  | succ k ih => simp [tower, applied, nesting, nestingList, ih]

theorem base_of_mem_tower {name : String} {k : Nat} {o : TypeExpr}
    (ho : o ∈ (tower name k).occurrences) :
    o.base = .nominal name ∨ o.base = .nominal "java.lang.String" := by
  induction k with
  | zero =>
    obtain rfl : o = .nominal "java.lang.String" := List.mem_singleton.mp ho
    exact Or.inr rfl
  | succ k ih =>
    rw [occurrences_eq] at ho
    rcases List.mem_cons.mp ho with rfl | ho
    · exact Or.inl rfl
    · obtain ⟨a, ha, ho⟩ := mem_inner.mp ho
      obtain rfl := List.mem_singleton.mp ha
      exact ih ho

end TypeExpr

namespace Hierarchy

variable {h : Hierarchy} {outer name : String} {d : Declaration}

theorem proper_tower (hd : h.find? outer = some d) (hformals : d.formals.length = 1) (k : Nat)
    (w : Wildcard) :
    h.Proper { TypeExpr.applied outer [.tower name k] with wildcard := w } where
  named := ⟨outer, rfl⟩
  fitting := by
    refine Or.inr fun d' hd' => ?_
    obtain rfl : d = d' := Option.some.inj (hd.symm.trans hd')
    exact hformals.symm
  fixed := by
    refine .intro (fun _ => nofun) fun a ha => ?_
    obtain rfl := List.mem_singleton.mp ha
    refine TypeExpr.every_iff_occurrences.mpr fun o ho p hp => ?_
    rcases TypeExpr.base_of_mem_tower ho with hbase | hbase <;> cases hbase.symm.trans hp
  boxed := by
    refine Bindings.boxed_of_inner fun o ho => ?_
    obtain ⟨a, ha, ho⟩ := TypeExpr.mem_inner.mp ho
    obtain rfl := List.mem_singleton.mp ha
    rcases TypeExpr.base_of_mem_tower ho with hbase | hbase <;>
      simp [TypeExpr.isPrimitive, TypeExpr.primitive?, hbase]

theorem knows_tower (houter : h.Declares outer) (hname : h.Declares name)
    (htext : h.Declares "java.lang.String") (k : Nat) (w : Wildcard) :
    TypeExpr.Every h.Knows { TypeExpr.applied outer [.tower name k] with wildcard := w } := by
  refine .intro houter fun a ha => ?_
  obtain rfl := List.mem_singleton.mp ha
  refine TypeExpr.every_iff_occurrences.mpr fun o ho => ?_
  rcases TypeExpr.base_of_mem_tower ho with hbase | hbase <;> rw [hbase]
  · exact hname
  · exact htext

end Hierarchy

end Mutability
