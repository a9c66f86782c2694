import Mutability.Proofs.Termination

/-!
# Symmetry of the invariant mode

Types that have to be the same are compared alike from both sides, as long as they are made of
primitives and of names that are no functional interfaces. The moves of such a query and of the one
with its types exchanged mirror each other (`move_mirrors`): both are decided alike, or lead to
queries that are again exchanged. These are of less weight, and no declaration is looked up on the
way, so that both have an answer and it is the same (`search_flipped`).
-/

namespace Mutability

/-- A primitive, or a name that is no functional interface; it need not be declared. -/
def Hierarchy.ByName (h : Hierarchy) : Base → Prop
  | .nominal name => h.isFunctional name = false
  | .primitive _ => True
  | _ => False

instance (h : Hierarchy) : DecidablePred h.ByName
  | .nominal name => inferInstanceAs (Decidable (h.isFunctional name = false))
  | .primitive _ => .isTrue trivial
  | .parameter _ => .isFalse id
  | .null => .isFalse id
  | .wildcard => .isFalse id

theorem Primitive.widening_invariant (p p' : Primitive) :
    p.widening p' .invariant = .notAssignable := by
  unfold widening
  split <;> rfl

namespace Assignability

theorem isConcrete_of_byName {h : Hierarchy} {base : Base} (hbase : h.ByName base) :
    IsConcrete base := by
  cases base with
  | nominal | primitive => trivial
  | parameter | null | wildcard => exact hbase

/-! ## Exchanged queries -/

namespace Query

/-- The query with its two types exchanged. -/
def flipped (q : Query) : Query := ⟨q.source, q.target, q.ignoreArrays, q.mode⟩

/-- The query asks whether two types made of primitives and names are the same. -/
structure Exact (h : Hierarchy) (q : Query) : Prop where
  mode : q.mode = .invariant
  target : q.target.Every h.ByName
  source : q.source.Every h.ByName

variable {h : Hierarchy} {q : Query}

theorem Exact.flipped (hq : q.Exact h) : q.flipped.Exact h := ⟨hq.mode, hq.source, hq.target⟩

theorem trivial_flipped (q : Query) : q.flipped.trivial = q.trivial := by
  simp only [trivial, Query.flipped, TypeExpr.equalsIgnoringArrays, eq_comm]

end Query

section Exact

variable {h : Hierarchy} {reversed : List TypeParameter} {q : Query} (hq : q.Exact h)

include hq

theorem move_of_exact :
    move h reversed q = if q.trivial then .done (.ok .equal) else concreteMove h q := by
  have htarget := isConcrete_of_byName hq.target.base
  have hsource := isConcrete_of_byName hq.source.base
  split
  · rename_i htrivial
    exact move_of_trivial htrivial
  · rename_i htrivial
    rw [move_of_directed (by simp [Directed, hq.mode]) hsource (by simpa using htrivial)]
    unfold directedMove
    cases ht : q.target.base with
    | parameter | null | wildcard => simp [ht, IsConcrete] at htarget
    | nominal | primitive =>
      cases hs : q.source.base with
      | parameter | null | wildcard => simp [hs, IsConcrete] at hsource
      | nominal | primitive => simp [hq.mode, TypeExpr.isUnboundWildcard, ht]

/-- An exact query leads to exact queries of less weight. -/
theorem exact_of_asked {q' : Query} (hasked : q' ∈ (move h reversed q).asked h) :
    q'.Exact h ∧ weight q' < weight q := by
  have htarget := isConcrete_of_byName hq.target.base
  have hsource := isConcrete_of_byName hq.source.base
  have hmakes := makes_move h reversed q
  generalize move h reversed q = m at hasked hmakes
  have hweight : m.visit? = none → weight q' < weight q :=
    fun hplain => hmakes.weight_lt hplain hasked
  cases hmakes with
  | done result => simp [Move.asked] at hasked
  | flip hmode => simp [hq.mode] at hmode
  | both hmode => simp [hq.mode] at hmode
  | elements =>
    obtain rfl := List.mem_singleton.mp hasked
    have ht : q.target.withoutArrays.Every h.ByName := .intro hq.target.base hq.target.arguments
    have hs : q.source.withoutArrays.Every h.ByName := .intro hq.source.base hq.source.arguments
    exact ⟨⟨hq.mode, ht, hs⟩, hweight rfl⟩
  | arguments =>
    obtain ⟨ht, hs, hmode⟩ := mem_arguments_of_mem_zipWith hasked
    rw [hq.mode] at hmode
    exact ⟨⟨hmode, hq.target.arguments _ ht, hq.source.arguments _ hs⟩, hweight rfl⟩
  | swap _ _ hparameter => exact absurd hparameter (hsource.ne_parameter _)
  | climb _ _ _ hmode => exact absurd hq.mode hmode
  | sourceBounds _ hparameter => exact absurd hparameter (hsource.ne_parameter _)
  | targetBounds _ hparameter => exact absurd hparameter (htarget.ne_parameter _)
  | bothBounds hparameter => exact absurd hparameter (htarget.ne_parameter _)

end Exact

/-! ## Moves that mirror each other -/

/-- Both moves are decided alike, or lead to queries that are exchanged. -/
inductive Move.Mirrors : Move → Move → Prop where
  | done (d : Distance) : Move.Mirrors (.done (.ok d)) (.done (.ok d))
  | pass (q : Query) : Move.Mirrors (.pass q) (.pass q.flipped)
  | sum (qs : List Query) : Move.Mirrors (.sum qs) (.sum (qs.map .flipped))

theorem compareWildcards_comm (a b : Wildcard) (mode : Mode) :
    compareWildcards a b mode = compareWildcards b a mode := by
  simp only [compareWildcards, eq_comm (a := a), and_comm (a := a ≠ .plain)]

theorem zipWith_argumentQuery_flipped (as bs : List TypeExpr) :
    List.zipWith (argumentQuery .invariant) bs as =
      (List.zipWith (argumentQuery .invariant) as bs).map .flipped := by
  rw [List.map_zipWith, List.zipWith_comm]
  rfl

theorem sameNameMove_mirrors (target source : TypeExpr) :
    (sameNameMove target source .invariant).Mirrors (sameNameMove source target .invariant) := by
  have hempty : (source.arguments.isEmpty && target.arguments.isEmpty) =
      (target.arguments.isEmpty && source.arguments.isEmpty) := Bool.and_comm _ _
  have hlength : source.arguments.length ≠ target.arguments.length ↔
      target.arguments.length ≠ source.arguments.length := ne_comm
  unfold sameNameMove
  simp only [hempty, hlength, zipWith_argumentQuery_flipped target.arguments,
    compareWildcards_comm source.wildcard, reduceCtorEq, ↓reduceIte]
  split_ifs
  · exact .done _
  · exact .done _
  · exact .sum _

theorem differentNamesMove_invariant {h : Hierarchy} {targetName : String}
    (hfunctional : h.isFunctional targetName = false) (target source : TypeExpr)
    (sourceName : String) :
    differentNamesMove h target source targetName sourceName .invariant =
      .done (.ok .notAssignable) := by
  simp [differentNamesMove, hfunctional]

theorem concreteMove_mirrors {h : Hierarchy} {q : Query} (hq : q.Exact h) :
    (concreteMove h q).Mirrors (concreteMove h q.flipped) := by
  have hdiffer : (!q.ignoreArrays && decide (q.source.arrays ≠ q.target.arrays)) =
      (!q.ignoreArrays && decide (q.target.arrays ≠ q.source.arrays)) := by
    simp only [ne_comm]
  unfold concreteMove
  simp only [Query.flipped, hdiffer, hq.mode]
  split
  · exact .done _
  · rename_i harrays
    have helements : (!q.ignoreArrays && decide (q.source.arrays > 0)) =
        (!q.ignoreArrays && decide (q.target.arrays > 0)) := by
      cases hignore : q.ignoreArrays with
      | true => rfl
      | false =>
        have heq : q.target.arrays = q.source.arrays := by simpa [hignore] using harrays
        rw [heq]
    simp only [helements]
    split
    · exact .pass _
    · have htarget := hq.target.base
      have hsource := hq.source.base
      generalize q.target.base = target, q.source.base = source at htarget hsource ⊢
      cases target with
      | parameter | null | wildcard => cases htarget
      | primitive p =>
        cases source with
        | parameter | null | wildcard => cases hsource
        | primitive p' =>
          simp only [Primitive.widening_invariant]
          exact .done _
        | nominal name => exact .done _
      | nominal name =>
        cases source with
        | parameter | null | wildcard => cases hsource
        | primitive p => exact .done _
        | nominal name' =>
          simp only [differentNamesMove_invariant htarget, differentNamesMove_invariant hsource,
            eq_comm (a := name')]
          split
          · exact sameNameMove_mirrors _ _
          · exact .done _

theorem move_mirrors {h : Hierarchy} (reversed : List TypeParameter) {q : Query} (hq : q.Exact h) :
    (move h reversed q).Mirrors (move h reversed q.flipped) := by
  rw [move_of_exact hq, move_of_exact hq.flipped, q.trivial_flipped]
  split
  · exact .done _
  · exact concreteMove_mirrors hq

/-! ## Answers -/

theorem sumOf_map (answer : Query → Outcome Distance) (f : Query → Query) (qs : List Query)
    (sum : Distance) : sumOf answer (qs.map f) sum = sumOf (answer ∘ f) qs sum := by
  induction qs generalizing sum with
  | nil => rfl
  | cons q qs ih =>
    simp only [List.map_cons, sumOf, ih]
    rfl

/-- Moves that mirror each other come to the same answer if the queries they lead to do. -/
theorem Move.Mirrors.run {s : Setting} {recur : Answerer} {path : List Visit} {m m' : Move}
    (hm : m.Mirrors m')
    (hasked : ∀ q ∈ m.asked s.hierarchy,
      recur path q = recur path q.flipped ∧ ∃ d, recur path q = .answer d) :
    m.run s recur path = m'.run s recur path ∧ ∃ d, m.run s recur path = .answer d := by
  cases hm with
  | done d => exact ⟨rfl, d, rfl⟩
  | pass q => exact hasked q (by simp [asked])
  | sum qs =>
    simp only [Move.run, sumOf_map]
    have hanswered := Outcome.sequential_of (P := fun x : Outcome Distance => ∃ d, x = .answer d)
      fun d => ⟨d, rfl⟩
    exact sumOf_relates hanswered hasked .equal

theorem search_flipped (s : Setting) {q : Query} (hq : q.Exact s.hierarchy) {depth : Nat}
    (hdepth : weight q < depth) (path : List Visit) :
    search s depth path q = search s depth path q.flipped ∧
      ∃ d, search s depth path q = .answer d := by
  induction depth generalizing q with
  | zero => omega
  | succ depth ih =>
    rw [search_succ, search_succ]
    refine (move_mirrors s.reversed hq).run fun q' hasked => ?_
    obtain ⟨hexact, hlt⟩ := exact_of_asked hq hasked
    exact ih hexact (by omega)

end Assignability

namespace Hierarchy

open Assignability

/-- In the invariant mode it does not matter which of two types is the target, if they are made of
primitives and of names that are no functional interfaces: there is a distance, and it is the same
both ways. -/
theorem distance_invariant_comm {h : Hierarchy} (reversed : List TypeParameter)
    {target source : TypeExpr} (htarget : target.Every h.ByName)
    (hsource : source.Every h.ByName) :
    ∃ d, h.distance reversed target source .invariant = .answer d ∧
      h.distance reversed source target .invariant = .answer d := by
  obtain ⟨hflipped, d, hd⟩ := search_flipped ⟨h, reversed, true⟩
    (q := ⟨target, source, false, .invariant⟩) ⟨rfl, htarget, hsource⟩ (Nat.lt_succ_self _) []
  exact ⟨d, solve_eq_answer hd, solve_eq_answer (hflipped.symm.trans hd)⟩

/-- Arrays of maps where a box stands for a primitive, and a raw use of a type that is not declared
for an array with an argument, under another wildcard. -/
theorem mixed_maps_symmetric :
    let text := TypeExpr.nominal "java.lang.String"
    let unknown := fun arguments => TypeExpr.applied "com.example.Unknown" arguments
    let map (key value : TypeExpr) : TypeExpr :=
      { TypeExpr.applied "java.util.Map" [key, value] with arrays := 2 }
    let left := map (.primitive .int) { unknown [text] with wildcard := .upper, arrays := 1 }
    let right := map (.nominal "java.lang.Integer") { unknown [] with wildcard := .lower }
    left.Every Platform.hierarchy.ByName ∧ right.Every Platform.hierarchy.ByName ∧
      Platform.hierarchy.distance [] left right .invariant = .answer (.cost 2) ∧
      Platform.hierarchy.distance [] right left .invariant = .answer (.cost 2) := by
  intro text unknown map left right
  have hleft : left.Every Platform.hierarchy.ByName := by decide +kernel
  have hright : right.Every Platform.hierarchy.ByName := by decide +kernel
  have hone : Platform.hierarchy.distance [] left right .invariant = .answer (.cost 2) :=
    solve_eq_answer (n := 5) (by decide +kernel)
  obtain ⟨d, hd, hother⟩ := distance_invariant_comm [] hleft hright
  cases hone.symm.trans hd
  exact ⟨hleft, hright, hone, hother⟩

end Hierarchy

end Mutability
