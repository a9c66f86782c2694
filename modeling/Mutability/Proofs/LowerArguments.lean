import Mathlib.Logic.Relation
import Mutability.Proofs.Derivability
import Mutability.Proofs.ModeRelations

/-!
# Arguments with a lower bound

Two types that have to be the same are asked for more than two of which one can be stored in the
other, so what fits invariantly should fit covariantly. Covariance keeps the direction of the
comparison for all arguments but those with a lower bound, which it compares the other way round.
And invariance has a direction too: a parameter without bounds takes every type, an unbound wildcard
every argument, a method without result every method. It is by a lower argument that fits one way
only that the implication fails, and by nothing else (`covariant_unless_oneWay`).
-/

namespace Mutability

namespace Assignability

variable {h : Hierarchy} {reversed : List TypeParameter}

/-- The comparison of the first query comes to that of the second. -/
def Leads (h : Hierarchy) (reversed : List TypeParameter) : Query → Query → Prop :=
  Relation.ReflTransGen fun q q' => q' ∈ (move h reversed q).asked h

/-- The comparison comes to two arguments of which the target's has a lower bound. -/
def LeadsToLower (h : Hierarchy) (reversed : List TypeParameter) (q : Query)
    (target source : TypeExpr) : Prop :=
  target.wildcard = .lower ∧ ∃ q' qs, Leads h reversed q q' ∧ move h reversed q' = .sum qs ∧
    ⟨target, source, true, .invariant⟩ ∈ qs

/-- The two arguments fit as if they had to be the same, but not the other way round. -/
def OneWay (h : Hierarchy) (reversed : List TypeParameter) (target source : TypeExpr) : Prop :=
  Fits h reversed ⟨target, source, true, .invariant⟩ ∧
    ¬ Fits h reversed ⟨target, source, true, .contravariant⟩

theorem LeadsToLower.of_asked {q q' : Query} {target source : TypeExpr}
    (hasked : q' ∈ (move h reversed q).asked h)
    (hlower : LeadsToLower h reversed q' target source) :
    LeadsToLower h reversed q target source := by
  obtain ⟨hwildcard, q'', qs, hleads, hmove, hmem⟩ := hlower
  exact ⟨hwildcard, q'', qs, hleads.head hasked, hmove, hmem⟩

/-! ## From invariance to covariance -/

theorem fits_of_trivial {q : Query} (htrivial : q.trivial = true) : Fits h reversed q :=
  ⟨1, fitsWithin_of_trivial htrivial 0⟩

/-- What fits covariantly fits if either direction will do. -/
theorem fits_any_of_covariant {target source : TypeExpr} {ignoreArrays : Bool}
    (hfits : Fits h reversed ⟨target, source, ignoreArrays, .covariant⟩) :
    Fits h reversed ⟨target, source, ignoreArrays, .any⟩ := by
  cases htrivial : Query.trivial ⟨target, source, ignoreArrays, .any⟩ with
  | true => exact fits_of_trivial htrivial
  | false =>
    have htrivial' : Query.trivial ⟨target, source, ignoreArrays, .covariant⟩ = false := htrivial
    cases hnull : source.isNull with
    | true =>
      rw [fits_iff, move_of_null htrivial' hnull] at hfits
      rw [fits_iff, move_of_null htrivial hnull]
      exact hfits
    | false =>
      have hmove : move h reversed ⟨target, source, ignoreArrays, .any⟩ =
          .either ⟨target, source, ignoreArrays, .covariant⟩
            ⟨source, target, ignoreArrays, .covariant⟩ := by
        simp [move, htrivial, hnull]
      rw [fits_iff, hmove]
      exact Or.inl hfits

/-- The move in the easier mode is granted if the queries that grant the other one fit there. -/
theorem Eases.granted {m m' : Move} (hm : Eases .invariant .covariant m m')
    {fits fits' : Query → Prop} (hgranted : m.Granted h fits)
    (hasked : ∀ q ∈ m.asked h, q.mode = .invariant → fits q → fits' (q.inMode .covariant))
    (harguments : ∀ qs target source, m = .sum qs → ⟨target, source, true, .invariant⟩ ∈ qs →
      fits ⟨target, source, true, .invariant⟩ →
      fits' (argumentQuery .covariant target source)) :
    m'.Granted h fits' := by
  cases hm with
  | fault =>
    obtain ⟨d, hd, -⟩ := hgranted
    cases hd
  | unlike =>
    obtain ⟨d, hd, hassignable⟩ := hgranted
    cases hd
    cases hassignable
  | done heased =>
    obtain ⟨d, hd, hassignable⟩ := hgranted
    cases hd
    exact ⟨_, rfl, heased hassignable⟩
  | taken _ htaken => exact ⟨_, rfl, htaken⟩
  | pass hmode => exact hasked _ (by simp [Move.asked]) hmode hgranted
  | arguments ts us =>
    intro q hq
    rw [← List.map_uncurry_zip_eq_zipWith] at hq
    obtain ⟨⟨target, source⟩, hmem, rfl⟩ := List.mem_map.mp hq
    have hinvariant : (⟨target, source, true, .invariant⟩ : Query) ∈
        List.zipWith (argumentQuery .invariant) ts us := by
      rw [← List.map_uncurry_zip_eq_zipWith]
      exact List.mem_map.mpr ⟨(target, source), hmem, rfl⟩
    exact harguments _ target source rfl hinvariant (hgranted _ hinvariant)
  | bounds hmode hqs =>
    obtain ⟨q, hq, hfits⟩ := hgranted
    exact ⟨q.inMode .covariant, List.mem_map_of_mem hq, hasked q hq (hqs q hq) hfits⟩
  | climb _ _ hmode => cases hmode

/-- What fits invariantly fits covariantly, if all lower arguments that are met do. -/
theorem FitsWithin.covariant {n : Nat} {q : Query} (hfits : FitsWithin h reversed n q)
    (hmode : q.mode = .invariant)
    (hlower : ∀ target source, LeadsToLower h reversed q target source →
      ¬ OneWay h reversed target source) :
    Fits h reversed (q.inMode .covariant) := by
  induction n generalizing q with
  | zero => exact hfits.elim
  | succ n ih =>
    rw [fits_iff]
    refine (eases_move .covariance hmode).granted hfits ?_ ?_
    · intro q' hasked hmode' hfits'
      exact ih hfits' hmode' fun x y hleads => hlower x y (hleads.of_asked hasked)
    · intro qs target source hmove hmem hfits'
      have hasked : ⟨target, source, true, .invariant⟩ ∈ (move h reversed q).asked h := by
        rw [hmove]
        exact hmem
      have hcovariant : Fits h reversed ⟨target, source, true, .covariant⟩ :=
        ih hfits' rfl fun x y hleads => hlower x y (hleads.of_asked hasked)
      unfold argumentQuery
      cases hwildcard : target.wildcard with
      | plain => exact ⟨n, hfits'⟩
      | unbound => exact fits_any_of_covariant hcovariant
      | upper => exact hcovariant
      | lower =>
        -- The only argument that is compared the other way round.
        by_contra hbackward
        exact hlower target source ⟨hwildcard, q, qs, .refl, hmove, hmem⟩ ⟨⟨n, hfits'⟩, hbackward⟩

/-! ## Types with one argument -/

theorem move_applied {name : String} (hname : name ≠ TypeExpr.objectName) {target source : TypeExpr}
    (hne : target ≠ source) {mode : Mode} (hmode : mode = .invariant ∨ mode = .covariant) :
    move h reversed ⟨.applied name [target], .applied name [source], false, mode⟩ =
      .sum [argumentQuery mode target source] := by
  rcases hmode with rfl | rfl <;>
    simp [move, Query.trivial, directedMove, Query.topTakes, concreteMove, sameNameMove,
      TypeExpr.applied, TypeExpr.isNull, TypeExpr.isObject, TypeExpr.name?,
      TypeExpr.isUnboundWildcard, hne, hname]

theorem fits_applied {name : String} (hname : name ≠ TypeExpr.objectName) (target source : TypeExpr)
    {mode : Mode} (hmode : mode = .invariant ∨ mode = .covariant) :
    Fits h reversed ⟨.applied name [target], .applied name [source], false, mode⟩ ↔
      Fits h reversed (argumentQuery mode target source) := by
  by_cases heq : target = source
  · subst heq
    exact iff_of_true (fits_of_trivial (by simp [Query.trivial]))
      (fits_of_trivial (by simp [Query.trivial, argumentQuery]))
  · rw [fits_iff, move_applied hname heq hmode]
    simp [Move.Granted]

end Assignability

namespace Hierarchy

open Assignability

/-- Types that fit invariantly fit covariantly, unless the comparison meets a lower argument that
fits one way only. With such an argument the implication does fail, for every type that takes
one. -/
theorem covariant_unless_oneWay (h : Hierarchy) (reversed : List TypeParameter) :
    (∀ target source d d', h.distance reversed target source .invariant = .answer d →
      d.isAssignable = true → h.distance reversed target source .covariant = .answer d' →
      d'.isAssignable = true ∨
        ∃ x y, LeadsToLower h reversed ⟨target, source, false, .invariant⟩ x y ∧
          OneWay h reversed x y) ∧
    (∀ name x y d d', name ≠ TypeExpr.objectName → x.wildcard = .lower →
      h.distance reversed (.applied name [x]) (.applied name [y]) .invariant = .answer d →
      h.distance reversed (.applied name [x]) (.applied name [y]) .covariant = .answer d' →
      (d.isAssignable = true ∧ d'.isAssignable = false ↔ OneWay h reversed x y)) := by
  constructor
  · intro target source d d' hinvariant hassignable hcovariant
    obtain ⟨n, hfits⟩ := (solve_isAssignable_iff hinvariant).mp hassignable
    by_cases hlower : ∀ x y, LeadsToLower h reversed ⟨target, source, false, .invariant⟩ x y →
        ¬ OneWay h reversed x y
    · exact Or.inl ((solve_isAssignable_iff hcovariant).mpr (hfits.covariant rfl hlower))
    · simp only [not_forall, not_not, exists_prop] at hlower
      exact Or.inr hlower
  · intro name x y d d' hname hlower hinvariant hcovariant
    have hargument : argumentQuery .covariant x y = ⟨x, y, true, .contravariant⟩ := by
      simp [argumentQuery, hlower, Mode.forArgument, Mode.reversed]
    rw [solve_isAssignable_iff hinvariant, Bool.eq_false_iff, ne_eq,
      solve_isAssignable_iff hcovariant, fits_applied hname x y (Or.inl rfl),
      fits_applied hname x y (Or.inr rfl), hargument]
    rfl

/-- A list of lists of texts is taken for a list of lists of anything at all, but a list of anything
cannot be stored in a list of texts. -/
theorem lists_fit_one_way :
    let texts := TypeExpr.applied "java.util.List" [.nominal "java.lang.String"]
    let lists := TypeExpr.applied "java.util.List" [.unboundWildcard]
    let target := TypeExpr.applied "java.util.List" [{ lists with wildcard := .lower }]
    let source := TypeExpr.applied "java.util.List" [texts]
    Platform.hierarchy.distance [] target source .invariant = .answer (.cost 1000) ∧
      Platform.hierarchy.distance [] target source .covariant = .answer .notAssignable ∧
      OneWay Platform.hierarchy [] { lists with wildcard := .lower } texts ∧
      ∃ x y, LeadsToLower Platform.hierarchy [] ⟨target, source, false, .invariant⟩ x y ∧
        OneWay Platform.hierarchy [] x y := by
  intro texts lists target source
  have hinvariant : Platform.hierarchy.distance [] target source .invariant =
      .answer (.cost 1000) := solve_eq_answer (n := 4) (by decide +kernel)
  have hcovariant : Platform.hierarchy.distance [] target source .covariant =
      .answer .notAssignable := solve_eq_answer (n := 6) (by decide +kernel)
  obtain ⟨hunless, hexact⟩ := covariant_unless_oneWay Platform.hierarchy []
  refine ⟨hinvariant, hcovariant, ?_, ?_⟩
  · exact (hexact _ _ _ _ _ (by decide) rfl hinvariant hcovariant).mp ⟨rfl, rfl⟩
  · exact (hunless _ _ _ _ hinvariant rfl hcovariant).resolve_left (by decide)

/-- A list of texts is the same as a list of what is above a parameter without bounds, but cannot be
stored in one. -/
theorem texts_unfit_above_parameter :
    let element := TypeExpr.parameter ⟨some (.type "java.util.List"), 0, "E"⟩
    let target := TypeExpr.applied "java.util.List" [{ element with wildcard := .lower }]
    let source := TypeExpr.applied "java.util.List" [.nominal "java.lang.String"]
    Platform.hierarchy.distance [] target source .invariant = .answer (.cost 100) ∧
      Platform.hierarchy.distance [] target source .covariant = .answer .notAssignable := by
  intro element target source
  exact ⟨solve_eq_answer (n := 4) (by decide +kernel), solve_eq_answer (n := 6) (by decide +kernel)⟩

end Hierarchy

end Mutability
