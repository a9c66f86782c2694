import Mathlib.Data.List.Nodup
import Mutability.Proofs.Substitution

/-!
# A declaration seen from itself

The type of a declaration, applied to its own formal parameters, is its own supertype after no hop
at all. Its arguments are parameters, which bind nothing further, and no two of them are the same,
as they differ in their index. So the bindings of that supertype are those where each formal
parameter stands for itself, and nothing else is bound (`argumentBindings_formalType`).

A parameter that stands for itself is not replaced, whatever array dimensions, wildcard or arguments
it has where it occurs. So these bindings leave every type as it is, but for boxes.
-/

namespace Mutability

namespace Bindings

open TypeExpr

/-! ## Parameters that stand for themselves -/

/-- Each of the parameters stands for itself, and no other for anything. -/
def identity (ps : List TypeParameter) : Bindings := ⟨ps.map fun p => (p, .parameter p)⟩

theorem find?_identity (ps : List TypeParameter) (p : TypeParameter) :
    (identity ps).find? p = if p ∈ ps then some (.parameter p) else none := by
  unfold find? identity
  induction ps with
  | nil => rfl
  | cons q ps ih =>
    simp only [List.map_cons, List.lookup_cons, List.mem_cons]
    by_cases hpq : p = q
    · simp [hpq]
    · have hne : (p == q) = false := by simp [hpq]
      simpa [hpq, hne] using ih

theorem find?_identity_eq_some {ps : List TypeParameter} {p : TypeParameter} {t : TypeExpr} :
    (identity ps).find? p = some t ↔ p ∈ ps ∧ t = .parameter p := by
  rw [find?_identity]
  split
  · rename_i hp
    simp [hp, eq_comm]
  · rename_i hp
    simp [hp]

theorem bindNew_identity {ps : List TypeParameter} {p : TypeParameter} (hp : p ∉ ps) :
    (identity ps).bindNew p (.parameter p) = identity (ps ++ [p]) := by
  have hnone : (identity ps).find? p = none := by rw [find?_identity, if_neg hp]
  rw [bindNew, hnone]
  simp [identity]

theorem stops_identity (ps : List TypeParameter) (base : Base) : (identity ps).Stops [] base := by
  cases base with
  | parameter p =>
    refine Or.inr fun bound hbound => ?_
    obtain ⟨-, rfl⟩ := find?_identity_eq_some.mp hbound
    rfl
  | nominal | primitive | null | wildcard => trivial

/-- Where each parameter stands for itself, only primitive values among the arguments change. -/
theorem apply_identity (ps : List TypeParameter) {t : TypeExpr}
    (ht : ∀ o ∈ t.inner, o.isPrimitive = false) : (identity ps).apply t = t := by
  unfold apply
  split
  · rfl
  · rw [translate_of_stops fun o _ => stops_identity ps o.base, boxed_of_inner ht]

end Bindings

/-! ## The bindings of a declaration's own type -/

theorem Declaration.nodup_parameters (d : Declaration) : d.parameters.Nodup := by
  have hindex : d.parameters.map (·.index) = List.range d.formals.length := by
    refine List.ext_getElem (by simp [parameters]) fun i _ _ => ?_
    simp [parameters]
  refine List.Nodup.of_map (·.index) ?_
  rw [hindex]
  exact List.nodup_range

namespace Hierarchy

variable {h : Hierarchy} {d : Declaration}

/-- Parameters as arguments of themselves are bound one after the other, and nothing inside them. -/
theorem collectArguments_identity {before ps : List TypeParameter} (hnodup : (before ++ ps).Nodup)
    (visited : List String) :
    h.collectArguments (ps.map .parameter) ps ⟨.identity before, visited⟩ =
      .ok ⟨.identity (before ++ ps), visited⟩ := by
  induction ps generalizing before with
  | nil =>
    rw [List.append_nil]
    rfl
  | cons p ps ih =>
    have hp : p ∉ before := by
      intro hmem
      exact (List.nodup_append.mp hnodup).2.2 p hmem p List.mem_cons_self rfl
    have hsplit : before ++ p :: ps = (before ++ [p]) ++ ps := by simp
    have hcollect : ∀ known, h.collect (.parameter p) known = .ok known := fun _ => rfl
    rw [List.map_cons, collectArguments, hcollect]
    simp only [Bindings.bindNew_identity hp]
    rw [hsplit] at hnodup ⊢
    exact ih hnodup

theorem argumentBindings_formalType (hd : h.find? d.name = some d) :
    h.argumentBindings d.formalType = .ok (.identity d.parameters) := by
  have hrequire : h.require d.name = .ok d := by simp [require, hd]
  have hcollect : h.collect d.formalType ⟨.empty, []⟩ =
      if d.parameters = [] then .ok ⟨.empty, []⟩
      else h.collectArguments (d.parameters.map .parameter) d.parameters ⟨.empty, [d.name]⟩ := by
    rw [Declaration.formalType, TypeExpr.applied, collect, hrequire]
    simp [d.length_parameters]
  rw [argumentBindings, hcollect]
  split
  · rename_i hnone
    rw [hnone]
    rfl
  · have hall : ([] ++ d.parameters).Nodup := d.nodup_parameters
    exact congrArg (Except.map (·.bindings)) (collectArguments_identity hall [d.name])

/-- No hop leads from the type of a declaration to its own name. -/
theorem supertype?_formalType (h : Hierarchy) (d : Declaration) :
    h.supertype? d.formalType d.name = .ok (some d.formalType) := by
  rw [supertype?, searchSupertype]
  simp [Declaration.formalType, TypeExpr.applied, TypeExpr.withoutArrays, Except.map]

/-- Seen from the type of a declaration, its own formal parameters stand for themselves and no other
parameter for anything, and applying these bindings changes no type without primitive values among
its arguments. -/
theorem supertypeBindings_formalType (hd : h.find? d.name = some d) :
    ∃ b, h.supertypeBindings d.formalType d.name = .ok b ∧
      (∀ p t, b.find? p = some t ↔ p ∈ d.parameters ∧ t = .parameter p) ∧
      ∀ t : TypeExpr, (∀ o ∈ t.inner, o.isPrimitive = false) → b.apply t = t := by
  refine ⟨.identity d.parameters, ?_, fun p t => Bindings.find?_identity_eq_some,
    fun t => Bindings.apply_identity d.parameters⟩
  rw [supertypeBindings, supertype?_formalType]
  exact argumentBindings_formalType hd

/-- A map of its own keys and values, which occur as arrays, under wildcards and beside an array of
numbers. -/
theorem map_seen_from_itself :
    let key := Platform.own "java.util.HashMap" 0 "K"
    let value := Platform.own "java.util.HashMap" 1 "V"
    let map := fun key value => TypeExpr.applied "java.util.Map" [key, value]
    let d := Platform.classOf "java.util.HashMap" ["K", "V"] [map key value]
    let numbers := { TypeExpr.primitive .int with arrays := 1 }
    let t := map { key with arrays := 2, wildcard := .lower }
      (map { value with wildcard := .upper } numbers)
    Platform.hierarchy.find? d.name = some d ∧ (∀ o ∈ t.inner, o.isPrimitive = false) ∧
      ∃ b, Platform.hierarchy.supertypeBindings d.formalType d.name = .ok b ∧
        b.find? ⟨some (.type "java.util.HashMap"), 0, "K"⟩ = some key ∧
        b.find? ⟨some (.type "java.util.Map"), 0, "K"⟩ = none ∧ b.apply t = t := by
  intro key value map d numbers t
  have hd : Platform.hierarchy.find? d.name = some d := rfl
  have ht : ∀ o ∈ t.inner, o.isPrimitive = false := by decide
  obtain ⟨b, hb, hfind, happly⟩ := supertypeBindings_formalType hd
  refine ⟨hd, ht, b, hb, (hfind _ _).mpr ⟨by decide, rfl⟩, ?_, happly t ht⟩
  refine Option.eq_none_iff_forall_ne_some.mpr fun u hu => ?_
  exact absurd ((hfind _ u).mp hu).1 (by decide)

end Hierarchy

end Mutability
