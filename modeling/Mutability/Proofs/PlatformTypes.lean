import Mutability.Proofs.Reachability

/-!
# Hierarchies built on the platform types

All that is registered on top of the platform types keeps their declarations and stays acyclic.
-/

namespace Mutability

namespace Platform

/-- Every platform type comes after its supertypes. -/
theorem acyclic_hierarchy : hierarchy.Acyclic :=
  Hierarchy.acyclic_of_order (declarations.map (·.name)) (by decide +kernel)

/-- New types can be registered on the platform if each comes after its supertypes. -/
theorem register_of_order {batch : List Declaration} (hdup : hierarchy.duplicateCounts batch = [])
    (horder : ∀ d ∈ (hierarchy.extend batch).declarations, ∀ t ∈ d.supertypes, ∀ b ∈ t.name?,
      ((declarations ++ batch).map (·.name)).idxOf b <
        ((declarations ++ batch).map (·.name)).idxOf d.name) :
    hierarchy.register batch = .ok (hierarchy.extend batch) :=
  Hierarchy.register_of_acyclic hdup (Hierarchy.acyclic_of_order _ horder)

theorem find?_object :
    hierarchy.find? TypeExpr.objectName = some (.plainClass TypeExpr.objectName) := rfl

theorem declares_boxName (p : Primitive) : hierarchy.Declares p.boxName := by
  cases p <;> exact rfl

end Platform

namespace Hierarchy

/-- The hierarchies that a program can build on the platform types. -/
inductive FromPlatform : Hierarchy → Prop where
  | platform : FromPlatform Platform.hierarchy
  | register {h h' : Hierarchy} {batch : List Declaration} :
      FromPlatform h → h.register batch = .ok h' → FromPlatform h'
  | addMethod {h : Hierarchy} (method : String) (formals : List Formal) :
      FromPlatform h → FromPlatform (h.addMethod method formals)

namespace FromPlatform

variable {h : Hierarchy}

theorem acyclic (hp : h.FromPlatform) : h.Acyclic := by
  induction hp with
  | platform => exact Platform.acyclic_hierarchy
  | register _ hreg ih =>
    obtain ⟨_, hcyclic, rfl⟩ := register_eq_ok hreg
    exact acyclic_extend ih hcyclic
  | addMethod _ _ _ ih => exact ih

/-- A platform type is declared as it is on the platform. -/
theorem find?_of_platform (hp : h.FromPlatform) {name : String} {d : Declaration}
    (hd : Platform.hierarchy.find? name = some d) : h.find? name = some d := by
  induction hp with
  | platform => exact hd
  | register _ hreg ih =>
    obtain ⟨hdup, _, rfl⟩ := register_eq_ok hreg
    exact find?_extend_of_find? hdup ih
  | addMethod _ _ _ ih => exact ih

theorem isFunctional_object (hp : h.FromPlatform) : h.isFunctional TypeExpr.objectName = false := by
  rw [isFunctional, hp.find?_of_platform Platform.find?_object]
  rfl

theorem declares_boxName (hp : h.FromPlatform) (p : Primitive) : h.Declares p.boxName := by
  obtain ⟨d, hd⟩ := Option.isSome_iff_exists.mp (Platform.declares_boxName p)
  exact Option.isSome_iff_exists.mpr ⟨d, hp.find?_of_platform hd⟩

end FromPlatform

end Hierarchy

end Mutability
