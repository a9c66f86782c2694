import Mutability.Proofs.TranslationDepth

/-!
# Primitive values among type arguments

A translation does two things at once: it replaces parameters, and it puts boxes in place of the
primitive values that stand as arguments, whether they stood there before or come with a binding.
The two can be done one after the other: `expand` replaces parameters only, and the translation is
the expansion with its arguments boxed (`translate_eq_boxed_expand`). So a translation leaves no
primitive value among the arguments, at any depth.

Bindings without an entry are not translated with at all, and then nothing is boxed either.
-/

namespace Mutability.Bindings

open TypeExpr

/-! ## Replacement without boxes -/

/-- Replaces parameters in a type, except the blocked ones, and leaves primitive values where they
are. -/
def expand (b : Bindings) (blocked : List TypeParameter) (t : TypeExpr) : TypeExpr :=
  let followed := b.follow blocked t
  { followed.1 with
    arguments := followed.1.arguments.attach.map fun ⟨argument, _⟩ =>
      b.expand followed.2 argument }
termination_by b.reach (t, blocked)
decreasing_by
  rename_i hmem
  exact Nat.lt_of_lt_of_le (reach_argument hmem) (b.reach_follow_le (t, blocked))

theorem expand_eq (b : Bindings) (blocked : List TypeParameter) (t : TypeExpr) :
    b.expand blocked t =
      { (b.follow blocked t).1 with
        arguments := (b.follow blocked t).1.arguments.map (b.expand (b.follow blocked t).2) } := by
  rw [expand]
  simp only [List.map_attach_eq_pmap, List.pmap_eq_map]

theorem translate_eq_boxed_expand (b : Bindings) (blocked : List TypeParameter) (t : TypeExpr) :
    b.translate blocked t = (b.expand blocked t).boxed := by
  induction blocked, t using expand.induct b with
  | case1 blocked t followed ih =>
    rw [translate_eq, expand_eq, boxed_eq]
    simp only [List.map_map]
    congr 1
    refine List.map_congr_left fun a ha => ?_
    rw [Function.comp_apply, ih a ha]

/-! ## What is left of primitive values -/

/-- A type has nothing to box exactly if no primitive value stands among its arguments. -/
theorem boxed_eq_self_iff {t : TypeExpr} :
    t.boxed = t ↔ ∀ o ∈ t.inner, o.isPrimitive = false := by
  refine ⟨fun ht => ?_, boxed_of_inner⟩
  induction t using induct with
  | step t ih =>
    intro o ho
    obtain ⟨a, ha, ho⟩ := mem_inner.mp ho
    obtain ⟨hboxed, hprimitive⟩ := argument_of_boxed ht ha
    rw [occurrences_eq, List.mem_cons] at ho
    rcases ho with rfl | ho
    · exact hprimitive
    · exact ih a ha hboxed o ho

/-- Applied to a type, bindings put boxes in place of all primitive values that stand as arguments
once the parameters are replaced, and so none is left at any depth; but without any binding all
arguments stay as they are. So the result has none exactly if there is a binding or the type had
none. -/
theorem primitive_arguments_boxed_iff (b : Bindings) (t : TypeExpr) :
    b.apply t = (if b.entries.isEmpty then t else (b.expand [] t).boxed) ∧
      ((∀ o ∈ (b.apply t).inner, o.isPrimitive = false) ↔
        b.entries ≠ [] ∨ ∀ o ∈ t.inner, o.isPrimitive = false) := by
  by_cases hempty : b.entries = []
  · have happly : b.apply t = t := by simp [apply, hempty]
    simp [happly, hempty]
  · have happly : b.apply t = b.translate [] t := by simp [apply, hempty]
    rw [happly, translate_eq_boxed_expand]
    refine ⟨by simp [hempty], iff_of_true ?_ (Or.inl hempty)⟩
    rw [← translate_eq_boxed_expand]
    exact boxed_eq_self_iff.mp (boxed_translate b [] t)

/-- A list of numbers keeps its primitive argument where nothing is bound, and gets a box as soon as
some parameter is, though it does not occur. -/
theorem number_left_unboxed :
    let numbers := TypeExpr.applied "java.util.List" [.primitive .int]
    let element : TypeParameter := ⟨some (.type "java.util.List"), 0, "E"⟩
    let bound : Bindings := ⟨[(element, .nominal "java.lang.String")]⟩
    (empty.apply numbers = numbers ∧ ∃ o ∈ (empty.apply numbers).inner, o.isPrimitive = true) ∧
      bound.apply numbers =
        .applied "java.util.List" [.nominal "java.lang.Integer"] := by
  intro numbers element bound
  refine ⟨⟨rfl, .primitive .int, by decide, rfl⟩, ?_⟩
  show bound.translate [] numbers = _
  rw [translate_of_stops (by decide)]
  rfl

end Mutability.Bindings
