import Mathlib.Logic.Relation
import Mutability.Proofs.Substitution

/-!
# Bindings without cycles

A parameter depends on those that occur in the type it stands for. While a binding is worked on, all
parameters that are blocked lead to every parameter that is met (`Behind`), so without a cycle no
blocked parameter is met again: what is left are parameters that have no binding or stand for
themselves (`every_stops_translate`). Such a type has nothing left to replace, and applying the
bindings once more changes nothing (`apply_apply_of_acyclic`).
-/

namespace Mutability.Bindings

open TypeExpr Relation

variable {b : Bindings} {blocked : List TypeParameter} {t : TypeExpr}

/-- The first parameter stands for a type in which the second occurs. One that stands for itself is
left alone and depends on nothing. -/
def DependsOn (b : Bindings) (p q : TypeParameter) : Prop :=
  ∃ bound, b.find? p = some bound ∧ bound.base ≠ .parameter p ∧
    ∃ o ∈ bound.occurrences, o.base = .parameter q

/-- No parameter depends on itself, directly or through others. -/
def Acyclic (b : Bindings) : Prop := ∀ p, ¬ TransGen b.DependsOn p p

/-- Bindings are acyclic if parameters can be ranked with each above those in its binding. -/
theorem acyclic_of_rank (rank : TypeParameter → Nat)
    (hrank : ∀ entry ∈ b.entries, entry.2.base ≠ .parameter entry.1 →
      ∀ o ∈ entry.2.occurrences, ∀ q ∈ o.parameter?, rank q < rank entry.1) : b.Acyclic := by
  have hstep : ∀ p q, b.DependsOn p q → rank q < rank p := by
    rintro p q ⟨bound, hbound, hne, o, ho, hq⟩
    obtain ⟨before, after, happ, -⟩ := List.lookup_eq_some_iff.mp hbound
    exact hrank (p, bound) (by simp [happ]) hne o ho q (parameter?_eq_some_iff.mpr hq)
  exact not_transGen_self_of_rank rank hstep

/-! ## Blocked parameters -/

/-- All blocked parameters depend on each parameter in the type. -/
def Behind (b : Bindings) (blocked : List TypeParameter) (t : TypeExpr) : Prop :=
  t.Every fun base => ∀ q, base = .parameter q → ∀ p ∈ blocked, TransGen b.DependsOn p q

theorem behind_nil (b : Bindings) (t : TypeExpr) : b.Behind [] t := by
  refine every_iff_occurrences.mpr fun o _ q _ p hp => ?_
  cases hp

/-- Blocking a parameter and going on in its binding keeps all blocked parameters behind. -/
theorem Behind.bound {bound : TypeExpr} {p : TypeParameter} (ht : b.Behind blocked t)
    (hbase : t.base = .parameter p) (hbound : b.find? p = some bound)
    (hne : bound.base ≠ .parameter p) : b.Behind (p :: blocked) bound := by
  refine every_iff_occurrences.mpr fun o ho q hq p' hp' => ?_
  have hdirect : b.DependsOn p q := ⟨bound, hbound, hne, o, ho, hq⟩
  rcases List.mem_cons.mp hp' with rfl | hp'
  · exact .single hdirect
  · exact (TypeExpr.Every.base ht p hbase p' hp').tail hdirect

/-- Without a cycle, following comes to its end at a type that is not blocked either. -/
theorem follow_of_acyclic (hb : b.Acyclic) (ht : b.Behind blocked t) :
    b.Stops [] (b.follow blocked t).1.base ∧
      b.Behind (b.follow blocked t).2 (b.follow blocked t).1 := by
  fun_induction b.follow blocked t with
  -- A blocked parameter that is met again would close a cycle.
  | case1 blocked t p hbase hp => exact absurd (TypeExpr.Every.base ht p hbase p hp) (hb p)
  | case2 blocked t p hbase hp hfind =>
    refine ⟨?_, ht⟩
    rw [hbase]
    exact Or.inr (by simp [hfind])
  | case3 blocked t p hbase hp bound hfind heq =>
    refine ⟨?_, ht⟩
    rw [hbase]
    exact Or.inr (by simp [hfind, heq, hbase])
  | case4 blocked t p hbase hp bound hfind hne ih =>
    have hbound : TypeExpr.Every _ bound := ht.bound hbase hfind (hbase ▸ hne)
    exact ih (TypeExpr.Every.intro hbound.base hbound.arguments)
  | case5 blocked t hbase =>
    refine ⟨?_, ht⟩
    cases hcase : t.base with
    | parameter p => exact absurd hcase (hbase p)
    | nominal | primitive | null | wildcard => trivial

/-- Without a cycle, no parameter is left that could be replaced. -/
theorem every_stops_translate (hb : b.Acyclic) (ht : b.Behind blocked t) :
    (b.translate blocked t).Every (b.Stops []) := by
  induction blocked, t using translate.induct b with
  | case1 blocked t followed ih =>
    obtain ⟨hstops, hbehind⟩ := follow_of_acyclic hb ht
    rw [translate_eq]
    refine .intro hstops fun a ha => ?_
    obtain ⟨argument, hmem, rfl⟩ := List.mem_map.mp ha
    exact every_boxArgument (fun _ _ => trivial)
      (ih argument hmem (TypeExpr.Every.arguments hbehind argument hmem))

/-- Applied to any type, acyclic bindings leave no parameter that they bind, but those that stand
for themselves, and a second application changes nothing. -/
theorem apply_apply_of_acyclic (hb : b.Acyclic) (t : TypeExpr) :
    (∀ o ∈ (b.apply t).occurrences, ∀ p ∈ o.parameter?, ∀ bound ∈ b.find? p,
      bound.base = .parameter p) ∧
    b.apply (b.apply t) = b.apply t := by
  by_cases hempty : b.entries = []
  · have happly : ∀ u, b.apply u = u := fun u => by simp [apply, hempty]
    refine ⟨fun o _ p _ bound hbound => ?_, by rw [happly, happly]⟩
    simp [find?, hempty] at hbound
  · have happly : ∀ u, b.apply u = b.translate [] u := fun u => by simp [apply, hempty]
    rw [happly, happly]
    have hstops := every_iff_occurrences.mp (every_stops_translate hb (b.behind_nil t))
    refine ⟨fun o ho p hp bound hbound => ?_, ?_⟩
    · have hleft := hstops o ho
      rw [parameter?_eq_some_iff.mp hp] at hleft
      exact hleft.resolve_left List.not_mem_nil bound hbound
    · rw [translate_of_stops hstops, boxed_translate]

/-- A chain of two parameters into a type with a parameter that stands for an array of itself. -/
theorem chain_applied_twice :
    let key : TypeParameter := ⟨some (.type "java.util.Map"), 0, "K"⟩
    let value : TypeParameter := ⟨some (.type "java.util.Map"), 1, "V"⟩
    let element : TypeParameter := ⟨some (.type "java.util.List"), 0, "E"⟩
    let own : TypeParameter := ⟨some (.type "com.example.Own"), 0, "T"⟩
    let b : Bindings := ⟨[(key, .parameter value),
      (value, .applied "java.util.Map" [.parameter element, .parameter own]),
      (element, .primitive .int), (own, { TypeExpr.parameter own with arrays := 1 })]⟩
    let t := TypeExpr.applied "java.util.Map"
      [.parameter key, { TypeExpr.parameter own with arrays := 2 }]
    b.Acyclic ∧
      (∀ o ∈ (b.apply t).occurrences, ∀ p ∈ o.parameter?, ∀ bound ∈ b.find? p,
        bound.base = .parameter p) ∧
      b.apply (b.apply t) = b.apply t := by
  intro key value element own b t
  have hb : b.Acyclic := by
    refine acyclic_of_rank (fun p => [element, own, value, key].idxOf p) ?_
    decide +kernel
  exact ⟨hb, apply_apply_of_acyclic hb t⟩

end Mutability.Bindings
