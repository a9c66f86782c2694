import Mutability.Proofs.Vocabulary

/-!
# Substitution and resolution

`substitute` replaces the parameters of a type all at once and does not look again at what it put
in. Applying bindings goes on in what was put in, so each parameter is replaced by its binding
resolved through those of the other parameters (`translate_nil`). A declared supertype, seen from a
use of its declaration, is therefore the substitution of the arguments for the formal parameters
exactly if the bindings leave these arguments as they are (`directSupertype_eq_substitute_iff`).
-/

namespace Mutability

namespace TypeExpr

/-! ## Occurrences -/

mutual

/-- The type and its arguments at any depth. -/
def occurrences : TypeExpr → List TypeExpr
  | ⟨base, arguments, arrays, wildcard⟩ =>
    ⟨base, arguments, arrays, wildcard⟩ :: occurrencesList arguments

def occurrencesList : List TypeExpr → List TypeExpr
  | [] => []
  | t :: ts => occurrences t ++ occurrencesList ts

end

/-- The arguments at any depth. -/
def inner (t : TypeExpr) : List TypeExpr := occurrencesList t.arguments

theorem occurrences_eq (t : TypeExpr) : t.occurrences = t :: t.inner := by
  cases t
  rw [occurrences, inner]

theorem mem_occurrencesList {o : TypeExpr} {ts : List TypeExpr} :
    o ∈ occurrencesList ts ↔ ∃ t ∈ ts, o ∈ t.occurrences := by
  induction ts with
  | nil => simp [occurrencesList]
  | cons t ts ih => simp [occurrencesList, ih]

theorem mem_inner {o t : TypeExpr} : o ∈ t.inner ↔ ∃ a ∈ t.arguments, o ∈ a.occurrences :=
  mem_occurrencesList

theorem self_mem_occurrences (t : TypeExpr) : t ∈ t.occurrences := by
  rw [occurrences_eq]
  exact List.mem_cons_self

theorem argument_mem_inner {a t : TypeExpr} (ha : a ∈ t.arguments) : a ∈ t.inner :=
  mem_inner.mpr ⟨a, ha, a.self_mem_occurrences⟩

theorem occurrence_of_argument {a o t : TypeExpr} (ha : a ∈ t.arguments) (ho : o ∈ a.occurrences) :
    o ∈ t.occurrences := by
  rw [occurrences_eq]
  exact List.mem_cons_of_mem t (mem_inner.mpr ⟨a, ha, ho⟩)

theorem inner_of_argument {a o t : TypeExpr} (ha : a ∈ t.arguments) (ho : o ∈ a.inner) :
    o ∈ t.inner :=
  mem_inner.mpr ⟨a, ha, by rw [occurrences_eq]; exact List.mem_cons_of_mem a ho⟩

theorem every_iff_occurrences {P : Base → Prop} {t : TypeExpr} :
    t.Every P ↔ ∀ o ∈ t.occurrences, P o.base := by
  induction t using induct with
  | step t ih =>
    rw [occurrences_eq, List.forall_mem_cons]
    constructor
    · intro ht
      refine ⟨ht.base, fun o ho => ?_⟩
      obtain ⟨a, ha, ho⟩ := mem_inner.mp ho
      exact (ih a ha).mp (ht.arguments a ha) o ho
    · rintro ⟨hbase, hinner⟩
      exact .intro hbase fun a ha => (ih a ha).mpr fun o ho => hinner o (mem_inner.mpr ⟨a, ha, ho⟩)

/-! ## Simultaneous substitution -/

/-- What stands for a base, if it is a parameter. -/
def boundIn (σ : TypeParameter → Option TypeExpr) : Base → Option TypeExpr
  | .parameter p => σ p
  | _ => none

mutual

/-- Replaces parameters all at once. What is put in has its array dimensions and those of the
occurrence, and the wildcard of the occurrence if that has one; it is not looked at again. -/
def substitute (σ : TypeParameter → Option TypeExpr) : TypeExpr → TypeExpr
  | ⟨base, arguments, arrays, wildcard⟩ =>
    match boundIn σ base with
    | some bound =>
      ⟨bound.base, bound.arguments, arrays + bound.arrays,
        if wildcard = .plain then bound.wildcard else wildcard⟩
    | none => ⟨base, substituteList σ arguments, arrays, wildcard⟩

def substituteList (σ : TypeParameter → Option TypeExpr) : List TypeExpr → List TypeExpr
  | [] => []
  | t :: ts => substitute σ t :: substituteList σ ts

end

/-- The array dimensions of each occurrence of a parameter and of what stands for it add up to a
number that a word can hold. -/
def DimensionsFit (t : TypeExpr) (σ : TypeParameter → Option TypeExpr) : Prop :=
  ∀ o ∈ t.occurrences, ∀ bound ∈ boundIn σ o.base,
    o.arrays.toNat + bound.arrays.toNat < UInt64.size

instance (t : TypeExpr) (σ : TypeParameter → Option TypeExpr) : Decidable (t.DimensionsFit σ) :=
  inferInstanceAs (Decidable (∀ o ∈ t.occurrences, ∀ bound ∈ boundIn σ o.base, _))

section Substitute

variable {σ τ : TypeParameter → Option TypeExpr} {t : TypeExpr}

theorem exists_of_boundIn {base : Base} {bound : TypeExpr} (h : boundIn σ base = some bound) :
    ∃ p, base = .parameter p ∧ σ p = some bound := by
  cases base with
  | parameter p => exact ⟨p, rfl, h⟩
  | nominal | primitive | null | wildcard => cases h

theorem substituteList_eq (σ : TypeParameter → Option TypeExpr) (ts : List TypeExpr) :
    substituteList σ ts = ts.map (substitute σ) := by
  induction ts with
  | nil => rfl
  | cons t ts ih => rw [substituteList, ih, List.map_cons]

theorem substitute_of_some {bound : TypeExpr} (h : boundIn σ t.base = some bound) :
    t.substitute σ = Bindings.replace t bound := by
  cases t
  rw [substitute]
  simp only [h, Bindings.replace, UInt64.add_comm]

theorem substitute_of_none (h : boundIn σ t.base = none) :
    t.substitute σ = { t with arguments := t.arguments.map (substitute σ) } := by
  cases t
  rw [substitute, substituteList_eq]
  simp only [h]

/-- Only what stands for the parameters in a type matters. -/
theorem substitute_congr
    (h : ∀ o ∈ t.occurrences, boundIn σ o.base = boundIn τ o.base) :
    t.substitute σ = t.substitute τ := by
  induction t using induct with
  | step t ih =>
    have hself := h t t.self_mem_occurrences
    cases hτ : boundIn τ t.base with
    | some bound => rw [substitute_of_some (hself.trans hτ), substitute_of_some hτ]
    | none =>
      rw [substitute_of_none (hself.trans hτ), substitute_of_none hτ]
      congr 1
      exact List.map_congr_left fun a ha =>
        ih a ha fun o ho => h o (occurrence_of_argument ha ho)

theorem substitute_eq_self (h : ∀ o ∈ t.occurrences, boundIn σ o.base = none) :
    t.substitute σ = t := by
  induction t using induct with
  | step t ih =>
    have harguments : ∀ a ∈ t.arguments, a.substitute σ = a :=
      fun a ha => ih a ha fun o ho => h o (occurrence_of_argument ha ho)
    rw [substitute_of_none (h t t.self_mem_occurrences), List.map_congr_left harguments,
      List.map_id']
    cases t
    rfl

/-- A substitution by types over given bases leads to such a type if what it leaves is over them. -/
theorem every_substitute {P : Base → Prop} (hσ : ∀ p bound, σ p = some bound → bound.Every P)
    (ht : ∀ o ∈ t.occurrences, boundIn σ o.base = none → P o.base) : (t.substitute σ).Every P := by
  induction t using induct with
  | step t ih =>
    cases hself : boundIn σ t.base with
    | some bound =>
      obtain ⟨p, -, hp⟩ := exists_of_boundIn hself
      have hbound := hσ p bound hp
      rw [substitute_of_some hself]
      exact .intro hbound.base hbound.arguments
    | none =>
      rw [substitute_of_none hself]
      refine .intro (ht t t.self_mem_occurrences hself) fun u hu => ?_
      obtain ⟨a, ha, rfl⟩ := List.mem_map.mp hu
      exact ih a ha fun o ho => ht o (occurrence_of_argument ha ho)

theorem boundIn_eq_none (σ : TypeParameter → Option TypeExpr) (h : t.parameter? = none) :
    boundIn σ t.base = none := by
  cases hbase : t.base with
  | parameter p => simp [parameter?, hbase] at h
  | nominal | primitive | null | wildcard => rfl

theorem substitute_parameter (σ : TypeParameter → Option TypeExpr) (p : TypeParameter) :
    (parameter p).substitute σ = (σ p).getD (parameter p) := by
  cases hp : σ p with
  | some bound =>
    have hbound : boundIn σ (parameter p).base = some bound := hp
    rw [substitute_of_some hbound]
    cases bound
    simp [Bindings.replace, parameter, ofBase]
  | none => exact substitute_of_none (t := parameter p) hp

end Substitute

/-! ## Boxed arguments -/

mutual

/-- The type with boxes in place of all primitive values among its arguments. -/
def boxed : TypeExpr → TypeExpr
  | ⟨base, arguments, arrays, wildcard⟩ => ⟨base, boxedList arguments, arrays, wildcard⟩

def boxedList : List TypeExpr → List TypeExpr
  | [] => []
  | t :: ts => Bindings.boxArgument (boxed t) :: boxedList ts

end

end TypeExpr

namespace Bindings

open TypeExpr

section Boxed

variable {t a : TypeExpr}

theorem boxed_eq (t : TypeExpr) :
    t.boxed = { t with arguments := t.arguments.map fun a => boxArgument a.boxed } := by
  obtain ⟨base, arguments, arrays, wildcard⟩ := t
  rw [boxed]
  congr 1
  induction arguments with
  | nil => rfl
  | cons a arguments ih => rw [boxedList, ih, List.map_cons]

theorem boxArgument_of_not_isPrimitive (h : t.isPrimitive = false) : boxArgument t = t := by
  unfold boxArgument
  split
  · rename_i p hp
    have harrays : t.arrays ≠ 0 := by simpa [isPrimitive, hp] using h
    rw [if_neg harrays]
  · rfl

theorem isPrimitive_boxArgument (t : TypeExpr) : (boxArgument t).isPrimitive = false := by
  unfold boxArgument
  split
  · rename_i p hp
    split
    · rfl
    · rename_i harrays
      simp [isPrimitive, harrays]
  · rename_i hp
    simp [isPrimitive, hp]

theorem boxed_boxArgument (h : t.boxed = t) : (boxArgument t).boxed = boxArgument t := by
  unfold boxArgument
  split
  · split
    · rfl
    · exact h
  · exact h

theorem boxed_boxed (t : TypeExpr) : t.boxed.boxed = t.boxed := by
  induction t using induct with
  | step t ih =>
    rw [boxed_eq t, boxed_eq]
    simp only [List.map_map]
    congr 1
    refine List.map_congr_left fun a ha => ?_
    rw [Function.comp_apply, boxed_boxArgument (ih a ha)]
    exact boxArgument_of_not_isPrimitive (isPrimitive_boxArgument _)

theorem boxed_replace (t a : TypeExpr) : (replace t a).boxed = replace t a.boxed := by
  rw [boxed_eq, boxed_eq a]
  rfl

/-- Without primitive values among its arguments a type has nothing to box. -/
theorem boxed_of_inner (h : ∀ o ∈ t.inner, o.isPrimitive = false) : t.boxed = t := by
  induction t using induct with
  | step t ih =>
    have hself : ∀ a ∈ t.arguments, boxArgument a.boxed = a := by
      intro a ha
      rw [ih a ha fun o ho => h o (inner_of_argument ha ho)]
      exact boxArgument_of_not_isPrimitive (h a (argument_mem_inner ha))
    rw [boxed_eq, List.map_congr_left hself, List.map_id']
    cases t
    rfl

theorem argument_of_boxed (ht : t.boxed = t) (ha : a ∈ t.arguments) :
    a.boxed = a ∧ a.isPrimitive = false := by
  rw [boxed_eq] at ht
  have harguments : t.arguments.map (fun a => boxArgument a.boxed) = t.arguments.map id :=
    (congrArg TypeExpr.arguments ht).trans (List.map_id _).symm
  have hself : boxArgument a.boxed = a := List.map_inj_left.mp harguments a ha
  have hprimitive : a.isPrimitive = false := by
    rw [← hself]
    exact isPrimitive_boxArgument a.boxed
  have hsame : a.boxed.isPrimitive = a.isPrimitive := by
    rw [boxed_eq]
    rfl
  refine ⟨?_, hprimitive⟩
  rwa [boxArgument_of_not_isPrimitive (hsame.trans hprimitive)] at hself

/-- An array of primitives stays one, unless the sum of the dimensions wraps around to zero. -/
theorem isPrimitive_replace (hfit : t.arrays.toNat + a.arrays.toNat < UInt64.size)
    (h : a.isPrimitive = false) : (replace t a).isPrimitive = false := by
  simp only [isPrimitive, Bool.and_eq_false_iff, decide_eq_false_iff_not] at h ⊢
  rcases h with h | h
  · refine Or.inl fun hzero => h ?_
    have hsum : (a.arrays + t.arrays).toNat = t.arrays.toNat + a.arrays.toNat := by
      rw [UInt64.add_comm, UInt64.toNat_add]
      exact Nat.mod_eq_of_lt hfit
    have hzero : (a.arrays + t.arrays).toNat = 0 := congrArg UInt64.toNat hzero
    exact UInt64.toNat.inj (show a.arrays.toNat = 0 by omega)
  · exact Or.inr h

/-- A substitution by types without primitive values boxes nothing new. -/
theorem boxed_substitute {σ : TypeParameter → Option TypeExpr} (hfit : t.DimensionsFit σ)
    (hσ : ∀ p bound, σ p = some bound → bound.boxed = bound ∧ bound.isPrimitive = false)
    (ht : ∀ o ∈ t.inner, o.isPrimitive = false) : (t.substitute σ).boxed = t.substitute σ := by
  have hbound : ∀ base bound, boundIn σ base = some bound →
      bound.boxed = bound ∧ bound.isPrimitive = false := by
    intro base bound hbase
    obtain ⟨p, -, hp⟩ := exists_of_boundIn hbase
    exact hσ p bound hp
  induction t using induct with
  | step t ih =>
    cases hself : boundIn σ t.base with
    | some bound =>
      rw [substitute_of_some hself, boxed_replace, (hbound _ bound hself).1]
    | none =>
      rw [substitute_of_none hself, boxed_eq]
      simp only [List.map_map]
      congr 1
      refine List.map_congr_left fun a ha => ?_
      rw [Function.comp_apply, ih a ha (fun o ho => hfit o (occurrence_of_argument ha ho))
        fun o ho => ht o (inner_of_argument ha ho)]
      refine boxArgument_of_not_isPrimitive ?_
      cases hargument : boundIn σ a.base with
      | some bound =>
        rw [substitute_of_some hargument]
        exact isPrimitive_replace (hfit a (occurrence_of_argument ha a.self_mem_occurrences) bound
          hargument) (hbound _ bound hargument).2
      | none =>
        rw [substitute_of_none hargument]
        exact ht a (argument_mem_inner ha)

/-- Boxing a substitution in a type with bare parameters leads to another substitution exactly if
the two agree on these, where what is put in needs no boxes inside and is not itself boxed by
chance. -/
theorem boxed_substitute_eq_iff {σ τ : TypeParameter → Option TypeExpr}
    (hbare : ∀ o ∈ t.occurrences, ∀ p ∈ o.parameter?, o = parameter p)
    (hplain : ∀ o ∈ t.inner, o.isPrimitive = false)
    (hσ : ∀ p, parameter p ∈ t.occurrences →
      ((σ p).getD (parameter p)).boxed = (σ p).getD (parameter p))
    (hbox : ∀ p, parameter p ∈ t.occurrences →
      (boxArgument ((σ p).getD (parameter p)) = (τ p).getD (parameter p) ↔
        (σ p).getD (parameter p) = (τ p).getD (parameter p))) :
    (t.substitute σ).boxed = t.substitute τ ↔
      ∀ p, parameter p ∈ t.occurrences →
        (σ p).getD (parameter p) = (τ p).getD (parameter p) := by
  induction t using induct with
  | step t ih =>
    cases hparameter : t.parameter? with
    | some p =>
      obtain rfl := hbare t t.self_mem_occurrences p hparameter
      have hsingle : (parameter p).occurrences = [parameter p] := rfl
      rw [substitute_parameter, substitute_parameter, hσ p (self_mem_occurrences _), hsingle]
      refine ⟨fun heq q hq => ?_, fun heq => heq p List.mem_cons_self⟩
      cases List.mem_singleton.mp hq
      exact heq
    | none =>
      have hargument a (ha : a ∈ t.arguments) := ih a ha
        (fun o ho => hbare o (occurrence_of_argument ha ho))
        (fun o ho => hplain o (inner_of_argument ha ho))
        (fun p hp => hσ p (occurrence_of_argument ha hp))
        (fun p hp => hbox p (occurrence_of_argument ha hp))
      -- an argument is boxed once more than the type itself, which matters for a parameter only
      have hboxed a (ha : a ∈ t.arguments) : boxArgument (a.substitute σ).boxed = a.substitute τ ↔
          (a.substitute σ).boxed = a.substitute τ := by
        have hself := occurrence_of_argument ha a.self_mem_occurrences
        cases hp : a.parameter? with
        | some p =>
          obtain rfl := hbare a hself p hp
          rw [substitute_parameter, substitute_parameter, hσ p hself]
          exact hbox p hself
        | none =>
          rw [boxArgument_of_not_isPrimitive]
          rw [substitute_of_none (boundIn_eq_none σ hp), boxed_eq]
          exact hplain a (argument_mem_inner ha)
      rw [substitute_of_none (boundIn_eq_none σ hparameter),
        substitute_of_none (boundIn_eq_none τ hparameter), boxed_eq, TypeExpr.mk.injEq]
      simp only [List.map_map, true_and, and_true, List.map_inj_left, Function.comp_apply]
      constructor
      · intro heq p hp
        rw [occurrences_eq, List.mem_cons] at hp
        rcases hp with rfl | hp
        · cases hparameter
        · obtain ⟨a, ha, hp⟩ := mem_inner.mp hp
          exact (hargument a ha).mp ((hboxed a ha).mp (heq a ha)) p hp
      · exact fun heq a ha => (hboxed a ha).mpr
          ((hargument a ha).mpr fun p hp => heq p (occurrence_of_argument ha hp))

end Boxed

/-! ## Resolution -/

section Resolution

variable {b : Bindings}

theorem replace_replace (t a c : TypeExpr) : replace (replace t a) c = replace t (replace a c) := by
  simp only [replace, TypeExpr.mk.injEq, true_and]
  refine ⟨(UInt64.add_assoc ..).symm, ?_⟩
  by_cases ht : t.wildcard = .plain <;> simp [ht]

/-- Markers stay with what comes of a type. -/
theorem follow_replace (blocked : List TypeParameter) (t a : TypeExpr) :
    b.follow blocked (replace t a) =
      (replace t (b.follow blocked a).1, (b.follow blocked a).2) := by
  fun_induction b.follow blocked a with
  | case1 blocked a p hbase hp =>
    rw [follow]
    simp [replace, hbase, hp]
  | case2 blocked a p hbase hp hfind =>
    rw [follow]
    simp only [replace, hbase, hp, ↓reduceDIte]
    split
    · rfl
    · simp_all
  | case3 blocked a p hbase hp bound hfind heq =>
    rw [follow]
    simp only [replace, hbase, hp, ↓reduceDIte]
    split
    · rfl
    · simp_all
  | case4 blocked a p hbase hp bound hfind hne ih =>
    have hbase' : (replace t a).base = .parameter p := hbase
    rw [follow_of_find? hbase' hp hfind hne, replace_replace, ih]
  | case5 blocked a hbase =>
    rw [follow]
    split
    · rename_i p hp
      exact absurd hp (hbase p)
    · rfl

theorem translate_eq (b : Bindings) (blocked : List TypeParameter) (t : TypeExpr) :
    b.translate blocked t =
      { (b.follow blocked t).1 with
        arguments := (b.follow blocked t).1.arguments.map fun a =>
          boxArgument (b.translate (b.follow blocked t).2 a) } := by
  rw [translate]
  simp only [List.map_attach_eq_pmap, List.pmap_eq_map]

theorem translate_replace (blocked : List TypeParameter) (t a : TypeExpr) :
    b.translate blocked (replace t a) = replace t (b.translate blocked a) := by
  rw [translate_eq, translate_eq b blocked a, follow_replace]
  rfl

theorem translate_of_find? {blocked : List TypeParameter} {t bound : TypeExpr} {p : TypeParameter}
    (ht : t.base = .parameter p) (hp : p ∉ blocked) (hbound : b.find? p = some bound)
    (hne : bound.base ≠ .parameter p) :
    b.translate blocked t = replace t (b.translate (p :: blocked) bound) := by
  rw [← translate_replace, translate_eq, translate_eq b (p :: blocked),
    follow_of_find? ht hp hbound (by rwa [ht])]

/-- The parameter is not replaced: it is blocked, has no binding or stands for itself. -/
def Stops (b : Bindings) (blocked : List TypeParameter) : Base → Prop
  | .parameter p => p ∈ blocked ∨ ∀ bound ∈ b.find? p, bound.base = .parameter p
  | _ => True

instance (b : Bindings) (blocked : List TypeParameter) : (base : Base) →
    Decidable (b.Stops blocked base)
  | .parameter p => inferInstanceAs
      (Decidable (p ∈ blocked ∨ ∀ bound ∈ b.find? p, bound.base = .parameter p))
  | .nominal _ | .primitive _ | .null | .wildcard => inferInstanceAs (Decidable True)

theorem follow_of_stops {blocked : List TypeParameter} {t : TypeExpr}
    (ht : b.Stops blocked t.base) : b.follow blocked t = (t, blocked) := by
  rw [follow]
  split
  · rename_i p hp
    rw [hp] at ht
    split
    · rfl
    · rename_i hblocked
      split
      · rfl
      · rename_i bound hbound
        rw [if_pos ((ht.resolve_left hblocked bound hbound).trans hp.symm)]
  · rfl

/-- Bindings that replace no parameter in a type only box its arguments. -/
theorem translate_of_stops {blocked : List TypeParameter} {t : TypeExpr}
    (ht : ∀ o ∈ t.occurrences, b.Stops blocked o.base) : b.translate blocked t = t.boxed := by
  induction t using induct with
  | step t ih =>
    rw [translate_eq, follow_of_stops (ht t t.self_mem_occurrences), boxed_eq]
    dsimp only
    congr 1
    refine List.map_congr_left fun a ha => ?_
    rw [ih a ha fun o ho => ht o (occurrence_of_argument ha ho)]

/-- No primitive value stands among the arguments of a translated type. -/
theorem boxed_translate (b : Bindings) (blocked : List TypeParameter) (t : TypeExpr) :
    (b.translate blocked t).boxed = b.translate blocked t := by
  induction blocked, t using translate.induct b with
  | case1 blocked t followed ih =>
    rw [translate_eq, boxed_eq]
    simp only [List.map_map]
    congr 1
    refine List.map_congr_left fun a ha => ?_
    rw [Function.comp_apply, boxed_boxArgument (ih a ha)]
    exact boxArgument_of_not_isPrimitive (isPrimitive_boxArgument _)

/-- What a parameter is replaced by: its binding, resolved through those of the other parameters.
One that stands for itself stays. -/
def resolved (b : Bindings) (p : TypeParameter) : Option TypeExpr :=
  (b.find? p).bind fun bound =>
    if bound.base = .parameter p then none else some (b.translate [p] bound)

/-- What a parameter comes to has no primitive values among its arguments. -/
theorem boxed_resolved (b : Bindings) (p : TypeParameter) :
    ((b.resolved p).getD (parameter p)).boxed = (b.resolved p).getD (parameter p) := by
  unfold resolved
  cases b.find? p with
  | none => rfl
  | some bound =>
    rw [Option.bind_some]
    split
    · rfl
    · exact boxed_translate b [p] bound

theorem resolved_of_find? {p : TypeParameter} {bound : TypeExpr} (hbound : b.find? p = some bound)
    (hne : bound.base ≠ .parameter p) : b.resolved p = some (b.translate [p] bound) := by
  rw [resolved, hbound, Option.bind_some, if_neg hne]

/-- Bindings act as the substitution of what each parameter comes to. -/
theorem translate_nil (b : Bindings) (t : TypeExpr) :
    b.translate [] t = (t.substitute b.resolved).boxed := by
  induction t using induct with
  | step t ih =>
    have hstay (hstops : b.Stops [] t.base) (hnone : boundIn b.resolved t.base = none) :
        b.translate [] t = (t.substitute b.resolved).boxed := by
      rw [translate_eq, follow_of_stops hstops, substitute_of_none hnone, boxed_eq]
      simp only [List.map_map]
      congr 1
      refine List.map_congr_left fun a ha => ?_
      rw [Function.comp_apply, ih a ha]
    cases hbase : t.base with
    | parameter p =>
      cases hbound : b.find? p with
      | none =>
        refine hstay ?_ ?_
        · rw [hbase]
          exact Or.inr (by simp [hbound])
        · simp [hbase, boundIn, resolved, hbound]
      | some bound =>
        by_cases hself : bound.base = .parameter p
        · refine hstay ?_ ?_
          · rw [hbase]
            exact Or.inr (by simp [hbound, hself])
          · simp [hbase, boundIn, resolved, hbound, hself]
        · have hresolved : boundIn b.resolved t.base = some (b.translate [p] bound) := by
            rw [hbase]
            exact resolved_of_find? hbound hself
          rw [translate_of_find? hbase List.not_mem_nil hbound hself,
            substitute_of_some hresolved, boxed_replace, boxed_translate]
    | nominal | primitive | null | wildcard =>
      exact hstay (by simp [hbase, Stops]) (by simp [hbase, boundIn])

/-- What a parameter comes to is boxed as an argument only if that changes it from what stands for
the parameter. -/
theorem boxArgument_resolved_iff {p : TypeParameter} {a : TypeExpr} (ha : b.find? p = some a)
    (hprimitive : a.isPrimitive = false) :
    boxArgument ((b.resolved p).getD (parameter p)) = a ↔
      (b.resolved p).getD (parameter p) = a := by
  cases hx : ((b.resolved p).getD (parameter p)).isPrimitive with
  | false => rw [boxArgument_of_not_isPrimitive hx]
  | true =>
    -- only a parameter can come to a primitive value, and no parameter is a box
    cases hparameter : a.parameter? with
    | none =>
      have hne : a.base ≠ .parameter p := fun hp => by simp [parameter?, hp] at hparameter
      rw [resolved_of_find? ha hne, Option.getD_some, translate_eq,
        follow_of_parameter?_eq_none hparameter] at hx
      cases hprimitive.symm.trans hx
    | some q =>
      refine iff_of_false (fun heq => ?_) fun heq => ?_
      · obtain ⟨hzero, hsome⟩ := Bool.and_eq_true_iff.mp hx
        obtain ⟨v, hv⟩ := Option.isSome_iff_exists.mp hsome
        simp only [boxArgument, hv, of_decide_eq_true hzero, ↓reduceIte] at heq
        rw [← heq] at hparameter
        cases hparameter
      · rw [heq, hprimitive] at hx
        cases hx

/-- The bindings leave the argument of a parameter as it is: it is the parameter itself, or another
type to which the bindings of the other parameters do nothing. -/
def Keeps (b : Bindings) (p : TypeParameter) (a : TypeExpr) : Prop :=
  a = parameter p ∨ a.base ≠ .parameter p ∧ b.translate [p] a = a

/-- No parameter in the argument, but the one it is for, stands for anything but itself. -/
def Settled (b : Bindings) (p : TypeParameter) (a : TypeExpr) : Prop :=
  a = parameter p ∨ a.base ≠ .parameter p ∧ ∀ o ∈ a.occurrences, b.Stops [p] o.base

theorem Settled.keeps {p : TypeParameter} {a : TypeExpr} (ha : b.Settled p a)
    (hboxed : a.boxed = a) : b.Keeps p a :=
  ha.imp_right fun ⟨hbase, hstops⟩ => ⟨hbase, (translate_of_stops hstops).trans hboxed⟩

theorem resolved_getD_eq_iff {p : TypeParameter} {a : TypeExpr} (ha : b.find? p = some a) :
    (b.resolved p).getD (parameter p) = a ↔ b.Keeps p a := by
  unfold resolved Keeps
  rw [ha, Option.bind_some]
  split
  · rename_i hbase
    simp only [Option.getD_none, hbase, ne_eq, not_true_eq_false, false_and, or_false]
    exact eq_comm
  · rename_i hbase
    have hne : a ≠ parameter p := fun heq => hbase (by rw [heq]; rfl)
    simp only [Option.getD_some, hne, ne_eq, hbase, not_false_eq_true, true_and, false_or]

theorem find?_bindNew (b : Bindings) (p q : TypeParameter) (t : TypeExpr) :
    (b.bindNew q t).find? p = (b.find? p).or (if p = q then some t else none) := by
  unfold bindNew
  split
  · rename_i hq
    by_cases hpq : p = q
    · obtain ⟨bound, hbound⟩ := Option.isSome_iff_exists.mp hq
      rw [hpq, hbound, Option.some_or]
    · rw [if_neg hpq, Option.or_none]
  · simp only [find?, List.lookup_append]
    by_cases hpq : p = q
    · simp [hpq]
    · have hne : (p == q) = false := by simp [hpq]
      simp [hpq, List.lookup_cons, hne]

end Resolution

end Bindings

/-! ## Arguments of a declaration -/

namespace Declaration

/-- What stands for a formal parameter where the declaration is used with these arguments. -/
def actuals (d : Declaration) (arguments : List TypeExpr) (p : TypeParameter) : Option TypeExpr :=
  (d.parameters.zip arguments).lookup p

theorem owner_of_mem_parameters {d : Declaration} {p : TypeParameter} (hp : p ∈ d.parameters) :
    p.owner = some (.type d.name) := by
  obtain ⟨i, hi, rfl⟩ := List.mem_mapIdx.mp hp
  rfl

theorem length_parameters (d : Declaration) : d.parameters.length = d.formals.length := by
  simp [parameters]

theorem mem_of_actuals {d : Declaration} {arguments : List TypeExpr} {p : TypeParameter}
    {a : TypeExpr} (ha : d.actuals arguments p = some a) : p ∈ d.parameters ∧ a ∈ arguments := by
  obtain ⟨before, after, happ, -⟩ := List.lookup_eq_some_iff.mp ha
  exact List.of_mem_zip (by rw [happ]; simp)

theorem exists_actuals {d : Declaration} {arguments : List TypeExpr}
    (hlength : arguments.length = d.formals.length) {p : TypeParameter} (hp : p ∈ d.parameters) :
    ∃ a, d.actuals arguments p = some a := by
  refine Option.ne_none_iff_exists'.mp fun hnone => ?_
  rw [actuals, List.lookup_eq_none_iff] at hnone
  obtain ⟨i, hi, rfl⟩ := List.mem_iff_getElem.mp hp
  have hi' : i < arguments.length := by rwa [hlength, ← d.length_parameters]
  have hmem : (d.parameters[i], arguments[i]) ∈ d.parameters.zip arguments :=
    List.mem_iff_getElem.mpr ⟨i, by simp; omega, by simp⟩
  simpa using hnone _ hmem

end Declaration

namespace Hierarchy

open TypeExpr

variable {h : Hierarchy} {own : String}

/-- The parameters of a visited type are bound by its own arguments only, the first ones first. -/
theorem find?_collectArguments {arguments : List TypeExpr}
    (ih : ∀ a ∈ arguments, ∀ known c, own ∈ known.visited → h.collect a known = .ok c →
      own ∈ c.visited ∧ ∀ p, p.owner = some (.type own) →
        c.bindings.find? p = known.bindings.find? p)
    (ps : List TypeParameter) {known c : Collected} (hvisited : own ∈ known.visited)
    (hc : h.collectArguments arguments ps known = .ok c) :
    own ∈ c.visited ∧ ∀ p, p.owner = some (.type own) →
      c.bindings.find? p = (known.bindings.find? p).or ((ps.zip arguments).lookup p) := by
  induction arguments generalizing ps known with
  | nil =>
    rcases collectArguments_eq_ok hc with ⟨-, rfl⟩ | ⟨a, rest, p, qs, first, harg, -⟩
    · exact ⟨hvisited, fun p _ => by simp⟩
    · cases harg
  | cons a arguments ihList =>
    rcases collectArguments_eq_ok hc with ⟨hzip, rfl⟩ |
      ⟨_, _, q, qs, first, ⟨⟩, rfl, hfirst, hrest⟩
    · exact ⟨hvisited, fun p _ => by simp [hzip]⟩
    · obtain ⟨hvisited', hkept⟩ := ih a List.mem_cons_self
        ⟨known.bindings.bindNew q a, known.visited⟩ first hvisited hfirst
      obtain ⟨hlast, hfound⟩ :=
        ihList (fun x hx => ih x (List.mem_cons_of_mem a hx)) qs hvisited' hrest
      refine ⟨hlast, fun p hp => ?_⟩
      rw [hfound p hp, hkept p hp, Bindings.find?_bindNew, List.zip_cons_cons, List.lookup_cons,
        Option.or_assoc]
      by_cases hpq : p = q
      · simp [hpq]
      · have hne : (p == q) = false := by simp [hpq]
        simp [hpq, hne]

theorem find?_collect {t : TypeExpr} {known c : Collected} (hvisited : own ∈ known.visited)
    (hc : h.collect t known = .ok c) :
    own ∈ c.visited ∧ ∀ p, p.owner = some (.type own) →
      c.bindings.find? p = known.bindings.find? p := by
  induction t using TypeExpr.induct generalizing known c with
  | step t ih =>
    rcases collect_eq_ok hc with rfl | ⟨name, d, -, hname, hd, rfl | ⟨-, harguments⟩⟩
    · exact ⟨hvisited, fun _ _ => rfl⟩
    · exact ⟨List.mem_cons_of_mem name hvisited, fun _ _ => rfl⟩
    · obtain ⟨hlast, hfound⟩ := find?_collectArguments (fun a ha known c => ih a ha) d.parameters
        (List.mem_cons_of_mem name hvisited) harguments
      refine ⟨hlast, fun p hp => ?_⟩
      -- a formal parameter of another type than the visited one
      have hnone : (d.parameters.zip t.arguments).lookup p = none := by
        refine List.lookup_eq_none_iff.mpr fun entry hentry => ?_
        have howner := Declaration.owner_of_mem_parameters (List.of_mem_zip hentry).1
        have hne : p ≠ entry.1 := by
          rintro rfl
          rw [hp, name_of_find? hd] at howner
          cases howner
          exact hname hvisited
        simpa using hne
      rw [hfound p hp, hnone, Option.or_none]

/-- A declared type as seen from a use of its declaration: raw, or with the bindings applied. -/
theorem directSupertype_eq {sub : TypeExpr} {d : Declaration} (hd : h.find? own = some d)
    (hsub : sub.base = .nominal own) (declared : TypeExpr) :
    h.directSupertype sub declared =
      if sub.arguments = [] ∧ d.formals ≠ [] then .ok declared.erased
      else (h.argumentBindings sub).map (·.apply declared) := by
  have hrequire : h.require own = .ok d := by simp [require, hd]
  simp only [directSupertype, hsub, hrequire, bind, Except.bind, Bool.and_eq_true, List.isEmpty_iff,
    Bool.not_eq_true', List.isEmpty_eq_false_iff]
  split
  · rfl
  · cases h.argumentBindings sub <;> rfl

section Use

variable {name : String} {d : Declaration} {sub : TypeExpr} (hd : h.find? name = some d)
  (hsub : sub.base = .nominal name) (hformals : d.formals ≠ [])
  (harity : sub.arguments.length = d.formals.length)

include hd hsub hformals harity

/-- A use of a declaration binds its formal parameters to the arguments, whatever else is bound. -/
theorem find?_argumentBindings {b : Bindings} (hb : h.argumentBindings sub = .ok b)
    {p : TypeParameter} (hp : p ∈ d.parameters) : b.find? p = d.actuals sub.arguments p := by
  obtain ⟨c, hc, rfl⟩ := argumentBindings_eq_ok hb
  obtain ⟨base, arguments, arrays, wildcard⟩ := sub
  cases hsub
  have hnonempty : arguments.isEmpty = false := by
    rw [List.isEmpty_eq_false_iff, ← List.length_pos_iff, harity]
    exact List.length_pos_iff.mpr hformals
  have hrequire : h.require name = .ok d := by simp [require, hd]
  rw [collect, hrequire] at hc
  simp only [hnonempty, List.contains_nil, Bool.or_self, Bool.false_eq_true, ↓reduceIte,
    harity.symm] at hc
  obtain ⟨-, hfound⟩ := find?_collectArguments (fun a _ _ _ => find?_collect) d.parameters
    (List.mem_cons_self (a := name)) hc
  rw [hfound p (name_of_find? hd ▸ Declaration.owner_of_mem_parameters hp)]
  rfl

/-- Seen from a use with all arguments, a type has these put in as they are resolved. -/
theorem directSupertype_of_arguments (declared : TypeExpr) :
    h.directSupertype sub declared =
      (h.argumentBindings sub).map fun b => (declared.substitute b.resolved).boxed := by
  have harguments : sub.arguments ≠ [] := by
    rw [← List.length_pos_iff, harity]
    exact List.length_pos_iff.mpr hformals
  rw [directSupertype_eq hd hsub, if_neg fun hraw => harguments hraw.1]
  cases hb : h.argumentBindings sub with
  | error fault => rfl
  | ok b =>
    refine congrArg Except.ok ?_
    have hentries : b.entries ≠ [] := by
      intro hnil
      have hpos : d.parameters ≠ [] := by
        rw [← List.length_pos_iff, d.length_parameters]
        exact List.length_pos_iff.mpr hformals
      obtain ⟨p, hp⟩ := List.exists_mem_of_ne_nil _ hpos
      obtain ⟨a, ha⟩ := Declaration.exists_actuals harity hp
      have hfind := find?_argumentBindings hd hsub hformals harity hb hp
      simp [Bindings.find?, hnil, ha] at hfind
    simp only [Bindings.apply, List.isEmpty_iff, hentries, ↓reduceIte, Bindings.translate_nil]

end Use

/-- A declared type over the formal parameters, seen from a use of the declaration, has each formal
parameter replaced by its argument as it is resolved through the bindings of the use; one whose
argument is that parameter again stays. This is the simultaneous substitution of the arguments
exactly if the bindings leave them as they are, and so it is where each parameter that occurs in an
argument is the one that the argument is for, is not bound by the use, or is bound to itself. -/
theorem directSupertype_eq_substitute_iff {name : String} {d : Declaration}
    {sub declared u : TypeExpr} (hd : h.find? name = some d) (hsub : sub.base = .nominal name)
    (hformals : d.formals ≠ []) (harity : sub.arguments.length = d.formals.length)
    (hboxed : ∀ a ∈ sub.inner, a.isPrimitive = false)
    (hown : ∀ o ∈ declared.occurrences, ∀ p ∈ o.parameter?, p ∈ d.parameters)
    (hu : h.directSupertype sub declared = .ok u) :
    ∃ b, h.argumentBindings sub = .ok b ∧
      u = (declared.substitute fun p => (d.actuals sub.arguments p).bind fun a =>
        if a.base = .parameter p then none else some (b.translate [p] a)).boxed ∧
      ((∀ o ∈ declared.occurrences, ∀ p ∈ o.parameter?, o = .parameter p) →
        (∀ o ∈ declared.inner, o.isPrimitive = false) →
        (u = declared.substitute (d.actuals sub.arguments) ↔
          ∀ p, .parameter p ∈ declared.occurrences →
            ∀ a, d.actuals sub.arguments p = some a → b.Keeps p a)) ∧
      ∀ p a, d.actuals sub.arguments p = some a → b.Settled p a → b.Keeps p a := by
  rw [directSupertype_of_arguments hd hsub hformals harity] at hu
  cases hb : h.argumentBindings sub with
  | error fault => simp [hb, Except.map] at hu
  | ok b =>
  simp only [hb, Except.map, Except.ok.injEq] at hu
  subst hu
  have hfind p (hp : p ∈ d.parameters) : b.find? p = d.actuals sub.arguments p :=
    find?_argumentBindings hd hsub hformals harity hb hp
  refine ⟨b, rfl, ?_, fun hbare hplain => ?_, fun p a ha hsettled => hsettled.keeps ?_⟩
  · congr 1
    refine substitute_congr fun o ho => ?_
    cases hbase : o.base with
    | parameter p =>
      have hp := hown o ho p (parameter?_eq_some_iff.mpr hbase)
      simp only [boundIn, Bindings.resolved, hfind p hp]
    | nominal | primitive | null | wildcard => rfl
  · have hactual p (hp : .parameter p ∈ declared.occurrences) :
        ∃ a, d.actuals sub.arguments p = some a ∧ b.find? p = some a := by
      obtain ⟨a, ha⟩ := Declaration.exists_actuals harity (hown _ hp p rfl)
      exact ⟨a, ha, (hfind p (hown _ hp p rfl)).trans ha⟩
    rw [Bindings.boxed_substitute_eq_iff hbare hplain (fun p _ => b.boxed_resolved p)
      fun p hp => ?_]
    · refine forall₂_congr fun p hp => ?_
      obtain ⟨a, ha, hbound⟩ := hactual p hp
      simp [ha, Bindings.resolved_getD_eq_iff hbound]
    · obtain ⟨a, ha, hbound⟩ := hactual p hp
      rw [ha, Option.getD_some]
      exact Bindings.boxArgument_resolved_iff hbound
        (hboxed a (argument_mem_inner (Declaration.mem_of_actuals ha).2))
  · exact Bindings.boxed_of_inner fun o ho =>
      hboxed o (inner_of_argument (Declaration.mem_of_actuals ha).2 ho)

/-- Arguments that mention the formal parameters they are for. -/
theorem map_of_own_lists :
    let key := Platform.own "java.util.HashMap" 0 "K"
    let value := Platform.own "java.util.HashMap" 1 "V"
    let values := TypeExpr.applied "java.util.List" [value]
    let sub := TypeExpr.applied "java.util.HashMap" [key, values]
    let declared := TypeExpr.applied "java.util.Map" [key, value]
    ∃ u, Platform.hierarchy.directSupertype sub declared = .ok u ∧
      u = declared.substitute
        ((Platform.classOf "java.util.HashMap" ["K", "V"] [declared]).actuals [key, values]) ∧
      u = .applied "java.util.Map" [key, values] := by
  intro key value values sub declared
  obtain ⟨b, hb⟩ : ∃ b, Platform.hierarchy.argumentBindings sub = .ok b := ⟨_, rfl⟩
  have hu : Platform.hierarchy.directSupertype sub declared =
      .ok (declared.substitute b.resolved).boxed := by
    rw [directSupertype_of_arguments
      (d := Platform.classOf "java.util.HashMap" ["K", "V"] [declared]) rfl rfl (by decide) rfl, hb]
    rfl
  obtain ⟨b', -, -, hiff, hsettled⟩ := directSupertype_eq_substitute_iff
    (d := Platform.classOf "java.util.HashMap" ["K", "V"] [declared]) rfl (Eq.refl sub.base)
    (by decide) rfl (by decide) (by decide) hu
  have hsubstitute := (hiff (by decide) (by decide)).mpr fun p hp a ha => hsettled p a ha ?_
  · exact ⟨_, hu, hsubstitute, hsubstitute.trans (by decide)⟩
  · have hmem : p ∈ [⟨some (.type "java.util.HashMap"), 0, "K"⟩,
        ⟨some (.type "java.util.HashMap"), 1, "V"⟩] := (Declaration.mem_of_actuals ha).1
    simp only [List.mem_cons, List.not_mem_nil, or_false] at hmem
    rcases hmem with rfl | rfl
    · cases ha
      exact Or.inl rfl
    · cases ha
      refine Or.inr ⟨by decide, ?_⟩
      show ∀ o ∈ [values, value], _
      simp [values, value, applied, Platform.own, Bindings.Stops, parameter, ofBase]

/-- Formal parameters as arguments in another order, an argument that mentions the parameter of a
type within another argument, an array of the formal parameter itself, and a declared primitive
value. -/
theorem arguments_resolved_further :
    let key := Platform.own "java.util.HashMap" 0 "K"
    let value := Platform.own "java.util.HashMap" 1 "V"
    let texts := TypeExpr.applied "java.util.List" [.nominal "java.lang.String"]
    let element := Platform.own "java.util.List" 0 "E"
    let declared := TypeExpr.applied "java.util.Map" [key, value]
    let d := Platform.classOf "java.util.HashMap" ["K", "V"] [declared]
    let seen := fun arguments =>
      Platform.hierarchy.directSupertype (.applied "java.util.HashMap" arguments) declared
    let substituted := fun arguments => declared.substitute (d.actuals arguments)
    let counts := TypeExpr.applied "java.lang.Comparable" [.primitive .int]
    let tally := Platform.classOf "com.example.Tally" ["T"] [counts]
    let extended : Hierarchy := ⟨tally :: Platform.declarations, []⟩
    Platform.hierarchy.find? "java.util.HashMap" = some d ∧
      (seen [value, key] = .ok declared ∧
        substituted [value, key] = .applied "java.util.Map" [value, key]) ∧
      (seen [texts, element] =
          .ok (.applied "java.util.Map" [texts, .nominal "java.lang.String"]) ∧
        substituted [texts, element] = .applied "java.util.Map" [texts, element]) ∧
      (seen [{ key with arrays := 1 }, value] = .ok declared ∧
        substituted [{ key with arrays := 1 }, value] =
          .applied "java.util.Map" [{ key with arrays := 1 }, value]) ∧
      extended.directSupertype (.applied "com.example.Tally" [texts]) counts =
          .ok (.applied "java.lang.Comparable" [.nominal "java.lang.Integer"]) ∧
        counts.substitute (tally.actuals [texts]) = counts := by
  intro key value texts element declared d seen substituted counts tally extended
  let k : TypeParameter := ⟨some (.type "java.util.HashMap"), 0, "K"⟩
  let v : TypeParameter := ⟨some (.type "java.util.HashMap"), 1, "V"⟩
  let e : TypeParameter := ⟨some (.type "java.util.List"), 0, "E"⟩
  have hseen (x y : TypeExpr) (b : Bindings)
      (hb : Platform.hierarchy.argumentBindings (.applied "java.util.HashMap" [x, y]) = .ok b) :
      seen [x, y] = .ok (TypeExpr.applied "java.util.Map"
        [(b.resolved k).getD key, (b.resolved v).getD value]).boxed := by
    refine (directSupertype_of_arguments (d := d) rfl rfl (by decide) rfl declared).trans ?_
    rw [hb]
    refine congrArg (fun t => Except.ok (boxed t)) ?_
    rw [substitute_of_none rfl]
    simp only [declared, applied, List.map_cons, List.map_nil, key, value, Platform.own,
      substitute_parameter, k, v]
  refine ⟨rfl, ⟨?_, by decide⟩, ⟨?_, by decide⟩, ⟨?_, by decide⟩, ?_, by decide⟩
  · have hb : Platform.hierarchy.argumentBindings (.applied "java.util.HashMap" [value, key]) =
        .ok ⟨[(k, value), (v, key)]⟩ := rfl
    rw [hseen _ _ _ hb, Bindings.resolved_of_find? (p := k) rfl (by decide),
      Bindings.translate_of_find? (p := v) rfl (by decide) rfl (by decide),
      Bindings.translate_of_stops (t := key) (by decide),
      Bindings.resolved_of_find? (p := v) rfl (by decide),
      Bindings.translate_of_find? (p := k) rfl (by decide) rfl (by decide),
      Bindings.translate_of_stops (t := value) (by decide)]
    rfl
  · have hb : Platform.hierarchy.argumentBindings (.applied "java.util.HashMap" [texts, element]) =
        .ok ⟨[(k, texts), (e, .nominal "java.lang.String"), (v, element)]⟩ := rfl
    rw [hseen _ _ _ hb, Bindings.resolved_of_find? (p := k) rfl (by decide),
      Bindings.translate_of_stops (t := texts) (by decide),
      Bindings.resolved_of_find? (p := v) rfl (by decide),
      Bindings.translate_of_find? (p := e) rfl (by decide) rfl (by decide),
      Bindings.translate_of_stops (t := .nominal "java.lang.String") (by decide)]
    rfl
  · have hb : Platform.hierarchy.argumentBindings
        (.applied "java.util.HashMap" [{ key with arrays := 1 }, value]) =
        .ok ⟨[(k, { key with arrays := 1 }), (v, value)]⟩ := rfl
    rw [hseen _ _ _ hb]
    rfl
  · exact (directSupertype_of_arguments (d := tally) rfl rfl (by decide) rfl counts).trans rfl

end Hierarchy

end Mutability
