import Mutability.Types.Hierarchy

/-!
# Bindings of type parameters

Bindings say what type parameters stand for. `apply` replaces parameters in a type, and goes on
in what it put in, until no parameter is left to replace. A parameter is not replaced again while
the arguments of its own replacement are worked on, so every set of bindings can be applied,
also one that is cyclic.
-/

namespace Mutability

structure Bindings where
  entries : List (TypeParameter × TypeExpr)
  deriving DecidableEq, Repr

namespace Bindings

def empty : Bindings := ⟨[]⟩

def find? (b : Bindings) (p : TypeParameter) : Option TypeExpr := b.entries.lookup p

/-- Binds a parameter that has no binding yet. -/
def bindNew (b : Bindings) (p : TypeParameter) (t : TypeExpr) : Bindings :=
  if (b.find? p).isSome then b else ⟨b.entries ++ [(p, t)]⟩

/-- Binds a parameter in place of an earlier binding. -/
def bind (b : Bindings) (p : TypeParameter) (t : TypeExpr) : Bindings :=
  ⟨(p, t) :: b.entries.filter (·.1 ≠ p)⟩

/-- Adds the bindings of parameters that have none yet. -/
def merge (b other : Bindings) : Bindings :=
  other.entries.foldl (fun merged entry => merged.bindNew entry.1 entry.2) b

/-- The entries in the order of parameters. -/
def sorted (b : Bindings) : List (TypeParameter × TypeExpr) :=
  b.entries.mergeSort fun x y => (x.1.compare y.1).isLE

/-! ## Replacement -/

/-- The type put in place of a parameter: array dimensions add up, as words do, and a wildcard on
the parameter stays. -/
def replace (occurrence bound : TypeExpr) : TypeExpr :=
  { bound with
    arrays := bound.arrays + occurrence.arrays
    wildcard := if occurrence.wildcard = .plain then bound.wildcard else occurrence.wildcard }

/-- The number of bindings whose parameter may still be replaced. -/
def free (b : Bindings) (blocked : List TypeParameter) : Nat :=
  (b.entries.filter (·.1 ∉ blocked)).length

theorem free_cons_lt {b : Bindings} {blocked : List TypeParameter} {p : TypeParameter}
    {t : TypeExpr} (hp : p ∉ blocked) (ht : b.find? p = some t) :
    b.free (p :: blocked) < b.free blocked := by
  unfold find? at ht
  unfold free
  generalize b.entries = entries at ht
  have hle : ∀ es : List (TypeParameter × TypeExpr),
      (es.filter (·.1 ∉ p :: blocked)).length ≤ (es.filter (·.1 ∉ blocked)).length := by
    intro es
    rw [← List.countP_eq_length_filter, ← List.countP_eq_length_filter]
    exact List.countP_mono_left (by simp)
  induction entries with
  | nil => simp at ht
  | cons entry es ih =>
    obtain ⟨q, u⟩ := entry
    by_cases hq : p = q
    · subst hq
      have := hle es
      simp only [List.filter_cons, List.mem_cons, true_or, not_true_eq_false, decide_false,
        Bool.false_eq_true, ↓reduceIte, hp, not_false_eq_true, decide_true, List.length_cons]
      simp only [List.mem_cons] at this
      omega
    · have hne : (p == q) = false := by simp [hq]
      simp only [List.lookup_cons, hne] at ht
      have := ih ht
      by_cases hb : q ∈ blocked
      · simpa [List.filter_cons, hb] using this
      · have hqp : ¬ q = p := fun h => hq h.symm
        simpa [List.filter_cons, hb, hqp] using this

/-- Follows the bindings from a type that is a parameter until it is none, or one that may not be
replaced or stands for itself. The parameters replaced on the way are blocked in the result. -/
def follow (b : Bindings) (blocked : List TypeParameter) (t : TypeExpr) :
    TypeExpr × List TypeParameter :=
  match t.base with
  | .parameter p =>
    if _hp : p ∈ blocked then (t, blocked)
    else
      match _ht : b.find? p with
      | none => (t, blocked)
      | some bound =>
        if bound.base = t.base then (t, blocked)
        else b.follow (p :: blocked) (replace t bound)
  | _ => (t, blocked)
termination_by b.free blocked
decreasing_by exact free_cons_lt _hp _ht

/-- Following either changes nothing or blocks one more binding. -/
theorem follow_cases (b : Bindings) (blocked : List TypeParameter) (t : TypeExpr) :
    b.follow blocked t = (t, blocked) ∨ b.free (b.follow blocked t).2 < b.free blocked := by
  fun_induction b.follow blocked t with
  | case1 => exact Or.inl rfl
  | case2 => exact Or.inl rfl
  | case3 => exact Or.inl rfl
  | case4 blocked t p hbase hp bound hfind hne ih =>
    have hlt := free_cons_lt hp hfind
    rcases ih with h | h
    · rw [h]
      exact Or.inr hlt
    · exact Or.inr (Nat.lt_trans h hlt)
  | case5 => exact Or.inl rfl

theorem follow_of_parameter?_eq_none {b : Bindings} {t : TypeExpr} (ht : t.parameter? = none)
    (blocked : List TypeParameter) : b.follow blocked t = (t, blocked) := by
  rw [follow]
  split
  · rename_i p hp
    simp [TypeExpr.parameter?, hp] at ht
  · rfl

theorem follow_of_find? {b : Bindings} {blocked : List TypeParameter} {t bound : TypeExpr}
    {p : TypeParameter} (ht : t.base = .parameter p) (hp : p ∉ blocked)
    (hbound : b.find? p = some bound) (hne : bound.base ≠ t.base) :
    b.follow blocked t = b.follow (p :: blocked) (replace t bound) := by
  rw [follow]
  split
  · rename_i p' hp'
    cases ht.symm.trans hp'
    rw [dif_neg hp]
    split
    · simp_all
    · simp_all
  · simp_all

/-- A primitive value becomes its box where it stands as a type argument. -/
def boxArgument (t : TypeExpr) : TypeExpr :=
  match t.primitive? with
  | some p => if t.arrays = 0 then { TypeExpr.nominal p.boxName with wildcard := t.wildcard } else t
  | none => t

/-- Replaces parameters in a type, except the blocked ones. -/
def translate (b : Bindings) (blocked : List TypeParameter) (t : TypeExpr) : TypeExpr :=
  let followed := b.follow blocked t
  { followed.1 with
    arguments := followed.1.arguments.attach.map fun ⟨argument, _⟩ =>
      boxArgument (b.translate followed.2 argument) }
termination_by (b.free blocked, sizeOf t)
decreasing_by
  rename_i hmem
  replace hmem : argument ∈ (b.follow blocked t).1.arguments := hmem
  rcases b.follow_cases blocked t with h | h
  · rw [h]
    apply Prod.Lex.right
    rw [h] at hmem
    have := List.sizeOf_lt_of_mem hmem
    cases t
    simp only [TypeExpr.mk.sizeOf_spec] at this ⊢
    omega
  · exact Prod.Lex.left _ _ h

/-- Replaces parameters until none is left to replace. Without bindings a type stays as it is,
also with primitives among its arguments. -/
def apply (b : Bindings) (t : TypeExpr) : TypeExpr :=
  if b.entries.isEmpty then t else b.translate [] t

end Bindings

/-! ## Bindings of a type's own arguments -/

namespace Hierarchy

/-- Bindings collected so far, and the names whose arguments are already taken. -/
structure Collected where
  bindings : Bindings
  visited : List String

mutual

/-- Binds the formal parameters of a named type to its arguments and goes on in the arguments.
Each name is taken once, and a wrong number of arguments binds nothing. -/
def collect (h : Hierarchy) : TypeExpr → Collected → Except Unresolved Collected
  | ⟨base, arguments, _, _⟩, known =>
    match base with
    | .nominal name =>
      if arguments.isEmpty || known.visited.contains name then .ok known
      else
        match h.require name with
        | .error fault => .error fault
        | .ok d =>
          if d.formals.length = arguments.length then
            collectArguments h arguments d.parameters ⟨known.bindings, name :: known.visited⟩
          else .ok ⟨known.bindings, name :: known.visited⟩
    | _ => .ok known

def collectArguments (h : Hierarchy) :
    List TypeExpr → List TypeParameter → Collected → Except Unresolved Collected
  | argument :: arguments, p :: ps, known =>
    match collect h argument ⟨known.bindings.bindNew p argument, known.visited⟩ with
    | .error fault => .error fault
    | .ok known => collectArguments h arguments ps known
  | _, _, known => .ok known

end

/-- What the formal parameters of a type's declaration stand for in the type. -/
def argumentBindings (h : Hierarchy) (t : TypeExpr) : Except Unresolved Bindings :=
  (h.collect t ⟨.empty, []⟩).map (·.bindings)

end Hierarchy

end Mutability
